import DaScript.Daslib.RegexNul

/-!
# Daslib/RegexGen — strings generated from a pattern

`re_gen` and the `re_gen2_…` functions of `daslib/regex.das`.  A node writes its part and goes on
through its `next`, as in matching; but a group does so after its body has, and the body's `next` is
the group's own.

So what is generated is in the language of the pattern if nothing is behind a group.
-/

namespace DaScript.Regex

open Searching Text

/-! ## Generators -/

/-- What `next(rnd, x)` is going to give; an iterator that is done leaves the zero in `x`. -/
abbrev Random := ℕ → UInt32

/-- A generator: what it writes and what is left of the random numbers; `none` is an exception. -/
abbrev Gen := Random → Option (List UInt8 × Random)

namespace Gen

def emit (text : List UInt8) : Gen := fun rnd => some (text, rnd)

def draw (f : UInt32 → Gen) : Gen := fun rnd => f (rnd 0) fun i => rnd (i + 1)

def andThen (f g : Gen) : Gen := fun rnd =>
  (f rnd).bind fun (text, rnd) => (g rnd).map fun (text', rnd) => (text ++ text', rnd)

/-- `if (node2 != null) { invoke(node2.gen2, node2, rnd, str) }` -/
def follow (next : Option Gen) : Gen := next.getD (emit [])

/-- `for (_i in urange(cnt)) { invoke(nsub.gen2, nsub, rnd, str) }` -/
def times : ℕ → Gen → Gen
  | 0, _ => emit []
  | cnt + 1, nsub => nsub.andThen (times cnt nsub)

end Gen

open Gen

/-! ## The nodes -/

def reGenRepLimit : ℕ := 8

/-- The bytes of a set, in order: `set_total` counts them, and `set_element` picks one. -/
def setElements (cset : CharSet) : List UInt8 :=
  ((List.range 256).map Nat.toUInt8).filter fun c => isCharInSet c cset

/-- `uint` of an `int`. -/
def uint (i : ℤ) : ℕ := (i % 2 ^ 32).toNat

def reGen2Char (text : List UInt8) (next : Option Gen) : Gen :=
  (emit (text.filter (· ≠ 0))).andThen (follow next)

/-- `re_gen2_set`; of an empty set the total is zero, and the remainder an exception. -/
def reGen2Set (cset : CharSet) (next : Option Gen) : Gen := draw fun idx =>
  match (setElements cset)[idx.toNat % (setElements cset).length]? with
  | some c => (emit [c]).andThen (follow next)
  | none => fun _ => none

def reGen2Any (next : Option Gen) : Gen := draw fun ch =>
  let ch := ch % 254 + 1
  (emit [(if 10 ≤ ch then ch + 1 else ch).toUInt8]).andThen (follow next)

def reGen2Union (all : List Gen) : Gen := draw fun nidx =>
  match all[nidx.toNat % all.length]? with
  | some sub => sub
  | none => fun _ => none

def reGen2Question (nsub : Gen) (next : Option Gen) : Gen := draw fun a =>
  if a &&& 1 ≠ 0 then nsub.andThen (follow next) else follow next

def reGen2Plus (nsub : Gen) (next : Option Gen) : Gen := draw fun cnt =>
  (times (cnt.toNat % reGenRepLimit + 1) nsub).andThen (follow next)

def reGen2Star (nsub : Gen) (next : Option Gen) : Gen := draw fun cnt =>
  (times (cnt.toNat % reGenRepLimit) nsub).andThen (follow next)

def reGen2Group (nsub : Gen) (next : Option Gen) : Gen := nsub.andThen (follow next)

def reGen2Repeat (minRep maxRep : ℤ) (nsub : Gen) (next : Option Gen) : Gen :=
  if maxRep = -1 then draw fun cnt =>
    (times ((cnt.toNat % reGenRepLimit + uint minRep) % 2 ^ 32) nsub).andThen (follow next)
  else if maxRep = minRep then (times (uint minRep) nsub).andThen (follow next)
  else draw fun cnt =>
    if uint (maxRep - minRep + 1) = 0 then fun _ => none
    else
      (times ((uint minRep + cnt.toNat % uint (maxRep - minRep + 1)) % 2 ^ 32) nsub).andThen
        (follow next)

def reGen2Lookahead (nsub : Gen) (next : Option Gen) : Gen := nsub.andThen (follow next)

mutual

/-- **What a node generates**, with what `re_assign_next` makes its next. -/
def genNode : ReNode → Option Gen → Gen
  | .char first others, next => reGen2Char (first :: others) next
  | .set cset, next => reGen2Set cset next
  | .any, next => reGen2Any next
  | .eos, next | .bos, next | .wordBoundary, next | .nonWordBoundary, next
  | .negativeLookahead _, next => follow next
  | .group _ _ subexpr, next => reGen2Group (genNode subexpr next) next
  | .plus _ subexpr, next => reGen2Plus (genNode subexpr none) next
  | .star _ subexpr, next => reGen2Star (genNode subexpr none) next
  | .question _ subexpr, next => reGen2Question (genNode subexpr none) next
  | .concat left right, next => genNode left (some (genNode right next))
  | .union all, next => reGen2Union (genNodes all next)
  | .repeated minRep maxRep _ subexpr, next =>
    reGen2Repeat minRep maxRep (genNode subexpr none) next
  | .lookahead subexpr, next => reGen2Lookahead (genNode subexpr none) next

def genNodes : List ReNode → Option Gen → List Gen
  | [], _ => []
  | node :: nodes, next => genNode node next :: genNodes nodes next

end

def reGen (regex : Regex) : Gen := genNode regex.root none

/-! ## Patterns -/

mutual

/-- **A pattern to generate from**: no NUL, no empty set, no assertion; its counts are `int`s. -/
def Generable : ReNode → Prop
  | .char first others => 0 ∉ first :: others
  | .set cset => setElements cset ≠ [] ∧ isCharInSet 0 cset = false
  | .any => True
  | .group _ _ subexpr | .plus _ subexpr | .star _ subexpr | .question _ subexpr =>
    Generable subexpr
  | .repeated minRep maxRep _ subexpr =>
    minRep < 2 ^ 31 ∧ maxRep < 2 ^ 31 ∧ Generable subexpr
  | .concat left right => Generable left ∧ Generable right
  | .union all => all ≠ [] ∧ GenerableAll all
  | .eos | .bos | .wordBoundary | .nonWordBoundary | .lookahead _ | .negativeLookahead _ => False

def GenerableAll : List ReNode → Prop
  | [] => True
  | node :: nodes => Generable node ∧ GenerableAll nodes

end

mutual

/-- **Nothing is behind a group**, and the bounds of `{n,m}` are in order. -/
def Once : ReNode → Bool → Prop
  | .group _ _ subexpr, followed => followed = false ∧ Once subexpr false
  | .plus _ subexpr, _ | .star _ subexpr, _ | .question _ subexpr, _ => Once subexpr false
  | .repeated minRep maxRep _ subexpr, _ =>
    0 ≤ minRep ∧ (maxRep = -1 ∨ minRep ≤ maxRep) ∧ Once subexpr false
  | .concat left right, followed => Once left true ∧ Once right followed
  | .union all, followed => OnceAll all followed
  | .char _ _, _ | .set _, _ | .any, _ | .eos, _ | .bos, _ | .wordBoundary, _
  | .nonWordBoundary, _ | .lookahead _, _ | .negativeLookahead _, _ => True

def OnceAll : List ReNode → Bool → Prop
  | [], _ => True
  | node :: nodes, followed => Once node followed ∧ OnceAll nodes followed

end

/-! ## What is written is in the language -/

variable {regex : Regex} {strict : Bool}

/-- **A text of the language of a node**: wherever it stands in a subject, the node matches it. -/
def InLanguage (regex : Regex) (strict : Bool) (node : ReNode) (t : List UInt8) : Prop :=
  ∀ (s : List UInt8) (i : ℕ), t <+: s.drop i → Matches regex s strict node i (i + t.length)

/-- A text of so many repetitions. -/
def InPower (regex : Regex) (strict : Bool) (node : ReNode) (n : ℕ) (t : List UInt8) : Prop :=
  ∀ (s : List UInt8) (i : ℕ), t <+: s.drop i →
    Times (Matches regex s strict node) n i (i + t.length)

/-- A generator that writes texts of a kind, whatever the random numbers are. -/
def Emits (P : List UInt8 → Prop) (g : Gen) : Prop :=
  ∀ rnd, ∃ t rnd', g rnd = some (t, rnd') ∧ P t

/-- One text, and another behind it. -/
def Joined (P Q : List UInt8 → Prop) (t : List UInt8) : Prop :=
  ∃ t₁ t₂, t = t₁ ++ t₂ ∧ P t₁ ∧ Q t₂

theorem Emits.andThen {P Q : List UInt8 → Prop} {f g : Gen} (hf : Emits P f) (hg : Emits Q g) :
    Emits (Joined P Q) (f.andThen g) := by
  intro rnd
  obtain ⟨t₁, rnd₁, h₁, hP⟩ := hf rnd
  obtain ⟨t₂, rnd₂, h₂, hQ⟩ := hg rnd₁
  refine ⟨t₁ ++ t₂, rnd₂, ?_, t₁, t₂, rfl, hP, hQ⟩
  rw [Gen.andThen, h₁, Option.bind_some]
  dsimp only
  rw [h₂]
  rfl

theorem Emits.imp {P Q : List UInt8 → Prop} {g : Gen} (h : Emits P g) (hPQ : ∀ t, P t → Q t) :
    Emits Q g := by
  intro rnd
  obtain ⟨t, rnd', ht, hP⟩ := h rnd
  exact ⟨t, rnd', ht, hPQ t hP⟩

theorem emits_emit {P : List UInt8 → Prop} {t : List UInt8} (h : P t) : Emits P (emit t) :=
  fun rnd => ⟨t, rnd, rfl, h⟩

theorem emits_draw {P : List UInt8 → Prop} {f : UInt32 → Gen} (h : ∀ x, Emits P (f x)) :
    Emits P (draw f) := fun rnd => h (rnd 0) fun i => rnd (i + 1)

theorem prefix_append {t t' s : List UInt8} {i : ℕ} (h : t ++ t' <+: s.drop i) :
    t <+: s.drop i ∧ t' <+: s.drop (i + t.length) := by
  obtain ⟨r, hr⟩ := h
  refine ⟨⟨t' ++ r, by rw [← hr, List.append_assoc]⟩, r, ?_⟩
  rw [← List.drop_drop, ← hr, List.append_assoc, List.drop_left]

theorem getElem?_of_prefix {c : UInt8} {s : List UInt8} {i : ℕ} (h : [c] <+: s.drop i) :
    s[i]? = some c := by
  obtain ⟨r, hr⟩ := h
  have hzero : (s.drop i)[0]? = some c := by
    rw [← hr]
    rfl
  rwa [List.getElem?_drop, Nat.add_zero] at hzero

theorem Joined.imp {P P' Q : List UInt8 → Prop} (hP : ∀ t, P t → P' t) (t : List UInt8)
    (h : Joined P Q t) : Joined P' Q t := by
  obtain ⟨t₁, t₂, rfl, h₁, h₂⟩ := h
  exact ⟨t₁, t₂, rfl, hP t₁ h₁, h₂⟩

theorem emits_times {node : ReNode} {g : Gen} (h : Emits (InLanguage regex strict node) g)
    (n : ℕ) : Emits (InPower regex strict node n) (times n g) := by
  induction n with
  | zero => exact emits_emit fun _ _ _ => rfl
  | succ n ih =>
    refine (h.andThen ih).imp fun t ht => ?_
    obtain ⟨t₁, t₂, rfl, h₁, h₂⟩ := ht
    intro s i hprefix
    obtain ⟨hp₁, hp₂⟩ := prefix_append hprefix
    rw [List.length_append, ← Nat.add_assoc]
    exact ⟨i + t₁.length, h₁ s i hp₁, h₂ s _ hp₂⟩

theorem gen_any_ne_newline (x : UInt32) :
    (if 10 ≤ x % 254 + 1 then x % 254 + 1 + 1 else x % 254 + 1).toUInt8 ≠ ch '\n' := by
  have hx : (x % 254 + 1).toNat = x.toNat % 254 + 1 := by
    rw [UInt32.toNat_add, UInt32.toNat_mod]
    have := Nat.mod_lt x.toNat (show 0 < 254 by omega)
    exact Nat.mod_eq_of_lt (show x.toNat % 254 + 1 < 2 ^ 32 by omega)
  have hlt := Nat.mod_lt x.toNat (show 0 < 254 by omega)
  intro h
  have hnat := congrArg UInt8.toNat h
  rw [show (ch '\n').toNat = 10 from rfl, UInt32.toNat_toUInt8] at hnat
  split_ifs at hnat with hle
  · have hle : 10 ≤ (x % 254 + 1).toNat := UInt32.le_iff_toNat_le.mp hle
    rw [UInt32.toNat_add, hx, show (1 : UInt32).toNat = 1 from rfl] at hnat
    omega
  · have hle : ¬10 ≤ (x % 254 + 1).toNat := fun h => hle (UInt32.le_iff_toNat_le.mpr h)
    omega

section Nodes

variable {next : Option Gen} {Q : List UInt8 → Prop} (hnext : Emits Q (follow next))
include hnext

theorem reGen2Char_emits {first : UInt8} {others : List UInt8} (hnul : 0 ∉ first :: others) :
    Emits (Joined (InLanguage regex strict (.char first others)) Q)
      (reGen2Char (first :: others) next) := by
  have hall : (first :: others).filter (· ≠ 0) = first :: others :=
    List.filter_eq_self.mpr fun c hc => decide_eq_true fun h => hnul (h ▸ hc)
  rw [reGen2Char, hall]
  refine (emits_emit fun s i hprefix => ?_).andThen hnext
  exact ⟨by rw [← List.prefix_iff_eq_take.mp hprefix], rfl⟩

theorem reGen2Set_emits {cset : CharSet} (hset : setElements cset ≠ []) :
    Emits (Joined (InLanguage regex strict (.set cset)) Q) (reGen2Set cset next) := by
  refine emits_draw fun idx => ?_
  have hlt := Nat.mod_lt idx.toNat (List.length_pos_of_ne_nil hset)
  rw [List.getElem?_eq_getElem hlt]
  refine (emits_emit fun s i hprefix => ?_).andThen hnext
  have hmem := List.getElem_mem hlt
  exact ⟨⟨_, getElem?_of_prefix hprefix, (List.mem_filter.mp hmem).2⟩, rfl⟩

theorem reGen2Any_emits :
    Emits (Joined (InLanguage regex strict .any) Q) (reGen2Any next) := by
  refine emits_draw fun x => ?_
  refine (emits_emit fun s i hprefix => ?_).andThen hnext
  exact ⟨⟨_, getElem?_of_prefix hprefix, .inr (gen_any_ne_newline x)⟩, rfl⟩

section Repeats

variable {subexpr : ReNode} {nsub : Gen} (hsub : Emits (InLanguage regex strict subexpr) nsub)
include hsub

theorem reGen2Question_emits (lazy : Bool) :
    Emits (Joined (InLanguage regex strict (.question lazy subexpr)) Q)
      (reGen2Question nsub next) := by
  refine emits_draw fun a => ?_
  by_cases h : a &&& 1 ≠ 0
  · rw [if_pos h]
    exact ((hsub.imp fun t ht s i hprefix => .inr (ht s i hprefix)).andThen hnext)
  · rw [if_neg h]
    exact hnext.imp fun t ht => ⟨[], t, rfl, fun s i _ => .inl rfl, ht⟩

theorem times_follow_emits {node : ReNode} {n : ℕ}
    (hnode : ∀ s i j, Times (Matches regex s strict subexpr) n i j →
      Matches regex s strict node i j) :
    Emits (Joined (InLanguage regex strict node) Q) ((times n nsub).andThen (follow next)) :=
  ((emits_times hsub n).imp fun _ ht s i hprefix => hnode s i _ (ht s i hprefix)).andThen hnext

theorem reGen2Plus_emits (lazy : Bool) :
    Emits (Joined (InLanguage regex strict (.plus lazy subexpr)) Q) (reGen2Plus nsub next) :=
  emits_draw fun _ => times_follow_emits hnext hsub fun _ _ _ h => ⟨_, Nat.succ_pos _, h⟩

theorem reGen2Star_emits (lazy : Bool) :
    Emits (Joined (InLanguage regex strict (.star lazy subexpr)) Q) (reGen2Star nsub next) :=
  emits_draw fun _ => times_follow_emits hnext hsub fun _ _ _ h => ⟨_, h⟩

theorem reGen2Repeat_emits {minRep maxRep : ℤ} (lazy : Bool) (hmin : 0 ≤ minRep)
    (hbounds : maxRep = -1 ∨ minRep ≤ maxRep) (hmin' : minRep < 2 ^ 31) (hmax : maxRep < 2 ^ 31) :
    Emits (Joined (InLanguage regex strict (.repeated minRep maxRep lazy subexpr)) Q)
      (reGen2Repeat minRep maxRep nsub next) := by
  have hu : uint minRep = minRep.toNat := by
    rw [uint, Int.emod_eq_of_lt hmin (by omega)]
  rw [reGen2Repeat]
  by_cases hnone : maxRep = -1
  · rw [if_pos hnone]
    refine emits_draw fun cnt => times_follow_emits hnext hsub fun _ _ _ h => ⟨_, ?_, h⟩
    have := Nat.mod_lt cnt.toNat (show 0 < reGenRepLimit by decide)
    rw [hu, reGenRepLimit] at *
    exact ⟨by omega, fun h => absurd hnone h⟩
  · rw [if_neg hnone]
    have hle := hbounds.resolve_left hnone
    have hint : int32 (maxRep - minRep) = maxRep - minRep := by
      rw [int32, Int.bmod_eq_of_le] <;> omega
    by_cases heq : maxRep = minRep
    · rw [if_pos heq]
      refine times_follow_emits hnext hsub fun _ _ _ h => ⟨_, ?_, h⟩
      exact ⟨hu.ge, fun _ => by omega⟩
    · rw [if_neg heq]
      have hspan : uint (maxRep - minRep + 1) = (maxRep - minRep).toNat + 1 := by
        rw [uint, Int.emod_eq_of_lt (by omega) (by omega)]
        omega
      refine emits_draw fun cnt => ?_
      rw [if_neg (by omega)]
      refine times_follow_emits hnext hsub fun _ _ _ h => ⟨_, ?_, h⟩
      have := Nat.mod_lt cnt.toNat (show 0 < uint (maxRep - minRep + 1) by omega)
      refine ⟨by omega, fun _ => ?_⟩
      rw [hint]
      omega

end Repeats

end Nodes

theorem concat_emits {left right : ReNode} {Q : List UInt8 → Prop} {g : Gen}
    (h : Emits (Joined (InLanguage regex strict left)
      (Joined (InLanguage regex strict right) Q)) g) :
    Emits (Joined (InLanguage regex strict (.concat left right)) Q) g := by
  refine h.imp ?_
  rintro t ⟨t₁, t', rfl, h₁, t₂, t₃, rfl, h₂, h₃⟩
  refine ⟨t₁ ++ t₂, t₃, (List.append_assoc _ _ _).symm, fun s i hprefix => ?_, h₃⟩
  obtain ⟨hp₁, hp₂⟩ := prefix_append hprefix
  rw [List.length_append, ← Nat.add_assoc]
  exact ⟨i + t₁.length, h₁ s i hp₁, h₂ s _ hp₂⟩

theorem reGen2Union_emits {P : List UInt8 → Prop} {all : List Gen} (hne : all ≠ [])
    (h : ∀ g ∈ all, Emits P g) : Emits P (reGen2Union all) := by
  refine emits_draw fun nidx => ?_
  have hlt := Nat.mod_lt nidx.toNat (List.length_pos_of_ne_nil hne)
  rw [List.getElem?_eq_getElem hlt]
  exact h _ (List.getElem_mem hlt)

theorem genNodes_ne_nil {all : List ReNode} (h : all ≠ []) (next : Option Gen) :
    genNodes all next ≠ [] := by
  cases all with
  | nil => exact absurd rfl h
  | cons node nodes => rw [genNodes]; exact List.cons_ne_nil _ _

mutual

theorem genNode_emits (node : ReNode) (hgen : Generable node) (next : Option Gen)
    (honce : Once node next.isSome) {Q : List UInt8 → Prop} (hnext : Emits Q (follow next)) :
    Emits (Joined (InLanguage regex strict node) Q) (genNode node next) := by
  have halone {subexpr : ReNode} (h : Emits (Joined (InLanguage regex strict subexpr) (· = []))
      (genNode subexpr none)) : Emits (InLanguage regex strict subexpr) (genNode subexpr none) := by
    refine h.imp ?_
    rintro t ⟨t₁, t₂, rfl, h₁, rfl⟩
    rwa [List.append_nil]
  have hnil : Emits (· = []) (follow none) := emits_emit rfl
  cases node with
  | char first others => exact reGen2Char_emits hnext hgen
  | set cset => exact reGen2Set_emits hnext hgen.1
  | any => exact reGen2Any_emits hnext
  | group index text subexpr =>
    obtain ⟨hlast, honce⟩ := honce
    obtain rfl : next = none := Option.isNone_iff_eq_none.mp (by simpa using hlast)
    exact (halone (genNode_emits subexpr hgen none honce hnil)).andThen hnext
  | plus lazy subexpr =>
    exact reGen2Plus_emits hnext (halone (genNode_emits subexpr hgen none honce hnil)) lazy
  | star lazy subexpr =>
    exact reGen2Star_emits hnext (halone (genNode_emits subexpr hgen none honce hnil)) lazy
  | question lazy subexpr =>
    exact reGen2Question_emits hnext (halone (genNode_emits subexpr hgen none honce hnil)) lazy
  | concat left right =>
    exact concat_emits (genNode_emits left hgen.1 (some (genNode right next)) honce.1
      (genNode_emits right hgen.2 next honce.2 hnext))
  | union all =>
    exact reGen2Union_emits (genNodes_ne_nil hgen.1 next)
      (genNodes_emits all hgen.2 next honce hnext)
  | repeated minRep maxRep lazy subexpr =>
    obtain ⟨hmin', hmax, hgen⟩ := hgen
    obtain ⟨hmin, hbounds, honce⟩ := honce
    exact reGen2Repeat_emits hnext (halone (genNode_emits subexpr hgen none honce hnil)) lazy
      hmin hbounds hmin' hmax
  | eos | bos | wordBoundary | nonWordBoundary | lookahead | negativeLookahead => exact hgen.elim

theorem genNodes_emits (all : List ReNode) (hgen : GenerableAll all) (next : Option Gen)
    (honce : OnceAll all next.isSome) {Q : List UInt8 → Prop} (hnext : Emits Q (follow next)) :
    ∀ g ∈ genNodes all next, Emits (Joined (fun t => ∀ (s : List UInt8) (i : ℕ),
      t <+: s.drop i → MatchesOne regex s strict all i (i + t.length)) Q) g := by
  cases all with
  | nil => exact fun g hg => absurd hg List.not_mem_nil
  | cons node nodes =>
    rw [genNodes]
    rintro g (_ | ⟨_, hg⟩)
    · exact (genNode_emits node hgen.1 next honce.1 hnext).imp
        (Joined.imp fun t ht s i hprefix => .inl (ht s i hprefix))
    · exact (genNodes_emits nodes hgen.2 next honce.2 hnext g hg).imp
        (Joined.imp fun t ht s i hprefix => .inr (ht s i hprefix))

end

end DaScript.Regex

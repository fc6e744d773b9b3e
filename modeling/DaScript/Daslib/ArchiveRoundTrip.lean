import DaScript.Daslib.Archive
import Mathlib.Data.List.TakeWhile

/-!
# Daslib/ArchiveRoundTrip — an archive gives back what was put in

What a value is written as is `encode`: it depends on nothing but the type and the value, and
reading it takes exactly its bytes, whatever comes after and whatever the variable held before.
-/

namespace DaScript.Archive

/-! ## Values of a type -/

/-- A workhorse value: as many bytes as the type has, or a string without a zero. -/
def Workhorse.HasType : Workhorse → Val → Prop
  | .string, .text t => 0 ∉ t
  | .scalar s, .block bytes => bytes.length = s.size
  | .enumeration w, .block bytes => bytes.length = w.size
  | _, _ => False

section Typing

variable (same : Workhorse → Val → Val → Bool)

mutual

/-- **The values of a type.** -/
def HasType : Ty → Val → Prop
  | .workhorse w, v => w.HasType v
  | .struct fields, .record vs => HaveTypes fields vs
  | .tuple fields, .record vs => HaveTypes fields vs
  | .variant alternatives, .variant index v => index < 2 ^ 31 ∧ HasTypeAt alternatives index v
  | .fixed dim element, .block bytes =>
    element.isRawBlock = true ∧ bytes.length = dim * element.getSizeOf
  | .fixed dim element, .elements es =>
    element.isRawBlock = false ∧ es.length = dim ∧ ∀ v ∈ es, HasType element v
  | .array element, .block bytes =>
    element.isRawWorkhorse = true ∧ ∃ len, bytes.length = len * element.getSizeOf
  | .array element, .elements es => element.isRawWorkhorse = false ∧ ∀ v ∈ es, HasType element v
  | .table key value, .pairs ps =>
    (∀ p ∈ ps, key.HasType p.1 ∧ HasType value p.2) ∧
      ps.Pairwise fun p q => same key p.1 q.1 = false
  | _, _ => False

def HaveTypes : List Ty → List Val → Prop
  | [], [] => True
  | t :: ts, v :: vs => HasType t v ∧ HaveTypes ts vs
  | _, _ => False

def HasTypeAt : List Ty → ℕ → Val → Prop
  | [], _, _ => False
  | t :: _, 0, v => HasType t v
  | _ :: ts, i + 1, v => HasTypeAt ts i v

end

end Typing

/-! ## What a value is written as -/

def Workhorse.encode : Workhorse → Val → List UInt8
  | .string, .text t => leBytes 4 t.length ++ t
  | _, .block bytes => bytes
  | _, _ => []

mutual

/-- **The bytes of a value.** -/
def encode : Ty → Val → List UInt8
  | .workhorse w, v => w.encode v
  | .struct fields, .record vs => encodeFields fields vs
  | .tuple fields, .record vs => encodeFields fields vs
  | .variant alternatives, .variant index v => leBytes 4 index ++ encodeAt alternatives index v
  | .fixed _ _, .block bytes => bytes
  | .fixed _ element, .elements es => es.flatMap fun v => encode element v
  | .array element, .block bytes => leBytes 4 (bytes.length / element.getSizeOf) ++ bytes
  | .array element, .elements es => leBytes 4 es.length ++ es.flatMap fun v => encode element v
  | .table key value, .pairs ps =>
    leBytes 4 ps.length ++ ps.flatMap fun p => key.encode p.1 ++ encode value p.2
  | _, _ => []

def encodeFields : List Ty → List Val → List UInt8
  | t :: ts, v :: vs => encode t v ++ encodeFields ts vs
  | _, _ => []

def encodeAt : List Ty → ℕ → Val → List UInt8
  | [], _, _ => []
  | t :: _, 0, v => encode t v
  | _ :: ts, i + 1, v => encodeAt ts i v

end

mutual

/-- **Nothing in the value is refused**: no fixed array is a block of no bytes, and no array has
`2 ^ 31` elements. -/
def Savable : Ty → Val → Prop
  | .struct fields, .record vs => SavableFields fields vs
  | .tuple fields, .record vs => SavableFields fields vs
  | .variant alternatives, .variant index v => SavableAt alternatives index v
  | .fixed _ _, .block bytes => bytes ≠ []
  | .fixed _ element, .elements es => ∀ v ∈ es, Savable element v
  | .array element, .elements es => es.length < 2 ^ 31 ∧ ∀ v ∈ es, Savable element v
  | .table _ value, .pairs ps => ∀ p ∈ ps, Savable value p.2
  | _, _ => True

def SavableFields : List Ty → List Val → Prop
  | t :: ts, v :: vs => Savable t v ∧ SavableFields ts vs
  | _, _ => True

def SavableAt : List Ty → ℕ → Val → Prop
  | [], _, _ => True
  | t :: _, 0, v => Savable t v
  | _ :: ts, i + 1, v => SavableAt ts i v

end

/-! ## Calls that write -/

/-- **A call appends the bytes** if `p` holds, and fails if not, as long as the data stay shorter
than `2 ^ 31`. -/
def Saves (f : MemSerializer → Outcome MemSerializer Unit) (bytes : List UInt8) (p : Prop) : Prop :=
  ∀ s : MemSerializer, s.data.length + bytes.length < 2 ^ 31 →
    (p → f s = .ok () { s with data := s.data ++ bytes }) ∧ (¬ p → ∃ e s', f s = .error e s')

namespace Saves

variable {f g : MemSerializer → Outcome MemSerializer Unit} {b c : List UInt8} {p q : Prop}

theorem skip : Saves (fun s => .ok () s) [] True :=
  fun s _ => ⟨fun _ => by rw [List.append_nil], fun h => absurd trivial h⟩

theorem write (bytes : List UInt8) : Saves (MemSerializer.write bytes) bytes (bytes ≠ []) := by
  intro s hs
  rw [MemSerializer.write, if_neg (Nat.not_le.mpr hs)]
  refine ⟨fun h => if_neg h, fun h => ?_⟩
  rw [if_pos (not_not.mp h)]
  exact ⟨_, _, rfl⟩

theorem seq (hf : Saves f b p) (hg : Saves g c q) :
    Saves (fun s => (f s).bind fun _ s => g s) (b ++ c) (p ∧ q) := by
  intro s hs
  rw [List.length_append] at hs
  obtain ⟨hok, hfail⟩ := hf s (by omega)
  dsimp only
  refine ⟨fun ⟨hp, hq⟩ => ?_, fun hpq => ?_⟩
  · rw [hok hp, Outcome.bind_ok, (hg _ (by rw [List.length_append]; omega)).1 hq,
      List.append_assoc]
  · by_cases hp : p
    · rw [hok hp]
      exact (hg _ (by rw [List.length_append]; omega)).2 fun hq => hpq ⟨hp, hq⟩
    · obtain ⟨e, s', he⟩ := hfail hp
      rw [he]
      exact ⟨e, s', rfl⟩

theorem of_iff (hf : Saves f b p) (h : b.length < 2 ^ 31 → (p ↔ q)) : Saves f b q := by
  intro s hs
  rw [← h (by omega)]
  exact hf s hs

theorem writeUnlessEmpty (bytes : List UInt8) :
    Saves (fun s => if bytes = [] then .ok () s else s.write bytes) bytes True := by
  intro s hs
  by_cases hbytes : bytes = []
  · subst hbytes
    exact skip s hs
  · simp only [if_neg hbytes]
    exact ((write bytes).of_iff fun _ => ⟨fun _ => trivial, fun _ => hbytes⟩) s hs

theorem writeLength (what : String) (len : ℕ) :
    Saves (MemSerializer.writeLength what len) (leBytes 4 len) (len < 2 ^ 31) := by
  intro s hs
  rw [MemSerializer.writeLength]
  refine ⟨fun h => ?_, fun h => ?_⟩
  · have hne : leBytes 4 len ≠ [] := fun h => nomatch h
    rw [if_neg (not_isNegative h)]
    exact (write _ s hs).1 hne
  · rw [if_pos (by rw [isNegative, decide_eq_true_eq]; omega)]
    exact ⟨_, _, rfl⟩

theorem forEach {α : Type} {f : α → MemSerializer → Outcome MemSerializer Unit}
    {b : α → List UInt8} {p : α → Prop} {as : List α} (h : ∀ a ∈ as, Saves (f a) (b a) (p a)) :
    Saves (Archive.forEach f as) (as.flatMap b) (∀ a ∈ as, p a) := by
  induction as with
  | nil => exact skip.of_iff fun _ => ⟨fun _ a ha => (List.not_mem_nil ha).elim, fun _ => trivial⟩
  | cons a as ih =>
    refine ((h a List.mem_cons_self).seq
      (ih fun a' ha' => h a' (List.mem_cons_of_mem _ ha'))).of_iff fun _ => ?_
    exact List.forall_mem_cons.symm

end Saves

/-! ## Calls that read -/

/-- **A call takes the bytes and gives the value**, from wherever the bytes stand. -/
def Loads {α : Type} (f : MemSerializer → Outcome MemSerializer α) (bytes : List UInt8) (a : α) :
    Prop :=
  ∀ (s : MemSerializer) (before after : List UInt8), s.data = before ++ bytes ++ after →
    s.readOffset = before.length → s.data.length < 2 ^ 31 →
    f s = .ok a { s with readOffset := before.length + bytes.length }

namespace Loads

variable {α β : Type} {f : MemSerializer → Outcome MemSerializer α} {b c : List UInt8} {a : α}

theorem pure (a : α) : Loads (fun s => .ok a s) [] a := by
  intro s before after _ hoffset _
  rw [List.length_nil, Nat.add_zero, ← hoffset]

theorem bind {g : α → MemSerializer → Outcome MemSerializer β} {x : β} (hf : Loads f b a)
    (hg : Loads (g a) c x) : Loads (fun s => (f s).bind g) (b ++ c) x := by
  intro s before after hdata hoffset hlt
  have hb : s.data = before ++ b ++ (c ++ after) := by rw [hdata]; simp only [List.append_assoc]
  have hc : s.data = before ++ b ++ c ++ after := by rw [hdata]; simp only [List.append_assoc]
  dsimp only
  have hg' := hg ⟨s.data, before.length + b.length, s.lastError⟩ (before ++ b) after hc
    (by rw [List.length_append]) hlt
  rw [hf s before _ hb hoffset hlt, Outcome.bind_ok, hg', List.length_append, List.length_append,
    Nat.add_assoc]

theorem map {x : β} (hf : Loads f b a) (g : α → β) (hx : g a = x) :
    Loads (fun s => (f s).bind fun a s => .ok (g a) s) b x := by
  have h := hf.bind (g := fun a s => .ok (g a) s) (pure (g a))
  rwa [List.append_nil, hx] at h

theorem of_lt (h : b.length < 2 ^ 31 → Loads f b a) : Loads f b a := by
  intro s before after hdata hoffset hlt
  refine h ?_ s before after hdata hoffset hlt
  rw [hdata, List.length_append, List.length_append] at hlt
  omega

theorem read {bytes : List UInt8} (hne : bytes ≠ []) :
    Loads (MemSerializer.read bytes.length) bytes (some bytes) := by
  intro s before after hdata hoffset hlt
  have hpos := List.length_pos_iff.mpr hne
  have hlen : s.data.length = before.length + bytes.length + after.length := by
    rw [hdata, List.length_append, List.length_append]
  rw [MemSerializer.read, if_neg (by omega), if_neg (by omega), if_neg (by omega), hoffset, hdata,
    List.append_assoc, List.drop_left, List.take_left]

theorem readInt {len : ℕ} (hlen : len < 2 ^ 32) :
    Loads MemSerializer.readInt (leBytes 4 len) len := by
  have hread : Loads (MemSerializer.read 4) (leBytes 4 len) (some (leBytes 4 len)) :=
    read fun h => nomatch h
  exact hread.map (fun bytes => bytes.elim 0 leNat) (leNat_leBytes hlen)

theorem changeEach {f : α → MemSerializer → Outcome MemSerializer α} {b : α → List UInt8}
    {olds as : List α} (hlen : olds.length = as.length)
    (h : ∀ old ∈ olds, ∀ a ∈ as, Loads (f old) (b a) a) :
    Loads (Archive.changeEach f olds) (as.flatMap b) as := by
  induction as generalizing olds with
  | nil =>
    obtain rfl := List.eq_nil_of_length_eq_zero hlen
    exact pure []
  | cons a as ih =>
    obtain ⟨old, olds, rfl⟩ := List.exists_cons_of_length_eq_add_one hlen
    refine (h old List.mem_cons_self a List.mem_cons_self).bind ?_
    refine (ih (Nat.succ.inj hlen) fun o ho a' ha' => h o (List.mem_cons_of_mem _ ho) a'
      (List.mem_cons_of_mem _ ha')).map (fun as => a :: as) rfl

end Loads

/-! ## Workhorses -/

theorem Workhorse.save_saves {w : Workhorse} {v : Val} (h : w.HasType v) :
    Saves (w.save v) (w.encode v) True := by
  have hblock : ∀ {bytes : List UInt8} {n : ℕ}, bytes.length = n → 0 < n →
      Saves (MemSerializer.write bytes) bytes True := by
    intro bytes n hlen hn
    refine (Saves.write bytes).of_iff fun _ => ⟨fun _ => trivial, fun _ => ?_⟩
    exact List.length_pos_iff.mp (hlen ▸ hn)
  cases w with
  | scalar s =>
    cases v with
    | block bytes => exact hblock h s.size_bounds.1
    | _ => exact h.elim
  | enumeration w =>
    cases v with
    | block bytes => exact hblock h w.size_bounds.1
    | _ => exact h.elim
  | string =>
    cases v with
    | text t =>
      refine ((Saves.writeLength "string" t.length).seq (Saves.writeUnlessEmpty t)).of_iff
        fun hlt => ?_
      rw [List.length_append] at hlt
      exact ⟨fun _ => trivial, fun _ => ⟨by omega, trivial⟩⟩
    | _ => exact h.elim

theorem Workhorse.encode_pos {w : Workhorse} {v : Val} (h : w.HasType v) :
    0 < (w.encode v).length := by
  cases w with
  | scalar s =>
    cases v with
    | block bytes => exact (show bytes.length = _ from h) ▸ s.size_bounds.1
    | _ => exact h.elim
  | enumeration w =>
    cases v with
    | block bytes => exact (show bytes.length = _ from h) ▸ w.size_bounds.1
    | _ => exact h.elim
  | string =>
    cases v with
    | text t => exact Nat.succ_pos _
    | _ => exact h.elim

theorem cloneString_eq {t : List UInt8} (h : 0 ∉ t) : cloneString t = t :=
  List.takeWhile_eq_self_iff.mpr fun _ hc => decide_eq_true (ne_of_mem_of_not_mem hc h)

variable {fresh : ℕ → UInt8} {same : Workhorse → Val → Val → Bool}

theorem Workhorse.load_loads {w : Workhorse} {v : Val} (h : w.HasType v) (old : Val) :
    Loads (w.load fresh old) (w.encode v) v := by
  have hblock : ∀ {bytes : List UInt8} {n : ℕ}, bytes.length = n → 0 < n →
      Loads (fun s => (s.read n).bind fun bytes s => .ok (bytes.elim old .block) s) bytes
        (.block bytes) := by
    rintro bytes n rfl hn
    exact (Loads.read (List.length_pos_iff.mp hn)).map (fun bytes => bytes.elim old .block) rfl
  cases w with
  | scalar s =>
    cases v with
    | block bytes => exact hblock h s.size_bounds.1
    | _ => exact h.elim
  | enumeration w =>
    cases v with
    | block bytes => exact hblock h w.size_bounds.1
    | _ => exact h.elim
  | string =>
    cases v with
    | text t =>
      refine Loads.of_lt fun hlt => ?_
      change (leBytes 4 t.length ++ t).length < _ at hlt
      rw [List.length_append] at hlt
      refine (Loads.readInt (by omega)).bind ?_
      by_cases ht : t = []
      · subst ht
        exact Loads.pure _
      · have hlen : ¬ (t.length = 0 ∨ isNegative t.length = true) :=
          not_or.mpr ⟨fun h0 => ht (List.length_eq_zero_iff.mp h0), not_isNegative (by omega)⟩
        simp only [if_neg hlen]
        exact (Loads.read ht).map
          (fun bytes => Val.text (cloneString (bytes.getD (uninitialized fresh t.length))))
          (congrArg Val.text (cloneString_eq h))
    | _ => exact h.elim

/-! ## Values -/

theorem table_length {key : Workhorse} (value : Ty) {ps : List (Val × Val)}
    (h : ∀ p ∈ ps, key.HasType p.1) :
    ps.length ≤ (ps.flatMap fun p => key.encode p.1 ++ encode value p.2).length := by
  induction ps with
  | nil => exact le_rfl
  | cons p ps ih =>
    have hp := Workhorse.encode_pos (h p List.mem_cons_self)
    have hps := ih fun p' hp' => h p' (List.mem_cons_of_mem _ hp')
    rw [List.flatMap_cons, List.length_append, List.length_append, List.length_cons]
    omega

mutual

theorem save_saves (t : Ty) (v : Val) (h : HasType same t v) :
    Saves (save t v) (encode t v) (Savable t v) := by
  match t, v with
  | .workhorse w, v =>
    have hsave : save (.workhorse w) v = w.save v := funext fun s => by rw [save]
    rw [hsave, encode, Savable]
    · exact Workhorse.save_saves h
    all_goals exact fun _ _ => nofun
  | .struct fields, .record vs =>
    have hsave : save (.struct fields) (.record vs) = saveFields fields vs :=
      funext fun s => by rw [save]
    rw [hsave, encode, Savable]
    exact saveFields_saves fields vs h
  | .tuple fields, .record vs =>
    have hsave : save (.tuple fields) (.record vs) = saveFields fields vs :=
      funext fun s => by rw [save]
    rw [hsave, encode, Savable]
    exact saveFields_saves fields vs h
  | .variant alternatives, .variant index v =>
    have hsave : save (.variant alternatives) (.variant index v) = fun s =>
        (s.write (leBytes 4 index)).bind fun _ s => saveAlternative alternatives index v s :=
      funext fun s => by rw [save]
    rw [hsave, encode, Savable]
    refine ((Saves.write _).seq (saveAlternative_saves alternatives index v h.2)).of_iff fun _ => ?_
    exact ⟨And.right, fun hv => ⟨(nomatch ·), hv⟩⟩
  | .fixed dim element, .block bytes =>
    have hsave : save (.fixed dim element) (.block bytes) = MemSerializer.write bytes :=
      funext fun s => by rw [save, if_pos h.1]
    rw [hsave, encode, Savable]
    exact Saves.write bytes
  | .fixed dim element, .elements es =>
    have hraw : ¬ element.isRawBlock = true := by rw [h.1]; exact Bool.false_ne_true
    have hsave : save (.fixed dim element) (.elements es) =
        forEach (fun v s => save element v s) es := funext fun s => by rw [save, if_neg hraw]
    rw [hsave, encode, Savable]
    exact Saves.forEach fun v hv => save_saves element v (h.2.2 v hv)
  | .array element, .block bytes =>
    have hsave : save (.array element) (.block bytes) = fun s =>
        (s.writeLength "array" (bytes.length / element.getSizeOf)).bind fun _ s =>
          if bytes = [] then .ok () s else s.write bytes :=
      funext fun s => by rw [save, if_pos h.1]
    rw [hsave, encode, Savable]
    · refine ((Saves.writeLength "array" _).seq (Saves.writeUnlessEmpty bytes)).of_iff fun hlt => ?_
      have hlen := Nat.div_le_self bytes.length element.getSizeOf
      rw [List.length_append] at hlt
      exact ⟨fun _ => trivial, fun _ => ⟨by omega, trivial⟩⟩
    all_goals exact fun _ _ => nofun
  | .array element, .elements es =>
    have hraw : ¬ element.isRawWorkhorse = true := by rw [h.1]; exact Bool.false_ne_true
    have hsave : save (.array element) (.elements es) = fun s =>
        (s.writeLength "array" es.length).bind fun _ s =>
          forEach (fun v s => save element v s) es s := funext fun s => by rw [save, if_neg hraw]
    rw [hsave, encode, Savable]
    exact (Saves.writeLength "array" es.length).seq
      (Saves.forEach fun v hv => save_saves element v (h.2 v hv))
  | .table key value, .pairs ps =>
    have hsave : save (.table key value) (.pairs ps) = fun s =>
        (s.writeLength "table" ps.length).bind fun _ s =>
          forEach (fun p s => (key.save p.1 s).bind fun _ s => save value p.2 s) ps s :=
      funext fun s => by rw [save]
    rw [hsave, encode, Savable]
    have hpairs : Saves
        (forEach (fun p s => (key.save p.1 s).bind fun _ s => save value p.2 s) ps)
        (ps.flatMap fun p => key.encode p.1 ++ encode value p.2)
        (∀ p ∈ ps, True ∧ Savable value p.2) :=
      Saves.forEach fun p hp => (Workhorse.save_saves (h.1 p hp).1).seq
        (save_saves value p.2 (h.1 p hp).2)
    refine ((Saves.writeLength "table" ps.length).seq hpairs).of_iff fun hlt => ?_
    have hlen := table_length value fun p hp => (h.1 p hp).1
    rw [List.length_append] at hlt
    exact ⟨fun hp p hmem => (hp.2 p hmem).2,
      fun hp => ⟨by omega, fun p hmem => ⟨trivial, hp p hmem⟩⟩⟩

theorem saveFields_saves (ts : List Ty) (vs : List Val) (h : HaveTypes same ts vs) :
    Saves (saveFields ts vs) (encodeFields ts vs) (SavableFields ts vs) := by
  match ts, vs with
  | [], [] =>
    have hsave : saveFields [] [] = fun s => .ok () s := funext fun s => by rw [saveFields]
    rw [hsave, encodeFields, SavableFields]
    · exact Saves.skip
    all_goals exact fun _ _ _ _ => nofun
  | t :: ts, v :: vs =>
    have hsave : saveFields (t :: ts) (v :: vs) = fun s =>
        (save t v s).bind fun _ s => saveFields ts vs s := funext fun s => by rw [saveFields]
    rw [hsave, encodeFields, SavableFields]
    exact (save_saves t v h.1).seq (saveFields_saves ts vs h.2)

theorem saveAlternative_saves (ts : List Ty) (i : ℕ) (v : Val) (h : HasTypeAt same ts i v) :
    Saves (saveAlternative ts i v) (encodeAt ts i v) (SavableAt ts i v) := by
  match ts, i with
  | [], _ => exact h.elim
  | t :: ts, 0 =>
    have hsave : saveAlternative (t :: ts) 0 v = save t v :=
      funext fun s => by rw [saveAlternative]
    rw [hsave, encodeAt, SavableAt]
    exact save_saves t v h
  | t :: ts, i + 1 =>
    have hsave : saveAlternative (t :: ts) (i + 1) v = saveAlternative ts i v :=
      funext fun s => by rw [saveAlternative]
    rw [hsave, encodeAt, SavableAt]
    exact saveAlternative_saves ts i v h

end

/-! ## Reading them back -/

/-- What reading needs of the variable: a fixed array has all its elements. -/
def Shaped : Ty → Val → Prop
  | .fixed dim element, v =>
    element.isRawBlock = true ∨
      ∃ es, v = .elements es ∧ es.length = dim ∧ ∀ v ∈ es, Shaped element v
  | _, _ => True

theorem shaped_zeroed (t : Ty) : Shaped t t.zeroed := by
  match t with
  | .fixed dim element =>
    rw [Shaped, Ty.zeroed]
    cases hraw : element.isRawBlock with
    | true => exact Or.inl rfl
    | false =>
      refine Or.inr ⟨_, if_neg Bool.false_ne_true, List.length_replicate, fun v hv => ?_⟩
      rw [List.eq_of_mem_replicate hv]
      exact shaped_zeroed element
  | .workhorse w => rw [Shaped]; trivial; nofun
  | .struct fields => rw [Shaped]; trivial; nofun
  | .tuple fields => rw [Shaped]; trivial; nofun
  | .variant alternatives => rw [Shaped]; trivial; nofun
  | .array element => rw [Shaped]; trivial; nofun
  | .table key value => rw [Shaped]; trivial; nofun

theorem shaped_of_hasType (t : Ty) (v : Val) (h : HasType same t v) : Shaped t v := by
  match t with
  | .fixed dim element =>
    rw [Shaped]
    cases v with
    | block bytes => exact Or.inl h.1
    | elements es =>
      exact Or.inr ⟨es, rfl, h.2.1, fun v hv => shaped_of_hasType element v (h.2.2 v hv)⟩
    | _ => exact h.elim
  | .workhorse w => rw [Shaped]; trivial; nofun
  | .struct fields => rw [Shaped]; trivial; nofun
  | .tuple fields => rw [Shaped]; trivial; nofun
  | .variant alternatives => rw [Shaped]; trivial; nofun
  | .array element => rw [Shaped]; trivial; nofun
  | .table key value => rw [Shaped]; trivial; nofun

theorem slot_new {key : Workhorse} {k v : Val} {ps : List (Val × Val)}
    (h : ∀ p ∈ ps, same key p.1 k = false) :
    slot same key k ps = none ∧ setSlot same key k v ps = ps ++ [(k, v)] := by
  induction ps with
  | nil => exact ⟨rfl, rfl⟩
  | cons p ps ih =>
    have hp : ¬ same key p.1 k = true := by
      rw [h p List.mem_cons_self]
      exact Bool.false_ne_true
    obtain ⟨hslot, hset⟩ := ih fun p' hp' => h p' (List.mem_cons_of_mem _ hp')
    exact ⟨by rw [slot, if_neg hp, hslot], by rw [setSlot, if_neg hp, hset]; rfl⟩

theorem loadPairs_loads {key : Workhorse} {value : Ty} {zeroed : Val}
    {loadValue : Val → MemSerializer → Outcome MemSerializer Val} {ps : List (Val × Val)}
    (h : ∀ p ∈ ps, key.HasType p.1 ∧ Loads (loadValue zeroed) (encode value p.2) p.2)
    (before : List (Val × Val))
    (hkeys : (before ++ ps).Pairwise fun p q => same key p.1 q.1 = false) :
    Loads (loadPairs fresh same key zeroed loadValue ps.length before)
      (ps.flatMap fun p => key.encode p.1 ++ encode value p.2) (before ++ ps) := by
  induction ps generalizing before with
  | nil =>
    rw [List.append_nil]
    exact Loads.pure before
  | cons p ps ih =>
    obtain ⟨hkey, hvalue⟩ := h p List.mem_cons_self
    have hnew : ∀ q ∈ before, same key q.1 p.1 = false := fun q hq =>
      (List.pairwise_append.mp hkeys).2.2 q hq p List.mem_cons_self
    rw [List.append_cons] at hkeys
    have hrest := ih (fun p' hp' => h p' (List.mem_cons_of_mem _ hp')) _ hkeys
    rw [List.flatMap_cons, List.append_assoc, List.append_cons before p ps]
    refine (Workhorse.load_loads hkey _).bind ?_
    have hslot := slot_new (v := p.2) hnew
    rw [hslot.1]
    refine hvalue.bind ?_
    rw [hslot.2]
    exact hrest

mutual

theorem load_loads (t : Ty) (v old : Val) (h : HasType same t v) (hsave : Savable t v)
    (hold : Shaped t old) : Loads (load fresh same t old) (encode t v) v := by
  refine Loads.of_lt fun hlt => ?_
  match t, v with
  | .workhorse w, v =>
    have hload : load fresh same (.workhorse w) old = w.load fresh old :=
      funext fun s => by rw [load]
    rw [hload, encode]
    exact Workhorse.load_loads h old
  | .struct fields, .record vs =>
    have hload : load fresh same (.struct fields) old = fun s =>
        (loadFields fresh same fields (Ty.zeroedFields fields) s).bind fun vs s =>
          .ok (.record vs) s := funext fun s => by rw [load]
    rw [hload, encode]
    rw [Savable] at hsave
    exact (loadFields_loads fields vs h hsave).map Val.record rfl
  | .tuple fields, .record vs =>
    have hload : load fresh same (.tuple fields) old = fun s =>
        (loadFields fresh same fields (Ty.zeroedFields fields) s).bind fun vs s =>
          .ok (.record vs) s := funext fun s => by rw [load]
    rw [hload, encode]
    rw [Savable] at hsave
    exact (loadFields_loads fields vs h hsave).map Val.record rfl
  | .variant alternatives, .variant index v =>
    have hload : load fresh same (.variant alternatives) old = fun s =>
        s.readInt.bind fun index s =>
          (loadAlternative fresh same alternatives index s).bind fun v s =>
            .ok (.variant index v) s := funext fun s => by rw [load]
    rw [hload, encode]
    rw [Savable] at hsave
    have hindex : index < 2 ^ 31 := h.1
    exact (Loads.readInt (by omega)).bind
      ((loadAlternative_loads alternatives index v h.2 hsave).map (Val.variant index) rfl)
  | .fixed dim element, .block bytes =>
    obtain ⟨hraw, hlen⟩ : element.isRawBlock = true ∧ bytes.length = dim * element.getSizeOf := h
    have hload : load fresh same (.fixed dim element) old = fun s =>
        (s.read bytes.length).bind fun bytes s => .ok (bytes.elim old .block) s :=
      funext fun s => by cases old <;> rw [load, if_pos hraw, hlen] <;> nofun
    rw [hload, encode]
    rw [Savable] at hsave
    exact (Loads.read hsave).map (fun bytes => bytes.elim old .block) rfl
  | .fixed dim element, .elements es =>
    obtain ⟨hraw, hlen, hes⟩ : element.isRawBlock = false ∧ es.length = dim ∧
      ∀ v ∈ es, HasType same element v := h
    rw [Shaped] at hold
    rw [Savable] at hsave
    obtain hraw' | ⟨olds, rfl, hlen', holds⟩ := hold
    · rw [hraw] at hraw'
      exact nomatch hraw'
    · have hload : load fresh same (.fixed dim element) (.elements olds) = fun s =>
          (changeEach (fun v s => load fresh same element v s) olds s).bind fun es s =>
            .ok (.elements es) s :=
        funext fun s => by rw [load, if_neg (by rw [hraw]; exact Bool.false_ne_true)]
      rw [hload, encode]
      refine (Loads.changeEach (hlen'.trans hlen.symm) fun old hold v hv => ?_).map Val.elements rfl
      exact load_loads element v old (hes v hv) (hsave v hv) (holds old hold)
  | .array element, .block bytes =>
    obtain ⟨hraw, len, hlen⟩ : element.isRawWorkhorse = true ∧
      ∃ len, bytes.length = len * element.getSizeOf := h
    have hpos := element.getSizeOf_pos hraw
    have hcount : bytes.length / element.getSizeOf = len := by
      rw [hlen, Nat.mul_div_cancel _ hpos]
    rw [encode, hcount] at hlt ⊢
    rw [List.length_append] at hlt
    have hle := Nat.le_mul_of_pos_right len hpos
    have hload : load fresh same (.array element) old = fun s => s.readInt.bind fun len s =>
        if isNegative len then
          .error (.throw s!"resizing array to negative size {(len : ℤ) - 2 ^ 32}") s
        else if len = 0 then .ok (.block []) s
        else (s.read (len * element.getSizeOf)).bind fun bytes s =>
          .ok (.block (bytes.getD (uninitialized fresh (len * element.getSizeOf)))) s :=
      funext fun s => by simp only [load, if_pos hraw]
    rw [hload]
    refine (Loads.readInt (by omega)).bind ?_
    simp only [if_neg (not_isNegative (show len < 2 ^ 31 by omega))]
    by_cases hzero : len = 0
    · subst hzero
      rw [Nat.zero_mul] at hlen
      obtain rfl := List.eq_nil_of_length_eq_zero hlen
      exact Loads.pure _
    · have hne : bytes ≠ [] := by
        rintro rfl
        have := Nat.mul_pos (Nat.pos_of_ne_zero hzero) hpos
        rw [← hlen] at this
        exact absurd this (lt_irrefl 0)
      simp only [if_neg hzero]
      rw [← hlen]
      exact (Loads.read hne).map
        (fun read => Val.block (read.getD (uninitialized fresh bytes.length))) rfl
  | .array element, .elements es =>
    obtain ⟨hraw, hes⟩ : element.isRawWorkhorse = false ∧ ∀ v ∈ es, HasType same element v := h
    rw [Savable] at hsave
    obtain ⟨hlen, hsave⟩ := hsave
    have hload : load fresh same (.array element) old = fun s => s.readInt.bind fun len s =>
        if isNegative len then
          .error (.throw s!"resizing array to negative size {(len : ℤ) - 2 ^ 32}") s
        else (changeEach (fun v s => load fresh same element v s)
          (List.replicate len element.zeroed) s).bind fun es s => .ok (.elements es) s :=
      funext fun s => by simp only [load, hraw, if_neg Bool.false_ne_true]
    rw [hload, encode]
    refine (Loads.readInt (by omega)).bind ?_
    simp only [if_neg (not_isNegative hlen)]
    refine (Loads.changeEach List.length_replicate fun old hold v hv => ?_).map Val.elements rfl
    rw [List.eq_of_mem_replicate hold]
    exact load_loads element v _ (hes v hv) (hsave v hv) (shaped_zeroed element)
  | .table key value, .pairs ps =>
    obtain ⟨hps, hkeys⟩ : (∀ p ∈ ps, key.HasType p.1 ∧ HasType same value p.2) ∧
      ps.Pairwise (fun p q : Val × Val => same key p.1 q.1 = false) := h
    rw [Savable] at hsave
    rw [encode] at hlt ⊢
    rw [List.length_append] at hlt
    have hlen := table_length value fun p hp => (hps p hp).1
    have hload : load fresh same (.table key value) old = fun s => s.readInt.bind fun len s =>
        (loadPairs fresh same key value.zeroed (fun v s => load fresh same value v s)
          (if isNegative len then 0 else len) [] s).bind fun ps s => .ok (.pairs ps) s :=
      funext fun s => by rw [load]
    rw [hload]
    refine (Loads.readInt (by omega)).bind ?_
    rw [if_neg (not_isNegative (by omega))]
    refine (loadPairs_loads (fun p hp => ⟨(hps p hp).1, ?_⟩) [] hkeys).map Val.pairs rfl
    exact load_loads value p.2 _ (hps p hp).2 (hsave p hp) (shaped_zeroed value)

theorem loadFields_loads (ts : List Ty) (vs : List Val) (h : HaveTypes same ts vs)
    (hsave : SavableFields ts vs) :
    Loads (loadFields fresh same ts (Ty.zeroedFields ts)) (encodeFields ts vs) vs := by
  match ts, vs with
  | [], [] =>
    have hload : loadFields fresh same [] (Ty.zeroedFields []) = fun s => .ok [] s :=
      funext fun s => by rw [Ty.zeroedFields, loadFields]
    rw [hload, encodeFields]
    · exact Loads.pure []
    all_goals exact fun _ _ _ _ => nofun
  | t :: ts, v :: vs =>
    have hload : loadFields fresh same (t :: ts) (Ty.zeroedFields (t :: ts)) = fun s =>
        (load fresh same t t.zeroed s).bind fun v s =>
          (loadFields fresh same ts (Ty.zeroedFields ts) s).bind fun vs s => .ok (v :: vs) s :=
      funext fun s => by rw [Ty.zeroedFields, loadFields]
    rw [hload, encodeFields]
    rw [SavableFields] at hsave
    exact (load_loads t v _ h.1 hsave.1 (shaped_zeroed t)).bind
      ((loadFields_loads ts vs h.2 hsave.2).map (fun vs => v :: vs) rfl)

theorem loadAlternative_loads (ts : List Ty) (i : ℕ) (v : Val) (h : HasTypeAt same ts i v)
    (hsave : SavableAt ts i v) :
    Loads (loadAlternative fresh same ts i) (encodeAt ts i v) v := by
  match ts, i with
  | [], _ => exact h.elim
  | t :: ts, 0 =>
    have hload : loadAlternative fresh same (t :: ts) 0 = load fresh same t t.zeroed :=
      funext fun s => by rw [loadAlternative]
    rw [hload, encodeAt]
    rw [SavableAt] at hsave
    exact load_loads t v _ h hsave (shaped_zeroed t)
  | t :: ts, i + 1 =>
    have hload : loadAlternative fresh same (t :: ts) (i + 1) = loadAlternative fresh same ts i :=
      funext fun s => by rw [loadAlternative]
    rw [hload, encodeAt]
    rw [SavableAt] at hsave
    exact loadAlternative_loads ts i v h hsave

end

/-! ## Archives in memory -/

/-- **What is asked of an archive**: the variable is as the value was, and all bytes are read. -/
def RoundTrips (fresh : ℕ → UInt8) (same : Workhorse → Val → Val → Bool) (canfail : Bool) (t : Ty)
    (v old : Val) : Prop :=
  ∃ data s, memArchiveSave t v = .ok data s ∧ ∃ s',
    memArchiveLoad fresh same canfail data t old = .ok (true, v) s' ∧ s'.readOffset = data.length

/-- **An archive gives back what was put in**, into a variable that held anything, if nothing in it
is refused. -/
theorem archive_roundTrips (canfail : Bool) {t : Ty} {v old : Val} (hv : HasType same t v)
    (hold : HasType same t old) (hlt : (encode t v).length < 2 ^ 31) :
    RoundTrips fresh same canfail t v old ↔ Savable t v := by
  have hsaves := save_saves t v hv ⟨[], 0, ""⟩ (by rw [List.length_nil]; omega)
  constructor
  · rintro ⟨data, s, hsave, -⟩
    by_contra hno
    obtain ⟨e, s', he⟩ := hsaves.2 hno
    rw [memArchiveSave, he] at hsave
    exact nomatch hsave
  · intro hsavable
    have hloads : Loads (load fresh same t old) (encode t v) v :=
      load_loads t v old hv hsavable (shaped_of_hasType t old hold)
    have hload := hloads ⟨encode t v, 0, ""⟩ [] [] (by rw [List.append_nil, List.nil_append]) rfl hlt
    refine ⟨encode t v, ⟨encode t v, 0, ""⟩, ?_, ⟨encode t v, (encode t v).length, ""⟩, ?_, rfl⟩
    · rw [memArchiveSave, hsaves.1 hsavable]
      rfl
    · rw [memArchiveLoad, hload, List.length_nil, Nat.zero_add]
      rfl

/-- Keys that are the same have the same bytes. -/
def sameBytes : Workhorse → Val → Val → Bool
  | _, .block a, .block b => a = b
  | _, .text a, .text b => a = b
  | _, _, _ => false

theorem archive_roundTrips_table :
    RoundTrips (fun _ => 0) sameBytes false (.table .string (.workhorse (.scalar .tInt)))
      (.pairs [(.text [97], .block [1, 0, 0, 0]), (.text [], .block [2, 0, 0, 0])])
      (.pairs [(.text [98], .block [3, 0, 0, 0])]) := by
  have hv : HasType sameBytes (.table .string (.workhorse (.scalar .tInt)))
      (.pairs [(.text [97], .block [1, 0, 0, 0]), (.text [], .block [2, 0, 0, 0])]) := by
    simp [HasType, Workhorse.HasType, Scalar.size, sameBytes]
  have hold : HasType sameBytes (.table .string (.workhorse (.scalar .tInt)))
      (.pairs [(.text [98], .block [3, 0, 0, 0])]) := by
    simp [HasType, Workhorse.HasType, Scalar.size]
  refine (archive_roundTrips false hv hold (by decide)).mpr ?_
  simp [Savable]

theorem emptyBlock_refused :
    HasType sameBytes (.fixed 2 (.fixed 2 (.struct []))) (.block []) ∧
      (encode (.fixed 2 (.fixed 2 (.struct []))) (.block [])).length < 2 ^ 31 ∧
      ¬ RoundTrips (fun _ => 0) sameBytes false (.fixed 2 (.fixed 2 (.struct []))) (.block [])
        (.block []) := by
  refine ⟨⟨rfl, rfl⟩, by decide, ?_⟩
  rintro ⟨data, s, hsave, -⟩
  exact nomatch hsave

end DaScript.Archive

import DaScript.Daslib.RegexReplace

/-!
# Daslib/RegexNul — a text with a NUL in it

`\x00` is a character of a pattern.  Its text is empty and its length is 1, so a text it is part of
is shorter in memory than `textLen` says, and `memcmp` goes on behind it.  At the end of a subject
it goes on behind the subject as well.
-/

namespace DaScript.Regex

open Searching Text

/-- `node.text` in memory: adding the text of a NUL adds nothing. -/
def inMemory (text : List UInt8) : List UInt8 := text.filter (· ≠ 0) ++ [0]

/-- Whether so many bytes are the same, up to the first that differ; `none` reads past the end of
one of the strings. -/
def compareBytes (same : UInt8 → UInt8 → Bool) : ℕ → List UInt8 → List UInt8 → Option Bool
  | 0, _, _ => some true
  | n + 1, a :: as, b :: bs => if same a b then compareBytes same n as bs else some false
  | _ + 1, _, _ => none

/-- `re_match2_char` and `re_match2_char_ci` with nothing next, over the bytes in memory. -/
def tryText (regex : Regex) (s text : List UInt8) (str : ℕ) : Option Found :=
  if s.length ≤ str then some .null
  else
    (compareBytes (fun a b => regex.fold b = regex.fold a) text.length (inMemory text)
      (s.drop str ++ [0])).map fun same => if same then .pos (str + text.length) else .null

/-- **A text cannot leave the subject**: if there is a NUL in it, what else is in it is not what the
subject ends with. -/
def NulSafe (regex : Regex) (s text : List UInt8) : Prop :=
  0 ∈ text → ∀ str < s.length,
    (s.drop str).map regex.fold ≠ (text.filter (· ≠ 0)).map regex.fold

mutual

/-- The texts of a tree. -/
def texts : ReNode → List (List UInt8)
  | .char first others => [first :: others]
  | .group _ _ subexpr | .plus _ subexpr | .star _ subexpr | .question _ subexpr
  | .repeated _ _ _ subexpr | .lookahead subexpr | .negativeLookahead subexpr => texts subexpr
  | .concat left right => texts left ++ texts right
  | .union all => textsOfAll all
  | .set _ | .any | .eos | .bos | .wordBoundary | .nonWordBoundary => []

def textsOfAll : List ReNode → List (List UInt8)
  | [] => []
  | node :: nodes => texts node ++ textsOfAll nodes

end

section

variable {regex : Regex} {s text : List UInt8}

theorem fold_eq_zero {c : UInt8} : regex.fold c = 0 ↔ c = 0 := by
  rw [fold]
  split_ifs
  · rw [ciLower]
    split_ifs with h
    · obtain ⟨hlo, hhi⟩ := h
      have hlo' : 65 ≤ c.toNat := UInt8.le_iff_toNat_le.mp hlo
      have hhi' : c.toNat ≤ 90 := UInt8.le_iff_toNat_le.mp hhi
      refine iff_of_false (fun h => ?_) fun h => ?_
      · have hnat := congrArg UInt8.toNat h
        rw [UInt8.toNat_add] at hnat
        change (c.toNat + 32) % 256 = 0 at hnat
        omega
      · rw [h] at hlo'
        exact absurd hlo' (by decide)
    · exact Iff.rfl
  · exact Iff.rfl

theorem fold_zero : regex.fold 0 = 0 := fold_eq_zero.2 rfl

theorem compareBytes_plain {regex : Regex} {text d : List UInt8} (htext : 0 ∉ text) (hd : 0 ∉ d) :
    compareBytes (fun a b => regex.fold b = regex.fold a) text.length (text ++ [0]) (d ++ [0])
      = some (decide ((d.take text.length).map regex.fold = text.map regex.fold)) := by
  induction text generalizing d with
  | nil => rfl
  | cons a text ih =>
    obtain ⟨ha, htext⟩ := not_or.mp (List.mem_cons.not.mp htext)
    cases d with
    | nil =>
      have hne : ¬ (regex.fold 0 = regex.fold a) := fun h => by
        rw [fold_zero] at h
        exact ha (fold_eq_zero.1 h.symm).symm
      rw [List.length_cons, List.cons_append, List.nil_append, compareBytes]
      simp [hne]
    | cons b d =>
      obtain ⟨-, hd⟩ := not_or.mp (List.mem_cons.not.mp hd)
      rw [List.length_cons, List.cons_append, List.cons_append, compareBytes, ih htext hd,
        List.take_succ_cons, List.map_cons, List.map_cons]
      by_cases hab : regex.fold b = regex.fold a
      · simp [hab]
      · simp [hab]

theorem compareBytes_differ {t d : List UInt8} (ht : 0 ∉ t) (hd : 0 ∉ d) {n : ℕ}
    (hn : t.length < n) (hne : d.map regex.fold ≠ t.map regex.fold) :
    compareBytes (fun a b => regex.fold b = regex.fold a) n (t ++ [0]) (d ++ [0])
      = some false := by
  induction t generalizing d n with
  | nil =>
    obtain ⟨n, rfl⟩ := Nat.exists_eq_succ_of_ne_zero (Nat.ne_of_gt hn)
    cases d with
    | nil => exact absurd rfl hne
    | cons b d =>
      have hb : ¬ (regex.fold b = regex.fold 0) := fun h => by
        rw [fold_zero] at h
        exact hd (List.mem_cons.mpr (.inl (fold_eq_zero.1 h).symm))
      rw [List.nil_append, List.cons_append, compareBytes]
      simp [hb]
  | cons a t ih =>
    obtain ⟨n, rfl⟩ := Nat.exists_eq_succ_of_ne_zero (Nat.ne_of_gt (Nat.zero_lt_of_lt hn))
    obtain ⟨ha, ht⟩ := not_or.mp (List.mem_cons.not.mp ht)
    cases d with
    | nil =>
      have hne : ¬ (regex.fold 0 = regex.fold a) := fun h => by
        rw [fold_zero] at h
        exact ha (fold_eq_zero.1 h.symm).symm
      rw [List.nil_append, List.cons_append, compareBytes]
      simp [hne]
    | cons b d =>
      obtain ⟨-, hd⟩ := not_or.mp (List.mem_cons.not.mp hd)
      rw [List.cons_append, List.cons_append, compareBytes]
      by_cases hab : regex.fold b = regex.fold a
      · have hrest : d.map regex.fold ≠ t.map regex.fold := fun h => hne (by
          rw [List.map_cons, List.map_cons, hab, h])
        simp [hab, ih ht hd (Nat.lt_of_succ_lt_succ hn) hrest]
      · simp [hab]

theorem length_filter_lt (hnul : 0 ∈ text) : (text.filter (· ≠ 0)).length < text.length := by
  refine lt_of_le_of_ne (List.length_filter_le _ _) fun h => ?_
  exact absurd (List.length_filter_eq_length_iff.mp h 0 hnul) (by decide)

theorem tryText_eq (hs : 0 ∉ s) (htext : NulSafe regex s text) (str : ℕ) :
    tryText regex s text str = some (reMatch2Char regex s text none str) := by
  rw [tryText, reMatch2Char]
  by_cases hle : s.length ≤ str
  · rw [if_pos hle, if_pos hle]
  rw [if_neg hle, if_neg hle]
  have hd : 0 ∉ s.drop str := fun h => hs (List.mem_of_mem_drop h)
  by_cases hnul : 0 ∈ text
  · have hshorter := length_filter_lt hnul
    have hfree : (0 : UInt8) ∉ text.filter (· ≠ 0) := fun h =>
      absurd (List.mem_filter.mp h).2 (by decide)
    have hno : ¬ ((s.drop str).take text.length).map regex.fold = text.map regex.fold := by
      intro h
      have hmem : (0 : UInt8) ∈ text.map regex.fold := List.mem_map.mpr ⟨0, hnul, fold_zero⟩
      rw [← h] at hmem
      obtain ⟨c, hc, hzero⟩ := List.mem_map.mp hmem
      exact hd (fold_eq_zero.1 hzero ▸ List.mem_of_mem_take hc)
    rw [inMemory, compareBytes_differ hfree hd hshorter (htext hnul str (Nat.lt_of_not_le hle)),
      if_neg hno]
    rfl
  · have hall : text.filter (· ≠ 0) = text := List.filter_eq_self.mpr fun c hc =>
      decide_eq_true fun h => hnul (h ▸ hc)
    rw [inMemory, hall, compareBytes_plain hnul hd]
    by_cases heq : ((s.drop str).take text.length).map regex.fold = text.map regex.fold
    · rw [if_pos heq, decide_eq_true heq]
      rfl
    · rw [if_neg heq, decide_eq_false heq]
      rfl

theorem compareBytes_same {t d : List UInt8} (hsame : d.map regex.fold = t.map regex.fold)
    {n : ℕ} (hn : t.length < n) :
    compareBytes (fun a b => regex.fold b = regex.fold a) n (t ++ [0]) (d ++ [0])
      = if n = t.length + 1 then some true else none := by
  induction t generalizing d n with
  | nil =>
    obtain rfl : d = [] := List.map_eq_nil_iff.mp hsame
    obtain ⟨n, rfl⟩ := Nat.exists_eq_succ_of_ne_zero (Nat.ne_of_gt hn)
    cases n <;> simp [compareBytes]
  | cons a t ih =>
    obtain ⟨n, rfl⟩ := Nat.exists_eq_succ_of_ne_zero (Nat.ne_of_gt (Nat.zero_lt_of_lt hn))
    cases d with
    | nil => exact absurd hsame (List.cons_ne_nil _ _).symm
    | cons b d =>
      obtain ⟨hab, hsame⟩ := List.cons.inj hsame
      rw [List.cons_append, List.cons_append, compareBytes, ih hsame (Nat.lt_of_succ_lt_succ hn)]
      simp [hab]

/-- **Only a text that is not safe leaves the subject**: it is compared past an end, or matches
there. -/
theorem nulSafe_iff (hs : 0 ∉ s) : NulSafe regex s text ↔
    ∀ str, ∃ r, tryText regex s text str = some r ∧ ∀ k, r = .pos k → k ≤ s.length := by
  constructor
  · intro hsafe str
    refine ⟨_, tryText_eq hs hsafe str, fun k hk => ?_⟩
    rw [reMatch2Char] at hk
    split_ifs at hk with hle heq
    have hlength := congrArg List.length heq
    rw [List.length_map, List.length_map, List.length_take, List.length_drop] at hlength
    obtain rfl := Found.pos.inj hk
    omega
  · intro hinside hnul str hlt hsame
    obtain ⟨r, hr, hle⟩ := hinside str
    have hshorter : (text.filter (· ≠ 0)).length < text.length := length_filter_lt hnul
    rw [tryText, if_neg (Nat.not_le_of_lt hlt), inMemory, compareBytes_same hsame hshorter] at hr
    split_ifs at hr with hlast
    · have hlength := congrArg List.length hsame
      rw [List.length_map, List.length_map, List.length_drop] at hlength
      have hend := hle (str + text.length) (Option.some.inj hr).symm
      omega
    · cases hr

end

theorem nulSafe_iff_a : 0 ∉ text "a" ∧
    (NulSafe (compiled false false (.char (ch 'a') [0])) (text "a") [ch 'a', 0] ↔
      ∀ str, ∃ r, tryText (compiled false false (.char (ch 'a') [0])) (text "a") [ch 'a', 0] str
        = some r ∧ ∀ k, r = .pos k → k ≤ (text "a").length) :=
  ⟨by decide, nulSafe_iff (by decide)⟩

end DaScript.Regex

import DaScript.Daslib.BoolArrayRuns

/-!
# Daslib/BoolArrayEach — the iterator over an array of bits

`each` of `daslib/bool_array.das` reads the words through a pointer, which nothing checks: a word
for each 32 elements, and one more for the rest, which is read also where there is no rest.
-/

namespace DaScript

open Bitmap

namespace BoolArray

variable {self : BoolArray} {l : List Bool}

/-- `data_ptr[offs]` -/
def dataPtr (self : BoolArray) (offs : ℕ) : Except Fault (BitVec 32) :=
  match self.bits[offs]? with
  | some w => .ok w
  | none => .error (.undefined "a word behind the last")

/-- The loop over the bits of a word: what it yields. -/
def yieldBits : ℕ → BitVec 32 → List Bool
  | 0, _ => []
  | n + 1, bitsValue => (bitsValue &&& 1#32 != 0#32) :: yieldBits n (bitsValue >>> 1)

/-- The bits of a word are yielded, after what was before. -/
def yieldWord (self : BoolArray) (offs n : ℕ) (yielded : List Bool) : Outcome (List Bool) Unit :=
  match self.dataPtr offs with
  | .ok bitsValue => .ok () (yielded ++ yieldBits n bitsValue)
  | .error fault => .error fault yielded

/-- The loop over the words that are full. -/
def yieldWords (self : BoolArray) : List ℕ → List Bool → Outcome (List Bool) Unit
  | [], yielded => .ok () yielded
  | offs :: rest, yielded =>
    (yieldWord self offs 32 yielded).bind fun _ yielded => yieldWords self rest yielded

/-- `each`: what it yields, until it ends or stops. -/
def each (self : BoolArray) : Outcome (List Bool) Unit :=
  let len := self.length
  if len = 0 then .ok () []
  else
    let fullUints := uint len / 32
    let remainingBits := uint len % 32
    (yieldWords self (List.range fullUints) []).bind fun _ yielded =>
      yieldWord self fullUints remainingBits yielded

/-! ## What it yields -/

theorem getLsbD_zero_eq (w : BitVec 32) : (w &&& 1#32 != 0#32) = w.getLsbD 0 := by
  have hflag := and_flag_eq_zero (w := w) (show 0 < 32 by decide)
  rw [show flag 0 = 1#32 from rfl] at hflag
  cases hbit : w.getLsbD 0 with
  | true =>
    refine bne_iff_ne.mpr fun hzero => ?_
    rw [hflag.mp hzero] at hbit
    cases hbit
  | false => rw [hflag.mpr hbit, bne_self_eq_false]

theorem yieldBits_eq (n : ℕ) (w : BitVec 32) :
    yieldBits n w = (List.range n).map fun b => w.getLsbD b := by
  induction n generalizing w with
  | zero => rfl
  | succ n ih =>
    rw [yieldBits, ih, List.range_succ_eq_map, List.map_cons, List.map_map, getLsbD_zero_eq]
    congr 1
    refine List.map_congr_left fun b _ => ?_
    rw [BitVec.getLsbD_ushiftRight, Function.comp_apply, Nat.add_comm]

theorem yieldWord_ok {offs n : ℕ} (hoffs : offs < self.bits.length) (hn : n ≤ 32)
    (h : Holds self l) (hl : 32 * offs + n ≤ l.length) :
    yieldWord self offs n (l.take (32 * offs)) = .ok () (l.take (32 * offs + n)) := by
  have hword : yieldBits n (self.bits.getD offs 0#32) = (l.drop (32 * offs)).take n := by
    rw [yieldBits_eq]
    refine List.ext_getElem? fun b => ?_
    rw [List.getElem?_map, List.getElem?_take, List.getElem?_drop]
    by_cases hb : b < n
    · rw [List.getElem?_range hb, if_pos hb, Option.map_some, bitAt_word _ _ (by omega),
        h.bits _ (by omega)]
    · rw [List.getElem?_eq_none (by rw [List.length_range]; omega), if_neg hb, Option.map_none]
  rw [yieldWord, dataPtr, List.getElem?_eq_getElem hoffs, ← List.getD_eq_getElem _ 0#32 hoffs]
  dsimp only
  rw [hword, List.take_add]

theorem yieldWords_ok (h : Holds self l) {n : ℕ} (hn : n ≤ self.bits.length)
    (hl : 32 * n ≤ l.length) :
    yieldWords self (List.range n) [] = .ok () (l.take (32 * n)) := by
  have hfrom : ∀ k offs, offs + k = n →
      yieldWords self (List.range' offs k) (l.take (32 * offs)) = .ok () (l.take (32 * n)) := by
    intro k
    induction k with
    | zero => rintro offs rfl; rfl
    | succ k ih =>
      intro offs hoffs
      rw [List.range'_succ, yieldWords, yieldWord_ok (by omega) le_rfl h (by omega),
        Outcome.bind_ok, ← ih (offs + 1) (by omega), Nat.mul_succ]
  rw [List.range_eq_range', ← hfrom n 0 (Nat.zero_add n)]
  rfl

theorem Holds.each (h : Holds self l) (hl : l.length < 2 ^ 31) :
    BoolArray.each self = if l.length % 32 = 0 ∧ l ≠ [] then
      .error (.undefined "a word behind the last") l else .ok () l := by
  by_cases hnil : l = []
  · rw [if_neg fun hand => hand.2 hnil, BoolArray.each, length_ok h, hnil]
    rfl
  have hpos : 0 < l.length := List.length_pos_iff.mpr hnil
  have huint : uint self.length = l.length := by
    rw [length_ok h, uint]
    omega
  rw [BoolArray.each, if_neg (by rw [length_ok h]; omega)]
  dsimp only
  rw [huint, yieldWords_ok h (by rw [h.words]; omega) (by omega), Outcome.bind_ok]
  by_cases hrest : l.length % 32 = 0
  · rw [if_pos ⟨hrest, hnil⟩, yieldWord, dataPtr,
      List.getElem?_eq_none (by rw [h.words]; omega), List.take_of_length_le (by omega)]
  · rw [if_neg fun hand => hrest hand.1, yieldWord_ok (by rw [h.words]; omega) (by omega) h
      (by omega), Nat.div_add_mod, List.take_length]

/-! ## Runs -/

/-- **The arrays there are**: after any calls, whether they return or panic, with lengths below
2³¹. -/
inductive Reached : BoolArray → Prop
  | empty : Reached BoolArray.empty
  | call {self : BoolArray} (op : Op) (h : Reached self)
      (hlength : (BoolArray.call op self).state.realSize < 2 ^ 31) :
      Reached (BoolArray.call op self).state

theorem Reached.runs (h : Reached self) : ∃ l, Runs self l := by
  induction h with
  | empty => exact ⟨[], .empty⟩
  | @call self op h hlength ih =>
    obtain ⟨l, hruns⟩ := ih
    obtain ⟨hholds, hl⟩ := hruns.holds
    by_cases hchecked : Checked op l.length
    · refine ⟨after op l, .call op hruns hchecked ?_⟩
      have hsame := hholds.same hl hchecked
      rw [Same] at hsame
      rw [after]
      cases hlist : listCall op l with
      | none => exact hl
      | some p =>
        rw [hlist] at hsame
        obtain ⟨self', hcall, hholds'⟩ := hsame
        rw [hcall] at hlength
        rw [Option.map_some, Option.getD_some, ← hholds'.realSize]
        exact hlength
    · exact ⟨l, by rw [(not_same hchecked).1]; exact hruns⟩

/-- **The iterator is exact and in bounds** — it yields the elements and reads the words there are —
exactly where the length is no multiple of 32, or the array is empty. -/
theorem each_exact (h : Reached self) : ∃ l : List Bool, length self = l.length ∧
    (∀ k : ℕ, k < l.length → get k self = .ok (l.getD k false) self) ∧
    (each self = .ok () l ↔ length self % 32 ≠ 0 ∨ length self = 0) := by
  obtain ⟨l, hruns⟩ := h.runs
  obtain ⟨hholds, hl⟩ := hruns.holds
  refine ⟨l, length_ok hholds, fun k hk => ?_, ?_⟩
  · exact get_ok hholds hk (by rw [uint]; omega)
  · rw [hholds.each hl, length_ok hholds]
    by_cases hbad : l.length % 32 = 0 ∧ l ≠ []
    · have hpos := List.length_pos_iff.mpr hbad.2
      rw [if_pos hbad]
      exact iff_of_false (fun heach => by cases heach) (by omega)
    · rw [if_neg hbad]
      refine iff_of_true rfl ?_
      by_cases hnil : l = []
      · exact .inr (by rw [hnil]; rfl)
      · exact .inl (by have : l.length % 32 ≠ 0 := fun h => hbad ⟨h, hnil⟩; omega)

theorem each_exact_push : ∃ l : List Bool, length (call (.push true) empty).state = l.length ∧
    each (call (.push true) empty).state = .ok () l := by
  obtain ⟨l, hlength, -, heach⟩ := each_exact (.call (.push true) .empty (by decide))
  exact ⟨l, hlength, heach.mpr (.inl (by decide))⟩

theorem each_full_word : ∃ self, Reached self ∧ self.bits.length = 1 ∧
    each self = .error (.undefined "a word behind the last") (List.replicate 32 false) :=
  ⟨(call (.resize ⟨32, by decide⟩) empty).state, .call _ .empty (by decide), by decide, by decide⟩

end BoolArray

end DaScript

import DaScript.Simulate.QsortHeap
import DaScript.Simulate.QsortPartition

/-!
# Simulate/QsortRuns — the sort from beginning to end

Between two turns the array is in order but for pairs in one pending frame, and frames do not meet
(`Pending`); so a frame may be permuted, and once it is in order, or split at a pivot, so is what is
around it.

A frame put on the stack is no smaller than the one at hand: each doubles, and 64 of them are more
than `size_t` counts (`Halved`).
-/

namespace DaScript.Qsort

open Arrays

variable {α : Type} {cmp : α → α → Bool}

/-- Two frames do not meet. -/
def Apart (f g : Frame) : Prop := f.hi < g.lo ∨ g.hi < f.lo

/-- **In order, but for the frames.** -/
structure Pending (cmp : α → α → Bool) (nel : ℕ) (frames : List Frame) (a : ℕ → α) : Prop where
  inside : ∀ f ∈ frames, f.lo ≤ f.hi ∧ f.hi < nel
  apart : frames.Pairwise Apart
  ordered : ∀ x y, x < y → y < nel → AtMost cmp (a x) (a y) ∨ ∃ f ∈ frames, f.lo ≤ x ∧ y ≤ f.hi

section Pending

variable {nel : ℕ} {f : Frame} {stack : List Frame} {a b : ℕ → α}

theorem Pending.replace (h : Pending cmp nel (f :: stack) a)
    (hperm : Permutes f.lo (f.hi + 1) a b) (frames : List Frame)
    (hin : ∀ g ∈ frames, f.lo ≤ g.lo ∧ g.lo ≤ g.hi ∧ g.hi ≤ f.hi)
    (hapart : frames.Pairwise Apart)
    (hord : ∀ x y, f.lo ≤ x → x < y → y ≤ f.hi →
      AtMost cmp (b x) (b y) ∨ ∃ g ∈ frames, g.lo ≤ x ∧ y ≤ g.hi) :
    Pending cmp nel (frames ++ stack) b := by
  obtain ⟨hinside, hpair, hordered⟩ := h
  rw [List.pairwise_cons] at hpair
  have hf := hinside f List.mem_cons_self
  refine ⟨fun g hg => ?_, ?_, fun x y hxy hy => ?_⟩
  · rcases List.mem_append.mp hg with hg | hg
    · have h := hin g hg
      omega
    · exact hinside g (List.mem_cons_of_mem _ hg)
  · refine List.pairwise_append.mpr ⟨hapart, hpair.2, fun g hg g' hg' => ?_⟩
    have h := hin g hg
    rcases hpair.1 g' hg' with h' | h'
    · exact .inl (by omega)
    · exact .inr (by omega)
  · -- an order with a place outside the frame is one with every place inside
    have hmixed : ∀ x' y', x' < y' → y' < nel →
        (f.lo ≤ x' ∧ x' ≤ f.hi ∧ f.hi < y' ∨ x' < f.lo ∧ f.lo ≤ y' ∧ y' ≤ f.hi) →
        AtMost cmp (a x') (a y') := fun x' y' hxy' hy' hmix => by
      rcases hordered x' y' hxy' hy' with h | ⟨g, hg, hgx, hgy⟩
      · exact h
      · rcases List.mem_cons.mp hg with rfl | hg
        · omega
        · have h := hpair.1 g hg
          unfold Apart at h
          have hg' := hinside g (List.mem_cons_of_mem _ hg)
          omega
    by_cases hx : f.lo ≤ x ∧ x ≤ f.hi
    · by_cases hyf : y ≤ f.hi
      · rcases hord x y hx.1 hxy hyf with h | ⟨g, hg, hgx⟩
        · exact .inl h
        · exact .inr ⟨g, List.mem_append_left _ hg, hgx⟩
      · refine .inl ?_
        rw [hperm.outside (show y < f.lo ∨ f.hi + 1 ≤ y by omega)]
        exact hperm.all (P := fun z => AtMost cmp z (a y))
          (fun k hk hk' => hmixed k y (by omega) hy (by omega)) x hx.1 (by omega)
    · rw [hperm.outside (show x < f.lo ∨ f.hi + 1 ≤ x by omega)]
      by_cases hyf : f.lo ≤ y ∧ y ≤ f.hi
      · refine .inl ?_
        exact hperm.all (P := fun z => AtMost cmp (a x) z)
          (fun k hk hk' => hmixed x k (by omega) (by omega) (by omega)) y hyf.1 (by omega)
      · rw [hperm.outside (show y < f.lo ∨ f.hi + 1 ≤ y by omega)]
        rcases hordered x y hxy hy with h | ⟨g, hg, hgx⟩
        · exact .inl h
        · rcases List.mem_cons.mp hg with rfl | hg
          · omega
          · exact .inr ⟨g, List.mem_append_right _ hg, hgx⟩

end Pending

/-! ## The stack -/

/-- The elements of a frame. -/
def Frame.size (f : Frame) : ℕ := f.hi + 1 - f.lo

/-- **Each frame halved**, as often as there are frames under it. -/
def Halved (nel : ℕ) : List Frame → Prop
  | [] => True
  | f :: stack => f.size * 2 ^ stack.length ≤ nel ∧ Halved nel stack

/-- The turns that frames take: two for an element, and one to leave. -/
def turns : List Frame → ℕ
  | [] => 0
  | f :: stack => 2 * f.size + 1 + turns stack

theorem push_eq {nel : ℕ} {f : Frame} {stack : List Frame} (g : Frame) (hf : f.lo ≤ f.hi)
    (h : Halved nel (f :: stack)) (hnel : nel < 2 ^ 64) : push g stack = some (g :: stack) := by
  refine if_pos ?_
  have hsize : 1 ≤ f.size := by
    unfold Frame.size
    omega
  have hpow : 2 ^ stack.length < 2 ^ 64 := by
    calc 2 ^ stack.length = 1 * 2 ^ stack.length := (one_mul _).symm
      _ ≤ f.size * 2 ^ stack.length := Nat.mul_le_mul_right _ hsize
      _ < 2 ^ 64 := lt_of_le_of_lt h.1 hnel
  have hlen := (Nat.pow_lt_pow_iff_right (by decide)).mp hpow
  omega

/-- What is left of a frame: the sides of a pivot. -/
def sides (f : Frame) (p : ℕ) : List Frame :=
  (if p > f.lo then [⟨f.lo, p - 1, f.depth - 1⟩] else []) ++
    if p + 1 < f.hi then [⟨p + 1, f.hi, f.depth - 1⟩] else []

theorem halved_two {nel : ℕ} {f g g' : Frame} {stack : List Frame}
    (h : Halved nel (f :: stack)) (hle : g.size ≤ g'.size) (hsum : g.size + g'.size ≤ f.size) :
    Halved nel (g :: g' :: stack) := by
  refine ⟨?_, ?_, h.2⟩
  · refine le_trans ?_ h.1
    rw [List.length_cons, pow_succ', ← Nat.mul_assoc]
    exact Nat.mul_le_mul_right _ (by omega)
  · exact le_trans (Nat.mul_le_mul_right _ (by omega)) h.1

theorem halved_one {nel : ℕ} {f g : Frame} {stack : List Frame} (h : Halved nel (f :: stack))
    (hle : g.size ≤ f.size) : Halved nel (g :: stack) :=
  ⟨le_trans (Nat.mul_le_mul_right _ hle) h.1, h.2⟩

theorem split_spec {nel : ℕ} {f : Frame} {p : ℕ} {stack : List Frame} (hf : f.lo < f.hi)
    (hp : f.lo ≤ p ∧ p ≤ f.hi) (h : Halved nel (f :: stack)) (hnel : nel < 2 ^ 64) :
    ∃ frames, split f p stack = some (frames ++ stack) ∧ frames.Perm (sides f p) ∧
      Halved nel (frames ++ stack) ∧ turns (frames ++ stack) < turns (f :: stack) := by
  have hpush := fun g => push_eq g hf.le h hnel
  unfold split sides
  by_cases hl : p > f.lo <;> by_cases hr : p + 1 < f.hi <;>
    by_cases hless : p - f.lo < f.hi - p <;>
    simp only [hl, hr, hless, if_true, if_false, hpush, Option.bind_eq_bind, Option.bind_some]
  · refine ⟨[⟨f.lo, p - 1, f.depth - 1⟩, ⟨p + 1, f.hi, f.depth - 1⟩], rfl, List.Perm.refl _, ?_, ?_⟩
    · exact halved_two h (by dsimp only [Frame.size]; omega) (by dsimp only [Frame.size]; omega)
    · dsimp only [turns, Frame.size, List.cons_append, List.nil_append]
      omega
  · refine ⟨[⟨p + 1, f.hi, f.depth - 1⟩, ⟨f.lo, p - 1, f.depth - 1⟩], rfl, List.Perm.swap _ _ _,
      ?_, ?_⟩
    · exact halved_two h (by dsimp only [Frame.size]; omega) (by dsimp only [Frame.size]; omega)
    · dsimp only [turns, Frame.size, List.cons_append, List.nil_append]
      omega
  · refine ⟨[⟨f.lo, p - 1, f.depth - 1⟩], rfl, List.Perm.refl _, ?_, ?_⟩
    · exact halved_one h (by dsimp only [Frame.size]; omega)
    · dsimp only [turns, Frame.size, List.cons_append, List.nil_append]
      omega
  · refine ⟨[⟨f.lo, p - 1, f.depth - 1⟩], rfl, List.Perm.refl _, ?_, ?_⟩
    · exact halved_one h (by dsimp only [Frame.size]; omega)
    · dsimp only [turns, Frame.size, List.cons_append, List.nil_append]
      omega
  · refine ⟨[⟨p + 1, f.hi, f.depth - 1⟩], rfl, List.Perm.refl _, ?_, ?_⟩
    · exact halved_one h (by dsimp only [Frame.size]; omega)
    · dsimp only [turns, Frame.size, List.cons_append, List.nil_append]
      omega
  · omega
  · exact ⟨[], rfl, List.Perm.refl _, h.2, by dsimp only [turns, List.nil_append]; omega⟩
  · exact ⟨[], rfl, List.Perm.refl _, h.2, by dsimp only [turns, List.nil_append]; omega⟩

/-! ## Turns -/

section Runs

variable [IsStrictWeakOrder α (fun x y => cmp x y = true)] {nel : ℕ}

theorem Pending.sides {f : Frame} {p : ℕ} {stack frames : List Frame} {a b : ℕ → α}
    (h : Pending cmp nel (f :: stack) a) (hperm : Permutes f.lo (f.hi + 1) a b)
    (hpart : Partitioned cmp f.lo p f.hi b) (hframes : frames.Perm (sides f p)) :
    Pending cmp nel (frames ++ stack) b := by
  obtain ⟨hp, hbelow, habove⟩ := hpart
  have hmem : ∀ g, g ∈ frames ↔ (p > f.lo ∧ g = ⟨f.lo, p - 1, f.depth - 1⟩) ∨
      (p + 1 < f.hi ∧ g = ⟨p + 1, f.hi, f.depth - 1⟩) := fun g => by
    rw [hframes.mem_iff, Qsort.sides, List.mem_append]
    split_ifs with h1 h2 h2 <;> simp [h1, h2]
  refine h.replace hperm frames (fun g hg => ?_) ?_ fun x y hx hxy hy => ?_
  · rcases (hmem g).mp hg with ⟨h1, rfl⟩ | ⟨h1, rfl⟩ <;> dsimp only <;> omega
  · have hsides : (Qsort.sides f p).Pairwise Apart := by
      unfold Qsort.sides
      split_ifs with h1 h2
      · exact List.pairwise_pair.mpr (.inl (by dsimp only; omega))
      all_goals simp
    exact hframes.symm.pairwise hsides fun h => Or.symm h
  · by_cases hleft : y < p
    · exact .inr ⟨_, (hmem _).mpr (.inl ⟨by omega, rfl⟩), hx, by dsimp only; omega⟩
    · by_cases hright : p < x
      · exact .inr ⟨_, (hmem _).mpr (.inr ⟨by omega, rfl⟩), by dsimp only; omega, hy⟩
      · exact .inl ((hbelow x hx (by omega)).trans (habove y (by omega) hy))

theorem sortStep_spec (wide : Bool) {f : Frame} {stack : List Frame} {a : ℕ → α}
    (hf : f.lo < f.hi) (h : Pending cmp nel (f :: stack) a) (hhalved : Halved nel (f :: stack))
    (hnel : nel < 2 ^ 64) :
    ∃ b frames, sortStep cmp wide f stack a = some (b, frames) ∧ Pending cmp nel frames b ∧
      Permutes 0 nel a b ∧ Halved nel frames ∧ turns frames < turns (f :: stack) := by
  have hinside := h.inside f List.mem_cons_self
  have hdone : ∀ b, Permutes f.lo (f.hi + 1) a b → Ordered cmp b f.lo (f.hi + 1) →
      Pending cmp nel stack b := fun b hperm hord =>
    h.replace hperm [] (by simp) List.Pairwise.nil
      fun x y hx hxy hy => .inl (hord x y hx hxy (by omega))
  have hturns : turns stack < turns (f :: stack) := by
    dsimp only [turns]
    omega
  unfold sortStep
  split_ifs
  · obtain ⟨hord, hperm⟩ := insertionTail_spec cmp f.lo (f.hi - f.lo) a
    rw [show f.lo + (f.hi - f.lo) = f.hi by omega] at hord hperm
    exact ⟨_, _, rfl, hdone _ hperm hord, hperm.mono (by omega) (by omega), hhalved.2, hturns⟩
  · obtain ⟨hord, hperm⟩ := heapsortHelper_spec cmp wide f.lo (f.hi - f.lo + 1) a
    rw [show f.lo + (f.hi - f.lo + 1) = f.hi + 1 by omega] at hord hperm
    exact ⟨_, _, rfl, hdone _ hperm hord, hperm.mono (by omega) (by omega), hhalved.2, hturns⟩
  · have hmedian := medianOf3_permutes cmp a hf
    obtain ⟨b, p, hrun, hpart, hperm⟩ :=
      partition_spec cmp (medianOf3 cmp a f.lo f.hi) wide hf
    obtain ⟨frames, hsplit, hframes, hhalved', hless⟩ := split_spec hf hpart.le hhalved hnel
    have hperm' := hmedian.trans hperm
    rw [hrun]
    dsimp only
    rw [hsplit]
    exact ⟨b, _, rfl, h.sides hperm' hpart hframes, hperm'.mono (by omega) (by omega), hhalved',
      hless⟩

variable (cmp) in
theorem sortLoop_spec (wide : Bool) (hnel : nel < 2 ^ 64) : ∀ (n : ℕ) (frames : List Frame)
    (a : ℕ → α), turns frames < n → Pending cmp nel frames a → Halved nel frames →
    ∃ b, sortLoop cmp wide n frames a = some b ∧ Permutes 0 nel a b ∧ Ordered cmp b 0 nel := by
  intro n
  induction n with
  | zero => exact fun _ _ h => absurd h (Nat.not_lt_zero _)
  | succ n ih =>
    intro frames a hturns h hhalved
    cases frames with
    | nil =>
      refine ⟨a, rfl, Permutes.refl _ _ _, fun x y _ hxy hy => ?_⟩
      rcases h.ordered x y hxy hy with hle | ⟨g, hg, -⟩
      · exact hle
      · exact nomatch hg
    | cons f stack =>
      rw [sortLoop]
      split_ifs with hf
      · obtain ⟨b, frames, hstep, hpend, hperm, hhalved', hless⟩ :=
          sortStep_spec wide hf h hhalved hnel
        obtain ⟨c, hrun, hperm', hord⟩ := ih frames b (by omega) hpend hhalved'
        rw [hstep]
        exact ⟨c, hrun, hperm.trans hperm', hord⟩
      · have hone : Pending cmp nel stack a := h.replace (Permutes.refl _ _ _) [] (by simp)
          List.Pairwise.nil fun x y hx hxy hy => by omega
        obtain ⟨c, hrun, hperm', hord⟩ := ih stack a (by dsimp only [turns] at hturns; omega) hone
          hhalved.2
        exact ⟨c, hrun, hperm', hord⟩

end Runs

/-- **`das_qsort_r` sorts**: it comes to its end without running over its stack, the elements are
those there were, no later one compares less than an earlier one, and nothing else is touched. -/
theorem qsort_sorts (wide : Bool) [IsStrictWeakOrder α (fun x y => cmp x y = true)] (nel : ℕ)
    (hnel : nel < 2 ^ 64) (a : ℕ → α) :
    ∃ b, qsort cmp wide nel a = some b ∧
      ((List.range nel).map b).Perm ((List.range nel).map a) ∧ Ordered cmp b 0 nel ∧
      ∀ k, nel ≤ k → b k = a k := by
  unfold qsort
  split_ifs with hone
  · exact ⟨a, rfl, List.Perm.refl _, fun x y _ hxy hy => by omega, fun _ _ => rfl⟩
  · obtain ⟨b, hrun, hperm, hord⟩ := sortLoop_spec cmp wide hnel (2 * nel + 2)
      [⟨0, nel - 1, maxDepth nel⟩] a (by dsimp only [turns, Frame.size]; omega)
      ⟨fun f hf => by
        obtain rfl := List.mem_singleton.mp hf
        dsimp only
        omega, List.pairwise_singleton _ _, fun x y _ hy =>
        .inr ⟨_, List.mem_singleton_self _, Nat.zero_le _, by dsimp only; omega⟩⟩
      ⟨by dsimp only [Frame.size, List.length_nil]; omega, trivial⟩
    exact ⟨b, hrun, hperm.perm, hord, fun k hk => hperm.outside (.inr hk)⟩

instance natBelow : IsStrictWeakOrder ℕ (fun x y => decide (x < y) = true) where
  irrefl x h := Nat.lt_irrefl x (of_decide_eq_true h)
  trans x y z h h' := decide_eq_true ((of_decide_eq_true h).trans (of_decide_eq_true h'))
  incomp_trans x y z h h' := by
    simp only [decide_eq_true_eq] at h h' ⊢
    omega

theorem qsort_sorts_down : ∃ b, qsort (fun x y => decide (x < y)) false 2000 (2000 - ·) = some b ∧
    ((List.range 2000).map b).Perm ((List.range 2000).map (2000 - ·)) ∧
    Ordered (fun x y => decide (x < y)) b 0 2000 ∧ ∀ k, 2000 ≤ k → b k = 2000 - k :=
  qsort_sorts false 2000 (by decide) _

end DaScript.Qsort

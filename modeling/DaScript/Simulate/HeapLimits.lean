import DaScript.Simulate.HeapRuns

/-!
# Simulate/HeapLimits — what a heap says it has allocated

`bytesAllocated` is a counter that each operation updates on its own: `allocate` and `free` by the
aligned size, `sweep` by the sizes of the slots, `reset` not at all.  A step leaves it equal to what
the callers hold exactly when it is `Settled` (`accounted_iff`): a reset with nothing held, a
collection where the blocks that stay fill their slots up.
-/

open Function

namespace DaScript

open Block

namespace MemoryModel

/-- **The steps the counter survives.** -/
def Settled (m : MemoryModel) (L : List Block) : HeapOp → Prop
  | .reset => L = []
  | .collect marks => ∀ b ∈ marks, m.aligned b ≤ m.maxShoeAllocation → m.aligned b % 16 = 0
  | _ => True

/-- The counter is what the callers hold, in aligned sizes. -/
def Accounted (m : MemoryModel) (L : List Block) : Prop :=
  m.bytesAllocated = (L.map m.aligned).sum

variable {m m' : MemoryModel} {L L' : List Block} {op : HeapOp}

theorem Same.aligned_eq (h : Same m m') : m'.aligned = m.aligned := by
  funext b
  rw [aligned, aligned, h.mask]

theorem sum_eq_sum_iff {α : Type*} {f g : α → ℕ} {l : List α} (hle : ∀ a ∈ l, f a ≤ g a) :
    (l.map g).sum = (l.map f).sum ↔ ∀ a ∈ l, g a = f a := by
  induction l with
  | nil => simp
  | cons a l ih =>
    obtain ⟨ha, hl⟩ := List.forall_mem_cons.mp hle
    have hsum : (l.map f).sum ≤ (l.map g).sum := List.sum_le_sum hl
    rw [List.map_cons, List.map_cons, List.sum_cons, List.sum_cons, List.forall_mem_cons, ← ih hl]
    omega

theorem Tracks.extent_size_iff (T : Tracks m L) {b : Block} (hb : b ∈ L) :
    (m.extent b).size = m.aligned b ↔
      (m.aligned b ≤ m.maxShoeAllocation → m.aligned b % 16 = 0) := by
  obtain ⟨hpos, hle, -⟩ := T.aligned_bounds hb
  have hsize : (m.extent b).size
      = if m.aligned b ≤ m.maxShoeAllocation then alignUp 15 (m.aligned b) else m.aligned b := rfl
  rw [hsize]
  split_ifs with hsmall
  · have hmax : m.aligned b ≤ 256 := by
      have : m.maxShoeAllocation = 256 ∨ m.maxShoeAllocation = 0 := T.wf.shoe_max
      omega
    rw [alignUp_fifteen (by omega)]
    simp only [hsmall, true_imp_iff]
    omega
  · simp [hsmall]

theorem sum_erase {f : Block → ℕ} {b : Block} (hb : b ∈ L) :
    (L.map f).sum = f b + ((L.erase b).map f).sum := by
  rw [((List.perm_cons_erase hb).map f).sum_eq, List.map_cons, List.sum_cons]

theorem Step.accounted_iff (h : Step m L op m' L') (T : Tracks m L) (hacc : Accounted m L) :
    Accounted m' L' ↔ Settled m L op := by
  obtain ⟨T', hsame⟩ := h.tracks T
  have hle := T.sum_aligned_le
  have hle' := T'.sum_aligned_le
  rw [Accounted, bytesAllocated] at hacc ⊢
  rw [hsame.aligned_eq] at hle' ⊢
  rw [addressSpace] at hle hle'
  cases h with
  | null hcall =>
    obtain ⟨-, rfl⟩ := Prod.mk.inj (Except.ok.inj hcall)
    exact iff_of_true hacc trivial
  | allocate hp hpos hsize hcall =>
    refine iff_of_true ?_ trivial
    rcases T.allocate hp hpos hsize with ⟨e, -, he⟩ | ⟨q, m'', hm'', -, -, -, htotal⟩
    · rw [hcall] at he
      cases he
    obtain ⟨hq, rfl⟩ := Prod.mk.inj (Except.ok.inj (hcall.symm.trans hm''))
    obtain rfl := Option.some.inj hq
    rw [List.map_cons, List.sum_cons] at hle' ⊢
    rw [htotal, hacc, Nat.mod_eq_of_lt (by omega), Nat.add_comm]
  | free hb hcall =>
    refine iff_of_true ?_ trivial
    obtain ⟨m'', hm'', -, -, -, htotal⟩ := T.free hb
    obtain ⟨-, rfl⟩ := Prod.mk.inj (Except.ok.inj (hcall.symm.trans hm''))
    rw [sum_erase (f := m.aligned) hb] at hacc hle
    rw [htotal, hacc]
    omega
  | reallocate hp hb hsize hcall =>
    refine iff_of_true ?_ trivial
    rcases T.reallocate hp hb hsize with ⟨e, -, he⟩ | ⟨q, m'', hm'', hmoved⟩
    · rw [hcall] at he
      cases he
    obtain ⟨hq, rfl⟩ := Prod.mk.inj (Except.ok.inj (hcall.symm.trans hm''))
    obtain rfl := Option.some.inj hq
    rw [sum_erase (f := m.aligned) hb] at hacc hle
    rw [List.map_cons, List.sum_cons] at hle' ⊢
    rw [hmoved.total, hacc]
    omega
  | reset =>
    change m.totalAllocated = 0 ↔ L = []
    rw [hacc]
    constructor
    · intro h0
      refine List.eq_nil_iff_forall_not_mem.mpr fun b hb => ?_
      have hb' := T.aligned_bounds hb
      have := sum_erase (f := m.aligned) hb
      omega
    · rintro rfl
      rfl
  | collect hmark hmarks hcall =>
    obtain ⟨-, -, -, htotal⟩ := collect_step T hmark hmarks hcall
    rw [htotal, sum_eq_sum_iff fun b hb =>
      (T.aligned_bounds (List.mem_of_mem_filter hb)).2.2, Settled]
    constructor
    · intro hall b hb
      exact (T.extent_size_iff (hmarks b hb)).mp
        (hall b (List.mem_filter.mpr ⟨hmarks b hb, decide_eq_true hb⟩))
    · intro hall b hb
      obtain ⟨hbL, hbm⟩ := List.mem_filter.mp hb
      exact (T.extent_size_iff hbL).mpr (hall b (of_decide_eq_true hbm))
  | setInitialSize => exact iff_of_true hacc trivial
  | setGrowFunction => exact iff_of_true hacc trivial
  | write => exact iff_of_true hacc trivial

/-- **A heap's accounting is exact over runs of settled steps**: what it says it has allocated is
what is held, in aligned sizes, so a limit refuses what does not fit beside that and nothing
else. -/
theorem reach_accounted (h : Reach Settled m L) :
    m.bytesAllocated = (L.map m.aligned).sum ∧
      ∀ (c : HeapCounters) (size : ℕ), (⟨c, m⟩ : PersistentHeap).admits size = false →
        c.limit < (L.map m.aligned).sum + size := by
  have hacc : Accounted m L := by
    induction h with
    | start => rfl
    | step hreach hok hstep ih => exact (hstep.accounted_iff hreach.tracks ih).mpr hok
  refine ⟨hacc, fun c size hno => ?_⟩
  have hno' := of_decide_eq_false hno
  rw [← hacc]
  have hmod := Nat.mod_le (m.bytesAllocated + size) (2 ^ 64)
  change ¬ (c.limit = 0 ∨ (m.bytesAllocated + size) % 2 ^ 64 ≤ c.limit) at hno'
  omega

theorem reach_accounted_one : ∃ p m,
    (new 15 maxShoe fun _ => 0).allocate onePage 100 = .ok (some p, m) ∧
      m.bytesAllocated = 112 := by
  obtain ⟨p, m, hcall, hmask⟩ : ∃ p m,
      (new 15 maxShoe fun _ => 0).allocate onePage 100 = .ok (some p, m) ∧ m.alignMask = 15 :=
    ⟨_, _, rfl, rfl⟩
  have hok : Settled (new 15 maxShoe fun _ => 0) [] (.allocate 100) := trivial
  have h := (reach_accounted (.step (.start (Or.inl rfl) (Or.inl rfl)) hok
    (.allocate honest_onePage (by decide) (by decide) hcall))).1
  refine ⟨p, m, hcall, h.trans ?_⟩
  rw [List.map_singleton, List.sum_singleton, aligned, hmask]
  change alignUp 15 100 = 112
  decide

theorem reset_keeps_count : ∃ m, Reach anyStep m [] ∧ m.bytesAllocated = 112 ∧
    (⟨⟨200, 0, 0, 0⟩, m⟩ : PersistentHeap).admits 100 = false := by
  obtain ⟨p, m, hcall, htotal⟩ : ∃ p m,
      (new 15 maxShoe fun _ => 0).allocate onePage 100 = .ok (some p, m) ∧
      m.totalAllocated = 112 := ⟨_, _, rfl, by decide⟩
  have hreach : Reach anyStep m [⟨p, 100⟩] := .step (.start (Or.inl rfl) (Or.inl rfl)) trivial
    (.allocate honest_onePage (by decide) (by decide) hcall)
  refine ⟨m.reset, .step hreach trivial .reset, htotal, ?_⟩
  have hreset : m.reset.bytesAllocated = 112 := htotal
  rw [PersistentHeap.admits, hreset]
  rfl

end MemoryModel

end DaScript

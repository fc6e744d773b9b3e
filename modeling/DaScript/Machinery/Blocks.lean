import Mathlib.Tactic

/-!
# Machinery/Blocks — pieces of an address space

A block is an interval of addresses.  Allocators carve blocks out of larger ones; what they owe
their callers is that blocks handed out lie apart.

Blocks that lie apart below `N` take up at most `N` addresses together (`sum_size_le`), so a counter
of their sizes does not wrap.
-/

namespace DaScript

/-- **A block of memory.** -/
structure Block where
  ptr : ℕ
  size : ℕ
  deriving DecidableEq, Repr

namespace Block

/-- No address is in both. -/
def Apart (a b : Block) : Prop := a.ptr + a.size ≤ b.ptr ∨ b.ptr + b.size ≤ a.ptr

instance : DecidableRel Apart := fun _ _ => inferInstanceAs (Decidable (_ ∨ _))

/-- `a` is a piece of `b`. -/
def Within (a b : Block) : Prop := b.ptr ≤ a.ptr ∧ a.ptr + a.size ≤ b.ptr + b.size

theorem Apart.symm {a b : Block} (h : Apart a b) : Apart b a := Or.symm h

instance : Std.Symm Apart := ⟨fun _ _ => Apart.symm⟩

theorem Within.refl (a : Block) : Within a a := ⟨le_rfl, le_rfl⟩

theorem Apart.mono {a a' b b' : Block} (h : Apart a' b') (ha : Within a a') (hb : Within b b') :
    Apart a b := by
  obtain ⟨ha1, ha2⟩ := ha
  obtain ⟨hb1, hb2⟩ := hb
  rcases h with h | h
  · exact Or.inl (by omega)
  · exact Or.inr (by omega)

theorem Apart.ptr_ne {a b : Block} (h : Apart a b) (ha : 0 < a.size) (hb : 0 < b.size) :
    a.ptr ≠ b.ptr := by
  rcases h with h | h <;> omega

theorem Apart.not_mem {a b : Block} (h : Apart a b) {x : ℕ} (ha : a.ptr ≤ x)
    (ha' : x < a.ptr + a.size) : ¬ (b.ptr ≤ x ∧ x < b.ptr + b.size) := by
  rcases h with h | h <;> omega

/-! ## Lists of blocks -/

/-- The addresses of the blocks. -/
def cover (l : List Block) : Finset ℕ :=
  l.foldr (fun b s => Finset.Ico b.ptr (b.ptr + b.size) ∪ s) ∅

theorem mem_cover {l : List Block} {x : ℕ} :
    x ∈ cover l ↔ ∃ b ∈ l, b.ptr ≤ x ∧ x < b.ptr + b.size := by
  induction l with
  | nil => simp [cover]
  | cons b l ih =>
    rw [cover, List.foldr_cons, ← cover, Finset.mem_union, Finset.mem_Ico, ih]
    simp

theorem card_cover {l : List Block} (h : l.Pairwise Apart) :
    (cover l).card = (l.map Block.size).sum := by
  induction h with
  | nil => rfl
  | @cons b l hb _ ih =>
    have hdisj : Disjoint (Finset.Ico b.ptr (b.ptr + b.size)) (cover l) := by
      rw [Finset.disjoint_left]
      intro x hx hl
      obtain ⟨c, hc, hcx⟩ := mem_cover.mp hl
      obtain ⟨h1, h2⟩ := Finset.mem_Ico.mp hx
      exact (hb c hc).not_mem h1 h2 hcx
    rw [cover, List.foldr_cons, ← cover, Finset.card_union_of_disjoint hdisj, ih, Nat.card_Ico,
      List.map_cons, List.sum_cons, Nat.add_sub_cancel_left]

theorem sum_size_le {l : List Block} {N : ℕ} (h : l.Pairwise Apart)
    (hN : ∀ b ∈ l, b.ptr + b.size ≤ N) : (l.map Block.size).sum ≤ N := by
  rw [← card_cover h, ← Finset.card_range N]
  refine Finset.card_le_card fun x hx => ?_
  obtain ⟨b, hb, h1, h2⟩ := mem_cover.mp hx
  exact Finset.mem_range.mpr (by have := hN b hb; omega)

theorem pairwise_flatMap {α : Type*} {l : List α} {area : α → Block} {parts : α → List Block}
    (hl : (l.map area).Pairwise Apart) (hin : ∀ a ∈ l, ∀ x ∈ parts a, Within x (area a))
    (hp : ∀ a ∈ l, (parts a).Pairwise Apart) : (l.flatMap parts).Pairwise Apart := by
  rw [List.pairwise_flatMap]
  refine ⟨hp, ?_⟩
  rw [List.pairwise_map] at hl
  refine hl.imp_of_mem fun ha hb hab x hx y hy => ?_
  exact hab.mono (hin _ ha x hx) (hin _ hb y hy)

theorem eq_of_ptr_eq {l : List Block} (h : l.Pairwise Apart) (hpos : ∀ b ∈ l, 0 < b.size)
    {a b : Block} (ha : a ∈ l) (hb : b ∈ l) (hptr : a.ptr = b.ptr) : a = b := by
  by_contra hab
  exact (h.forall ha hb hab).ptr_ne (hpos a ha) (hpos b hb) hptr

end Block

end DaScript

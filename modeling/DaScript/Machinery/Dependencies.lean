import Mathlib.Tactic

/-!
# Machinery/Dependencies — items in the order they need

Each item has an id, and the ids of the items before it.  A list is **in order** where what each
item needs is among the items before it.  What stands in the way of an order of some items is a
**cycle** or an id that **dangles**; one of them is found where none of the items that are left can
be placed.
-/

namespace DaScript.Dependencies

variable {ι κ : Type} (id : ι → κ) (before : ι → Finset κ)

/-- **The items an item needs are before it.** -/
def InOrder (l : List ι) : Prop :=
  ∀ l₁ x l₂, l = l₁ ++ x :: l₂ → ∀ k ∈ before x, k ∈ l₁.map id

/-- The item `b` needs `a`. -/
def Needs (l : List ι) (a b : κ) : Prop := ∃ x ∈ l, id x = b ∧ a ∈ before x

/-- An item that needs itself, over others. -/
def Cyclic (l : List ι) : Prop := ∃ k, Relation.TransGen (Needs id before l) k k

/-- An item that needs what there is not. -/
def Dangling (l : List ι) : Prop := ∃ x ∈ l, ∃ k ∈ before x, k ∉ l.map id

variable {id before} {l l' placed left : List ι}

theorem inOrder_nil : InOrder id before [] := fun l₁ x l₂ h => by simp at h

theorem InOrder.snoc (h : InOrder id before l) {x : ι} (hx : ∀ k ∈ before x, k ∈ l.map id) :
    InOrder id before (l ++ [x]) := by
  intro l₁ y l₂ hsplit k hk
  rcases List.eq_nil_or_concat l₂ with rfl | ⟨l₃, z, rfl⟩
  · obtain ⟨rfl, hxy⟩ := List.append_inj' hsplit rfl
    obtain rfl := List.singleton_inj.mp hxy
    exact hx k hk
  · rw [List.concat_eq_append, ← List.cons_append, ← List.append_assoc] at hsplit
    exact h l₁ y l₃ (List.append_inj' hsplit rfl).1 k hk

theorem needs_perm (h : l.Perm l') : Needs id before l = Needs id before l' := by
  funext a b
  simp only [Needs, h.mem_iff]

theorem cyclic_perm (h : l.Perm l') : Cyclic id before l ↔ Cyclic id before l' := by
  rw [Cyclic, Cyclic, needs_perm h]

theorem dangling_perm (h : l.Perm l') : Dangling id before l ↔ Dangling id before l' := by
  simp only [Dangling, h.mem_iff, (h.map id).mem_iff]

theorem InOrder.idxOf_lt [DecidableEq κ] (h : InOrder id before l) (hids : (l.map id).Nodup)
    {a b : κ} (hab : Needs id before l a b) : (l.map id).idxOf a < (l.map id).idxOf b := by
  obtain ⟨x, hx, rfl, ha⟩ := hab
  obtain ⟨l₁, l₂, rfl⟩ := List.append_of_mem hx
  have hbefore := h l₁ x l₂ rfl a ha
  rw [List.map_append, List.map_cons] at hids ⊢
  have hnew : id x ∉ l₁.map id := fun hmem =>
    (List.nodup_append.mp hids).2.2 _ hmem _ List.mem_cons_self rfl
  rw [List.idxOf_append_of_mem hbefore, List.idxOf_append_of_notMem hnew, List.idxOf_cons_self,
    Nat.add_zero]
  exact List.idxOf_lt_length_of_mem hbefore

theorem InOrder.free (h : InOrder id before l) (hids : (l.map id).Nodup) :
    ¬ Cyclic id before l ∧ ¬ Dangling id before l := by
  classical
  constructor
  · rintro ⟨k, hk⟩
    have hlt : ∀ a b, Relation.TransGen (Needs id before l) a b →
        (l.map id).idxOf a < (l.map id).idxOf b := by
      intro a b hab
      induction hab with
      | single hab => exact h.idxOf_lt hids hab
      | tail _ hbc ih => exact ih.trans (h.idxOf_lt hids hbc)
    exact lt_irrefl _ (hlt k k hk)
  · rintro ⟨x, hx, k, hk, hout⟩
    obtain ⟨l₁, l₂, rfl⟩ := List.append_of_mem hx
    refine hout ?_
    rw [List.map_append]
    exact List.mem_append_left _ (h l₁ x l₂ rfl k hk)

theorem obstacle_of_stuck (hperm : (placed ++ left).Perm l) (hleft : left ≠ [])
    (hstuck : ∀ x ∈ left, ∃ k ∈ before x, k ∉ placed.map id) :
    Cyclic id before l ∨ Dangling id before l := by
  by_contra hfree
  obtain ⟨hcyclic, hdangling⟩ := not_or.mp hfree
  -- each item that is left needs another one
  have hnext : ∀ x ∈ left, ∃ y ∈ left, Needs id before l (id y) (id x) := by
    intro x hx
    have hxl : x ∈ l := hperm.mem_iff.mp (List.mem_append_right _ hx)
    obtain ⟨k, hk, hout⟩ := hstuck x hx
    have hkl : k ∈ l.map id := not_not.mp fun hno => hdangling ⟨x, hxl, k, hk, hno⟩
    rw [← (hperm.map id).mem_iff, List.map_append] at hkl
    obtain ⟨y, hy, rfl⟩ := List.mem_map.mp ((List.mem_append.mp hkl).resolve_left hout)
    exact ⟨y, hy, x, hxl, rfl, hk⟩
  -- and no item needs itself, so one of them needs none
  let r : { x // x ∈ left } → { x // x ∈ left } → Prop := fun y x =>
    Relation.TransGen (Needs id before l) (id y.1) (id x.1)
  have : Finite { x // x ∈ left } := (List.finite_toSet left).to_subtype
  have : IsTrans _ r := ⟨fun _ _ _ h h' => h.trans h'⟩
  have : Std.Irrefl r := ⟨fun x h => hcyclic ⟨_, h⟩⟩
  obtain ⟨x, hx⟩ := List.exists_mem_of_ne_nil left hleft
  obtain ⟨m, -, hmin⟩ :=
    (Finite.wellFounded_of_trans_of_irrefl r).has_min Set.univ ⟨⟨x, hx⟩, trivial⟩
  obtain ⟨y, hy, hneeds⟩ := hnext m.1 m.2
  exact hmin ⟨y, hy⟩ trivial (.single hneeds)

end DaScript.Dependencies

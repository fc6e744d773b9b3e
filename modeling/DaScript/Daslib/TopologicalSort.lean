import DaScript.Foundations.Machine
import DaScript.Machinery.Dependencies

/-!
# Daslib/TopologicalSort — nodes after what they need

`topological_sort` of `daslib/algorithm.das`.  A pass over the nodes that are not sorted takes out
each that has nothing left in `before`, and takes its id out of the `before` of all others; the
index stays where a node was taken out.  A pass without any is a panic.

What it works on is `placed` and `left`, the nodes as they were: those that are not sorted lack the
ids of `placed` (`strip`), and those that are have lost all (`cleared`).
-/

namespace DaScript.TopologicalSort

open Dependencies

variable {κ ρ : Type} [DecidableEq κ]

/-- A node, with its other fields. -/
structure Node (κ ρ : Type) where
  id : κ
  before : Finset κ
  rest : ρ

/-- `other.before |> erase(id)` -/
def Node.erase (id : κ) (other : Node κ ρ) : Node κ ρ :=
  { other with before := Finset.erase other.before id }

/-- What a pass works on. -/
structure Pass (κ ρ : Type) where
  removed : ℕ
  unsorted : List (Node κ ρ)
  sorted : List (Node κ ρ)

/-- `while (i < length(unsorted))`; each turn leaves one node less behind `i`. -/
def scan : ℕ → ℕ → Pass κ ρ → Except Fault (Pass κ ρ)
  | 0, i, s =>
    if i < s.unsorted.length then .error (.hang "while (i < length(unsorted))") else .ok s
  | fuel + 1, i, s =>
    match s.unsorted[i]? with
    | none => .ok s
    | some node =>
      if node.before = ∅ then
        scan fuel i ⟨s.removed + 1, (s.unsorted.eraseIdx i).map (Node.erase node.id),
          s.sorted ++ [node]⟩
      else scan fuel (i + 1) s

/-- `while (!empty(unsorted))` -/
def sortFrom : ℕ → List (Node κ ρ) → List (Node κ ρ) → Except Fault (List (Node κ ρ))
  | _, [], sorted => .ok sorted
  | 0, _ :: _, _ => .error (.hang "while (!empty(unsorted))")
  | fuel + 1, node :: unsorted, sorted => do
    let s ← scan (node :: unsorted).length 0 ⟨0, node :: unsorted, sorted⟩
    if s.removed = 0 then .error (.throw "cyclic dependency detected")
    else sortFrom fuel s.unsorted s.sorted

def topologicalSort (nodes : List (Node κ ρ)) : Except Fault (List (Node κ ρ)) :=
  if 2 ^ 31 - 1 < nodes.length then .error (.verify "array size exceeds INT_MAX")
  else sortFrom nodes.length nodes []

/-! ## What is taken out of the nodes -/

/-- A node without the ids that are placed. -/
def strip (ids : List κ) (x : Node κ ρ) : Node κ ρ :=
  { x with before := x.before.filter fun k => k ∉ ids }

/-- A node without all of them. -/
def cleared (x : Node κ ρ) : Node κ ρ := { x with before := ∅ }

theorem strip_nil (x : Node κ ρ) : strip [] x = x := by
  simp [strip]

theorem strip_erase (ids : List κ) (k : κ) (x : Node κ ρ) :
    (strip ids x).erase k = strip (ids ++ [k]) x := by
  have hbefore : (x.before.filter fun k' => k' ∉ ids).erase k =
      x.before.filter fun k' => k' ∉ ids ++ [k] := by
    ext k'
    simp only [Finset.mem_erase, Finset.mem_filter, List.mem_append, List.mem_singleton]
    tauto
  rw [Node.erase, strip, strip, hbefore]

theorem strip_before_eq_empty (ids : List κ) (x : Node κ ρ) :
    (strip ids x).before = ∅ ↔ ∀ k ∈ x.before, k ∈ ids := by
  simp [strip, Finset.filter_eq_empty_iff]

theorem strip_eq_cleared {ids : List κ} {x : Node κ ρ} (h : (strip ids x).before = ∅) :
    strip ids x = cleared x := by
  rw [cleared, ← h]
  rfl

/-! ## A pass -/

/-- The nodes that are left, and those that are placed, as a pass has them. -/
def passOf (removed : ℕ) (placed left : List (Node κ ρ)) : Pass κ ρ :=
  ⟨removed, left.map (strip (placed.map Node.id)), placed.map cleared⟩

/-- **What a pass does**: it places some of the nodes; where it does not, no node from `i` on could
be. -/
structure Placed (i removed : ℕ) (placed left : List (Node κ ρ)) (removed' : ℕ)
    (placed' left' : List (Node κ ρ)) : Prop where
  perm : (placed' ++ left').Perm (placed ++ left)
  inOrder : InOrder Node.id Node.before placed → InOrder Node.id Node.before placed'
  counted : left'.length + removed' = left.length + removed
  more : removed ≤ removed'
  stuck : removed' = removed → placed' = placed ∧ left' = left ∧
    ∀ x ∈ left.drop i, ∃ k ∈ x.before, k ∉ placed.map Node.id

theorem scan_placed (fuel : ℕ) : ∀ (i removed : ℕ) (placed left : List (Node κ ρ)),
    left.length ≤ i + fuel → ∃ removed' placed' left',
      scan fuel i (passOf removed placed left) = .ok (passOf removed' placed' left') ∧
        Placed i removed placed left removed' placed' left' := by
  induction fuel with
  | zero =>
    intro i removed placed left hfuel
    refine ⟨removed, placed, left, if_neg ?_, List.Perm.refl _, fun h => h, rfl, le_rfl,
      fun _ => ⟨rfl, rfl, ?_⟩⟩
    · rw [passOf, List.length_map]
      omega
    · rw [List.drop_eq_nil_of_le (by omega)]
      exact fun x hx => absurd hx List.not_mem_nil
  | succ fuel ih =>
    intro i removed placed left hfuel
    rw [scan]
    simp only [passOf, List.getElem?_map]
    cases hx : left[i]? with
    | none =>
      have hout := List.getElem?_eq_none_iff.mp hx
      refine ⟨removed, placed, left, rfl, List.Perm.refl _, fun h => h, rfl, le_rfl,
        fun _ => ⟨rfl, rfl, ?_⟩⟩
      rw [List.drop_eq_nil_of_le hout]
      exact fun x hx => absurd hx List.not_mem_nil
    | some x =>
      obtain ⟨hi, rfl⟩ := List.getElem?_eq_some_iff.mp hx
      simp only [Option.map_some]
      by_cases hempty : (strip (placed.map Node.id) left[i]).before = ∅
      · have hunsorted : ((left.map (strip (placed.map Node.id))).eraseIdx i).map
            (Node.erase left[i].id)
              = (left.eraseIdx i).map (strip ((placed ++ [left[i]]).map Node.id)) := by
          rw [List.eraseIdx_map, List.map_map, List.map_append]
          exact List.map_congr_left fun y _ => strip_erase _ _ y
        have hsorted : placed.map cleared ++ [strip (placed.map Node.id) left[i]]
            = (placed ++ [left[i]]).map cleared := by
          rw [List.map_append, strip_eq_cleared hempty]
          rfl
        have hlength := List.length_eraseIdx_of_lt hi
        obtain ⟨removed', placed', left', hscan, hplaced⟩ :=
          ih i (removed + 1) (placed ++ [left[i]]) (left.eraseIdx i) (by omega)
        rw [if_pos hempty, hsorted]
        refine ⟨removed', placed', left', (congrArg (fun unsorted => scan fuel i
          ⟨removed + 1, unsorted, _⟩) hunsorted).trans hscan, ?_, ?_, ?_, ?_, ?_⟩
        · refine hplaced.perm.trans ?_
          rw [List.append_assoc]
          exact (List.getElem_cons_eraseIdx_perm hi).append_left placed
        · exact fun h => hplaced.inOrder (h.snoc ((strip_before_eq_empty _ _).mp hempty))
        · have := hplaced.counted
          omega
        · exact (Nat.le_succ removed).trans hplaced.more
        · exact fun h => absurd hplaced.more (by omega)
      · obtain ⟨removed', placed', left', hscan, hplaced⟩ :=
          ih (i + 1) removed placed left (by omega)
        rw [if_neg hempty]
        refine ⟨removed', placed', left', hscan, hplaced.perm, hplaced.inOrder, hplaced.counted,
          hplaced.more, fun h => ?_⟩
        obtain ⟨hsame, hsame', hstuck⟩ := hplaced.stuck h
        refine ⟨hsame, hsame', fun x hx => ?_⟩
        rw [List.drop_eq_getElem_cons hi] at hx
        rcases List.mem_cons.mp hx with rfl | hx
        · rw [strip_before_eq_empty] at hempty
          simpa using hempty
        · exact hstuck x hx

/-! ## All passes -/

theorem sortFrom_ends (fuel : ℕ) : ∀ placed left : List (Node κ ρ), left.length ≤ fuel →
    InOrder Node.id Node.before placed →
    (∃ l, sortFrom fuel (left.map (strip (placed.map Node.id))) (placed.map cleared)
          = .ok (l.map cleared) ∧ l.Perm (placed ++ left) ∧ InOrder Node.id Node.before l) ∨
      ∃ placed' left', sortFrom fuel (left.map (strip (placed.map Node.id))) (placed.map cleared)
          = .error (.throw "cyclic dependency detected") ∧
        (placed' ++ left').Perm (placed ++ left) ∧ left' ≠ [] ∧
        ∀ x ∈ left', ∃ k ∈ x.before, k ∉ placed'.map Node.id := by
  induction fuel with
  | zero =>
    intro placed left hfuel horder
    obtain rfl := List.eq_nil_of_length_eq_zero (Nat.le_zero.mp hfuel)
    exact .inl ⟨placed, rfl, by rw [List.append_nil], horder⟩
  | succ fuel ih =>
    intro placed left hfuel horder
    cases left with
    | nil => exact .inl ⟨placed, rfl, by rw [List.append_nil], horder⟩
    | cons node left =>
      obtain ⟨removed, placed', left', hscan, hplaced⟩ :=
        scan_placed (node :: left).length 0 0 placed (node :: left) (by omega)
      have hsort : sortFrom (fuel + 1) ((node :: left).map (strip (placed.map Node.id)))
          (placed.map cleared) = if removed = 0 then .error (.throw "cyclic dependency detected")
            else sortFrom fuel (left'.map (strip (placed'.map Node.id))) (placed'.map cleared) := by
        rw [List.map_cons, sortFrom, ← List.map_cons, List.length_map]
        change (scan _ 0 (passOf 0 placed (node :: left)) >>= _) = _
        rw [hscan]
        rfl
      rw [hsort]
      by_cases hremoved : removed = 0
      · obtain ⟨rfl, rfl, hstuck⟩ := hplaced.stuck hremoved
        rw [if_pos hremoved]
        exact .inr ⟨placed', node :: left, rfl, List.Perm.refl _, List.cons_ne_nil _ _, hstuck⟩
      · have hcounted := hplaced.counted
        rw [if_neg hremoved]
        rcases ih placed' left' (by omega) (hplaced.inOrder horder) with
          ⟨l, hl, hperm, hl'⟩ | ⟨placed'', left'', hl, hperm, hrest⟩
        · exact .inl ⟨l, hl, hperm.trans hplaced.perm, hl'⟩
        · exact .inr ⟨placed'', left'', hl, hperm.trans hplaced.perm, hrest⟩

/-- **`topological_sort` is correct**: where there is an order it returns one, of the nodes with
nothing left in `before`; it panics exactly where there is a cycle or an id of no node; and it does
one of the two. -/
theorem topologicalSort_correct (nodes : List (Node κ ρ)) (hlength : nodes.length < 2 ^ 31)
    (hids : (nodes.map Node.id).Nodup) :
    ((∃ l, l.Perm nodes ∧ InOrder Node.id Node.before l) →
      ∃ l, topologicalSort nodes = .ok (l.map cleared) ∧ l.Perm nodes ∧
        InOrder Node.id Node.before l) ∧
    (topologicalSort nodes = .error (.throw "cyclic dependency detected") ↔
      Cyclic Node.id Node.before nodes ∨ Dangling Node.id Node.before nodes) ∧
    ((∃ l, topologicalSort nodes = .ok (l.map cleared) ∧ l.Perm nodes ∧
        InOrder Node.id Node.before l) ∨
      topologicalSort nodes = .error (.throw "cyclic dependency detected")) := by
  have hfree : ∀ l : List (Node κ ρ), l.Perm nodes → InOrder Node.id Node.before l →
      ¬ (Cyclic Node.id Node.before nodes ∨ Dangling Node.id Node.before nodes) := by
    intro l hperm horder
    have := horder.free ((hperm.map Node.id).nodup_iff.mpr hids)
    rw [cyclic_perm hperm, dangling_perm hperm] at this
    exact not_or.mpr this
  have hstrip : nodes.map (strip []) = nodes :=
    (List.map_congr_left fun x _ => strip_nil x).trans (List.map_id' nodes)
  have hends := sortFrom_ends nodes.length [] nodes le_rfl inOrder_nil
  rw [List.map_nil, List.map_nil, hstrip, List.nil_append] at hends
  rw [topologicalSort, if_neg (by omega)]
  rcases hends with ⟨l, hsort, hperm, horder⟩ | ⟨placed, left, hsort, hperm, hleft, hstuck⟩
  · refine ⟨fun _ => ⟨l, hsort, hperm, horder⟩, ?_, .inl ⟨l, hsort, hperm, horder⟩⟩
    rw [hsort]
    exact iff_of_false (fun herror => by cases herror) (hfree l hperm horder)
  · have hobstacle := obstacle_of_stuck hperm hleft hstuck
    refine ⟨?_, iff_of_true hsort hobstacle, .inr hsort⟩
    rintro ⟨l, hperm', horder⟩
    exact absurd hobstacle (hfree l hperm' horder)

theorem topologicalSort_correct_two : ∃ l : List (Node ℕ Unit),
    topologicalSort [⟨1, {2}, ()⟩, ⟨2, ∅, ()⟩] = .ok (l.map cleared) ∧
      l.Perm [⟨1, {2}, ()⟩, ⟨2, ∅, ()⟩] ∧ InOrder Node.id Node.before l := by
  refine (topologicalSort_correct _ (by decide) (by decide)).2.2.resolve_right fun herror => ?_
  have hreturns : topologicalSort [(⟨1, {2}, ()⟩ : Node ℕ Unit), ⟨2, ∅, ()⟩]
      = .ok [⟨2, ∅, ()⟩, ⟨1, ∅, ()⟩] := by
    rfl
  rw [hreturns] at herror
  cases herror

end DaScript.TopologicalSort

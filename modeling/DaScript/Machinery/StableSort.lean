import DaScript.Machinery.Arrays

/-!
# Machinery/StableSort — sorting that keeps the order of what is tied

A stable sort of a list: its elements in order, and for each element those tied with it as they
came (`SameClasses`).  There is one (`IsStableSort.unique`).  Two lists that are in order merge into
the stable sort of one behind the other.
-/

namespace DaScript.StableSort

open Arrays

variable {α : Type} (cmp : α → α → Bool)

/-- Neither compares less. -/
def tied (x y : α) : Bool := !cmp x y && !cmp y x

/-- **The same elements of every class, in the same order.** -/
def SameClasses (l l' : List α) : Prop := ∀ x, l.filter (tied cmp x) = l'.filter (tied cmp x)

/-- **A stable sort of a list.** -/
structure IsStableSort (l l' : List α) : Prop where
  perm : l'.Perm l
  sorted : l'.Pairwise (AtMost cmp)
  classes : SameClasses cmp l' l

/-- `x` may come before `y`. -/
def before (x y : α) : Bool := !cmp y x

variable {cmp} {l l' m m' : List α}

namespace SameClasses

theorem refl (l : List α) : SameClasses cmp l l := fun _ => rfl

theorem symm (h : SameClasses cmp l l') : SameClasses cmp l' l := fun x => (h x).symm

theorem trans (h : SameClasses cmp l l') (h' : SameClasses cmp l' m) : SameClasses cmp l m :=
  fun x => (h x).trans (h' x)

theorem append (h : SameClasses cmp l l') (h' : SameClasses cmp m m') :
    SameClasses cmp (l ++ m) (l' ++ m') := fun x => by
  rw [List.filter_append, List.filter_append, h x, h' x]

variable [IsStrictWeakOrder α (fun x y => cmp x y = true)]

theorem tied_self (x : α) : tied cmp x x = true := by
  have h : AtMost cmp x x := atMost_refl x
  rw [tied, h]
  rfl

theorem perm (h : SameClasses cmp l l') : l.Perm l' := by
  classical
  refine List.perm_iff_count.mpr fun x => ?_
  have hself : tied cmp x x = true := tied_self x
  rw [← List.count_filter hself, h x, List.count_filter hself]

end SameClasses

theorem tied_of_atMost {x y : α} (h : AtMost cmp x y) (h' : AtMost cmp y x) :
    tied cmp x y = true := by
  rw [tied, show cmp x y = false from h', show cmp y x = false from h]
  rfl

variable [IsStrictWeakOrder α (fun x y => cmp x y = true)]

theorem sorted_unique : ∀ {l l' : List α}, l.Pairwise (AtMost cmp) → l'.Pairwise (AtMost cmp) →
    SameClasses cmp l l' → l = l'
  | [], l', _, _, h => (List.perm_nil.mp h.perm.symm).symm
  | x :: xs, [], _, _, h => List.perm_nil.mp h.perm
  | x :: xs, y :: ys, hl, hl', h => by
    obtain ⟨hx, hxs⟩ := List.pairwise_cons.mp hl
    obtain ⟨hy, hys⟩ := List.pairwise_cons.mp hl'
    have hxy : AtMost cmp x y := by
      rcases List.mem_cons.mp (h.perm.mem_iff.mpr List.mem_cons_self) with rfl | hmem
      · exact atMost_refl _
      · exact hx y hmem
    have hyx : AtMost cmp y x := by
      rcases List.mem_cons.mp (h.perm.mem_iff.mp List.mem_cons_self) with rfl | hmem
      · exact atMost_refl _
      · exact hy x hmem
    have hhead := h x
    rw [List.filter_cons_of_pos (SameClasses.tied_self x),
      List.filter_cons_of_pos (tied_of_atMost hxy hyx)] at hhead
    obtain rfl := (List.cons.inj hhead).1
    have htail : SameClasses cmp xs ys := fun z => by
      have hz := h z
      rw [List.filter_cons, List.filter_cons] at hz
      split_ifs at hz
      · exact (List.cons.inj hz).2
      · exact hz
    rw [sorted_unique hxs hys htail]

theorem IsStableSort.unique (h : IsStableSort cmp l m) (h' : IsStableSort cmp l m') : m = m' :=
  sorted_unique h.sorted h'.sorted (h.classes.trans h'.classes.symm)

theorem isStableSort_of (h : l'.Pairwise (AtMost cmp)) (h' : SameClasses cmp l' l) :
    IsStableSort cmp l l' :=
  ⟨h'.perm, h, h'⟩

/-! ## Merging -/

theorem merge_sorted : ∀ {l l' : List α}, l.Pairwise (AtMost cmp) → l'.Pairwise (AtMost cmp) →
    (List.merge l l' (before cmp)).Pairwise (AtMost cmp)
  | [], l', _, h' => by rwa [List.nil_merge]
  | x :: xs, [], h, _ => by rwa [List.merge_right]
  | x :: xs, y :: ys, h, h' => by
    obtain ⟨hx, hxs⟩ := List.pairwise_cons.mp h
    obtain ⟨hy, hys⟩ := List.pairwise_cons.mp h'
    rw [List.cons_merge_cons]
    split_ifs with hxy
    · rw [before, Bool.not_eq_true'] at hxy
      refine List.pairwise_cons.mpr ⟨fun z hz => ?_, merge_sorted hxs h'⟩
      rcases List.mem_merge.mp hz with hz | hz
      · exact hx z hz
      · rcases List.mem_cons.mp hz with rfl | hz
        · exact hxy
        · exact AtMost.trans hxy (hy z hz)
    · rw [before, Bool.not_eq_true', Bool.not_eq_false] at hxy
      refine List.pairwise_cons.mpr ⟨fun z hz => ?_, merge_sorted h hys⟩
      rcases List.mem_merge.mp hz with hz | hz
      · rcases List.mem_cons.mp hz with rfl | hz
        · exact atMost_of_lt hxy
        · exact AtMost.trans (atMost_of_lt hxy) (hx z hz)
      · exact hy z hz

theorem filter_above {y z : α} (hz : tied cmp z y = true) (h : ∀ x ∈ l, cmp y x = true) :
    l.filter (tied cmp z) = [] := by
  refine List.filter_eq_nil_iff.mpr fun x hx htied => ?_
  rw [tied, Bool.and_eq_true, Bool.not_eq_true', Bool.not_eq_true'] at hz htied
  have hle : AtMost cmp x y :=
    AtMost.trans (show AtMost cmp x z from htied.1) (show AtMost cmp z y from hz.2)
  rw [AtMost, h x hx] at hle
  exact Bool.noConfusion hle

theorem merge_classes : ∀ (l l' : List α), l.Pairwise (AtMost cmp) →
    SameClasses cmp (List.merge l l' (before cmp)) (l ++ l')
  | [], l', _ => by
    rw [List.nil_merge]
    exact SameClasses.refl _
  | x :: xs, [], _ => by
    rw [List.merge_right, List.append_nil]
    exact SameClasses.refl _
  | x :: xs, y :: ys, h => by
    obtain ⟨hx, hxs⟩ := List.pairwise_cons.mp h
    rw [List.cons_merge_cons]
    split_ifs with hxy
    · exact (SameClasses.refl [x]).append (merge_classes xs (y :: ys) hxs)
    · rw [before, Bool.not_eq_true', Bool.not_eq_false] at hxy
      intro z
      have hrest := merge_classes (x :: xs) ys h z
      rw [List.filter_append] at hrest
      rw [List.filter_append, List.filter_cons, hrest, List.filter_cons (x := y)]
      split_ifs with hz
      · -- all of the left is above what is taken from the right
        have habove : (x :: xs).filter (tied cmp z) = [] := filter_above hz fun w hw => by
          rcases List.mem_cons.mp hw with rfl | hw
          · exact hxy
          · exact lt_of_lt_of_atMost hxy (hx w hw)
        rw [habove]
        rfl
      · rfl

/-! ## Moves that keep classes -/

theorem tied_congr {x y z : α}
    (h : tied cmp z x = true) (h' : tied cmp z y = true) : tied cmp x y = true := by
  rw [tied, Bool.and_eq_true, Bool.not_eq_true', Bool.not_eq_true'] at h h'
  exact tied_of_atMost (AtMost.trans (show AtMost cmp x z from h.1) (show AtMost cmp z y from h'.2))
    (AtMost.trans (show AtMost cmp y z from h'.1) (show AtMost cmp z x from h.2))

theorem sameClasses_pair {x y : α} (h : tied cmp x y = false) : SameClasses cmp [x, y] [y, x] := by
  intro z
  rw [List.filter_cons, List.filter_cons, List.filter_cons, List.filter_cons]
  split_ifs with hx hy hy
  · rw [tied_congr hx hy] at h
    exact Bool.noConfusion h
  all_goals rfl

theorem sameClasses_reverse (h : l.Pairwise fun x y => cmp y x = true) :
    SameClasses cmp l.reverse l := by
  intro z
  rw [List.filter_reverse]
  have hfilter : (l.filter (tied cmp z)).Pairwise fun x y => cmp y x = true :=
    h.sublist List.filter_sublist
  have htied : ∀ x ∈ l.filter (tied cmp z), tied cmp z x = true := fun x hx =>
    (List.mem_filter.mp hx).2
  generalize l.filter (tied cmp z) = c at hfilter htied ⊢
  match c with
  | [] => rfl
  | [x] => rfl
  | x :: y :: rest =>
    have hxy := (List.pairwise_cons.mp hfilter).1 y List.mem_cons_self
    have hclass := tied_congr (htied x List.mem_cons_self)
      (htied y (List.mem_cons_of_mem _ List.mem_cons_self))
    rw [tied, hxy, Bool.not_true, Bool.and_false] at hclass
    exact Bool.noConfusion hclass

end DaScript.StableSort

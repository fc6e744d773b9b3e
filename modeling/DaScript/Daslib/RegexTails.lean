import DaScript.Daslib.RegexCaptures

/-!
# Daslib/RegexTails — a node leaves the tails of all others alone

A step that leaves some tails as they were, and what is stale stale: so does what is made of such
steps, each loop and each match function, and so a node does with the tails of all nodes outside it
(`matchNode_tidy`).
-/

namespace DaScript.Regex

open Searching (Found)
open Text

namespace Captures

open Memory

/-! ## What a run leaves alone -/

/-- The tails of some nodes are as they were, and what is stale stays so. -/
def Leaves (I : Set ℕ) (m m' : Memory) : Prop :=
  (∀ i ∈ I, m'.tails i = m.tails i) ∧ (m'.stale = false → m.stale = false)

section Leaves

variable {I J : Set ℕ} {m m₁ m' : Memory} {id : ℕ} {r : Result}
  {body next : ℕ → Memory → Result} {nsub : Search}

theorem Leaves.rfl : Leaves I m m := ⟨fun _ _ => Eq.refl _, fun h => h⟩

theorem Leaves.trans (h : Leaves I m m₁) (h' : Leaves I m₁ m') : Leaves I m m' :=
  ⟨fun i hi => (h'.1 i hi).trans (h.1 i hi), fun hs => h.2 (h'.2 hs)⟩

theorem Leaves.mono (h : Leaves I m m') (hJ : J ⊆ I) : Leaves J m m' :=
  ⟨fun i hi => h.1 i (hJ hi), h.2⟩

theorem leaves_update (hid : id ∉ I) (m : Memory) (t : Tail) :
    Leaves I m { m with tails := Function.update m.tails id t } :=
  ⟨fun _ hi => Function.update_of_ne (ne_of_mem_of_not_mem hi hid) _ _, fun h => h⟩

theorem leaves_setTail (hid : id ∉ I) (m : Memory) (pos : ℕ) : Leaves I m (m.setTail id pos) :=
  leaves_update hid m _

theorem leaves_copyTail (hid : id ∉ I) (m : Memory) (sub : ℕ) : Leaves I m (m.copyTail id sub) :=
  leaves_update hid m _

theorem leaves_loseTail (hid : id ∉ I) (m : Memory) : Leaves I m (m.loseTail id) :=
  leaves_update hid m _

theorem leaves_since (m : Memory) (log : List Capture) : Leaves I m (m.since log) :=
  ⟨fun _ _ => Eq.refl _, fun h => (Bool.or_eq_false_iff.mp h).1⟩

theorem leaves_record (m : Memory) (id sub str : ℕ) : Leaves I m (m.record id sub str) :=
  ⟨fun _ _ => Eq.refl _, fun h => (Bool.or_eq_false_iff.mp h).1⟩

/-- A step that leaves these tails alone, wherever it starts. -/
def Tidy (I : Set ℕ) (f : ℕ → Memory → Result) : Prop := ∀ p m, Leaves I m (f p m).2

theorem Tidy.mono {f : ℕ → Memory → Result} (h : Tidy I f) (hJ : J ⊆ I) : Tidy J f :=
  fun p m => (h p m).mono hJ

theorem andThen_leaves {f : ℕ → Memory → Result} (hr : Leaves I m r.2) (hf : Tidy I f) :
    Leaves I m (andThen r f).2 := by
  obtain ⟨_ | _ | _, m₁⟩ := r
  · exact hr.trans (hf _ _)
  · exact hr
  · exact hr

theorem orElse_leaves {f : Memory → Result} (hr : Leaves I m r.2)
    (hf : ∀ m, Leaves I m (f m).2) : Leaves I m (orElse r f).2 := by
  obtain ⟨_ | _ | _, m₁⟩ := r
  · exact hr
  · exact hr.trans (hf _)
  · exact hr

/-- What follows leaves these tails alone. -/
def TidyNext (I : Set ℕ) (next : Next) : Prop := ∀ f ∈ next, Tidy I f

theorem tidyNext_none : TidyNext I none := fun _ h => by cases h

theorem proceed_leaves {next : Next} (h : TidyNext I next) (pos : ℕ) (m : Memory) :
    Leaves I m (proceed next pos m).2 := by
  cases next with
  | some node2 => exact h node2 rfl pos m
  | none => exact .rfl

section Loops

variable (hid : id ∉ I) (hbody : Tidy I body) (hnext : Tidy I next)
include hbody

theorem exactly_leaves (blocked : ℕ → Bool) (n : ℕ) : Tidy I (exactly blocked body n) := by
  induction n with
  | zero => exact fun _ _ => .rfl
  | succ n ih =>
    intro ofs m
    rw [exactly]
    split_ifs
    · exact .rfl
    · exact andThen_leaves (hbody ofs m) ih

theorem positions_leaves (bounded : Bool) (n ofs : ℕ) (m : Memory)
    (reached : List (ℕ × List Capture)) :
    Leaves I m (positions body bounded n ofs m reached).2 := by
  induction n generalizing ofs m reached with
  | zero => exact .rfl
  | succ n ih =>
    have h := hbody ofs m
    rw [positions]
    generalize body ofs m = r at h
    obtain ⟨osym | _ | _, m'⟩ := r
    · dsimp only
      split_ifs
      · exact h
      · exact h.trans (ih _ _ _)
    · exact h
    · exact h

include hid

theorem takeAll_leaves (fuel : ℕ) : Tidy I (takeAll id body fuel) := by
  induction fuel with
  | zero => exact fun _ _ => .rfl
  | succ fuel ih =>
    intro ofs m
    have h := hbody ofs m
    rw [takeAll]
    generalize body ofs m = r at h
    obtain ⟨osym | _ | _, m'⟩ := r
    · exact h.trans (ih osym m')
    · exact h.trans ((leaves_since m' m.log).trans (leaves_setTail hid _ ofs))
    · exact h

theorem furthest_leaves (bounded : Bool) (n : ℕ) : Tidy I (furthest id body bounded n) := by
  induction n with
  | zero =>
    intro ofs m
    rw [furthest]
    split_ifs
    · exact leaves_setTail hid m ofs
    · exact .rfl
  | succ n ih =>
    intro ofs m
    have h := hbody ofs m
    rw [furthest]
    generalize body ofs m = r at h
    obtain ⟨osym | _ | _, m'⟩ := r
    · dsimp only
      split_ifs
      · exact h.trans ((leaves_since m' m.log).trans (leaves_setTail hid _ ofs))
      · exact h.trans (ih osym m')
    · exact h.trans ((leaves_since m' m.log).trans (leaves_setTail hid _ ofs))
    · exact h

include hnext

theorem fewestFirst_leaves (fuel : ℕ) : Tidy I (fewestFirst id body next fuel) := by
  induction fuel with
  | zero => exact fun _ _ => .rfl
  | succ fuel ih =>
    intro ofs m
    refine orElse_leaves ((leaves_setTail hid m ofs).trans (hnext ofs _)) fun m' => ?_
    exact andThen_leaves ((leaves_since m' m.log).trans (hbody ofs _)) ih

theorem nearest_leaves (bounded : Bool) (n : ℕ) : Tidy I (nearest id body next bounded n) := by
  induction n with
  | zero => exact fun _ _ => .rfl
  | succ n ih =>
    intro ofs m
    refine orElse_leaves ((leaves_setTail hid m ofs).trans (hnext ofs _)) fun m' => ?_
    split_ifs
    · exact .rfl
    · refine andThen_leaves ((leaves_since m' m.log).trans (hbody ofs _)) fun osym m₁ => ?_
      split_ifs
      · exact .rfl
      · exact ih osym m₁

omit hbody in
theorem tryEach_leaves (l : List (ℕ × List Capture)) (m : Memory) :
    Leaves I m (tryEach id next l m).2 := by
  induction l generalizing m with
  | nil => exact .rfl
  | cons at' l ih =>
    exact orElse_leaves ((leaves_since m at'.2).trans
      ((leaves_setTail hid _ at'.1).trans (hnext at'.1 _))) ih

end Loops

/-- A search that leaves these tails alone, if what follows does. -/
def TidySearch (I : Set ℕ) (f : Search) : Prop := ∀ next, TidyNext I next → Tidy I (f next)

theorem reMatch2Leaf_tidy (hid : id ∉ I) (look : Searching.Search) :
    TidySearch I (reMatch2Leaf id look) := fun _ hnext str m =>
  andThen_leaves (r := (look none str, m)) .rfl fun tail m =>
    (leaves_setTail hid m tail).trans (proceed_leaves hnext tail _)

theorem reMatch2Concat_tidy (hid : id ∉ I) (rightId : ℕ) {left right : Search}
    (hl : TidySearch I left) (hr : TidySearch I right) :
    TidySearch I (reMatch2Concat id rightId left right) := by
  intro next hnext str m
  refine andThen_leaves (hl _ ?_ str m) fun oleft m => leaves_copyTail hid m rightId
  rintro _ ⟨rfl⟩
  exact hr next hnext

theorem reMatch2Group_tidy (hid : id ∉ I) (index : ℤ) (hsub : TidySearch I nsub) :
    TidySearch I (reMatch2Group id index nsub) := by
  intro next hnext str m
  refine andThen_leaves (hsub next hnext str m) fun osub m => ?_
  refine Leaves.trans ?_ (leaves_loseTail hid _)
  split_ifs
  · exact leaves_record m _ _ _
  · exact .rfl

theorem reMatch2Question_tidy (hid : id ∉ I) (hsub : TidySearch I nsub) :
    TidySearch I (reMatch2Question id nsub) := by
  intro next hnext str m
  refine andThen_leaves (orElse_leaves (hsub none tidyNext_none str m)
    fun m' => leaves_since m' m.log) fun tail m => ?_
  exact (leaves_setTail hid m tail).trans (proceed_leaves hnext tail _)

theorem reMatch2QuestionLazy_tidy (hid : id ∉ I) (hsub : TidySearch I nsub) :
    TidySearch I (reMatch2QuestionLazy id nsub) := by
  intro next hnext str m
  cases next with
  | some node2 =>
    refine orElse_leaves ((leaves_setTail hid m str).trans (hnext node2 rfl str _)) fun m' => ?_
    refine andThen_leaves ((leaves_since m' m.log).trans (hsub none tidyNext_none str _))
      fun tail m => ?_
    exact (leaves_setTail hid m tail).trans (hnext node2 rfl tail _)
  | none =>
    have h := hsub none tidyNext_none str m
    rw [reMatch2QuestionLazy]
    generalize nsub none str m = r at h
    obtain ⟨tail | _ | _, m'⟩ := r
    · exact h.trans ((leaves_since m' m.log).trans
        ((leaves_setTail hid _ tail).trans (leaves_loseTail hid _)))
    · exact h.trans ((leaves_since m' m.log).trans (leaves_loseTail hid _))
    · exact h

section Loops

variable (hid : id ∉ I) (hbody : Tidy I body)
include hid hbody

theorem reMatch2Plus_tidy (s : List UInt8) (fuel : ℕ) :
    TidySearch I (reMatch2Plus s fuel id body) := by
  intro next hnext str m
  rw [reMatch2Plus]
  split_ifs
  · exact .rfl
  · refine andThen_leaves (hbody str m) fun osym m => ?_
    cases next with
    | some node2 => exact fewestFirst_leaves hid hbody (hnext node2 rfl) fuel osym m
    | none => exact takeAll_leaves hid hbody fuel osym m

theorem reMatch2PlusLazy_tidy (s : List UInt8) (fuel : ℕ) :
    TidySearch I (reMatch2PlusLazy s fuel id body) := by
  intro next hnext str m
  rw [reMatch2PlusLazy]
  split_ifs
  · exact .rfl
  · refine andThen_leaves (hbody str m) fun osym m => ?_
    cases next with
    | some node2 => exact fewestFirst_leaves hid hbody (hnext node2 rfl) fuel osym m
    | none => exact leaves_setTail hid m osym

theorem reMatch2Star_tidy (fuel : ℕ) : TidySearch I (reMatch2Star fuel id body) := by
  intro next hnext str m
  cases next with
  | some node2 => exact fewestFirst_leaves hid hbody (hnext node2 rfl) fuel str m
  | none => exact takeAll_leaves hid hbody fuel str m

theorem reMatch2StarLazy_tidy (fuel : ℕ) : TidySearch I (reMatch2StarLazy fuel id body) := by
  intro next hnext str m
  cases next with
  | some node2 => exact fewestFirst_leaves hid hbody (hnext node2 rfl) fuel str m
  | none => exact leaves_setTail hid m str

theorem reMatch2Repeat_tidy (s : List UInt8) (fuel : ℕ) (zeroWidth : Bool) (minRep maxRep : ℤ) :
    TidySearch I (reMatch2Repeat s fuel id zeroWidth minRep maxRep body) := by
  intro next hnext str m
  refine andThen_leaves (exactly_leaves hbody _ _ str m) fun ofs m => ?_
  cases next with
  | some node2 =>
    have h := positions_leaves hbody (decide (maxRep ≠ -1)) (remaining fuel minRep maxRep) ofs m
      [(ofs, m.log)]
    dsimp only
    generalize positions body (decide (maxRep ≠ -1)) (remaining fuel minRep maxRep) ofs m
      [(ofs, m.log)] = r at h
    obtain ⟨_ | reached, m'⟩ := r
    · exact h
    · exact h.trans (tryEach_leaves hid (hnext node2 rfl) reached m')
  | none => exact furthest_leaves hid hbody _ _ ofs m

theorem reMatch2RepeatLazy_tidy (s : List UInt8) (fuel : ℕ) (zeroWidth : Bool)
    (minRep maxRep : ℤ) :
    TidySearch I (reMatch2RepeatLazy s fuel id zeroWidth minRep maxRep body) := by
  intro next hnext str m
  refine andThen_leaves (exactly_leaves hbody _ _ str m) fun ofs m => ?_
  cases next with
  | some node2 => exact nearest_leaves hid hbody (hnext node2 rfl) _ _ ofs m
  | none => exact leaves_setTail hid m ofs

end Loops

theorem reMatch2Lookahead_tidy (hid : id ∉ I) (hsub : TidySearch I nsub) :
    TidySearch I (reMatch2Lookahead id nsub) := by
  intro next hnext str m
  refine andThen_leaves (hsub none tidyNext_none str m) fun _ m => ?_
  exact (leaves_setTail hid m str).trans (proceed_leaves hnext str _)

theorem reMatch2NegativeLookahead_tidy (hid : id ∉ I) (hsub : TidySearch I nsub) :
    TidySearch I (reMatch2NegativeLookahead id nsub) := by
  intro next hnext str m
  have h := hsub none tidyNext_none str m
  rw [reMatch2NegativeLookahead]
  generalize nsub none str m = r at h
  obtain ⟨_ | _ | _, m'⟩ := r
  · exact h
  · exact h.trans ((leaves_since m' m.log).trans
      ((leaves_setTail hid _ str).trans (proceed_leaves hnext str _)))
  · exact h

/-! ## A node -/

theorem size_pos (node : ReNode) : 0 < size node := by
  cases node <;> simp only [size] <;> omega

/-- None of these are the ids of so many nodes. -/
def Outside (I : Set ℕ) (id n : ℕ) : Prop := ∀ i ∈ I, ¬(id ≤ i ∧ i < id + n)

theorem Outside.notMem {n : ℕ} (h : Outside I id n) (hn : 0 < n) : id ∉ I :=
  fun hid => h id hid ⟨le_rfl, Nat.lt_add_of_pos_right hn⟩

theorem Outside.inner {n : ℕ} (h : Outside I id (n + 1)) : Outside I (id + 1) n :=
  fun i hi hin => h i hi ⟨by omega, by omega⟩

theorem Outside.left {n t : ℕ} (h : Outside I id (n + t)) : Outside I id n :=
  fun i hi hin => h i hi ⟨hin.1, by omega⟩

theorem Outside.right {n t : ℕ} (h : Outside I id (n + t)) : Outside I (id + n) t :=
  fun i hi hin => h i hi ⟨by omega, by omega⟩

variable (regex : Regex) (s : List UInt8) (fuel : ℕ)

theorem plusBody_leaves (subexpr : ReNode) (hsub : TidySearch I nsub) :
    Tidy I (plusBody s subexpr nsub) := by
  cases subexpr with
  | set cset => exact fun _ _ => .rfl
  | _ => exact hsub none tidyNext_none

mutual

theorem matchNode_tidy (node : ReNode) (id : ℕ) (hI : Outside I id (size node)) :
    TidySearch I (matchNode regex s fuel node id) := by
  have hid : id ∉ I := hI.notMem (size_pos node)
  cases node with
  | char first others => exact reMatch2Leaf_tidy hid _
  | set cset => exact reMatch2Leaf_tidy hid _
  | any => exact reMatch2Leaf_tidy hid _
  | eos => exact reMatch2Leaf_tidy hid _
  | bos => exact reMatch2Leaf_tidy hid _
  | wordBoundary => exact reMatch2Leaf_tidy hid _
  | nonWordBoundary => exact reMatch2Leaf_tidy hid _
  | group index text subexpr =>
    exact reMatch2Group_tidy hid index (matchNode_tidy subexpr (id + 1) hI.inner)
  | plus lazy subexpr =>
    have hsub := matchNode_tidy subexpr (id + 1) hI.inner
    cases lazy
    · exact reMatch2Plus_tidy hid (plusBody_leaves s subexpr hsub) s fuel
    · exact reMatch2PlusLazy_tidy hid (hsub none tidyNext_none) s fuel
  | star lazy subexpr =>
    have hsub := matchNode_tidy subexpr (id + 1) hI.inner
    cases lazy
    · exact reMatch2Star_tidy hid (hsub none tidyNext_none) fuel
    · exact reMatch2StarLazy_tidy hid (hsub none tidyNext_none) fuel
  | question lazy subexpr =>
    have hsub := matchNode_tidy subexpr (id + 1) hI.inner
    cases lazy
    · exact reMatch2Question_tidy hid hsub
    · exact reMatch2QuestionLazy_tidy hid hsub
  | concat left right =>
    have hparts : Outside I (id + 1) (size left + size right) := hI.inner
    exact reMatch2Concat_tidy hid _ (matchNode_tidy left (id + 1) hparts.left)
      (matchNode_tidy right (id + 1 + size left) hparts.right)
  | union all =>
    exact matchNodes_tidy all (id + 1) id hid hI.inner
  | repeated minRep maxRep lazy subexpr =>
    have hsub := matchNode_tidy subexpr (id + 1) hI.inner
    cases lazy
    · exact reMatch2Repeat_tidy hid (hsub none tidyNext_none) s fuel _ _ _
    · exact reMatch2RepeatLazy_tidy hid (hsub none tidyNext_none) s fuel _ _ _
  | lookahead subexpr =>
    exact reMatch2Lookahead_tidy hid (matchNode_tidy subexpr (id + 1) hI.inner)
  | negativeLookahead subexpr =>
    exact reMatch2NegativeLookahead_tidy hid (matchNode_tidy subexpr (id + 1) hI.inner)

theorem matchNodes_tidy (nodes : List ReNode) (id unionId : ℕ) (hid : unionId ∉ I)
    (hI : Outside I id (sizes nodes)) :
    TidySearch I (reMatch2Union unionId (matchNodes regex s fuel nodes id)) := by
  intro next hnext str m
  cases nodes with
  | nil => exact .rfl
  | cons node nodes =>
    have hparts : Outside I id (size node + sizes nodes) := hI
    have hsub := matchNode_tidy node id hparts.left
    refine orElse_leaves (andThen_leaves (hsub next hnext str m) fun osub m =>
      leaves_copyTail hid m id) fun m' => ?_
    exact (leaves_since m' m.log).trans
      (matchNodes_tidy nodes (id + size node) unionId hid hparts.right next hnext str _)

end

end Leaves

end Captures

end DaScript.Regex

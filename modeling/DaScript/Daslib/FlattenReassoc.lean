import DaScript.Daslib.FlattenExpr
import Mathlib.Data.BitVec

/-!
# Daslib/FlattenReassoc — a chain is gathered and sorted once

`regroup` of `flatten_opt_fold.das`, with `ReassocVisitor` that calls it and `has_scattered_consts`
that says whether it gathers.

`value` is what a chain is worth with wrap-around; what is below its operators may be worth
anything.
-/

namespace DaScript.Flatten

section Code

variable {δ : Type} [LinearOrder δ] (describe : Expr → δ) (hasSideeffects : Expr → Bool)

def chainHasConst (addOp : Chain) : Expr → Bool
  | .op2 op func left right =>
    if addOp.has op then chainHasConst addOp left || chainHasConst addOp right
    else isAllConst hasSideeffects (.op2 op func left right)
  | .op1 op func subexpr =>
    if addOp = .sum ∧ op = .neg then chainHasConst addOp subexpr
    else isAllConst hasSideeffects (.op1 op func subexpr)
  | e => isAllConst hasSideeffects e

def alreadyGrouped (addOp : Chain) : Expr → Bool
  | .op2 op _ left right =>
    op = addOp.addOp && isAllConst hasSideeffects right && !chainHasConst hasSideeffects addOp left
  | _ => false

/-- The order of the terms: positive ones first, then by description. -/
def before (a b : ReTerm) : Bool :=
  if a.neg ≠ b.neg then !a.neg else describe a.e < describe b.e

def varsSorted (vars : List ReTerm) : Bool :=
  (vars.zip vars.tail).all fun (prev, cur) =>
    !(prev.neg && !cur.neg || decide (prev.neg = cur.neg ∧ describe cur.e < describe prev.e))

def needsGather (that : Expr) (consts : List ReTerm) (addOp : Chain) : Bool :=
  2 ≤ consts.length && !alreadyGrouped hasSideeffects addOp that

/-- `needs_sort`, of terms that vary. -/
def needsSort (vars : List ReTerm) : Bool :=
  (vars.all fun t => !hasSideeffects t.e) && 2 ≤ vars.length && !varsSorted describe vars

/-- The end of `regroup`: the terms that vary, and then the constants. -/
def rebuild (addOp : Chain) (type : BaseType) : List ReTerm → List ReTerm → Option Expr
  | [], _ => none
  | first :: vars, [] => some (buildChain addOp first vars)
  | first :: vars, firstConst :: consts =>
    some (.op2 addOp.addOp (inferred type) (buildChain addOp first vars)
      (buildChain addOp firstConst consts))

def regroup (sort : (ReTerm → ReTerm → Bool) → List ReTerm → List ReTerm) (that : Expr)
    (terms : List ReTerm) (addOp : Chain) : Option Expr :=
  let vars := terms.filter fun t => !isAllConst hasSideeffects t.e
  let consts := terms.filter fun t => isAllConst hasSideeffects t.e
  if vars = [] then none
  else if !needsGather hasSideeffects that consts addOp && !needsSort describe hasSideeffects vars
    then none
  else
    let vars :=
      if (vars.all fun t => !hasSideeffects t.e) then sort (before describe) vars else vars
    rebuild addOp that.type vars consts

/-- The monoid of an operator. -/
def chainOf : Op2 → Option Chain
  | .mul => some .product
  | .add | .sub => some .sum
  | _ => none

/-- `ReassocVisitor.visitExprOp2`: what the expression is replaced by. -/
def visitExprOp2 (sort : (ReTerm → ReTerm → Bool) → List ReTerm → List ReTerm) (noFastMath : Bool)
    (that : Expr) : Option Expr :=
  match that with
  | .op2 op _ _ _ =>
    if noFastMath && isFloatValued that then none
    else (chainOf op).bind fun addOp =>
      regroup describe hasSideeffects sort that (collect addOp that false) addOp
  | _ => none

/-- `count_terms`: the terms that vary, and the constants. -/
def countTerms (addOp : Chain) : Expr → ℕ × ℕ → ℕ × ℕ
  | .op2 op func left right, n =>
    if addOp.has op then countTerms addOp right (countTerms addOp left n)
    else if isAllConst hasSideeffects (.op2 op func left right) then (n.1, n.2 + 1)
    else (n.1 + 1, n.2)
  | .op1 op func subexpr, n =>
    if addOp = .sum ∧ op = .neg then countTerms addOp subexpr n
    else if isAllConst hasSideeffects (.op1 op func subexpr) then (n.1, n.2 + 1)
    else (n.1 + 1, n.2)
  | e, n => if isAllConst hasSideeffects e then (n.1, n.2 + 1) else (n.1 + 1, n.2)

def hasScatteredConsts (noFastMath : Bool) (that : Expr) : Bool :=
  match that with
  | .op2 op _ _ _ =>
    if noFastMath && isFloatValued that then false
    else (chainOf op).any fun addOp =>
      if alreadyGrouped hasSideeffects addOp that then false
      else
        let n := countTerms hasSideeffects addOp that (0, 0)
        1 ≤ n.1 && 2 ≤ n.2
  | _ => false

end Code

/-! ## What is gathered -/

section Gather

variable {hasSideeffects : Expr → Bool} {addOp : Chain}

theorem chainHasConst_eq (e : Expr) (neg : Bool) :
    chainHasConst hasSideeffects addOp e =
      (collect addOp e neg).any fun t => isAllConst hasSideeffects t.e := by
  induction e, neg using collect.induct addOp with
  | case1 op func left right neg hop ihl ihr =>
    rw [chainHasConst, collect, if_pos hop, if_pos hop, List.any_append, ihl, ihr]
  | case2 op func left right neg hop =>
    rw [chainHasConst, collect, if_neg hop, if_neg hop]
    simp
  | case3 op func subexpr neg hop ih => rw [chainHasConst, collect, if_pos hop, if_pos hop, ih]
  | case4 op func subexpr neg hop =>
    rw [chainHasConst, collect, if_neg hop, if_neg hop]
    simp
  | case5 e neg hop2 hop1 =>
    rw [chainHasConst, collect]
    · simp
    all_goals assumption

theorem countTerms_eq (e : Expr) (neg : Bool) (n : ℕ × ℕ) :
    countTerms hasSideeffects addOp e n =
      (n.1 + ((collect addOp e neg).filter fun t => !isAllConst hasSideeffects t.e).length,
        n.2 + ((collect addOp e neg).filter fun t => isAllConst hasSideeffects t.e).length) := by
  have hleaf : ∀ t : ReTerm,
      (if isAllConst hasSideeffects t.e then (n.1, n.2 + 1) else (n.1 + 1, n.2)) =
        (n.1 + ([t].filter fun t => !isAllConst hasSideeffects t.e).length,
          n.2 + ([t].filter fun t => isAllConst hasSideeffects t.e).length) := by
    intro t
    cases h : isAllConst hasSideeffects t.e <;> simp [h]
  induction e, neg using collect.induct addOp generalizing n with
  | case1 op func left right neg hop ihl ihr =>
    rw [countTerms, collect, if_pos hop, if_pos hop, ihl n, ihr]
    · simp [Nat.add_assoc]
    all_goals
      intro t
      cases h : isAllConst hasSideeffects t.e <;> simp [h]
  | case2 op func left right neg hop =>
    rw [countTerms, collect, if_neg hop, if_neg hop]
    exact hleaf ⟨neg, _⟩
  | case3 op func subexpr neg hop ih =>
    rw [countTerms, collect, if_pos hop, if_pos hop, ih n hleaf]
  | case4 op func subexpr neg hop =>
    rw [countTerms, collect, if_neg hop, if_neg hop]
    exact hleaf ⟨neg, _⟩
  | case5 e neg hop2 hop1 =>
    rw [countTerms, collect]
    · exact hleaf ⟨neg, e⟩
    all_goals assumption

end Gather

/-! ## What a chain is worth -/

section Worth

variable {w : ℕ}

/-- The value of an integer expression of `w` bits, of the values of all that is no chain. -/
def value (env : Expr → BitVec w) : Expr → BitVec w
  | .op2 .add _ left right => value env left + value env right
  | .op2 .sub _ left right => value env left - value env right
  | .op2 .mul _ left right => value env left * value env right
  | .op1 .neg _ subexpr => -value env subexpr
  | e => env e

/-- The value of a term, with its sign. -/
def termValue (env : Expr → BitVec w) (t : ReTerm) : BitVec w :=
  if t.neg then -value env t.e else value env t.e

/-- The value of all terms. -/
def termsValue (addOp : Chain) (env : Expr → BitVec w) (terms : List ReTerm) : BitVec w :=
  match addOp with
  | .sum => (terms.map (termValue env)).sum
  | .product => (terms.map (termValue env)).prod

variable {addOp : Chain} {env : Expr → BitVec w}

theorem termsValue_collect (e : Expr) (neg : Bool) (hneg : addOp = .product → neg = false) :
    termsValue addOp env (collect addOp e neg) = if neg then -value env e else value env e := by
  induction e, neg using collect.induct addOp with
  | case1 op func left right neg hop ihl ihr =>
    rw [collect, if_pos hop]
    cases addOp with
    | sum =>
      rw [termsValue] at ihl ihr ⊢
      rw [List.map_append, List.sum_append, ihl hneg, ihr (by simp)]
      rcases of_decide_eq_true hop with rfl | rfl
      · cases neg <;> simp [value, add_comm]
      · cases neg <;> simp [value, sub_eq_add_neg, add_comm]
    | product =>
      obtain rfl : op = .mul := of_decide_eq_true hop
      obtain rfl := hneg rfl
      rw [termsValue] at ihl ihr ⊢
      rw [List.map_append, List.prod_append, ihl hneg, ihr (by simp)]
      simp [value]
  | case3 op func subexpr neg hop ih =>
    obtain ⟨rfl, rfl⟩ := hop
    rw [collect, if_pos ⟨rfl, rfl⟩, ih (by simp)]
    cases neg <;> simp [value]
  | case2 op func left right neg hop =>
    rw [collect, if_neg hop]
    cases addOp <;> simp [termsValue, termValue]
  | case4 op func subexpr neg hop =>
    rw [collect, if_neg hop]
    cases addOp <;> simp [termsValue, termValue]
  | case5 e neg hop2 hop1 =>
    rw [collect]
    · cases addOp <;> simp [termsValue, termValue]
    all_goals assumption

theorem termsValue_perm (addOp : Chain) (env : Expr → BitVec w) {terms terms' : List ReTerm}
    (h : terms.Perm terms') :
    termsValue addOp env terms = termsValue addOp env terms' := by
  cases addOp with
  | sum => exact (h.map _).sum_eq
  | product => exact (h.map _).prod_eq

end Worth

/-! ## What is settled -/

section Settled

variable {δ : Type} [LinearOrder δ] {describe : Expr → δ} {hasSideeffects : Expr → Bool}
  {sort : (ReTerm → ReTerm → Bool) → List ReTerm → List ReTerm}

/-- What `sort` does, with any comparison that is a strict weak order. -/
def Sorts (sort : (ReTerm → ReTerm → Bool) → List ReTerm → List ReTerm) : Prop :=
  ∀ less : ReTerm → ReTerm → Bool, IsStrictWeakOrder ReTerm (fun a b => less a b = true) →
    ∀ terms, (sort less terms).Perm terms ∧
      (sort less terms).Pairwise fun a b => less b a = false

theorem before_strictWeak (describe : Expr → δ) :
    IsStrictWeakOrder ReTerm fun a b => before describe a b = true where
  irrefl a := by simp [before]
  trans a b c := by
    rw [before, before, before]
    cases a.neg <;> cases b.neg <;> cases c.neg <;> simp
    all_goals exact lt_trans
  incomp_trans a b c := by
    rw [before, before, before, before, before, before]
    cases a.neg <;> cases b.neg <;> cases c.neg <;> simp
    all_goals exact fun hba hab hcb hbc => ⟨hcb.trans hba, hab.trans hbc⟩

theorem varsSorted_of_pairwise {vars : List ReTerm}
    (h : vars.Pairwise fun a b => before describe b a = false) :
    varsSorted describe vars = true := by
  rw [varsSorted, List.all_eq_true]
  rintro ⟨prev, cur⟩ hmem
  have hbefore : before describe cur prev = false := by
    induction vars with
    | nil => exact absurd hmem List.not_mem_nil
    | cons a vars ih =>
      cases vars with
      | nil => exact absurd hmem List.not_mem_nil
      | cons b vars =>
        rcases List.mem_cons.mp hmem with heq | hmem
        · obtain ⟨rfl, rfl⟩ := Prod.mk.inj heq
          exact List.rel_of_pairwise_cons h List.mem_cons_self
        · exact ih h.of_cons hmem
  rw [before] at hbefore
  dsimp only
  cases hprev : prev.neg <;> cases hcur : cur.neg <;> simp_all

theorem isAllConst_buildChain {addOp : Chain} {first : ReTerm} {terms : List ReTerm}
    (h : ∀ t ∈ first :: terms, isAllConst hasSideeffects t.e = true) :
    isAllConst hasSideeffects (buildChain addOp first terms) = true := by
  induction terms using List.reverseRecOn with
  | nil =>
    have hfirst := h first List.mem_cons_self
    rw [buildChain, List.foldl_nil]
    split
    · rwa [negate, isAllConst]
    · exact hfirst
  | append_singleton terms t ih =>
    rw [buildChain, List.foldl_append, List.foldl_cons, List.foldl_nil, buildNext, isAllConst,
      h t (List.mem_cons_of_mem _ List.mem_concat_self), Bool.and_true]
    exact ih fun t ht => h t (List.mem_append_left _ ht)

theorem buildChain_op {addOp : Chain} {first second : ReTerm} {terms : List ReTerm}
    (hsigned : ∀ t ∈ first :: second :: terms, Signed addOp t) :
    ∃ op func left right, buildChain addOp first (second :: terms) = .op2 op func left right ∧
      chainOf op = some addOp := by
  obtain ⟨front, t, hfront⟩ := List.eq_nil_or_concat (second :: terms) |>.resolve_left (by simp)
  rw [List.concat_eq_append] at hfront
  rw [buildChain, hfront, List.foldl_append, List.foldl_cons, List.foldl_nil]
  refine ⟨_, _, _, _, rfl, ?_⟩
  have ht : Signed addOp t := hsigned t (by rw [hfront]; simp)
  cases addOp with
  | sum => cases t.neg <;> rfl
  | product =>
    rw [ht rfl]
    rfl

theorem rebuild_spec {addOp : Chain} {type : BaseType} {vars consts : List ReTerm} {e : Expr}
    (hends : ∀ t ∈ vars ++ consts, Ends addOp t.e) (hsigned : ∀ t ∈ vars ++ consts, Signed addOp t)
    (hlength : 2 ≤ vars.length + consts.length) (h : rebuild addOp type vars consts = some e) :
    collect addOp e false = vars ++ consts ∧
      ∃ op func left right, e = .op2 op func left right ∧ chainOf op = some addOp := by
  cases vars with
  | nil => exact absurd h (by simp [rebuild])
  | cons first vars =>
    cases consts with
    | nil =>
      rw [List.append_nil] at hends hsigned ⊢
      obtain rfl := Option.some.inj h
      refine ⟨collect_buildChain hends hsigned, ?_⟩
      cases vars with
      | nil => exact absurd hlength (by simp)
      | cons second vars => exact buildChain_op hsigned
    | cons firstConst consts =>
      obtain rfl := Option.some.inj h
      have hvars := collect_buildChain (fun t ht => hends t (List.mem_append_left _ ht))
        fun t ht => hsigned t (List.mem_append_left _ ht)
      have hconsts := collect_buildChain (fun t ht => hends t (List.mem_append_right _ ht))
        fun t ht => hsigned t (List.mem_append_right _ ht)
      refine ⟨?_, _, _, _, _, rfl, by cases addOp <;> rfl⟩
      rw [collect, if_pos (by cases addOp <;> rfl), hvars,
        if_neg (by cases addOp <;> simp [Chain.addOp]), hconsts]

theorem alreadyGrouped_rebuild {addOp : Chain} {type : BaseType} {vars consts : List ReTerm}
    {e : Expr} (hends : ∀ t ∈ vars ++ consts, Ends addOp t.e)
    (hsigned : ∀ t ∈ vars ++ consts, Signed addOp t)
    (hvary : ∀ t ∈ vars, isAllConst hasSideeffects t.e = false)
    (hconst : ∀ t ∈ consts, isAllConst hasSideeffects t.e = true) (hlength : 2 ≤ consts.length)
    (h : rebuild addOp type vars consts = some e) :
    alreadyGrouped hasSideeffects addOp e = true := by
  cases vars with
  | nil => exact absurd h (by simp [rebuild])
  | cons first vars =>
    cases consts with
    | nil => exact absurd hlength (by simp)
    | cons firstConst consts =>
      obtain rfl := Option.some.inj h
      have hvars := collect_buildChain (fun t ht => hends t (List.mem_append_left _ ht))
        fun t ht => hsigned t (List.mem_append_left _ ht)
      rw [alreadyGrouped, isAllConst_buildChain hconst, chainHasConst_eq _ false, hvars,
        List.any_eq_false.mpr fun t ht => by rw [hvary t ht]; exact Bool.false_ne_true]
      simp

theorem regroup_settled (hsort : Sorts sort) {that e : Expr} {addOp : Chain} {terms : List ReTerm}
    (hends : ∀ t ∈ terms, Ends addOp t.e) (hsigned : ∀ t ∈ terms, Signed addOp t)
    (h : regroup describe hasSideeffects sort that terms addOp = some e) :
    (collect addOp e false).Perm terms ∧
      (∃ op func left right, e = .op2 op func left right ∧ chainOf op = some addOp) ∧
      regroup describe hasSideeffects sort e (collect addOp e false) addOp = none := by
  rw [regroup] at h
  dsimp only at h
  have hvary : ∀ t ∈ terms.filter fun t => !isAllConst hasSideeffects t.e,
      isAllConst hasSideeffects t.e = false := fun t ht => by simpa using (List.mem_filter.mp ht).2
  have hconst : ∀ t ∈ terms.filter fun t => isAllConst hasSideeffects t.e,
      isAllConst hasSideeffects t.e = true := fun t ht => (List.mem_filter.mp ht).2
  have hparts : ((terms.filter fun t => !isAllConst hasSideeffects t.e) ++
      terms.filter fun t => isAllConst hasSideeffects t.e).Perm terms :=
    List.perm_append_comm.trans (List.filter_append_perm _ terms)
  generalize (terms.filter fun t => !isAllConst hasSideeffects t.e) = vars at *
  generalize (terms.filter fun t => isAllConst hasSideeffects t.e) = consts at *
  split at h
  · exact absurd h (by simp)
  rename_i hne
  split at h
  · exact absurd h (by simp)
  rename_i hneeds
  obtain ⟨hperm, hsorted⟩ := hsort _ (before_strictWeak describe) vars
  -- sorted or not, these are the terms that vary
  obtain ⟨vars', hvars', hperm', hvarsSorted⟩ : ∃ vars',
      (if (vars.all fun t => !hasSideeffects t.e) = true then sort (before describe) vars
        else vars) = vars' ∧ vars'.Perm vars ∧
      ((vars'.all fun t => !hasSideeffects t.e) = true → varsSorted describe vars' = true) := by
    refine ⟨_, rfl, ?_⟩
    split
    · exact ⟨hperm, fun _ => varsSorted_of_pairwise hsorted⟩
    · rename_i hpure
      exact ⟨List.Perm.refl _, fun h => absurd h hpure⟩
  rw [hvars'] at h
  have hall : (vars' ++ consts).Perm terms := (hperm'.append_right consts).trans hparts
  have hends' : ∀ t ∈ vars' ++ consts, Ends addOp t.e := fun t ht => hends t (hall.subset ht)
  have hsigned' : ∀ t ∈ vars' ++ consts, Signed addOp t := fun t ht => hsigned t (hall.subset ht)
  have hvary' : ∀ t ∈ vars', isAllConst hasSideeffects t.e = false := fun t ht =>
    hvary t (hperm'.subset ht)
  have hlength : 2 ≤ vars'.length + consts.length := by
    have hpos := List.length_pos_iff.mpr hne
    rw [hperm'.length_eq]
    by_contra hless
    exact hneeds (by simp [needsGather, needsSort]; omega)
  obtain ⟨hcollect, hop⟩ := rebuild_spec hends' hsigned' hlength h
  refine ⟨hcollect ▸ hall, hop, ?_⟩
  have hvarsFilter :
      (vars' ++ consts).filter (fun t => !isAllConst hasSideeffects t.e) = vars' := by
    rw [List.filter_append, List.filter_eq_self.mpr fun t ht => by rw [hvary' t ht]; rfl,
      List.filter_eq_nil_iff.mpr fun t ht => by rw [hconst t ht]; exact Bool.false_ne_true,
      List.append_nil]
  have hconstsFilter :
      (vars' ++ consts).filter (fun t => isAllConst hasSideeffects t.e) = consts := by
    rw [List.filter_append, List.filter_eq_self.mpr hconst,
      List.filter_eq_nil_iff.mpr fun t ht => by rw [hvary' t ht]; exact Bool.false_ne_true,
      List.nil_append]
  have hgather : needsGather hasSideeffects e consts addOp = false := by
    rw [needsGather]
    by_cases htwo : 2 ≤ consts.length
    · rw [alreadyGrouped_rebuild hends' hsigned' hvary' hconst htwo h, Bool.not_true,
        Bool.and_false]
    · rw [decide_eq_false htwo, Bool.false_and]
  have hsort' : needsSort describe hasSideeffects vars' = false := by
    rw [needsSort]
    by_cases hpure : (vars'.all fun t => !hasSideeffects t.e) = true
    · rw [hvarsSorted hpure, Bool.not_true, Bool.and_false]
    · rw [Bool.eq_false_of_not_eq_true hpure, Bool.false_and, Bool.false_and]
  rw [hcollect, regroup]
  dsimp only
  rw [hvarsFilter, hconstsFilter, hgather, hsort']
  simp

/-- **Reassociation is exact and settles**: what `ReassocVisitor` returns is worth what the
expression was, whatever is below its chain, and it is not rewritten again. -/
theorem visitExprOp2_exact {w : ℕ} (env : Expr → BitVec w) (hsort : Sorts sort) (noFastMath : Bool)
    (that e : Expr) (h : visitExprOp2 describe hasSideeffects sort noFastMath that = some e) :
    value env e = value env that ∧
      visitExprOp2 describe hasSideeffects sort noFastMath e = none := by
  cases that with
  | op2 op func left right =>
    rw [visitExprOp2] at h
    split at h
    · exact absurd h (by simp)
    obtain ⟨addOp, haddOp, h⟩ := Option.bind_eq_some_iff.mp h
    obtain ⟨hperm, ⟨op', func', left', right', rfl, hop'⟩, hagain⟩ := regroup_settled hsort
      (fun t ht => ends_of_mem_collect ht)
      (fun t ht => signed_of_mem_collect (fun _ => rfl) ht) h
    constructor
    · have hvalue := termsValue_perm addOp env hperm
      rwa [termsValue_collect _ _ fun _ => rfl, termsValue_collect _ _ fun _ => rfl] at hvalue
    · rw [visitExprOp2]
      split
      · rfl
      · rw [hop', Option.bind_some, hagain]
  | _ => exact absurd h (by simp [visitExprOp2])

theorem sorts_insertionSort :
    Sorts fun less => List.insertionSort fun a b => less b a = false := by
  intro less hweak terms
  refine ⟨List.perm_insertionSort _ _, ?_⟩
  have htotal : Std.Total fun a b : ReTerm => less b a = false := ⟨fun a b => by
    by_contra h
    rw [not_or, Bool.not_eq_false, Bool.not_eq_false] at h
    exact hweak.irrefl a (hweak.trans a b a h.2 h.1)⟩
  have htrans : IsTrans ReTerm fun a b => less b a = false := ⟨fun a b c hab hbc => by
    by_contra h
    rw [Bool.not_eq_false] at h
    have hcb : ¬ less c b = true ∧ ¬ less b c = true :=
      ⟨by rw [hbc]; exact Bool.false_ne_true,
        fun hbc => Bool.false_ne_true (hab.symm.trans (hweak.trans b c a hbc h))⟩
    have hba : ¬ less b a = true ∧ ¬ less a b = true :=
      ⟨by rw [hab]; exact Bool.false_ne_true,
        fun hab => Bool.false_ne_true (hbc.symm.trans (hweak.trans c a b h hab))⟩
    exact (hweak.incomp_trans c b a hcb hba).1 h⟩
  exact List.pairwise_insertionSort _ _

theorem visitExprOp2_exact_gathers :
    let sum (a b : Expr) : Expr := .op2 .add (inferred .int) a b
    let a : Expr := .var "a" .int
    let e := sum a (sum (.const (.int 1)) (.const (.int 2)))
    let that := sum (sum (.const (.int 1)) a) (.const (.int 2))
    value (fun _ => (7 : BitVec 32)) e = value (fun _ => (7 : BitVec 32)) that ∧
      visitExprOp2 (fun _ => 0) (fun _ => false)
        (fun less => List.insertionSort fun a b => less b a = false) false e = none :=
  visitExprOp2_exact _ sorts_insertionSort false _ _ rfl

end Settled

end DaScript.Flatten

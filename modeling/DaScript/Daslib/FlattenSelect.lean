import Mathlib.Tactic

/-!
# Daslib/FlattenSelect — selects of one condition are fused

`fuse_select_chains` of `flatten_opt_fold.das`: of a run of `var a2 = c ? T2 : a1` only the last
keeps its condition, and takes the false arm of the first.
-/

namespace DaScript.FlattenSelect

abbrev Name := String

/-- A node whose value is a function of the values of its children. -/
inductive Kind
  | op1 (op : String)
  | op2 (op : String) (isFloatValued : Bool)
  | call (name : String)
  | swizzle (mask : String)
  | field (name : String) (ofPointer : Bool)
  | cast (castType : String)
  | makeTuple
  | ptr2Ref | at | makeStruct | makeArray
  | other (rtti : String)
  deriving DecidableEq

/-- `Expression` -/
inductive Expr
  | var (name : Name)
  | const (id : ℕ)
  | ref2Value (subexpr : Expr)
  | op3 (subexpr left right : Expr)
  | node (kind : Kind) (n : ℕ) (children : Fin n → Expr)

/-- `is_walkable_node` -/
def Kind.isWalkable : Kind → Bool
  | .other _ => false
  | _ => true

/-- Whether `select_arm_eval_safe` looks at the children. -/
def Kind.evalSafe : Kind → Bool
  | .op2 op isFloatValued => !((op == "/" || op == "%") && !isFloatValued)
  | .op1 _ | .call _ | .swizzle _ | .field .. | .cast _ | .makeTuple => true
  | _ => false

/-- A field of what a pointer points to. -/
def Kind.derefs : Kind → Bool
  | .field _ ofPointer => ofPointer
  | _ => false

namespace Expr

/-- The names of the `ExprVar`s. -/
def names : Expr → List Name
  | var name => [name]
  | const _ => []
  | ref2Value subexpr => names subexpr
  | op3 subexpr left right => names subexpr ++ names left ++ names right
  | node _ _ children => (List.ofFn fun i => names (children i)).flatten

/-- `select_arm_eval_safe` -/
def evalSafe : Expr → Bool
  | var _ | const _ => true
  | ref2Value subexpr => evalSafe subexpr
  | op3 subexpr left right => evalSafe subexpr && evalSafe left && evalSafe right
  | node kind _ children => kind.evalSafe && decide (∀ i, evalSafe (children i) = true)

/-- A pointer is followed to a field. -/
def derefs : Expr → Bool
  | var _ | const _ => false
  | ref2Value subexpr => derefs subexpr
  | op3 subexpr left right => derefs subexpr || derefs left || derefs right
  | node kind _ children => kind.derefs || decide (∃ i, derefs (children i) = true)

/-- `reads_mutable`, of a table that is not empty. -/
def readsAny (mutableVars : List Name) : Expr → Bool
  | var name => name ∈ mutableVars
  | const _ => false
  | ref2Value subexpr => readsAny mutableVars subexpr
  | op3 subexpr left right => readsAny mutableVars subexpr || readsAny mutableVars left ||
      readsAny mutableVars right
  | node kind _ children =>
    !kind.isWalkable || decide (∃ i, readsAny mutableVars (children i) = true)

/-- `reads_mutable` -/
def readsMutable (e : Expr) (mutableVars : List Name) : Bool :=
  !mutableVars.isEmpty && e.readsAny mutableVars

/-- `ref_var_name` -/
def refVarName : Expr → Option Name
  | ref2Value (var name) => some name
  | var name => some name
  | _ => none

end Expr

/-- A statement of the block: `ExprLet` or `ExprCopy`. -/
inductive Stmt
  | let (vars : List (Name × Expr))
  | copy (left : Name) (right : Expr)

/-- `var a = (c ? T : F)` -/
structure SelectLet where
  name : Name
  cond : Expr
  left : Expr
  right : Expr

namespace Stmt

/-- What is written, in order. -/
def writes : Stmt → List (Name × Expr)
  | .let vars => vars
  | copy left right => [(left, right)]

def lets : Stmt → List Name
  | .let vars => vars.map Prod.fst
  | copy .. => []

def copies : Stmt → List Name
  | .let _ => []
  | copy left _ => [left]

/-- The names of the `ExprVar`s; the left side of a copy is one. -/
def names (s : Stmt) : List Name := s.copies ++ s.writes.flatMap fun p => p.2.names

/-- `select_let_name`, with what is selected. -/
def selectLet : Stmt → Option SelectLet
  | .let [(name, .op3 cond left right)] => some ⟨name, cond, left, right⟩
  | _ => none

/-- `init = sel3(init).left` -/
def strip : Stmt → Stmt
  | .let [(name, .op3 _ left _)] => .let [(name, left)]
  | s => s

/-- `sel3(init).right = base` -/
def setRight (base : Expr) : Stmt → Stmt
  | .let [(name, .op3 cond left _)] => .let [(name, .op3 cond left base)]
  | s => s

end Stmt

section Fuse

variable (describe : Expr → String) (hash : Name → ℕ)

/-- `FlatUsesBuilder.nameUses` -/
def nameUses (blk : List Stmt) (h : ℕ) : List ℕ :=
  (List.range blk.length).filter fun j => (blk[j]?).any fun s => s.names.any fun x => hash x = h

/-- `collect_mutable` -/
def collectMutable (blk : List Stmt) : List Name := blk.flatMap Stmt.copies

/-- The `SelectLet` at a place. -/
def selectAt (blk : List Stmt) (i : ℕ) : Option SelectLet := blk[i]?.bind Stmt.selectLet

/-- `chain_successor`, with the uses of the block `ub`. -/
def chainSuccessor (ub blk : List Stmt) (accName : Name) (condKey : String) (afterIdx : ℕ)
    (consumed : List ℕ) : Option ℕ :=
  match nameUses hash ub (hash accName) with
  | [j] =>
    if j ≤ afterIdx ∨ j ∈ consumed then none
    else (selectAt blk j).bind fun succSel =>
      if describe succSel.cond = condKey ∧ succSel.right.refVarName = some accName then some j
      else none
  | _ => none

/-- The loop of `build_select_chain` behind the link `i`, in at most `fuel` rounds. -/
def chainFrom (ub blk : List Stmt) (condKey : String) (consumed : List ℕ) :
    ℕ → ℕ → SelectLet → List ℕ
  | 0, _, _ => []
  | fuel + 1, i, sel =>
    match chainSuccessor describe hash ub blk sel.name condKey i consumed with
    | none => []
    | some j =>
      if sel.left.evalSafe then
        j :: ((selectAt blk j).map (chainFrom ub blk condKey consumed fuel j)).getD []
      else []

/-- `build_select_chain` -/
def buildSelectChain (ub blk : List Stmt) (mutableVars : List Name) (consumed : List ℕ) (i : ℕ) :
    List ℕ :=
  match selectAt blk i with
  | none => []
  | some sel =>
    if sel.cond.readsMutable mutableVars then []
    else i :: chainFrom describe hash ub blk (describe sel.cond) consumed blk.length i sel

/-- Every link but the last is stripped, which gets the base. -/
def relink (base : Expr) : List ℕ → List Stmt → List Stmt
  | [], blk => blk
  | [last], blk => blk.modify last (Stmt.setRight base)
  | i :: j :: rest, blk => relink base (j :: rest) (blk.modify i Stmt.strip)

/-- A turn of the loop of `fuse_select_chains`. -/
def fuseAt (ub : List Stmt) (mutableVars : List Name) (state : List Stmt × List ℕ) (i : ℕ) :
    List Stmt × List ℕ :=
  if i ∈ state.2 then state
  else
    let chain := buildSelectChain describe hash ub state.1 mutableVars state.2 i
    if 2 ≤ chain.length then
      (((selectAt state.1 i).map fun sel => relink sel.right chain state.1).getD state.1,
        chain ++ state.2)
    else state

/-- `fuse_select_chains` -/
def fuseSelectChains (blk : List Stmt) : List Stmt :=
  if blk.length < 2 then blk
  else ((List.range blk.length).foldl (fuseAt describe hash blk (collectMutable blk)) (blk, [])).1

end Fuse

/-! ## What a block does -/

/-- What nodes mean: what is safe for `select_arm_eval_safe` fails on no values, but for a field of
a null pointer. -/
structure Meaning (Value : Type) where
  const : ℕ → Value
  truth : Value → Bool
  apply : Kind → List (Option Value) → Option Value
  total : ∀ kind results, kind.evalSafe = true → kind.derefs = false →
    (∀ r ∈ results, r.isSome = true) → (apply kind results).isSome = true

section Run

variable {Value : Type} (M : Meaning Value)

/-- The value of an expression, if there is no error. -/
def eval (env : Name → Value) : Expr → Option Value
  | .var name => some (env name)
  | .const id => some (M.const id)
  | .ref2Value subexpr => eval env subexpr
  | .op3 subexpr left right =>
    (eval env subexpr).bind fun v => if M.truth v then eval env left else eval env right
  | .node kind _ children => M.apply kind (List.ofFn fun i => eval env (children i))

/-- `x = e` -/
def write (env : Name → Value) (p : Name × Expr) : Option (Name → Value) :=
  (eval M env p.2).map (Function.update env p.1)

def exec (env : Name → Value) (s : Stmt) : Option (Name → Value) := s.writes.foldlM (write M) env

def run (env : Name → Value) (blk : List Stmt) : Option (Name → Value) := blk.foldlM (exec M) env

end Run

/-! ## Names that are not read -/

section Frame

variable {Value : Type} {M : Meaning Value} {env env' : Name → Value} {a x : Name} {v : Value}
  {s : Stmt} {blk : List Stmt}

theorem eval_congr {e : Expr} (h : ∀ x ∈ e.names, env x = env' x) :
    eval M env e = eval M env' e := by
  induction e with
  | var name => exact congrArg some (h name (List.mem_singleton_self _))
  | const id => rfl
  | ref2Value subexpr ih => exact ih h
  | op3 subexpr left right ihCond ihLeft ihRight =>
    rw [eval, eval, ihCond fun x hx => h x (List.mem_append_left _ (List.mem_append_left _ hx)),
      ihLeft fun x hx => h x (List.mem_append_left _ (List.mem_append_right _ hx)),
      ihRight fun x hx => h x (List.mem_append_right _ hx)]
  | node kind n children ih =>
    have hchildren : (fun i => eval M env (children i)) = fun i => eval M env' (children i) :=
      funext fun i => ih i fun x hx =>
        h x (List.mem_flatten.mpr ⟨_, List.mem_ofFn.mpr ⟨i, rfl⟩, hx⟩)
    rw [eval, eval, hchildren]

theorem eval_update {e : Expr} (h : a ∉ e.names) :
    eval M (Function.update env a v) e = eval M env e :=
  eval_congr fun x hx => Function.update_of_ne (fun heq : x = a => h (heq ▸ hx)) _ _

/-- What is safe has a value. -/
theorem isSome_eval {e : Expr} (hsafe : e.evalSafe = true) (hderefs : e.derefs = false) :
    (eval M env e).isSome = true := by
  induction e with
  | var name => rfl
  | const id => rfl
  | ref2Value subexpr ih => exact ih hsafe hderefs
  | op3 subexpr left right ihCond ihLeft ihRight =>
    simp only [Expr.evalSafe, Bool.and_eq_true] at hsafe
    simp only [Expr.derefs, Bool.or_eq_false_iff] at hderefs
    obtain ⟨value, hvalue⟩ := Option.isSome_iff_exists.mp (ihCond hsafe.1.1 hderefs.1.1)
    rw [eval, hvalue, Option.bind_some]
    split_ifs
    · exact ihLeft hsafe.1.2 hderefs.1.2
    · exact ihRight hsafe.2 hderefs.2
  | node kind n children ih =>
    simp only [Expr.evalSafe, Bool.and_eq_true, decide_eq_true_eq] at hsafe
    simp only [Expr.derefs, Bool.or_eq_false_iff, decide_eq_false_iff_not, not_exists,
      Bool.not_eq_true] at hderefs
    refine M.total kind _ hsafe.1 hderefs.1 fun r hr => ?_
    obtain ⟨i, rfl⟩ := List.mem_ofFn.mp hr
    exact ih i (hsafe.2 i) (hderefs.2 i)

/-- A statement that does not name `a` leaves it, and does the same whatever it is. -/
theorem foldlM_write_update {writes : List (Name × Expr)}
    (h : ∀ p ∈ writes, p.1 ≠ a ∧ a ∉ p.2.names) :
    writes.foldlM (write M) (Function.update env a v)
      = (writes.foldlM (write M) env).map fun env => Function.update env a v := by
  induction writes generalizing env with
  | nil => rfl
  | cons p rest ih =>
    obtain ⟨hne, hread⟩ := h p List.mem_cons_self
    rw [List.foldlM_cons, List.foldlM_cons, write, write, eval_update hread]
    cases eval M env p.2 with
    | none => rfl
    | some w =>
      change rest.foldlM (write M) (Function.update (Function.update env a v) p.1 w) = _
      rw [Function.update_comm hne.symm]
      exact ih fun q hq => h q (List.mem_cons_of_mem _ hq)

/-- `a` is neither read nor written. -/
def Apart (a : Name) (s : Stmt) : Prop := a ∉ s.lets ∧ a ∉ s.names

theorem Apart.write (h : Apart a s) {p : Name × Expr} (hp : p ∈ s.writes) :
    p.1 ≠ a ∧ a ∉ p.2.names := by
  refine ⟨?_, fun hmem =>
    h.2 (List.mem_append_right _ (List.mem_flatMap.mpr ⟨p, hp, hmem⟩))⟩
  rintro rfl
  cases s with
  | «let» vars => exact h.1 (List.mem_map_of_mem hp)
  | copy left right =>
    obtain rfl := List.mem_singleton.mp hp
    exact h.2 (List.mem_append_left _ (List.mem_singleton_self _))

theorem run_update (h : ∀ s ∈ blk, Apart a s) :
    run M (Function.update env a v) blk
      = (run M env blk).map fun env => Function.update env a v := by
  induction blk generalizing env with
  | nil => rfl
  | cons s rest ih =>
    rw [run, run, List.foldlM_cons, List.foldlM_cons, exec, exec,
      foldlM_write_update fun p hp => (h s List.mem_cons_self).write hp]
    cases List.foldlM (write M) env s.writes with
    | none => rfl
    | some env => exact ih fun t ht => h t (List.mem_cons_of_mem _ ht)

theorem foldlM_write_keeps {writes : List (Name × Expr)} (h : ∀ p ∈ writes, p.1 ≠ x)
    (hrun : writes.foldlM (write M) env = some env') : env' x = env x := by
  induction writes generalizing env with
  | nil => exact congrFun (Option.some.inj hrun).symm x
  | cons p rest ih =>
    rw [List.foldlM_cons, write] at hrun
    cases hp : eval M env p.2 with
    | none =>
      rw [hp] at hrun
      cases hrun
    | some w =>
      rw [hp] at hrun
      rw [ih (fun q hq => h q (List.mem_cons_of_mem _ hq)) hrun,
        Function.update_of_ne (h p List.mem_cons_self).symm]

/-- What no statement writes is kept. -/
theorem run_keeps (h : ∀ s ∈ blk, x ∉ s.lets ∧ x ∉ s.copies) (hrun : run M env blk = some env') :
    env' x = env x := by
  induction blk generalizing env with
  | nil => exact congrFun (Option.some.inj hrun).symm x
  | cons s rest ih =>
    rw [run, List.foldlM_cons] at hrun
    cases hs : exec M env s with
    | none =>
      rw [hs] at hrun
      cases hrun
    | some env₁ =>
      rw [hs] at hrun
      rw [ih (fun t ht => h t (List.mem_cons_of_mem _ ht)) hrun]
      refine foldlM_write_keeps (fun p hp => ?_) hs
      rintro rfl
      obtain ⟨hlets, hcopies⟩ := h s List.mem_cons_self
      cases s with
      | «let» vars => exact hlets (List.mem_map_of_mem hp)
      | copy left right =>
        obtain rfl := List.mem_singleton.mp hp
        exact hcopies (List.mem_singleton_self _)

end Frame

/-! ## Two links -/

section Pair

variable {Value : Type} {M : Meaning Value} {env : Name → Value} {a b : Name}
  {cond base left left' right' : Expr} {pre mid post : List Stmt}

/-- The same end, but for some names: both fail, or both give the other names their values. -/
def Same (names : Set Name) (r r' : Option (Name → Value)) : Prop :=
  Option.Rel (fun env env' => ∀ x ∉ names, env x = env' x) r r'

theorem Same.refl (names : Set Name) (r : Option (Name → Value)) : Same names r r := by
  cases r with
  | none => exact .none
  | some env => exact .some fun _ _ => rfl

theorem run_append (blk blk' : List Stmt) :
    run M env (blk ++ blk') = (run M env blk).bind fun env => run M env blk' :=
  List.foldlM_append

theorem run_let (e : Expr) (blk : List Stmt) : run M env (.let [(a, e)] :: blk)
    = (eval M env e).bind fun v => run M (Function.update env a v) blk := by
  rw [run, List.foldlM_cons, exec]
  change ((write M env (a, e)).bind some).bind _ = _
  rw [write]
  cases eval M env e <;> rfl

theorem eval_refVarName {e : Expr} (h : e.refVarName = some a) : eval M env e = some (env a) := by
  cases e with
  | var name =>
    obtain rfl := Option.some.inj h
    rfl
  | ref2Value subexpr =>
    cases subexpr with
    | var name =>
      obtain rfl := Option.some.inj h
      rfl
    | _ => cases h
  | _ => cases h

/-- **Two links are fused**, if what the condition and the base read is not written between. -/
theorem same_pair (hleft : ∀ env, (eval M env left).isSome = true)
    (hright : right'.refVarName = some a) (hab : b ≠ a) (hcond : a ∉ cond.names)
    (hbase : a ∉ base.names) (hmid : ∀ s ∈ mid, Apart a s) (hpost : ∀ s ∈ post, Apart a s)
    (hkeep : ∀ x ∈ cond.names ++ base.names, ∀ s ∈ mid, x ∉ s.lets ∧ x ∉ s.copies) :
    Same {a}
      (run M env (pre ++ .let [(a, .op3 cond left base)] :: (mid ++
        .let [(b, .op3 cond left' right')] :: post)))
      (run M env (pre ++ .let [(a, left)] :: (mid ++
        .let [(b, .op3 cond left' base)] :: post))) := by
  rw [run_append, run_append]
  cases run M env pre with
  | none => exact .none
  | some env₀ =>
    obtain ⟨v, hv⟩ := Option.isSome_iff_exists.mp (hleft env₀)
    simp only [Option.bind_some, run_let, run_append, run_update hmid, hv]
    cases hrun : run M env₀ mid with
    | none =>
      cases eval M env₀ (.op3 cond left base) <;> exact .none
    | some env₂ =>
      have hkept : ∀ e : Expr, (∀ x ∈ e.names, x ∈ cond.names ++ base.names) → a ∉ e.names →
          ∀ w, eval M (Function.update env₂ a w) e = eval M env₀ e := fun e he ha w => by
        rw [eval_update ha]
        exact eval_congr fun x hx => run_keeps (hkeep x (he x hx)) hrun
      have hc := hkept cond (fun x hx => List.mem_append_left _ hx) hcond
      have hb := hkept base (fun x hx => List.mem_append_right _ hx) hbase
      simp only [Option.map_some, Option.bind_some, eval, hc, hb]
      cases eval M env₀ cond with
      | none => exact .none
      | some c =>
        simp only [Option.bind_some]
        by_cases htruth : M.truth c = true
        · simp only [if_pos htruth, hv, Option.bind_some]
          exact Same.refl _ _
        · simp only [if_neg htruth]
          cases eval M env₀ base with
          | none => exact .none
          | some w =>
            simp only [Option.bind_some, eval_refVarName hright, Function.update_self]
            rw [Function.update_comm hab.symm, Function.update_comm hab.symm, run_update hpost,
              run_update hpost]
            cases run M (Function.update env₂ b w) post with
            | none => exact .none
            | some env₃ =>
              exact .some fun x hx => (Function.update_of_ne hx w env₃).trans
                (Function.update_of_ne hx v env₃).symm

end Pair

/-! ## Blocks -/

section Blocks

variable {blk : List Stmt} {s t : Stmt} {i j : ℕ}

theorem exists_append (hi : blk[i]? = some s) :
    ∃ pre post, blk = pre ++ s :: post ∧ pre.length = i := by
  obtain ⟨hlt, rfl⟩ := List.getElem?_eq_some_iff.mp hi
  refine ⟨blk.take i, blk.drop (i + 1), ?_, List.length_take_of_le hlt.le⟩
  rw [← List.drop_eq_getElem_cons hlt, List.take_append_drop]

theorem modify_append_cons (pre post : List Stmt) (f : Stmt → Stmt) :
    (pre ++ s :: post).modify pre.length f = pre ++ f s :: post := by
  induction pre with
  | nil => rfl
  | cons u pre ih => rw [List.cons_append, List.length_cons, List.modify_succ_cons, ih]; rfl

/-- A block around two places. -/
theorem exists_split (hij : i < j) (hi : blk[i]? = some s) (hj : blk[j]? = some t) :
    ∃ pre mid post, blk = pre ++ s :: (mid ++ t :: post) ∧
      (∀ f g, (blk.modify i f).modify j g = pre ++ f s :: (mid ++ g t :: post)) ∧
      (∀ u ∈ mid, ∃ k, i < k ∧ k < j ∧ blk[k]? = some u) ∧
      ∀ u ∈ post, ∃ k, j < k ∧ blk[k]? = some u := by
  obtain ⟨pre, rest, rfl, rfl⟩ := exists_append hi
  have hrest : rest[j - pre.length - 1]? = some t := by
    rw [List.getElem?_append_right hij.le, show j - pre.length = j - pre.length - 1 + 1 by omega,
      List.getElem?_cons_succ] at hj
    exact hj
  obtain ⟨mid, post, rfl, hmid⟩ := exists_append hrest
  refine ⟨pre, mid, post, rfl, fun f g => ?_, fun u hu => ?_, fun u hu => ?_⟩
  · rw [modify_append_cons]
    have hlength : j = (pre ++ f s :: mid).length := by
      rw [List.length_append, List.length_cons]
      omega
    rw [← List.cons_append, ← List.append_assoc, hlength, modify_append_cons, List.append_assoc]
    rfl
  · obtain ⟨m, hm, rfl⟩ := List.mem_iff_getElem.mp hu
    refine ⟨pre.length + (m + 1), by omega, by omega, ?_⟩
    rw [List.getElem?_append_right (by omega), Nat.add_sub_cancel_left, List.getElem?_cons_succ,
      List.getElem?_append_left hm, List.getElem?_eq_getElem hm]
  · obtain ⟨m, hm, rfl⟩ := List.mem_iff_getElem.mp hu
    refine ⟨pre.length + (mid.length + (m + 1) + 1), by omega, ?_⟩
    rw [List.getElem?_append_right (by omega), Nat.add_sub_cancel_left, List.getElem?_cons_succ,
      List.getElem?_append_right (by omega), Nat.add_sub_cancel_left, List.getElem?_cons_succ,
      List.getElem?_eq_getElem hm]

theorem eq_of_selectLet {sel : SelectLet} (h : s.selectLet = some sel) :
    s = .let [(sel.name, .op3 sel.cond sel.left sel.right)] := by
  unfold Stmt.selectLet at h
  split at h
  · obtain rfl := Option.some.inj h
    rfl
  · cases h

theorem getElem_of_selectAt {sel : SelectLet} (h : selectAt blk i = some sel) :
    blk[i]? = some (.let [(sel.name, .op3 sel.cond sel.left sel.right)]) := by
  obtain ⟨s, hs, hsel⟩ := Option.bind_eq_some_iff.mp h
  rw [hs, eq_of_selectLet hsel]

/-- Both `strip` and `setRight` look for one variable whose value is selected, and leave any other
statement alone. -/
theorem select_or_kept (s : Stmt) :
    (∃ name cond left right, s = .let [(name, .op3 cond left right)]) ∨
      s.strip = s ∧ ∀ base, s.setRight base = s := by
  obtain ⟨_ | ⟨⟨name, e⟩, vars⟩⟩ | ⟨left, right⟩ := s
  · exact .inr ⟨rfl, fun _ => rfl⟩
  · cases e with
    | op3 cond left right =>
      cases vars with
      | nil => exact .inl ⟨name, cond, left, right, rfl⟩
      | cons p vars => exact .inr ⟨rfl, fun _ => rfl⟩
    | _ => exact .inr ⟨rfl, fun _ => rfl⟩
  · exact .inr ⟨rfl, fun _ => rfl⟩

theorem strip_lets (s : Stmt) : s.strip.lets = s.lets := by
  obtain ⟨name, cond, left, right, rfl⟩ | ⟨hstrip, -⟩ := select_or_kept s
  · rfl
  · rw [hstrip]

theorem strip_copies (s : Stmt) : s.strip.copies = s.copies := by
  obtain ⟨name, cond, left, right, rfl⟩ | ⟨hstrip, -⟩ := select_or_kept s
  · rfl
  · rw [hstrip]

theorem strip_names (s : Stmt) {x : Name} (hx : x ∈ s.strip.names) : x ∈ s.names := by
  obtain ⟨name, cond, left, right, rfl⟩ | ⟨hstrip, -⟩ := select_or_kept s
  · change x ∈ (Stmt.let [(name, left)]).names at hx
    simp only [Stmt.names, Stmt.copies, Stmt.writes, List.flatMap_cons, List.flatMap_nil,
      Expr.names, List.nil_append, List.append_nil, List.mem_append] at hx ⊢
    exact .inl (.inr hx)
  · rwa [hstrip] at hx

theorem setRight_lets (base : Expr) (s : Stmt) : (s.setRight base).lets = s.lets := by
  obtain ⟨name, cond, left, right, rfl⟩ | ⟨-, hset⟩ := select_or_kept s
  · rfl
  · rw [hset]

theorem setRight_copies (base : Expr) (s : Stmt) : (s.setRight base).copies = s.copies := by
  obtain ⟨name, cond, left, right, rfl⟩ | ⟨-, hset⟩ := select_or_kept s
  · rfl
  · rw [hset]

theorem setRight_names {base : Expr} (s : Stmt) {x : Name} (hx : x ∈ (s.setRight base).names) :
    x ∈ s.names ∨ x ∈ base.names := by
  obtain ⟨name, cond, left, right, rfl⟩ | ⟨-, hset⟩ := select_or_kept s
  · change x ∈ (Stmt.let [(name, .op3 cond left base)]).names at hx
    simp only [Stmt.names, Stmt.copies, Stmt.writes, List.flatMap_cons, List.flatMap_nil,
      Expr.names, List.nil_append, List.append_nil, List.mem_append] at hx ⊢
    exact hx.imp_left .inl
  · rw [hset] at hx
    exact .inl hx

theorem strip_setRight (base : Expr) (s : Stmt) : (s.setRight base).strip = s.strip := by
  obtain ⟨name, cond, left, right, rfl⟩ | ⟨-, hset⟩ := select_or_kept s
  · rfl
  · rw [hset]

theorem setRight_setRight (base : Expr) (s : Stmt) :
    (s.setRight base).setRight base = s.setRight base := by
  obtain ⟨name, cond, left, right, rfl⟩ | ⟨-, hset⟩ := select_or_kept s
  · rfl
  · rw [hset, hset]

/-- What is linked next may have the base already. -/
theorem relink_modify (base : Expr) (rest : List ℕ) :
    relink base (j :: rest) (blk.modify j (Stmt.setRight base)) = relink base (j :: rest) blk := by
  cases rest with
  | nil =>
    rw [relink, relink, List.modify_modify_eq]
    exact congrArg (blk.modify j) (funext (setRight_setRight base))
  | cons k rest =>
    rw [relink, relink, List.modify_modify_eq]
    exact congrArg (relink base (k :: rest) <| blk.modify j ·) (funext (strip_setRight base))

theorem relink_getElem {base : Expr} {chain : List ℕ} {k : ℕ} (hk : k ∉ chain) :
    (relink base chain blk)[k]? = blk[k]? := by
  induction chain generalizing blk with
  | nil => rfl
  | cons i rest ih =>
    have hne : i ≠ k := fun h => hk (h ▸ List.mem_cons_self)
    cases rest with
    | nil => rw [relink, List.getElem?_modify_ne _ _ hne]
    | cons j rest =>
      rw [relink, ih fun h => hk (List.mem_cons_of_mem _ h), List.getElem?_modify_ne _ _ hne]

end Blocks

/-! ## Chains -/

section Chains

variable (describe : Expr → String) (hash : Name → ℕ) (B : List Stmt)

/-- Each name is defined once, and is read behind that only. -/
structure WellFormed : Prop where
  later : ∀ (i j : ℕ) (s t : Stmt), i < j → B[i]? = some s → B[j]? = some t →
    ∀ x ∈ s.lets ++ s.names, x ∉ t.lets
  own : ∀ s ∈ B, ∀ sel, s.selectLet = some sel →
    sel.name ∉ sel.cond.names ++ sel.left.names ++ sel.right.names

/-- `describe` tells the conditions of the block apart. -/
def Describes : Prop := ∀ i j s t, selectAt B i = some s → selectAt B j = some t →
  describe t.cond = describe s.cond → t.cond = s.cond

/-- A link and the next one. -/
structure Link (i j : ℕ) (s t : SelectLet) : Prop where
  first : selectAt B i = some s
  second : selectAt B j = some t
  lt : i < j
  uses : nameUses hash B (hash s.name) = [j]
  cond : describe t.cond = describe s.cond
  acc : t.right.refVarName = some s.name
  safe : s.left.evalSafe = true

def Follows (i j : ℕ) : Prop := ∃ s t, Link describe hash B i j s t

/-- The names of the links that are not the last: what reads them is the next link. -/
def Inner : Set Name := {x | ∃ i j s t, Link describe hash B i j s t ∧ s.name = x}

/-- **What may be fused**: the variables that the base reads are not assigned up to the last link,
and what is going to be evaluated always follows no pointer. -/
structure Movable : Prop where
  base : ∀ i j s, Relation.TransGen (Follows describe hash B) i j → selectAt B i = some s →
    s.cond.readsMutable (collectMutable B) = false →
    ∀ (k : ℕ) (u : Stmt), i < k → k < j → B[k]? = some u → ∀ x ∈ s.right.names, x ∉ u.copies
  left : ∀ i j s t, Link describe hash B i j s t → s.left.derefs = false

/-- A name that is not defined from a place on. -/
def Early (i : ℕ) (x : Name) : Prop := ∀ (k : ℕ) (s : Stmt), i ≤ k → B[k]? = some s → x ∉ s.lets

/-- A statement on its way: it defines and assigns the same, and reads nothing later. -/
structure Stays (i : ℕ) (s s' : Stmt) : Prop where
  lets : s'.lets = s.lets
  copies : s'.copies = s.copies
  names : ∀ x ∈ s'.names, x ∈ s.names ∨ Early B i x

def Stage (i : ℕ) (b : List Stmt) : Prop :=
  ∀ (k : ℕ) (s' : Stmt), b[k]? = some s' → ∃ s, B[k]? = some s ∧ Stays B i s s'

variable {describe hash B} {i j : ℕ} {b : List Stmt}

theorem Stays.strip {s s' : Stmt} (h : Stays B i s s') : Stays B i s s'.strip :=
  ⟨(strip_lets s').trans h.lets, (strip_copies s').trans h.copies,
    fun x hx => h.names x (strip_names s' hx)⟩

theorem Stays.setRight {s s' : Stmt} (h : Stays B i s s') {base : Expr}
    (hbase : ∀ x ∈ base.names, Early B i x) : Stays B i s (s'.setRight base) :=
  ⟨(setRight_lets base s').trans h.lets, (setRight_copies base s').trans h.copies,
    fun x hx => (setRight_names s' hx).elim (h.names x) fun hx => .inr (hbase x hx)⟩

theorem Stage.modify (h : Stage B i b) {f : Stmt → Stmt}
    (hf : ∀ s s', Stays B i s s' → Stays B i s (f s')) (m : ℕ) : Stage B i (b.modify m f) := by
  intro k s' hs'
  by_cases hmk : m = k
  · subst hmk
    rw [List.getElem?_modify_eq] at hs'
    obtain ⟨s₁, hs₁, rfl⟩ := Option.map_eq_some_iff.mp hs'
    obtain ⟨s, hs, hstays⟩ := h m s₁ hs₁
    exact ⟨s, hs, hf s s₁ hstays⟩
  · rw [List.getElem?_modify_ne _ _ hmk] at hs'
    exact h k s' hs'

theorem Stage.relink {base : Expr} (hbase : ∀ x ∈ base.names, Early B i x) {chain : List ℕ}
    (h : Stage B i b) : Stage B i (relink base chain b) := by
  induction chain generalizing b with
  | nil => exact h
  | cons l rest ih =>
    cases rest with
    | nil => exact h.modify (fun _ _ hstays => hstays.setRight hbase) l
    | cons m rest => exact ih (h.modify (fun _ _ hstays => hstays.strip) l)

theorem Early.mono {x : Name} (h : Early B i x) (hij : i ≤ j) : Early B j x :=
  fun k s hk hs => h k s (hij.trans hk) hs

theorem Stage.mono (h : Stage B i b) (hij : i ≤ j) : Stage B j b := by
  intro k s' hs'
  obtain ⟨s, hs, hstays⟩ := h k s' hs'
  exact ⟨s, hs, hstays.lets, hstays.copies, fun x hx => (hstays.names x hx).imp_right fun h =>
    h.mono hij⟩

theorem mem_names_select {sel : SelectLet} {x : Name} :
    x ∈ (Stmt.let [(sel.name, .op3 sel.cond sel.left sel.right)]).names ↔
      x ∈ sel.cond.names ++ sel.left.names ++ sel.right.names := by
  simp [Stmt.names, Stmt.copies, Stmt.writes, Expr.names]

/-- What a link reads is defined before. -/
theorem early_of_select (hwf : WellFormed B) {sel : SelectLet} (hsel : selectAt B i = some sel)
    {x : Name} (hx : x ∈ sel.cond.names ++ sel.left.names ++ sel.right.names) : Early B i x := by
  have hstmt := getElem_of_selectAt hsel
  intro k s hk hs
  rcases hk.eq_or_lt with rfl | hlt
  · rw [hstmt] at hs
    obtain rfl := Option.some.inj hs
    intro hmem
    obtain rfl := List.mem_singleton.mp hmem
    exact hwf.own _ (List.mem_of_getElem? hstmt) sel rfl hx
  · exact hwf.later i k _ s hlt hstmt hs x (List.mem_append_right _ (mem_names_select.mpr hx))

theorem not_mem_of_readsAny {m : List Name} {e : Expr} (h : e.readsAny m = false) :
    ∀ x ∈ e.names, x ∉ m := by
  induction e with
  | var name =>
    intro x hx
    obtain rfl := List.mem_singleton.mp hx
    exact of_decide_eq_false h
  | const id => exact fun _ hx => absurd hx List.not_mem_nil
  | ref2Value subexpr ih => exact ih h
  | op3 subexpr left right ihCond ihLeft ihRight =>
    simp only [Expr.readsAny, Bool.or_eq_false_iff] at h
    intro x hx
    rcases List.mem_append.mp hx with hx | hx
    · exact (List.mem_append.mp hx).elim (ihCond h.1.1 x) (ihLeft h.1.2 x)
    · exact ihRight h.2 x hx
  | node kind n children ih =>
    simp only [Expr.readsAny, Bool.or_eq_false_iff, decide_eq_false_iff_not, not_exists,
      Bool.not_eq_true] at h
    intro x hx
    obtain ⟨names, hnames, hx⟩ := List.mem_flatten.mp hx
    obtain ⟨i, rfl⟩ := List.mem_ofFn.mp hnames
    exact ih i (h.2 i) x hx

theorem not_mem_of_readsMutable {m : List Name} {e : Expr} (h : e.readsMutable m = false)
    {x : Name} (hx : x ∈ e.names) : x ∉ m := by
  cases m with
  | nil => exact List.not_mem_nil
  | cons y m => exact not_mem_of_readsAny (by simpa [Expr.readsMutable] using h) x hx

theorem mem_nameUses {x : Name} {k : ℕ} {s : Stmt} (hs : B[k]? = some s) (hx : x ∈ s.names) :
    k ∈ nameUses hash B (hash x) := by
  rw [nameUses, List.mem_filter, List.mem_range, hs]
  refine ⟨(List.getElem?_eq_some_iff.mp hs).1, ?_⟩
  rw [Option.any_some, List.any_eq_true]
  exact ⟨x, hx, decide_eq_true rfl⟩

/-- The name of a link is not met behind it but in the next one. -/
theorem Link.apart (hwf : WellFormed B) {i₀ : ℕ} (hi₀ : i₀ ≤ i) (hstage : Stage B i₀ b)
    {s t : SelectLet} (h : Link describe hash B i j s t) {k : ℕ} {u : Stmt} (hk : i < k)
    (hkj : k ≠ j) (hu : b[k]? = some u) : Apart s.name u := by
  have hstmt := getElem_of_selectAt h.first
  have hlets : s.name ∈ (Stmt.let [(s.name, .op3 s.cond s.left s.right)]).lets :=
    List.mem_singleton_self _
  obtain ⟨u₀, hu₀, hstays⟩ := hstage k u hu
  constructor
  · rw [hstays.lets]
    exact hwf.later i k _ u₀ hk hstmt hu₀ _ (List.mem_append_left _ hlets)
  · intro hmem
    rcases hstays.names _ hmem with hmem | hearly
    · have : k ∈ nameUses hash B (hash s.name) := mem_nameUses hu₀ hmem
      rw [h.uses] at this
      exact hkj (List.mem_singleton.mp this)
    · exact hearly i _ hi₀ hstmt hlets

end Chains

/-! ## Fusing -/

section Main

variable {Value : Type} {M : Meaning Value} {env : Name → Value} {describe : Expr → String}
  {hash : Name → ℕ} {B b : List Stmt} {i i₀ j : ℕ}

theorem Same.mono {names names' : Set Name} {r r' : Option (Name → Value)} (h : Same names r r')
    (hsub : names ⊆ names') : Same names' r r' := by
  cases h with
  | none => exact .none
  | some h => exact .some fun x hx => h x fun hmem => hx (hsub hmem)

theorem Same.trans {names : Set Name} {r r' r'' : Option (Name → Value)} (h : Same names r r')
    (h' : Same names r' r'') : Same names r r'' := by
  cases h with
  | none => exact h'
  | some h =>
    cases h' with
    | some h' => exact .some fun x hx => (h x hx).trans (h' x hx)

/-- **The base of a chain goes on to the next link.** -/
theorem same_link (hwf : WellFormed B) (hmovable : Movable describe hash B) {s₀ : SelectLet}
    (hs₀ : selectAt B i₀ = some s₀)
    (hstable : s₀.cond.readsMutable (collectMutable B) = false) (hi₀ : i₀ ≤ i)
    (htrans : Relation.TransGen (Follows describe hash B) i₀ j) (hstage : Stage B i₀ b)
    {s t : SelectLet} (hlink : Link describe hash B i j s t) (hs : s.cond = s₀.cond)
    (ht : t.cond = s₀.cond)
    (hi : b[i]? = some (.let [(s.name, .op3 s.cond s.left s₀.right)])) (hj : b[j]? = B[j]?) :
    Same (Inner describe hash B) (run M env b)
      (run M env ((b.modify i Stmt.strip).modify j (Stmt.setRight s₀.right))) := by
  have hsecond := getElem_of_selectAt hlink.second
  have hfirst := getElem_of_selectAt hlink.first
  have hearly : ∀ x ∈ s₀.cond.names ++ s₀.right.names, Early B i₀ x := fun x hx =>
    early_of_select hwf hs₀ <| (List.mem_append.mp hx).elim
      (fun hx => List.mem_append_left _ (List.mem_append_left _ hx)) (List.mem_append_right _)
  have hnot : ∀ x ∈ s₀.cond.names ++ s₀.right.names, x ≠ s.name := by
    rintro x hx rfl
    exact hearly _ hx i _ hi₀ hfirst (List.mem_singleton_self _)
  obtain ⟨pre, mid, post, rfl, hmodify, hmid, hpost⟩ := exists_split hlink.lt hi (hj.trans hsecond)
  rw [hmodify]
  have hab : t.name ≠ s.name := fun heq => hwf.later i j _ _ hlink.lt hfirst hsecond s.name
    (List.mem_append_left _ (List.mem_singleton_self _)) (List.mem_singleton.mpr heq.symm)
  have hinner : {s.name} ⊆ Inner describe hash B := by
    rintro x rfl
    exact ⟨i, j, s, t, hlink, rfl⟩
  rw [hs, ht]
  refine Same.mono (same_pair (fun _ => isSome_eval hlink.safe (hmovable.left i j s t hlink))
    hlink.acc hab (fun hx => hnot _ (List.mem_append_left _ hx) rfl)
    (fun hx => hnot _ (List.mem_append_right _ hx) rfl) ?_ ?_ ?_) hinner
  · intro u hu
    obtain ⟨k, hik, hkj, hk⟩ := hmid u hu
    exact hlink.apart hwf hi₀ hstage hik hkj.ne hk
  · intro u hu
    obtain ⟨k, hjk, hk⟩ := hpost u hu
    exact hlink.apart hwf hi₀ hstage (hlink.lt.trans hjk) hjk.ne' hk
  · intro x hx u hu
    obtain ⟨k, hik, hkj, hk⟩ := hmid u hu
    obtain ⟨u₀, hu₀, hstays⟩ := hstage k u hk
    rw [hstays.lets, hstays.copies]
    refine ⟨hearly x hx k u₀ (hi₀.trans hik.le) hu₀, ?_⟩
    rcases List.mem_append.mp hx with hx | hx
    · exact fun hmem => not_mem_of_readsMutable hstable hx
        (List.mem_flatMap.mpr ⟨u₀, List.mem_of_getElem? hu₀, hmem⟩)
    · exact hmovable.base i₀ j s₀ htrans hs₀ hstable k u₀ (hi₀.trans_lt hik) hkj hu₀ x hx

/-- **A chain is fused.** -/
theorem same_relink (hwf : WellFormed B) (hdescribe : Describes describe B)
    (hmovable : Movable describe hash B) {s₀ : SelectLet} (hs₀ : selectAt B i₀ = some s₀)
    (hstable : s₀.cond.readsMutable (collectMutable B) = false) {rest : List ℕ} (hi₀ : i₀ ≤ i)
    (hreach : Relation.ReflTransGen (Follows describe hash B) i₀ i)
    (hchain : (i :: rest).IsChain (Follows describe hash B)) (hstage : Stage B i₀ b)
    {s : SelectLet} (hsel : selectAt B i = some s) (hs : s.cond = s₀.cond)
    (hi : b[i]? = some (.let [(s.name, .op3 s.cond s.left s₀.right)]))
    (hrest : ∀ k ∈ rest, b[k]? = B[k]?) :
    Same (Inner describe hash B) (run M env b) (run M env (relink s₀.right (i :: rest) b)) := by
  induction rest generalizing i b s with
  | nil =>
    have hsame : relink s₀.right [i] b = b := by
      refine List.ext_getElem? fun k => ?_
      by_cases hik : i = k
      · subst hik
        rw [relink, List.getElem?_modify_eq, hi]
        rfl
      · rw [relink, List.getElem?_modify_ne _ _ hik]
    rw [hsame]
    exact Same.refl _ _
  | cons j rest ih =>
    obtain ⟨⟨s', t, hlink⟩, htail⟩ := List.isChain_cons_cons.mp hchain
    obtain rfl := Option.some.inj (hsel.symm.trans hlink.first)
    have ht : t.cond = s₀.cond := (hdescribe i j s t hsel hlink.second hlink.cond).trans hs
    have htrans : Relation.TransGen (Follows describe hash B) i₀ j :=
      .tail' hreach ⟨s, t, hlink⟩
    have hj := hrest j List.mem_cons_self
    have hbase : ∀ x ∈ s₀.right.names, Early B i₀ x := fun x hx =>
      early_of_select hwf hs₀ (List.mem_append_right _ hx)
    have hlater : ∀ k ∈ rest, j < k := by
      have hlt : (j :: rest).IsChain (· < ·) := htail.imp fun _ _ h => by
        obtain ⟨_, _, h⟩ := h
        exact h.lt
      exact fun k hk => List.rel_of_pairwise_cons (List.isChain_iff_pairwise.mp hlt) hk
    refine (same_link hwf hmovable hs₀ hstable hi₀ htrans hstage hlink hs ht hi hj).trans ?_
    rw [relink, ← relink_modify]
    refine ih (hi₀.trans hlink.lt.le) htrans.to_reflTransGen htail ?_ hlink.second ht ?_ ?_
    · exact (hstage.modify (fun _ _ h => h.strip) i).modify (fun _ _ h => h.setRight hbase) j
    · rw [List.getElem?_modify_eq, List.getElem?_modify_ne _ _ hlink.lt.ne, hj,
        getElem_of_selectAt hlink.second]
      rfl
    · intro k hk
      have hjk := hlater k hk
      rw [List.getElem?_modify_ne _ _ hjk.ne, List.getElem?_modify_ne _ _ (hlink.lt.trans hjk).ne,
        hrest k (List.mem_cons_of_mem _ hk)]

theorem of_chainSuccessor {acc : Name} {key : String} {consumed : List ℕ}
    (h : chainSuccessor describe hash B b acc key i consumed = some j) :
    nameUses hash B (hash acc) = [j] ∧ i < j ∧ j ∉ consumed ∧
      ∃ t, selectAt b j = some t ∧ describe t.cond = key ∧ t.right.refVarName = some acc := by
  unfold chainSuccessor at h
  split at h
  · next l huses =>
    split_ifs at h with hskip
    obtain ⟨t, ht, hfound⟩ := Option.bind_eq_some_iff.mp h
    split_ifs at hfound with hfits
    obtain rfl := Option.some.inj hfound
    rw [not_or, not_le] at hskip
    exact ⟨huses, hskip.1, hskip.2, t, ht, hfits⟩
  · cases h

/-- `build_select_chain` goes from link to link. -/
theorem isChain_chainFrom (hash : Name → ℕ) (fuel : ℕ) {consumed : List ℕ}
    (hsame : ∀ k ∉ consumed, b[k]? = B[k]?) {key : String} {sel : SelectLet}
    (hsel : selectAt B i = some sel) (hkey : describe sel.cond = key) :
    (i :: chainFrom describe hash B b key consumed fuel i sel).IsChain (Follows describe hash B) ∧
      ∀ k ∈ chainFrom describe hash B b key consumed fuel i sel, k ∉ consumed := by
  induction fuel generalizing i sel with
  | zero => exact ⟨.singleton _, fun _ hk => absurd hk List.not_mem_nil⟩
  | succ fuel ih =>
    rw [chainFrom]
    cases hnext : chainSuccessor describe hash B b sel.name key i consumed with
    | none => exact ⟨.singleton _, fun _ hk => absurd hk List.not_mem_nil⟩
    | some j =>
      obtain ⟨huses, hlt, hfree, t, ht, hcond, hacc⟩ := of_chainSuccessor hnext
      split_ifs with hsafe
      · have htB : selectAt B j = some t := by rw [selectAt, ← hsame j hfree]; exact ht
        simp only [ht, Option.map_some, Option.getD_some]
        obtain ⟨hchain, hrest⟩ := ih htB hcond
        refine ⟨List.isChain_cons_cons.mpr
          ⟨⟨sel, t, hsel, htB, hlt, huses, hcond.trans hkey.symm, hacc, hsafe⟩, hchain⟩, ?_⟩
        intro k hk
        exact (List.mem_cons.mp hk).elim (fun heq => heq ▸ hfree) (hrest k)
      · exact ⟨.singleton _, fun _ hk => absurd hk List.not_mem_nil⟩

/-- The block before a turn: what is not consumed is as it was. -/
structure Before (B : List Stmt) (i : ℕ) (state : List Stmt × List ℕ) : Prop where
  stage : Stage B i state.1
  kept : ∀ k ∉ state.2, state.1[k]? = B[k]?

theorem fuseAt_same (M : Meaning Value) (env : Name → Value) (hwf : WellFormed B)
    (hdescribe : Describes describe B) (hmovable : Movable describe hash B)
    {state : List Stmt × List ℕ} (h : Before B i state) :
    Before B (i + 1) (fuseAt describe hash B (collectMutable B) state i) ∧
      Same (Inner describe hash B) (run M env state.1)
        (run M env (fuseAt describe hash B (collectMutable B) state i).1) := by
  have hkeep : Before B (i + 1) state ∧
      Same (Inner describe hash B) (run M env state.1) (run M env state.1) :=
    ⟨⟨h.stage.mono (Nat.le_succ i), h.kept⟩, Same.refl _ _⟩
  rw [fuseAt]
  by_cases hconsumed : i ∈ state.2
  · rw [if_pos hconsumed]
    exact hkeep
  rw [if_neg hconsumed]
  by_cases hlength :
    2 ≤ (buildSelectChain describe hash B state.1 (collectMutable B) state.2 i).length
  swap
  · rw [if_neg hlength]
    exact hkeep
  rw [if_pos hlength]
  rw [buildSelectChain] at hlength ⊢
  cases hsel : selectAt state.1 i with
  | none =>
    rw [hsel] at hlength
    exact absurd hlength (by simp)
  | some sel =>
    rw [hsel] at hlength
    simp only at hlength ⊢
    by_cases hstable : sel.cond.readsMutable (collectMutable B) = true
    · rw [if_pos hstable] at hlength
      exact absurd hlength (by simp)
    rw [if_neg hstable, Option.map_some, Option.getD_some]
    have hselB : selectAt B i = some sel := by rw [selectAt, ← h.kept i hconsumed]; exact hsel
    obtain ⟨hchain, hfree⟩ := isChain_chainFrom hash state.1.length h.kept hselB rfl
    have hbase : ∀ x ∈ sel.right.names, Early B i x := fun x hx =>
      early_of_select hwf hselB (List.mem_append_right _ hx)
    refine ⟨⟨(h.stage.relink hbase).mono (Nat.le_succ i), fun k hk => ?_⟩, ?_⟩
    · rw [relink_getElem fun hmem => hk (List.mem_append_left _ hmem),
        h.kept k fun hmem => hk (List.mem_append_right _ hmem)]
    · exact same_relink hwf hdescribe hmovable hselB (Bool.eq_false_iff.mpr hstable) le_rfl .refl
        hchain h.stage hselB rfl (getElem_of_selectAt hsel) fun k hk => h.kept k (hfree k hk)

theorem foldl_fuseAt_same (hwf : WellFormed B) (hdescribe : Describes describe B)
    (hmovable : Movable describe hash B) (n : ℕ) :
    Before B n ((List.range n).foldl (fuseAt describe hash B (collectMutable B)) (B, [])) ∧
      Same (Inner describe hash B) (run M env B)
        (run M env
          ((List.range n).foldl (fuseAt describe hash B (collectMutable B)) (B, [])).1) := by
  induction n with
  | zero =>
    exact ⟨⟨fun k s hs => ⟨s, hs, rfl, rfl, fun _ hx => .inl hx⟩, fun _ _ => rfl⟩, Same.refl _ _⟩
  | succ n ih =>
    rw [List.range_succ, List.foldl_append, List.foldl_cons, List.foldl_nil]
    obtain ⟨hbefore, hsame⟩ := fuseAt_same M env hwf hdescribe hmovable ih.1
    exact ⟨hbefore, ih.2.trans hsame⟩

end Main

/-! `a1 = c ? t : x;  y = w;  a2 = c ? u : a1` -/

section Links

def links (y : Name) : List Stmt :=
  [.let [("a1", .op3 (.var "c") (.var "t") (.var "x"))], .copy y (.var "w"),
    .let [("a2", .op3 (.var "c") (.var "u") (.var "a1"))]]

def describeVar : Expr → String
  | .var name => name
  | _ => ""

def hashOf (name : Name) : ℕ := ["c", "t", "x", "z", "w", "u", "a1", "a2"].idxOf name

/-- Booleans, all of whose operators give `false`. -/
def bools : Meaning Bool where
  const _ := false
  truth := id
  apply _ results := if results.all Option.isSome then some false else none
  total kind results _ _ h := by rw [if_pos (List.all_eq_true.mpr h)]; rfl

theorem wellFormed_links {y : Name} (hy : y ≠ "a2") : WellFormed (links y) where
  later i j s t hij hs ht := by
    rcases i with - | - | - | i <;> rcases j with - | - | - | j <;>
      simp_all [links, Stmt.lets, Stmt.names, Stmt.copies, Stmt.writes] <;> grind [Expr.names]
  own s hs sel hsel := by
    simp only [links, List.mem_cons, List.not_mem_nil, or_false] at hs
    rcases hs with rfl | rfl | rfl
    · obtain rfl := Option.some.inj hsel
      simp [Expr.names]
    · cases hsel
    · obtain rfl := Option.some.inj hsel
      simp [Expr.names]

/-- The two selects, and nothing else. -/
theorem eq_of_selectAt_links {y : Name} {i : ℕ} {s : SelectLet}
    (h : selectAt (links y) i = some s) :
    i = 0 ∧ s = ⟨"a1", .var "c", .var "t", .var "x"⟩ ∨
      i = 2 ∧ s = ⟨"a2", .var "c", .var "u", .var "a1"⟩ := by
  rcases i with - | - | - | i
  · exact .inl ⟨rfl, (Option.some.inj h).symm⟩
  · cases h
  · exact .inr ⟨rfl, (Option.some.inj h).symm⟩
  · cases h

theorem describes_links (y : Name) : Describes describeVar (links y) := by
  intro i j s t hs ht _
  rcases eq_of_selectAt_links hs with ⟨-, rfl⟩ | ⟨-, rfl⟩ <;>
    rcases eq_of_selectAt_links ht with ⟨-, rfl⟩ | ⟨-, rfl⟩ <;> rfl

theorem movable_links : Movable describeVar hashOf (links "z") where
  base i j s _ hs _ k u _ _ hu x hx := by
    rcases k with - | - | - | k
    · obtain rfl := Option.some.inj hu
      exact List.not_mem_nil
    · obtain rfl := Option.some.inj hu
      rcases eq_of_selectAt_links hs with ⟨-, rfl⟩ | ⟨-, rfl⟩ <;>
        simp_all [Expr.names, Stmt.copies]
    · obtain rfl := Option.some.inj hu
      exact List.not_mem_nil
    · cases hu
  left i j s t h := by
    rcases eq_of_selectAt_links h.first with ⟨-, rfl⟩ | ⟨-, rfl⟩ <;> rfl

theorem fuseSelectChains_links : fuseSelectChains describeVar hashOf (links "x")
    = [.let [("a1", .var "t")], .copy "x" (.var "w"),
        .let [("a2", .op3 (.var "c") (.var "u") (.var "x"))]] :=
  rfl

/-- The last link takes what `x` is then. -/
theorem not_same_assigned : WellFormed (links "x") ∧ Describes describeVar (links "x") ∧
    ¬ Same (Inner describeVar hashOf (links "x")) (run bools (· = "x") (links "x"))
      (run bools (· = "x") (fuseSelectChains describeVar hashOf (links "x"))) := by
  refine ⟨wellFormed_links (by decide), describes_links "x", fun h => ?_⟩
  rw [fuseSelectChains_links] at h
  have hinner : "a2" ∉ Inner describeVar hashOf (links "x") := by
    rintro ⟨i, j, s, t, hlink, hname⟩
    have huses := hlink.uses
    rw [hname] at huses
    cases huses
  have hsame : ∀ env env' : Name → Bool, Same (Inner describeVar hashOf (links "x")) (some env)
      (some env') → env "a2" = env' "a2" := by
    rintro env env' (h | h)
    exact h "a2" hinner
  exact absurd (hsame _ _ h) (by decide)

end Links

end DaScript.FlattenSelect

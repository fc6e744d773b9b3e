import DaScript.Ast.RelocateSame

/-!
# Ast/RelocateNames — names that are looked up again

A moved variable is in scope from the top of its block.  Its name is still found, and no other
one's is lost, where no other variable of a name comes first (`Clear`).  The second variable of a
`let` keeps its name, and may take that of a global variable before its declaration.
-/

namespace DaScript.Relocate

variable {ε ν : Type}

/-! ## Names -/

section Names

variable (table : ℕ → Variable ν) (label : ℕ → String)

theorem resolvesList_append (scope : List ℕ) (list rest : List Stmt) :
    ResolvesList label scope (list ++ rest) ↔
      ResolvesList label scope list ∧
        ResolvesList label ((declaredAll list).reverse ++ scope) rest := by
  induction list generalizing scope with
  | nil => exact (true_and _).to_iff.symm
  | cons s list ih =>
    rw [List.cons_append, ResolvesList, ResolvesList, ih, and_assoc]
    rw [show declaredAll (s :: list) = s.declared ++ declaredAll list from rfl,
      List.reverse_append, List.append_assoc]

theorem resolvesLet_none (scope xs : List ℕ) :
    ResolvesLet label scope (xs.map (·, none)) := by
  induction xs generalizing scope with
  | nil => exact trivial
  | cons x xs ih => exact ⟨fun e he => absurd he (Option.not_mem_none e), ih _⟩

theorem onTop_resolves (scope : List ℕ) (lets : List (List ℕ)) :
    ResolvesList label scope (lets.map fun xs => .let (xs.map (·, none)) true) := by
  induction lets generalizing scope with
  | nil => exact trivial
  | cons xs lets ih => exact ⟨resolvesLet_none label scope xs, ih _⟩

theorem assignments_resolves (scope : List ℕ) (vars : List (ℕ × Option Expr)) :
    ResolvesList label scope (assignments table vars) ↔ ClearMoved label scope vars := by
  induction vars with
  | nil => exact iff_of_true trivial fun var hvar => absurd hvar List.not_mem_nil
  | cons var vars ih =>
    obtain ⟨x, init⟩ := var
    unfold ClearMoved at ih ⊢
    rw [List.forall_mem_cons, ← ih]
    cases init with
    | none => exact (and_iff_right fun e he => absurd he (Option.not_mem_none e)).symm
    | some e =>
      refine and_congr_left' ⟨fun h e' he' => ?_, fun h => h e rfl⟩
      obtain rfl := Option.some.inj he'
      exact h

theorem leftover_resolves (scope : List ℕ) (vars : List (ℕ × Option Expr)) :
    (leftover table vars).Resolves label scope ↔ ClearMoved label scope vars := by
  rw [← assignments_resolves table, leftover]
  split
  next assign h =>
    rw [h]
    exact (and_iff_left trivial).symm
  next list h => exact and_iff_left trivial

theorem block_clear {list finalList : List Stmt}
    (hlist : ∀ scope, ClearList table label scope list ↔
      ResolvesList label scope (visitList table list))
    (hfinals : ∀ scope, ClearList table label scope finalList ↔
      ResolvesList label scope (visitList table finalList)) (scope : List ℕ) :
    (ClearList table label (lifted table list finalList scope) list ∧
        ClearList table label ((staysAll table list).reverse ++ lifted table list finalList scope)
          finalList) ↔
      ResolvesList label scope (onTop table list finalList ++ visitList table list) ∧
        ResolvesList label
          ((declaredAll (onTop table list finalList ++ visitList table list)).reverse ++ scope)
          (visitList table finalList) := by
  have htop : ResolvesList label scope (onTop table list finalList) := onTop_resolves label scope _
  rw [resolvesList_append, and_iff_right htop, declaredAll_append, onTop_declared,
    visitList_declared, List.reverse_append, List.append_assoc, ← lifted, hlist, hfinals]

mutual

theorem clear_iff (s : Stmt) (scope : List ℕ) :
    s.Clear table label scope ↔ (s.visit table).Resolves label scope := by
  cases s with
  | expr e => exact Iff.rfl
  | assign via_move left right => exact Iff.rfl
  | «let» vars hasEarlyOut =>
    rw [Stmt.visit, Stmt.Clear]
    split
    · exact (leftover_resolves table label scope vars).symm
    · exact Iff.rfl
  | ifThenElse cond list finalList elseList elseFinalList =>
    exact and_congr_right fun _ => and_congr
      (block_clear table label (clearList_iff list) (clearList_iff finalList) scope)
      (block_clear table label (clearList_iff elseList) (clearList_iff elseFinalList) scope)
  | block list finalList =>
    exact block_clear table label (clearList_iff list) (clearList_iff finalList) scope
  | «while» cond list finalList =>
    exact and_congr_right fun _ =>
      block_clear table label (clearList_iff list) (clearList_iff finalList) scope
  | «for» iterators sources list finalList =>
    exact and_congr_right fun _ =>
      block_clear table label (clearList_iff list) (clearList_iff finalList) _
  | «return» subexpr => exact Iff.rfl
  | «break» => exact Iff.rfl
  | «continue» => exact Iff.rfl

theorem clearList_iff (list : List Stmt) (scope : List ℕ) :
    ClearList table label scope list ↔ ResolvesList label scope (visitList table list) := by
  cases list with
  | nil => exact Iff.rfl
  | cons s rest =>
    rw [visitList, ClearList, ResolvesList, visit_declared]
    exact and_congr (clear_iff s scope) (clearList_iff rest _)

end

/-! ### Names that are looked up again -/

variable {label}

theorem refer_of_finds {scope : List ℕ} {v : ℕ} (h : Finds label scope v) :
    refer label scope v = v := by
  rw [refer, h]
  rfl

theorem expr_reinfer {scope : List ℕ} {e : Expr} (h : e.Resolves label scope) :
    e.reinfer label scope = e := by
  obtain ⟨op, vars⟩ := e
  exact congrArg (Expr.mk op) ((List.map_congr_left fun v hv => refer_of_finds (h v hv)).trans
    (List.map_id vars))

theorem option_reinfer {scope : List ℕ} {init : Option Expr}
    (h : ∀ e ∈ init, e.Resolves label scope) : init.map (Expr.reinfer label scope) = init := by
  cases init with
  | none => rfl
  | some e => exact congrArg some (expr_reinfer (h e rfl))

theorem reinferLet_of_resolves {scope : List ℕ} {vars : List (ℕ × Option Expr)}
    (h : ResolvesLet label scope vars) : reinferLet label scope vars = vars := by
  induction vars generalizing scope with
  | nil => rfl
  | cons var vars ih =>
    obtain ⟨x, init⟩ := var
    rw [reinferLet, option_reinfer h.1, ih h.2]

mutual

theorem reinfer_of_resolves (s : Stmt) {scope : List ℕ} (h : s.Resolves label scope) :
    s.reinfer label scope = s := by
  cases s with
  | expr e => exact congrArg Stmt.expr (expr_reinfer h)
  | assign via_move left right =>
    rw [Stmt.reinfer, refer_of_finds h.1, expr_reinfer h.2]
  | «let» vars hasEarlyOut => rw [Stmt.reinfer, reinferLet_of_resolves h]
  | ifThenElse cond list finalList elseList elseFinalList =>
    obtain ⟨hcond, ⟨hlist, hfinals⟩, helse, hefinals⟩ := h
    rw [Stmt.reinfer, expr_reinfer hcond, reinferList_of_resolves list hlist,
      reinferList_of_resolves finalList hfinals, reinferList_of_resolves elseList helse,
      reinferList_of_resolves elseFinalList hefinals]
  | block list finalList =>
    rw [Stmt.reinfer, reinferList_of_resolves list h.1, reinferList_of_resolves finalList h.2]
  | «while» cond list finalList =>
    rw [Stmt.reinfer, expr_reinfer h.1, reinferList_of_resolves list h.2.1,
      reinferList_of_resolves finalList h.2.2]
  | «for» iterators sources list finalList =>
    have hsources : sources.map (Expr.reinfer label scope) = sources :=
      (List.map_congr_left fun e he => expr_reinfer (h.1 e he)).trans (List.map_id sources)
    rw [Stmt.reinfer, hsources, reinferList_of_resolves list h.2.1,
      reinferList_of_resolves finalList h.2.2]
  | «return» subexpr => exact congrArg Stmt.return (option_reinfer h)
  | «break» => rfl
  | «continue» => rfl

theorem reinferList_of_resolves (list : List Stmt) {scope : List ℕ}
    (h : ResolvesList label scope list) : reinferList label scope list = list := by
  cases list with
  | nil => rfl
  | cons s rest =>
    rw [reinferList, reinfer_of_resolves s h.1, reinferList_of_resolves rest h.2]

end

end Names

/-! ## The body of a function -/

section Body

/-- A body after the pass, when its names have been looked up again. -/
def relocated (table : ℕ → Variable ν) (args : List ℕ) (body : Stmt) : Stmt :=
  (body.visit table).reinfer (label table body) args

/-- Operation 0 reports its variable, 1 is the number five, and 2 asks its variable. -/
def reporting : Meaning ℕ ℕ where
  eval op vs _ :=
    if op = 0 then (vs, some (0, vs)) else ([], some (if op = 1 then 5 else vs.sum, vs))
  move _ vs _ := ([], some (0, vs))
  next _ _ _ := ([], some none)
  truth n := n ≠ 0

/-- The global variable `b`, the argument `c`, and the local variables `a` and `b`. -/
def namesAB (x : ℕ) : Variable ℕ where
  name := if x = 0 ∨ x = 3 then "b" else if x = 1 then "c" else "a"
  line := 5
  column := x
  init_via_move := false
  used_in_finally := decide (x = 2)
  zero := 0

/-- The global variable is reported, then come an `if` that returns, and a `let` of `a` and maybe
`b`, and `a` is seen by the finally list. -/
def reportB (vars : List (ℕ × Option Expr)) : Stmt :=
  .block [.expr ⟨0, [0]⟩, .ifThenElse ⟨2, [1]⟩ [.return none] [] [] [], .let vars true]
    [.expr ⟨0, [2]⟩]

theorem reportB_inOrder : (reportB [(2, some ⟨1, []⟩)]).InOrder ∧
    (reportB [(2, some ⟨1, []⟩), (3, some ⟨1, []⟩)]).InOrder := by
  constructor <;>
    simp [Stmt.InOrder, InOrderList, reportB, InOrderLet, declaredAll, Stmt.declared, Stmt.occurs,
      letVars, occursAll]

theorem reportB_clear : (reportB [(2, some ⟨1, []⟩)]).Clear namesAB
    (label namesAB (reportB [(2, some ⟨1, []⟩)])) [1, 0] := by
  unfold reportB
  simp [Stmt.Clear, ClearList, ClearMoved, Expr.Resolves, moves, namesAB, lifted, moved, staysAll,
    Stmt.stays, Finds]
  decide

end Body

end DaScript.Relocate

import DaScript.Ast.Relocate

/-!
# Ast/RelocateSame — a body with moved variables runs as before

A variable that stands at the top of its block holds zero until its assignment is reached, which is
what the block's variables hold when it is entered.  No statement before its `let` touches it
(`InOrder`), so that a `let` without an initializer can go.
-/

namespace DaScript.Relocate

variable {ε ν : Type}

/-! ## What a run leaves alone -/

section Frame

variable (M : Meaning ε ν) (table : ℕ → Variable ν) (turns : ℕ) {x : ℕ}

theorem setAll_of_notMem {xs : List ℕ} (hx : x ∉ xs) (vs : List ν) (env : ℕ → ν) :
    setAll xs vs env x = env x := by
  induction xs generalizing vs env with
  | nil => cases vs <;> rfl
  | cons y xs ih =>
    obtain ⟨hy, hxs⟩ := not_or.mp (List.mem_cons.not.mp hx)
    cases vs with
    | nil => rfl
    | cons v vs => rw [setAll, ih hxs, Function.update_of_ne hy]

theorem run_frame (does : ℕ → List ν → List ε → List ε × Option (ν × List ν)) {e : Expr}
    (hx : x ∉ e.vars) (s : State ε ν) : (Meaning.run does e s).1.env x = s.env x := by
  unfold Meaning.run
  generalize does e.op _ _ = r
  obtain ⟨new, _ | ⟨v, left⟩⟩ := r
  · rfl
  · exact setAll_of_notMem hx left s.env

theorem evalAll_frame {es : List Expr} (hx : x ∉ es.flatMap Expr.vars) (s : State ε ν) :
    (M.evalAll es s).1.env x = s.env x := by
  induction es generalizing s with
  | nil => rfl
  | cons e es ih =>
    obtain ⟨he, hes⟩ := not_or.mp (List.mem_append.not.mp hx)
    have hfirst := run_frame M.eval he s
    rw [Meaning.evalAll]
    generalize Meaning.run M.eval e s = r at hfirst
    obtain ⟨t, _ | v⟩ := r
    · exact hfirst
    · have hrest := ih hes t
      dsimp only
      generalize M.evalAll es t = q at hrest
      obtain ⟨u, _ | vs⟩ := q <;> exact hrest.trans hfirst

/-- What a run does not touch. -/
def Leaves (x : ℕ) (run : State ε ν → State ε ν × Control ν) : Prop :=
  ∀ s, (run s).1.env x = s.env x

theorem assign_frame {via_move : Bool} {left : ℕ} {right : Expr} (hx : x ∉ left :: right.vars) :
    Leaves x (M.assign via_move left right) := by
  intro s
  obtain ⟨hleft, hright⟩ := not_or.mp (List.mem_cons.not.mp hx)
  have hfirst : (M.init via_move right s).1.env x = s.env x := run_frame _ hright s
  unfold Meaning.assign
  generalize M.init via_move right s = r at hfirst
  obtain ⟨t, _ | v⟩ := r
  · exact hfirst
  · exact (Function.update_of_ne hleft v t.env).trans hfirst

theorem Leaves.next {s : State ε ν} {r : State ε ν × Control ν} (hr : r.1.env x = s.env x)
    {rest : State ε ν → State ε ν × Control ν} (hrest : Leaves x rest) :
    (Control.next r rest).1.env x = s.env x := by
  obtain ⟨t, c⟩ := r
  cases c with
  | done => exact (hrest t).trans hr
  | _ => exact hr

theorem Leaves.nextFinal {s : State ε ν} {r : State ε ν × Control ν} (hr : r.1.env x = s.env x)
    {rest : State ε ν → State ε ν × Control ν} (hrest : Leaves x rest) :
    (Control.nextFinal r rest).1.env x = s.env x := by
  obtain ⟨t, c⟩ := r
  rw [Control.nextFinal]
  split
  · exact hr
  · exact (hrest t).trans hr

theorem Leaves.after {s : State ε ν} {r : State ε ν × Control ν} (hr : r.1.env x = s.env x)
    {finals : State ε ν → State ε ν × Control ν} (hfinals : Leaves x finals) :
    (Control.after r finals).1.env x = s.env x := by
  obtain ⟨t, c⟩ := r
  rw [Control.after]
  split
  · exact hr
  · exact (hfinals t).trans hr

theorem Leaves.choose {cond : Expr} (hcond : x ∉ cond.vars)
    {t f : State ε ν → State ε ν × Control ν} (ht : Leaves x t) (hf : Leaves x f) :
    Leaves x fun s => M.choose (Meaning.run M.eval cond s) t f := by
  intro s
  have hfirst := run_frame M.eval hcond s
  dsimp only
  generalize Meaning.run M.eval cond s = r at hfirst
  obtain ⟨u, _ | v⟩ := r
  · exact hfirst
  · dsimp only [Meaning.choose]
    split
    · exact (ht u).trans hfirst
    · exact (hf u).trans hfirst

theorem leave_frame {asks : Bool} {cond : Expr} (hcond : x ∉ cond.vars) (s : State ε ν)
    (c : Control ν) : (M.leave asks cond s c).1.env x = s.env x := by
  unfold Meaning.leave
  split
  · have hfirst := run_frame M.eval hcond s
    generalize Meaning.run M.eval cond s = r at hfirst
    obtain ⟨t, _ | v⟩ := r <;> exact hfirst
  · rfl

theorem whileLoop_frame {asks : Bool} {cond : Expr} (hcond : x ∉ cond.vars)
    {body : State ε ν → State ε ν × Control ν} (hbody : Leaves x body) (turns : ℕ) :
    Leaves x (M.whileLoop asks cond body turns) := by
  induction turns with
  | zero => exact fun s => rfl
  | succ turns ih =>
    refine Leaves.choose M hcond (fun s => ?_) fun s => rfl
    have hfirst := hbody s
    generalize body s = r at hfirst
    obtain ⟨t, c⟩ := r
    cases c with
    | done => exact (ih t).trans hfirst
    | «continue» => exact (ih t).trans hfirst
    | «break» => exact (leave_frame M hcond t _).trans hfirst
    | «return» v => exact (leave_frame M hcond t _).trans hfirst
    | jump label => exact hfirst
    | panic => exact hfirst
    | hang => exact hfirst

theorem forLoop_frame {xs : List ℕ} (hxs : x ∉ xs) {body : State ε ν → State ε ν × Control ν}
    (hbody : Leaves x body) (turns : ℕ) (first : Bool) (its : List ν) :
    Leaves x (M.forLoop xs body turns first its) := by
  induction turns generalizing first its with
  | zero => exact fun s => rfl
  | succ turns ih =>
    intro s
    rw [Meaning.forLoop]
    generalize M.next first its s.effects = r
    obtain ⟨new, _ | _ | ⟨items, its'⟩⟩ := r
    · rfl
    · rfl
    · have hitems := setAll_of_notMem hxs items s.env
      have hturn :=
        (hbody { env := setAll xs items s.env, effects := new ++ s.effects }).trans hitems
      dsimp only
      generalize body _ = q at hturn
      obtain ⟨t, c⟩ := q
      cases c with
      | done => exact (ih false its' t).trans hturn
      | «continue» => exact (ih false its' t).trans hturn
      | _ => exact hturn

theorem declare_frame {vars : List (ℕ × Option Expr)} (hx : x ∉ letVars vars) :
    Leaves x (M.declare table vars) := by
  induction vars with
  | nil => exact fun s => rfl
  | cons var vars ih =>
    obtain ⟨y, init⟩ := var
    obtain ⟨hvar, hvars⟩ := not_or.mp (List.mem_append.not.mp hx)
    intro s
    cases init with
    | none =>
      obtain ⟨hy, -⟩ := not_or.mp (List.mem_cons.not.mp hvar)
      exact (ih hvars _).trans (Function.update_of_ne hy _ s.env)
    | some e => exact Leaves.next (assign_frame M hvar s) (ih hvars)

theorem letVars_declared {vars : List (ℕ × Option Expr)} (hx : x ∈ vars.map Prod.fst) :
    x ∈ letVars vars := by
  obtain ⟨var, hvar, rfl⟩ := List.mem_map.mp hx
  exact List.mem_flatMap.mpr ⟨var, hvar, List.mem_cons_self⟩

theorem declared_occurs {s : Stmt} (hx : x ∈ s.declared) : x ∈ s.occurs := by
  cases s with
  | «let» vars hasEarlyOut => exact letVars_declared hx
  | _ => cases hx

theorem declaredAll_occurs {list : List Stmt} (hx : x ∈ declaredAll list) :
    x ∈ occursAll list := by
  induction list with
  | nil => cases hx
  | cons s rest ih =>
    rcases List.mem_append.mp hx with hs | hrest
    · exact List.mem_append_left _ (declared_occurs hs)
    · exact List.mem_append_right _ (ih hrest)

theorem enter_frame {list finalList : List Stmt} (hx : x ∉ occursAll list ++ occursAll finalList)
    (s : State ε ν) : (s.enter table (declaredAll (list ++ finalList))).env x = s.env x := by
  refine if_neg fun hdeclared => hx ?_
  rw [declaredAll, List.flatMap_append] at hdeclared
  exact List.mem_append.mpr
    ((List.mem_append.mp hdeclared).imp declaredAll_occurs declaredAll_occurs)

theorem block_frame {list finalList : List Stmt} (hx : x ∉ occursAll list ++ occursAll finalList)
    {run finals : State ε ν → State ε ν × Control ν} (hrun : Leaves x run)
    (hfinals : Leaves x finals) :
    Leaves x fun s =>
      Control.after (run (s.enter table (declaredAll (list ++ finalList)))) finals :=
  fun s => Leaves.after ((hrun _).trans (enter_frame table hx s)) hfinals

mutual

theorem exec_frame (s : Stmt) (hx : x ∉ s.occurs) : Leaves x (M.exec table turns s) := by
  cases s with
  | expr e =>
    intro s
    have hfirst := run_frame M.eval hx s
    rw [Meaning.exec]
    generalize Meaning.run M.eval e s = r at hfirst
    obtain ⟨t, _ | v⟩ := r <;> exact hfirst
  | assign via_move left right => exact assign_frame M hx
  | «let» vars hasEarlyOut => exact declare_frame M table hx
  | ifThenElse cond list finalList elseList elseFinalList =>
    obtain ⟨hthen, helse⟩ := not_or.mp (List.mem_append.not.mp hx)
    obtain ⟨hcond, hthen⟩ := not_or.mp (List.mem_append.not.mp hthen)
    obtain ⟨hlist, hfinals⟩ := not_or.mp (List.mem_append.not.mp hthen)
    obtain ⟨hlist', hfinals'⟩ := not_or.mp (List.mem_append.not.mp helse)
    exact Leaves.choose M hcond
      (block_frame table hthen (execList_frame list hlist) (execFinals_frame finalList hfinals))
      (block_frame table helse (execList_frame elseList hlist')
        (execFinals_frame elseFinalList hfinals'))
  | block list finalList =>
    obtain ⟨hlist, hfinals⟩ := not_or.mp (List.mem_append.not.mp hx)
    exact block_frame table hx (execList_frame list hlist) (execFinals_frame finalList hfinals)
  | «while» cond list finalList =>
    obtain ⟨hcond, hbody⟩ := not_or.mp (List.mem_append.not.mp hx)
    obtain ⟨hlist, hfinals⟩ := not_or.mp (List.mem_append.not.mp hbody)
    exact whileLoop_frame M hcond (block_frame table hbody (execList_frame list hlist)
      (execFinals_frame finalList hfinals)) turns
  | «for» iterators sources list finalList =>
    obtain ⟨hloop, hbody⟩ := not_or.mp (List.mem_append.not.mp hx)
    obtain ⟨hiterators, hsources⟩ := not_or.mp (List.mem_append.not.mp hloop)
    obtain ⟨hlist, hfinals⟩ := not_or.mp (List.mem_append.not.mp hbody)
    intro s
    have hfirst := evalAll_frame M hsources s
    rw [Meaning.exec]
    generalize M.evalAll sources s = r at hfirst
    obtain ⟨t, _ | its⟩ := r
    · exact hfirst
    · exact (forLoop_frame M hiterators (block_frame table hbody (execList_frame list hlist)
        (execFinals_frame finalList hfinals)) turns true its t).trans hfirst
  | «return» subexpr =>
    cases subexpr with
    | none => exact fun s => rfl
    | some e =>
      intro s
      have hfirst := run_frame M.eval hx s
      rw [Meaning.exec]
      generalize Meaning.run M.eval e s = r at hfirst
      obtain ⟨t, _ | v⟩ := r <;> exact hfirst
  | «break» => exact fun s => rfl
  | «continue» => exact fun s => rfl

theorem execList_frame (list : List Stmt) (hx : x ∉ occursAll list) :
    Leaves x (M.execList table turns list) := by
  cases list with
  | nil => exact fun s => rfl
  | cons first rest =>
    obtain ⟨hfirst, hrest⟩ := not_or.mp (List.mem_append.not.mp hx)
    exact fun s => Leaves.next (exec_frame first hfirst s) (execList_frame rest hrest)

theorem execFinals_frame (list : List Stmt) (hx : x ∉ occursAll list) :
    Leaves x (M.execFinals table turns list) := by
  cases list with
  | nil => exact fun s => rfl
  | cons first rest =>
    obtain ⟨hfirst, hrest⟩ := not_or.mp (List.mem_append.not.mp hx)
    exact fun s => Leaves.nextFinal (exec_frame first hfirst s) (execFinals_frame rest hrest)

end

end Frame

/-! ## What is moved, and what stays -/

section Moved

variable (M : Meaning ε ν) (table : ℕ → Variable ν) (turns : ℕ)

/-- These variables hold zero. -/
def Zero (xs : List ℕ) (s : State ε ν) : Prop := ∀ x ∈ xs, s.env x = (table x).zero

variable {table}

theorem State.set_self {s : State ε ν} {x : ℕ} {v : ν} (hx : s.env x = v) : s.set x v = s := by
  obtain ⟨env, effects⟩ := s
  obtain rfl : env x = v := hx
  rw [State.set, Function.update_eq_self]

theorem enter_nil (s : State ε ν) : s.enter table [] = s := by
  obtain ⟨env, effects⟩ := s
  exact congrArg (State.mk · effects) (funext fun x => if_neg List.not_mem_nil)

theorem enter_zero (table : ℕ → Variable ν) (xs : List ℕ) (s : State ε ν) :
    Zero table xs (s.enter table xs) :=
  fun _ hx => if_pos hx

theorem enter_congr {xs ys : List ℕ} (h : ∀ x, x ∈ xs ↔ x ∈ ys) (s : State ε ν) :
    s.enter table xs = s.enter table ys := by
  refine congrArg (State.mk · s.effects) (funext fun x => ?_)
  simp only [h x]

theorem execList_append (list rest : List Stmt) (s : State ε ν) :
    M.execList table turns (list ++ rest) s =
      Control.next (M.execList table turns list s) fun s => M.execList table turns rest s := by
  induction list generalizing s with
  | nil => rfl
  | cons first list ih =>
    rw [List.cons_append, Meaning.execList, Meaning.execList]
    generalize M.exec table turns first s = r
    obtain ⟨t, c⟩ := r
    cases c with
    | done => exact ih t
    | _ => rfl

theorem declare_zero {xs : List ℕ} {s : State ε ν} (hs : Zero table xs s) :
    M.declare table (xs.map (·, none)) s = (s, .done) := by
  induction xs with
  | nil => rfl
  | cons x xs ih =>
    obtain ⟨hx, hxs⟩ := List.forall_mem_cons.mp hs
    rw [List.map_cons, Meaning.declare, State.set_self hx]
    exact ih hxs

theorem onTop_zero {lets : List (List ℕ)} {s : State ε ν} (hs : Zero table lets.flatten s) :
    M.execList table turns (lets.map fun xs => .let (xs.map (·, none)) true) s = (s, .done) := by
  induction lets with
  | nil => rfl
  | cons xs lets ih =>
    obtain ⟨hxs, hlets⟩ := List.forall_mem_append.mp hs
    rw [List.map_cons, Meaning.execList, Meaning.exec, declare_zero M hxs]
    exact ih hlets

theorem assignments_exec {vars : List (ℕ × Option Expr)} (horder : InOrderLet vars)
    {s : State ε ν} (hs : Zero table (vars.map Prod.fst) s) :
    M.execList table turns (assignments table vars) s = M.declare table vars s := by
  induction vars generalizing s with
  | nil => rfl
  | cons var vars ih =>
    obtain ⟨x, init⟩ := var
    obtain ⟨hlater, hrest⟩ := horder
    obtain ⟨hx, hxs⟩ := List.forall_mem_cons.mp hs
    cases init with
    | none =>
      rw [Meaning.declare, State.set_self hx]
      exact ih hrest hxs
    | some e =>
      have hkept : Zero table (vars.map Prod.fst) (M.assign (table x).init_via_move x e s).1 := by
        intro y hy
        obtain ⟨hyx, hye⟩ := hlater y hy
        have hframe : y ∉ x :: e.vars := List.mem_cons.not.mpr (not_or.mpr ⟨hyx, hye e rfl⟩)
        rw [assign_frame M hframe s, hxs y hy]
      change Control.next (M.exec table turns (.assign (table x).init_via_move x e) s)
        (fun s => M.execList table turns (assignments table vars) s) = _
      rw [Meaning.declare, Meaning.exec]
      generalize M.assign (table x).init_via_move x e s = r at hkept
      obtain ⟨t, c⟩ := r
      cases c with
      | done => exact ih hrest hkept
      | _ => rfl

theorem leftover_exec {vars : List (ℕ × Option Expr)} (horder : InOrderLet vars)
    {s : State ε ν} (hs : Zero table (vars.map Prod.fst) s) :
    M.exec table turns (leftover table vars) s = M.declare table vars s := by
  rw [← assignments_exec M turns horder hs, leftover]
  split
  next assign h =>
    rw [h, Meaning.execList]
    exact (Control.next_done _).symm
  next list h =>
    have hnone : declaredAll (assignments table vars ++ []) = [] := by
      rw [List.append_nil]
      refine List.flatMap_eq_nil_iff.mpr fun s hs => ?_
      obtain ⟨var, -, hvar⟩ := List.mem_filterMap.mp hs
      obtain ⟨e, -, rfl⟩ := Option.map_eq_some_iff.mp hvar
      rfl
    rw [Meaning.exec, hnone, enter_nil]
    exact Control.after_done _

variable (table)

theorem leftover_declared (vars : List (ℕ × Option Expr)) :
    (leftover table vars).declared = [] := by
  rw [leftover]
  split
  next assign h =>
    have hmem : assign ∈ assignments table vars := h ▸ List.mem_singleton.mpr rfl
    obtain ⟨var, -, hvar⟩ := List.mem_filterMap.mp hmem
    obtain ⟨e, -, rfl⟩ := Option.map_eq_some_iff.mp hvar
    rfl
  next => rfl

theorem visit_declared (s : Stmt) : (s.visit table).declared = s.stays table := by
  cases s with
  | «let» vars hasEarlyOut =>
    rw [Stmt.visit, Stmt.stays]
    split
    · exact leftover_declared table vars
    · rfl
  | _ => rfl

theorem visitList_declared (list : List Stmt) :
    declaredAll (visitList table list) = staysAll table list := by
  induction list with
  | nil => rfl
  | cons s rest ih =>
    change (s.visit table).declared ++ declaredAll (visitList table rest) =
      s.stays table ++ staysAll table rest
    rw [visit_declared, ih]

theorem mem_moved_stays (list : List Stmt) (x : ℕ) :
    (x ∈ (moved table list).flatten ∨ x ∈ staysAll table list) ↔ x ∈ declaredAll list := by
  induction list with
  | nil => simp [moved, staysAll, declaredAll]
  | cons s rest ih =>
    rw [show declaredAll (s :: rest) = s.declared ++ declaredAll rest from rfl,
      show staysAll table (s :: rest) = s.stays table ++ staysAll table rest from rfl,
      List.mem_append, List.mem_append, ← ih]
    cases s with
    | «let» vars hasEarlyOut =>
      rw [moved, Stmt.stays, Stmt.declared]
      split
      · rw [List.flatten_cons, List.mem_append]
        simp only [List.not_mem_nil, false_or]
        tauto
      · tauto
    | _ =>
      simp only [moved, Stmt.stays, Stmt.declared, List.not_mem_nil, false_or]

theorem declaredAll_append (list rest : List Stmt) :
    declaredAll (list ++ rest) = declaredAll list ++ declaredAll rest := List.flatMap_append

theorem onTop_declared (list finalList : List Stmt) :
    declaredAll (onTop table list finalList) =
      (moved table (list ++ finalList)).reverse.flatten := by
  unfold onTop declaredAll
  induction (moved table (list ++ finalList)).reverse with
  | nil => rfl
  | cons xs lets ih =>
    rw [List.map_cons, List.flatMap_cons, List.flatten_cons, ih]
    refine congrArg (· ++ lets.flatten) ?_
    rw [Stmt.declared, List.map_map]
    exact List.map_id xs

theorem mem_block_declared (list finalList : List Stmt) (x : ℕ) :
    x ∈ declaredAll
        (onTop table list finalList ++ visitList table list ++ visitList table finalList) ↔
      x ∈ declaredAll (list ++ finalList) := by
  have hstays : staysAll table (list ++ finalList) =
      staysAll table list ++ staysAll table finalList := List.flatMap_append
  rw [← mem_moved_stays table (list ++ finalList), hstays, declaredAll_append, declaredAll_append,
    onTop_declared, visitList_declared, visitList_declared, List.append_assoc, List.mem_append]
  refine or_congr_left ?_
  simp only [List.mem_flatten, List.mem_reverse]

end Moved

/-! ## Runs -/

section Runs

variable (M : Meaning ε ν) (table : ℕ → Variable ν) (turns : ℕ)

theorem notMem_occursAll {later : List ℕ} {list : List Stmt} (h : InOrderList later list) {x : ℕ}
    (hx : x ∈ later) : x ∉ occursAll list := by
  induction list with
  | nil => exact List.not_mem_nil
  | cons s rest ih =>
    obtain ⟨-, hlater, hrest⟩ := h
    exact List.mem_append.not.mpr
      (not_or.mpr ⟨hlater x (List.mem_append_right _ hx), ih hrest⟩)

theorem block_visit {list finalList : List Stmt} (hlist : InOrderList (declaredAll finalList) list)
    (hrun : ∀ s, Zero table (declaredAll list) s →
      M.execList table turns (visitList table list) s = M.execList table turns list s)
    (hfinals : ∀ s, Zero table (declaredAll finalList) s →
      M.execFinals table turns (visitList table finalList) s = M.execFinals table turns finalList s)
    (s : State ε ν) :
    Control.after
        (M.execList table turns (onTop table list finalList ++ visitList table list)
          (s.enter table (declaredAll
            (onTop table list finalList ++ visitList table list ++ visitList table finalList))))
        (fun s => M.execFinals table turns (visitList table finalList) s) =
      Control.after (M.execList table turns list (s.enter table (declaredAll (list ++ finalList))))
        fun s => M.execFinals table turns finalList s := by
  rw [enter_congr (mem_block_declared table list finalList)]
  have hzero := enter_zero table (declaredAll (list ++ finalList)) s
  generalize s.enter table (declaredAll (list ++ finalList)) = t at hzero
  have htop : Zero table (moved table (list ++ finalList)).reverse.flatten t := by
    intro x hx
    refine hzero x ((mem_moved_stays table _ x).mp (.inl ?_))
    simpa only [List.mem_flatten, List.mem_reverse] using hx
  have hsplit : Zero table (declaredAll list) t ∧ Zero table (declaredAll finalList) t := by
    rw [declaredAll, List.flatMap_append] at hzero
    exact List.forall_mem_append.mp hzero
  have hkept : Zero table (declaredAll finalList) (M.execList table turns list t).1 := by
    intro x hx
    rw [execList_frame M table turns list (notMem_occursAll hlist hx), hsplit.2 x hx]
  rw [execList_append, onTop, onTop_zero M turns htop]
  change Control.after (M.execList table turns (visitList table list) t) _ = _
  rw [hrun t hsplit.1]
  generalize M.execList table turns list t = r at hkept
  obtain ⟨u, c⟩ := r
  rw [Control.after, Control.after]
  split
  · rfl
  · dsimp only
    rw [hfinals u hkept]

mutual

theorem exec_visit (s : Stmt) (horder : s.InOrder) (st : State ε ν)
    (hzero : Zero table s.declared st) :
    M.exec table turns (s.visit table) st = M.exec table turns s st := by
  cases s with
  | expr e => rfl
  | assign via_move left right => rfl
  | «let» vars hasEarlyOut =>
    rw [Stmt.visit]
    split
    · exact leftover_exec M turns horder hzero
    · rfl
  | ifThenElse cond list finalList elseList elseFinalList =>
    obtain ⟨⟨hlist, hfinals⟩, helse, hefinals⟩ := horder
    rw [Stmt.visit, Meaning.exec, Meaning.exec]
    refine congrArg₂ (M.choose _) (funext fun t => ?_) (funext fun t => ?_)
    · exact block_visit M table turns hlist (execList_visit list hlist)
        (execFinals_visit finalList hfinals) t
    · exact block_visit M table turns helse (execList_visit elseList helse)
        (execFinals_visit elseFinalList hefinals) t
  | block list finalList =>
    obtain ⟨hlist, hfinals⟩ := horder
    exact block_visit M table turns hlist (execList_visit list hlist)
      (execFinals_visit finalList hfinals) st
  | «while» cond list finalList =>
    obtain ⟨hlist, hfinals⟩ := horder
    have hasks : (visitList table finalList).isEmpty = finalList.isEmpty := by
      cases finalList <;> rfl
    rw [Stmt.visit, Meaning.exec, Meaning.exec, hasks]
    refine congrArg (M.whileLoop _ cond · turns st) (funext fun t => ?_)
    exact block_visit M table turns hlist (execList_visit list hlist)
      (execFinals_visit finalList hfinals) t
  | «for» iterators sources list finalList =>
    obtain ⟨hlist, hfinals⟩ := horder
    rw [Stmt.visit, Meaning.exec, Meaning.exec]
    have hbody := funext fun t => block_visit M table turns hlist (execList_visit list hlist)
      (execFinals_visit finalList hfinals) t
    rw [hbody]
  | «return» subexpr => rfl
  | «break» => rfl
  | «continue» => rfl

theorem execList_visit {later : List ℕ} (list : List Stmt) (horder : InOrderList later list)
    (st : State ε ν) (hzero : Zero table (declaredAll list) st) :
    M.execList table turns (visitList table list) st = M.execList table turns list st := by
  cases list with
  | nil => rfl
  | cons s rest =>
    obtain ⟨hs, hlater, hrest⟩ := horder
    obtain ⟨hfirst, hzrest⟩ := List.forall_mem_append.mp hzero
    have hkept : Zero table (declaredAll rest) (M.exec table turns s st).1 := by
      intro x hx
      rw [exec_frame M table turns s (hlater x (List.mem_append_left _ hx)), hzrest x hx]
    rw [visitList, Meaning.execList, Meaning.execList, exec_visit s hs st hfirst]
    generalize M.exec table turns s st = r at hkept
    obtain ⟨t, c⟩ := r
    cases c with
    | done => exact execList_visit rest hrest t hkept
    | _ => rfl

theorem execFinals_visit {later : List ℕ} (list : List Stmt) (horder : InOrderList later list)
    (st : State ε ν) (hzero : Zero table (declaredAll list) st) :
    M.execFinals table turns (visitList table list) st = M.execFinals table turns list st := by
  cases list with
  | nil => rfl
  | cons s rest =>
    obtain ⟨hs, hlater, hrest⟩ := horder
    obtain ⟨hfirst, hzrest⟩ := List.forall_mem_append.mp hzero
    have hkept : Zero table (declaredAll rest) (M.exec table turns s st).1 := by
      intro x hx
      rw [exec_frame M table turns s (hlater x (List.mem_append_left _ hx)), hzrest x hx]
    rw [visitList, Meaning.execFinals, Meaning.execFinals, exec_visit s hs st hfirst]
    generalize M.exec table turns s st = r at hkept
    obtain ⟨t, c⟩ := r
    rw [Control.nextFinal, Control.nextFinal]
    split
    · rfl
    · exact execFinals_visit rest hrest t hkept

end

end Runs

end DaScript.Relocate

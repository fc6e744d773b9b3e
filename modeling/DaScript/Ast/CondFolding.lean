import DaScript.Ast.Statements

/-!
# Ast/CondFolding — an `if` of two returns as one, and tails moved into an else

`CondFolding` of `ast_block_folding.cpp`.  Children are visited first; then
-/

namespace DaScript

namespace CondFolding

open Control (next_done next_stop after_done after_stop)

/-- The `return` a branch is, unless it is made in place: `lr`, `rr`. -/
def singleReturn : Stmt → Option (Option Expr × Bool)
  | .block [.return subexpr moveSemantics] _ =>
    if subexpr.any Expr.isMakeLocal then none else some (subexpr, moveSemantics)
  | _ => none

/-- Move semantics and references match. -/
def matching (lr rr : Option Expr × Bool) : Bool :=
  lr.2 == rr.2 &&
    match lr.1, rr.1 with
    | some l, some r => !l.isRef && !r.isRef
    | _, _ => true

/-- Both branches are returns to be made one. -/
def returns (if_true if_false : Stmt) : Option ((Option Expr × Bool) × Option Expr × Bool) :=
  match singleReturn if_true, singleReturn if_false with
  | some lr, some rr => if matching lr rr then some (lr, rr) else none
  | _, _ => none

/-- `visit ( ExprIfThenElse )` -/
def visitIfThenElse (cond : Expr) (if_true : Stmt) : Option Stmt → Stmt
  | none => .ifThenElse cond if_true none
  | some if_false =>
    match returns if_true if_false with
    | none => .ifThenElse cond if_true (some if_false)
    | some ((some l, moveSemantics), r, _) =>
      .return (some (.op3 cond l (r.getD .null))) moveSemantics
    | some ((none, moveSemantics), _) => .return none moveSemantics

/-- The last statement returns, breaks or continues. -/
def exits (list : List Stmt) : Bool :=
  match list.getLast? with
  | some (.return ..) | some .break | some .continue => true
  | _ => false

/-- An `if` takes what comes after it, if its branch exits and it has no other. -/
def moveTail (s : Stmt) (tail : List Stmt) : List Stmt :=
  match s with
  | .ifThenElse cond (.block list finalList) none =>
    if exits list ∧ tail ≠ [] then
      [.ifThenElse cond (.block list finalList) (some (.block tail []))]
    else s :: tail
  | _ => s :: tail

/-- The loop of `visit ( ExprBlock )`, from the last but one statement to the first. -/
def moveTails : List Stmt → List Stmt
  | [] => []
  | s :: rest => moveTail s (moveTails rest)

/-- `visit ( ExprBlock )` -/
def visitBlock (generator : Bool) (list finalList : List Stmt) : Stmt :=
  if generator then .block list finalList else .block (moveTails list) finalList

variable (generator : Bool)

mutual

/-- **The pass**, of a function that is a generator or none. -/
def fold : Stmt → Stmt
  | .ifThenElse cond if_true if_false => visitIfThenElse cond (fold if_true) (foldElse if_false)
  | .block list finalList => visitBlock generator (foldList list) (foldList finalList)
  | .while cond body => .while cond (fold body)
  | s => s

def foldElse : Option Stmt → Option Stmt
  | none => none
  | some s => some (fold s)

def foldList : List Stmt → List Stmt
  | [] => []
  | s :: rest => fold s :: foldList rest

end

/-! ## The condition -/

mutual

/-- No leaf is run. -/
def silent : Stmt → Bool
  | .block list finalList => silentList list && silentFinals finalList
  | .return none _ | .break | .continue => true
  | _ => false

def silentList : List Stmt → Bool
  | [] => true
  | s :: rest => silent s && (stops s || silentList rest)

def silentFinals : List Stmt → Bool
  | [] => true
  | s :: rest => silent s && silentFinals rest

/-- A silent statement does not end by itself. -/
def stops : Stmt → Bool
  | .block list _ => stopsList list
  | .return .. | .break | .continue => true
  | _ => false

def stopsList : List Stmt → Bool
  | [] => false
  | s :: rest => stops s || stopsList rest

end

/-- `finalList` -/
def finals : Stmt → List Stmt
  | .block _ finalList => finalList
  | _ => []

/-- **Nothing is lost** where an `if` of these branches becomes one return: both have values, and
the finally lists do nothing. -/
def Spares (if_true if_false : Stmt) : Prop :=
  ∀ lr rr, returns (fold generator if_true) (fold generator if_false) = some (lr, rr) →
    lr.1.isSome = true ∧ rr.1.isSome = true ∧
      silentFinals (finals if_true) = true ∧ silentFinals (finals if_false) = true

mutual

/-- **Every `if` that becomes one return is spared.** -/
def Kept : Stmt → Prop
  | .ifThenElse _ if_true if_false =>
    Kept if_true ∧ KeptElse if_false ∧ ∀ s, if_false = some s → Spares generator if_true s
  | .block list finalList => KeptList list ∧ KeptList finalList
  | .while _ body => Kept body
  | _ => True

def KeptElse : Option Stmt → Prop
  | none => True
  | some s => Kept s

def KeptList : List Stmt → Prop
  | [] => True
  | s :: rest => Kept s ∧ KeptList rest

end

/-- **The pass keeps what a statement does**, whatever the leaves do, from every state. -/
def Preserved (s : Stmt) : Prop :=
  ∀ (ε ν : Type) (M : Meaning ε ν) (turns : ℕ) (h : List ε),
    M.exec turns (fold generator s) h = M.exec turns s h

/-! ## Moving a tail -/

section Runs

variable {ε ν : Type} {M : Meaning ε ν} {turns : ℕ}

theorem giveBack_stop (r : List ε × Option ν) : (Meaning.giveBack r).2 ≠ .done := by
  obtain ⟨h, _ | v⟩ := r <;> exact nofun

theorem exec_exits : ∀ (list : List Stmt) (h : List ε), exits list = true →
    (M.execList turns list h).2 ≠ .done
  | [], _, hexit => absurd hexit Bool.false_ne_true
  | [s], h, hexit => by
    have hstop : (M.exec turns s h).2 ≠ .done := by
      cases s with
      | «return» subexpr moveSemantics =>
        cases subexpr with
        | none => exact nofun
        | some e => exact giveBack_stop _
      | «break» => exact nofun
      | «continue» => exact nofun
      | _ => exact absurd hexit Bool.false_ne_true
    rw [Meaning.execList, next_stop hstop]
    exact hstop
  | s :: s' :: rest, h, hexit => by
    have hrest : exits (s' :: rest) = true := by
      rw [← hexit, exits, exits, List.getLast?_cons_cons]
    rw [Meaning.execList]
    by_cases hdone : (M.exec turns s h).2 = .done
    · have hr : M.exec turns s h = ((M.exec turns s h).1, .done) := Prod.ext rfl hdone
      rw [hr]
      exact exec_exits (s' :: rest) _ hrest
    · rw [next_stop hdone]
      exact hdone

theorem next_choose (r : List ε × Option ν) (t f rest : List ε → List ε × Control ν) :
    Control.next (M.choose r t f) rest
      = M.choose r (fun h => Control.next (t h) rest) fun h => Control.next (f h) rest := by
  obtain ⟨h, _ | v⟩ := r
  · rfl
  · unfold Meaning.choose
    dsimp only
    split_ifs <;> rfl

theorem exec_moveTail (s : Stmt) (tail : List Stmt) (h : List ε) :
    M.execList turns (moveTail s tail) h = M.execList turns (s :: tail) h := by
  unfold moveTail
  split
  · rename_i cond list finalList
    split_ifs with hexit
    · -- the branch stops, so that only the else comes to the tail
      have hstop : ∀ h, (M.exec turns (.block list finalList) h).2 ≠ .done := fun h => by
        rw [Meaning.exec]
        exact after_stop (exec_exits list h hexit.1) _
      have htail : ∀ h, M.exec turns (.block tail []) h = M.execList turns tail h := fun h => by
        rw [Meaning.exec]
        exact after_done _
      have hnil : (fun h => M.execList turns [] h) = fun h => (h, .done) := rfl
      rw [Meaning.execList, hnil, next_done, Meaning.execList, Meaning.exec, Meaning.exec,
        next_choose]
      congr 1
      · exact funext fun h => (next_stop (hstop h) _).symm
      · exact funext fun h => htail h
    · rfl
  · rfl

theorem exec_moveTails (list : List Stmt) (h : List ε) :
    M.execList turns (moveTails list) h = M.execList turns list h := by
  induction list generalizing h with
  | nil => rfl
  | cons s rest ih =>
    rw [moveTails, exec_moveTail, Meaning.execList, Meaning.execList]
    exact congrArg _ (funext ih)

/-! ## Making one return of two -/

mutual

theorem exec_silent : ∀ (s : Stmt) (h : List ε), silent s = true →
    ∃ c, M.exec turns s h = (h, c) ∧ c.lost = false ∧ (c = .done ↔ stops s = false)
  | .block list finalList, h, hs => by
    rw [silent, Bool.and_eq_true] at hs
    obtain ⟨c, hlist, hlost, hstops⟩ := execList_silent list h hs.1
    refine ⟨c, ?_, hlost, hstops⟩
    rw [Meaning.exec, hlist]
    unfold Control.after
    dsimp only
    rw [if_neg (by rw [hlost]; exact Bool.false_ne_true), execFinals_silent finalList h hs.2]
    rfl
  | .return none _, h, _ => ⟨.return none, rfl, rfl, nofun, nofun⟩
  | .break, h, _ => ⟨.break, rfl, rfl, nofun, nofun⟩
  | .continue, h, _ => ⟨.continue, rfl, rfl, nofun, nofun⟩

theorem execList_silent : ∀ (list : List Stmt) (h : List ε), silentList list = true →
    ∃ c, M.execList turns list h = (h, c) ∧ c.lost = false ∧ (c = .done ↔ stopsList list = false)
  | [], h, _ => ⟨.done, rfl, rfl, fun _ => rfl, fun _ => rfl⟩
  | s :: rest, h, hs => by
    rw [silentList, Bool.and_eq_true, Bool.or_eq_true] at hs
    obtain ⟨c, hrun, hlost, hstops⟩ := exec_silent s h hs.1
    rw [Meaning.execList, hrun, stopsList, Bool.or_eq_false_iff]
    by_cases hc : c = .done
    · have hgo := hstops.mp hc
      obtain ⟨c', hrun', hlost', hstops'⟩ := execList_silent rest h (hs.2.resolve_left (by
        rw [hgo]
        exact Bool.false_ne_true))
      subst hc
      exact ⟨c', hrun', hlost', fun h => ⟨hgo, hstops'.mp h⟩, fun h => hstops'.mpr h.2⟩
    · exact ⟨c, next_stop hc _, hlost, fun h => absurd h hc, fun h => absurd (hstops.mpr h.1) hc⟩

theorem execFinals_silent : ∀ (list : List Stmt) (h : List ε), silentFinals list = true →
    M.execFinals turns list h = (h, .done)
  | [], _, _ => rfl
  | s :: rest, h, hs => by
    rw [silentFinals, Bool.and_eq_true] at hs
    obtain ⟨c, hrun, hlost, -⟩ := exec_silent s h hs.1
    rw [Meaning.execFinals, hrun]
    unfold Control.nextFinal
    dsimp only
    rw [if_neg (by rw [hlost]; exact Bool.false_ne_true)]
    exact execFinals_silent rest h hs.2

end

theorem singleReturn_eq {s : Stmt} {lr : Option Expr × Bool} (h : singleReturn s = some lr) :
    s = .block [.return lr.1 lr.2] (finals s) := by
  unfold singleReturn at h
  split at h
  · split_ifs at h
    obtain rfl := Option.some.inj h
    rfl
  · exact nomatch h

theorem finals_fold (s : Stmt) : finals (fold generator s) = foldList generator (finals s) := by
  cases s with
  | block list finalList =>
    rw [fold, visitBlock]
    split_ifs <;> rfl
  | ifThenElse cond if_true if_false =>
    rw [fold]
    unfold visitIfThenElse
    split
    · rfl
    · split <;> rfl
  | _ => rfl

theorem hasFinally_fold (s : Stmt) : (fold generator s).hasFinally = s.hasFinally := by
  have hfinals : ∀ s : Stmt, s.hasFinally = !(finals s).isEmpty := fun s => by cases s <;> rfl
  rw [hfinals, hfinals, finals_fold]
  cases finals s <;> rfl

theorem returns_eq {t f : Stmt} {lr rr : Option Expr × Bool} (h : returns t f = some (lr, rr)) :
    singleReturn t = some lr ∧ singleReturn f = some rr ∧ matching lr rr = true := by
  unfold returns at h
  split at h
  · rename_i l r hl hr
    split_ifs at h with hmatch
    obtain ⟨rfl, rfl⟩ := Prod.mk.inj (Option.some.inj h)
    exact ⟨hl, hr, hmatch⟩
  · exact nomatch h

theorem exec_op3 {cond l r : Expr} {moveSemantics : Bool} (hl : l.isRef = false)
    (hr : r.isRef = false) (h : List ε) :
    M.exec turns (.return (some (.op3 cond l r)) moveSemantics) h
      = M.choose (M.eval cond h) (M.exec turns (.return (some l) moveSemantics))
        (M.exec turns (.return (some r) moveSemantics)) := by
  have hgive : ∀ (e : Expr) (h : List ε), e.isRef = false →
      M.exec turns (.return (some e) moveSemantics) h = Meaning.giveBack (M.eval e h) := by
    intro e h he
    rw [Meaning.exec, he]
    obtain ⟨h', _ | v⟩ := M.eval e h <;> rfl
  rw [hgive (.op3 cond l r) h hl, Meaning.eval]
  obtain ⟨h', _ | v⟩ := M.eval cond h
  · rfl
  · unfold Meaning.choose
    dsimp only
    split_ifs
    · exact (hgive l h' hl).symm
    · exact (hgive r h' hr).symm

theorem exec_visitIfThenElse {cond : Expr} {if_true : Stmt} {if_false : Option Stmt}
    (h : ∀ s lr rr, if_false = some s → returns if_true s = some (lr, rr) →
      lr.1.isSome = true ∧ rr.1.isSome = true ∧
        (∀ h, M.execFinals turns (finals if_true) h = (h, .done)) ∧
        ∀ h, M.execFinals turns (finals s) h = (h, .done)) (hist : List ε) :
    M.exec turns (visitIfThenElse cond if_true if_false) hist
      = M.exec turns (.ifThenElse cond if_true if_false) hist := by
  cases if_false with
  | none => rfl
  | some s =>
    unfold visitIfThenElse
    dsimp only
    cases hreturns : returns if_true s with
    | none => rfl
    | some lrr =>
      obtain ⟨⟨l, lm⟩, r, rm⟩ := lrr
      obtain ⟨hl, hr, htrue, hfalse⟩ := h s _ _ rfl hreturns
      obtain ⟨l, rfl⟩ := Option.isSome_iff_exists.mp hl
      obtain ⟨r, rfl⟩ := Option.isSome_iff_exists.mp hr
      obtain ⟨hsl, hsr, hmatch⟩ := returns_eq hreturns
      simp only [matching, Bool.and_eq_true, beq_iff_eq, Bool.not_eq_true'] at hmatch
      obtain ⟨rfl, href⟩ := hmatch
      have hone : ∀ {s : Stmt} {e : Expr}, singleReturn s = some (some e, lm) →
          (∀ h, M.execFinals turns (finals s) h = (h, .done)) →
          (fun h => M.exec turns s h) = M.exec turns (.return (some e) lm) := by
        intro s e hs hfinals
        funext h
        rw [singleReturn_eq hs, Meaning.exec, funext hfinals, after_done, Meaning.execList]
        exact next_done _
      rw [Meaning.exec, hone hsl htrue]
      exact (exec_op3 href.1 href.2 hist).trans
        (congrArg (M.choose _ _) (hone hsr hfalse).symm)

mutual

theorem exec_fold : ∀ (s : Stmt), Kept generator s → (∀ h : List ε,
    M.exec turns (fold generator s) h = M.exec turns s h) ∧ ∀ h : List ε,
      M.execFinals turns (finals (fold generator s)) h = M.execFinals turns (finals s) h
  | .ifThenElse cond if_true if_false, ⟨htrue, hfalse, hspares⟩ => by
    obtain ⟨hrun, hfinals⟩ := exec_fold if_true htrue
    obtain ⟨hrunElse, hfinalsElse⟩ := execElse_fold if_false hfalse
    refine ⟨fun h => ?_, fun h => by rw [finals_fold]; rfl⟩
    rw [fold, exec_visitIfThenElse, Meaning.exec, Meaning.exec, funext hrun]
    · exact congrArg _ (funext hrunElse)
    · intro s lr rr hs hreturns
      cases if_false with
      | none => exact nomatch hs
      | some if_false =>
        obtain rfl := Option.some.inj hs
        obtain ⟨hl, hr, hsl, hsr⟩ := hspares if_false rfl lr rr hreturns
        refine ⟨hl, hr, fun h => ?_, fun h => ?_⟩
        · rw [hfinals, execFinals_silent _ _ hsl]
        · rw [hfinalsElse if_false rfl, execFinals_silent _ _ hsr]
  | .block list finalList, hkept => by
    have hlist := execList_fold list hkept.1
    have hfinals := execFinals_fold finalList hkept.2
    refine ⟨fun h => ?_, fun h => by rw [finals_fold]; exact hfinals h⟩
    rw [fold, visitBlock]
    split_ifs
    · rw [Meaning.exec, Meaning.exec, funext hfinals, hlist]
    · rw [Meaning.exec, Meaning.exec, funext hfinals, exec_moveTails, hlist]
  | .while cond body, hkept => by
    have hbody := (exec_fold body hkept).1
    refine ⟨fun h => ?_, fun _ => rfl⟩
    rw [fold, Meaning.exec, Meaning.exec, funext hbody, hasFinally_fold]
  | .expr _, _ => ⟨fun _ => rfl, fun _ => rfl⟩
  | .return .., _ => ⟨fun _ => rfl, fun _ => rfl⟩
  | .break, _ => ⟨fun _ => rfl, fun _ => rfl⟩
  | .continue, _ => ⟨fun _ => rfl, fun _ => rfl⟩

theorem execElse_fold : ∀ (s : Option Stmt), KeptElse generator s → (∀ h : List ε,
    M.execElse turns (foldElse generator s) h = M.execElse turns s h) ∧ ∀ s', s = some s' →
      ∀ h : List ε,
        M.execFinals turns (finals (fold generator s')) h = M.execFinals turns (finals s') h
  | none, _ => ⟨fun _ => rfl, nofun⟩
  | some s, hkept => by
    obtain ⟨hrun, hfinals⟩ := exec_fold s hkept
    refine ⟨hrun, fun s' hs' => ?_⟩
    obtain rfl := Option.some.inj hs'
    exact hfinals

theorem execList_fold : ∀ (list : List Stmt), KeptList generator list → ∀ h : List ε,
    M.execList turns (foldList generator list) h = M.execList turns list h
  | [], _, _ => rfl
  | s :: rest, hkept, h => by
    rw [foldList, Meaning.execList, Meaning.execList, (exec_fold s hkept.1).1]
    exact congrArg _ (funext (execList_fold rest hkept.2))

theorem execFinals_fold : ∀ (list : List Stmt), KeptList generator list → ∀ h : List ε,
    M.execFinals turns (foldList generator list) h = M.execFinals turns list h
  | [], _, _ => rfl
  | s :: rest, hkept, h => by
    rw [foldList, Meaning.execFinals, Meaning.execFinals, (exec_fold s hkept.1).1]
    exact congrArg _ (funext (execFinals_fold rest hkept.2))

end

/-! ## Runs that tell -/

/-- A run takes no effect back. -/
def Grows (f : List ε → List ε × Control ν) : Prop := ∀ h, h.length ≤ (f h).1.length

theorem length_choose (r : List ε × Option ν) {t f : List ε → List ε × Control ν} (ht : Grows t)
    (hf : Grows f) : r.1.length ≤ (M.choose r t f).1.length := by
  obtain ⟨h, _ | v⟩ := r
  · exact le_rfl
  · unfold Meaning.choose
    dsimp only
    split_ifs
    · exact ht h
    · exact hf h

theorem length_next (r : List ε × Control ν) {rest : List ε → List ε × Control ν}
    (hrest : Grows rest) : r.1.length ≤ (Control.next r rest).1.length := by
  obtain ⟨h, c⟩ := r
  cases c with
  | done => exact hrest h
  | _ => exact le_rfl

theorem length_nextFinal (r : List ε × Control ν) {rest : List ε → List ε × Control ν}
    (hrest : Grows rest) : r.1.length ≤ (Control.nextFinal r rest).1.length := by
  obtain ⟨h, c⟩ := r
  unfold Control.nextFinal
  dsimp only
  split_ifs
  · exact le_rfl
  · exact hrest h

theorem length_after (r : List ε × Control ν) {finals : List ε → List ε × Control ν}
    (hfinals : Grows finals) : r.1.length ≤ (Control.after r finals).1.length := by
  obtain ⟨h, c⟩ := r
  unfold Control.after
  dsimp only
  split_ifs
  · exact le_rfl
  · exact hfinals h
  · exact hfinals h

theorem length_eval (e : Expr) (h : List ε) : h.length ≤ (M.eval e h).1.length := by
  induction e generalizing h with
  | leaf id _ _ =>
    rw [Meaning.eval, List.length_append]
    omega
  | null =>
    rw [Meaning.eval, List.length_append]
    omega
  | op3 cond left right ihc ihl ihr =>
    rw [Meaning.eval]
    have hcond := ihc h
    revert hcond
    obtain ⟨h', _ | v⟩ := M.eval cond h
    · exact id
    · intro hcond
      dsimp only
      split_ifs
      · exact hcond.trans (ihl h')
      · exact hcond.trans (ihr h')

theorem length_give (isRef moveSemantics : Bool) (r : List ε × Option ν) :
    r.1.length ≤ (M.give isRef moveSemantics r).1.length := by
  obtain ⟨h, _ | v⟩ := r
  · exact le_rfl
  · unfold Meaning.give
    dsimp only
    split_ifs
    · rw [List.length_append]
      omega
    · exact le_rfl

theorem length_giveBack (r : List ε × Option ν) : (Meaning.giveBack r).1 = r.1 := by
  obtain ⟨h, _ | v⟩ := r <;> rfl

theorem length_leave (asks : Bool) (cond : Expr) (h : List ε) (c : Control ν) :
    h.length ≤ (Meaning.leave asks (M.eval cond) h c).1.length := by
  unfold Meaning.leave
  split_ifs
  · have hcond := length_eval (M := M) cond h
    revert hcond
    obtain ⟨h', _ | v⟩ := M.eval cond h <;> exact id
  · exact le_rfl

theorem length_turn (asks : Bool) (cond : Expr) {body : List ε → List ε × Control ν}
    (hbody : Grows body) {n : ℕ} (hloop : Grows (M.loop asks (M.eval cond) body n)) (h : List ε) :
    (M.eval cond h).1.length ≤ (M.loop asks (M.eval cond) body (n + 1) h).1.length := by
  refine length_choose _ (fun h => ?_) fun _ => le_rfl
  have hstep := hbody h
  revert hstep
  obtain ⟨h', c⟩ := body h
  intro hstep
  have hstep : h.length ≤ h'.length := hstep
  cases c with
  | done => exact hstep.trans (hloop h')
  | «continue» => exact hstep.trans (hloop h')
  | «break» => exact hstep.trans (length_leave asks cond h' _)
  | «return» v => exact hstep.trans (length_leave asks cond h' _)
  | jump l => exact hstep
  | panic => exact hstep
  | hang => exact hstep

theorem grows_loop (asks : Bool) (cond : Expr) {body : List ε → List ε × Control ν}
    (hbody : Grows body) (n : ℕ) : Grows (M.loop asks (M.eval cond) body n) := by
  induction n with
  | zero => exact fun _ => le_rfl
  | succ n ih => exact fun h => (length_eval cond h).trans (length_turn asks cond hbody ih h)

mutual

theorem grows_exec : ∀ s : Stmt, Grows (M.exec turns s)
  | .expr e => fun h =>
    (length_eval e h).trans (length_choose _ (fun _ => le_rfl) fun _ => le_rfl)
  | .ifThenElse cond if_true if_false => fun h =>
    (length_eval cond h).trans
      (length_choose _ (grows_exec if_true) (grows_execElse if_false))
  | .block list finalList => fun h =>
    (grows_execList list h).trans (length_after _ (grows_execFinals finalList))
  | .while cond body => grows_loop _ cond (grows_exec body) turns
  | .return none _ => fun _ => le_rfl
  | .return (some e) moveSemantics => fun h => by
    rw [Meaning.exec, length_giveBack]
    exact (length_eval e h).trans (length_give _ _ _)
  | .break => fun _ => le_rfl
  | .continue => fun _ => le_rfl

theorem grows_execElse : ∀ s : Option Stmt, Grows (M.execElse turns s)
  | none => fun _ => le_rfl
  | some s => grows_exec s

theorem grows_execList : ∀ list : List Stmt, Grows (M.execList turns list)
  | [] => fun _ => le_rfl
  | s :: rest => fun h => (grows_exec s h).trans (length_next _ (grows_execList rest))

theorem grows_execFinals : ∀ list : List Stmt, Grows (M.execFinals turns list)
  | [] => fun _ => le_rfl
  | s :: rest => fun h => (grows_exec s h).trans (length_nextFinal _ (grows_execFinals rest))

end

end Runs

/-- Every leaf leaves an effect; conditions are all true, or all false. -/
def loud (truth : Bool) : Meaning Unit Unit :=
  ⟨fun _ _ => ([()], some ()), fun _ => ([()], some ()), fun _ _ => ([()], some ()), fun _ => truth,
    fun _ => 0⟩

section Loud

variable {b : Bool}

theorem eval_loud (e : Expr) (h : List Unit) :
    ∃ h', (loud b).eval e h = (h', some ()) ∧ h.length < h'.length := by
  induction e generalizing h with
  | leaf id _ _ => exact ⟨() :: h, rfl, Nat.lt_succ_self _⟩
  | null => exact ⟨() :: h, rfl, Nat.lt_succ_self _⟩
  | op3 cond left right ihc ihl ihr =>
    obtain ⟨h', hcond, hlt⟩ := ihc h
    obtain ⟨hl, hleft, hltl⟩ := ihl h'
    obtain ⟨hr, hright, hltr⟩ := ihr h'
    rw [Meaning.eval, hcond]
    dsimp only
    split_ifs
    · exact ⟨hl, hleft, hlt.trans hltl⟩
    · exact ⟨hr, hright, hlt.trans hltr⟩

theorem exec_return_loud (turns : ℕ) (e : Expr) (moveSemantics : Bool) (h : List Unit) :
    ∃ h', (loud b).exec turns (.return (some e) moveSemantics) h = (h', .return (some ())) ∧
      h.length < h'.length := by
  obtain ⟨h', heval, hlt⟩ := eval_loud e h
  rw [Meaning.exec, heval]
  unfold Meaning.give
  dsimp only
  split_ifs
  · exact ⟨() :: h', rfl, hlt.trans (Nat.lt_succ_self _)⟩
  · exact ⟨h', rfl, hlt⟩

mutual

theorem exec_loud : ∀ (s : Stmt) (h : List Unit), silent s = false →
    h.length < ((loud b).exec 1 s h).1.length
  | .expr e, h, _ => by
    obtain ⟨h', heval, hlt⟩ := eval_loud e h
    rw [Meaning.exec, heval]
    refine hlt.trans_le (length_choose (h', some ()) (fun _ => le_rfl) fun _ => le_rfl)
  | .ifThenElse cond if_true if_false, h, _ => by
    obtain ⟨h', heval, hlt⟩ := eval_loud cond h
    rw [Meaning.exec, heval]
    exact hlt.trans_le
      (length_choose (h', some ()) (grows_exec if_true) (grows_execElse if_false))
  | .while cond body, h, _ => by
    obtain ⟨h', heval, hlt⟩ := eval_loud (b := b) cond h
    have hbody : Grows ((loud b).exec 1 body) := grows_exec body
    have hturn := length_turn (M := loud b) (n := 0) body.hasFinally cond hbody (fun _ => le_rfl) h
    rw [heval] at hturn
    exact hlt.trans_le hturn
  | .block list finalList, h, hs => by
    rw [Meaning.exec]
    by_cases hlist : silentList list = true
    · have hfinals : silentFinals finalList = false := by
        rw [silent, hlist] at hs
        exact hs
      obtain ⟨c, hrun, hlost, -⟩ := execList_silent list h hlist
      rw [hrun]
      refine (execFinals_loud finalList h hfinals).trans_eq ?_
      unfold Control.after
      dsimp only
      rw [hlost]
      rfl
    · exact (execList_loud list h (Bool.eq_false_iff.mpr hlist)).trans_le
        (length_after _ (grows_execFinals finalList))
  | .return (some e) moveSemantics, h, _ => by
    obtain ⟨h', hrun, hlt⟩ := exec_return_loud 1 e moveSemantics h
    rw [hrun]
    exact hlt
  | .return none _, _, hs => nomatch hs
  | .break, _, hs => nomatch hs
  | .continue, _, hs => nomatch hs

theorem execList_loud : ∀ (list : List Stmt) (h : List Unit), silentList list = false →
    h.length < ((loud b).execList 1 list h).1.length
  | [], _, hs => nomatch hs
  | s :: rest, h, hs => by
    rw [Meaning.execList]
    by_cases hsilent : silent s = true
    · obtain ⟨c, hrun, -, hdone⟩ := exec_silent s h hsilent
      rw [silentList, hsilent, Bool.true_and, Bool.or_eq_false_iff] at hs
      rw [hrun, hdone.mpr hs.1]
      exact execList_loud rest h hs.2
    · exact (exec_loud s h (Bool.eq_false_iff.mpr hsilent)).trans_le
        (length_next _ (grows_execList rest))

theorem execFinals_loud : ∀ (list : List Stmt) (h : List Unit), silentFinals list = false →
    h.length < ((loud b).execFinals 1 list h).1.length
  | [], _, hs => nomatch hs
  | s :: rest, h, hs => by
    rw [Meaning.execFinals]
    by_cases hsilent : silent s = true
    · obtain ⟨c, hrun, hlost, -⟩ := exec_silent s h hsilent
      rw [silentFinals, hsilent, Bool.true_and] at hs
      refine (execFinals_loud rest h hs).trans_eq ?_
      rw [hrun]
      unfold Control.nextFinal
      dsimp only
      rw [hlost]
      rfl
    · exact (exec_loud s h (Bool.eq_false_iff.mpr hsilent)).trans_le
        (length_nextFinal _ (grows_execFinals rest))

end

theorem after_kept {ε ν : Type} (r : List ε × Control ν) (hlost : r.2.lost = false)
    {finals : List ε → List ε × Control ν} :
    (Control.after r finals).2 = r.2 ∨ (Control.after r finals).2.lost = true := by
  obtain ⟨h, c⟩ := r
  unfold Control.after
  dsimp only at hlost ⊢
  rw [hlost]
  by_cases hlost' : (finals h).2.lost = true
  · exact Or.inr (by rw [if_neg Bool.false_ne_true]; dsimp only; rw [if_pos hlost']; exact hlost')
  · exact Or.inl (by rw [if_neg Bool.false_ne_true]; dsimp only; rw [if_neg hlost'])

theorem after_heard (e : Expr) (moveSemantics : Bool) (h : List Unit) {list : List Stmt}
    (hloud : silentFinals list = false) :
    (loud b).exec 1 (.return (some e) moveSemantics) h
      ≠ Control.after ((loud b).exec 1 (.return (some e) moveSemantics) h)
        ((loud b).execFinals 1 list) := by
  obtain ⟨h', hrun, -⟩ := exec_return_loud (b := b) 1 e moveSemantics h
  have hlt := execFinals_loud (b := b) list h' hloud
  rw [hrun]
  intro heq
  have hlen : h'.length = ((loud b).execFinals 1 list h').1.length :=
    congrArg (fun r => r.1.length) heq
  omega

theorem spares_of_exec (cond : Expr) {t f : Stmt}
    (ht : ∀ (b : Bool) (h : List Unit), (loud b).exec 1 (fold generator t) h
      = (loud b).exec 1 t h ∧ (loud b).execFinals 1 (finals (fold generator t)) h
        = (loud b).execFinals 1 (finals t) h)
    (hf : ∀ (b : Bool) (h : List Unit), (loud b).exec 1 (fold generator f) h
      = (loud b).exec 1 f h ∧ (loud b).execFinals 1 (finals (fold generator f)) h
        = (loud b).execFinals 1 (finals f) h)
    (h : ∀ b : Bool, (loud b).exec 1 (fold generator (.ifThenElse cond t (some f))) []
      = (loud b).exec 1 (.ifThenElse cond t (some f)) []) : Spares generator t f := by
  rintro ⟨l, lm⟩ ⟨r, rm⟩ hreturns
  obtain ⟨hsl, hsr, hmatch⟩ := returns_eq hreturns
  -- each branch runs its return, and then its finally list
  have hbranch : ∀ {s : Stmt} {sub : Option Expr} {m : Bool},
      singleReturn (fold generator s) = some (sub, m) →
      (∀ (b : Bool) (h : List Unit), (loud b).exec 1 (fold generator s) h
        = (loud b).exec 1 s h ∧ (loud b).execFinals 1 (finals (fold generator s)) h
          = (loud b).execFinals 1 (finals s) h) →
      ∀ (b : Bool) (h : List Unit), (loud b).exec 1 s h
        = Control.after ((loud b).exec 1 (.return sub m) h) ((loud b).execFinals 1 (finals s)) := by
    intro s sub m hs hsame b h
    rw [← (hsame b h).1, ← funext fun h => (hsame b h).2, singleReturn_eq hs, Meaning.exec,
      Meaning.execList]
    exact congrArg (Control.after · _) (next_done _)
  have hcond : ∀ b : Bool, ∃ h1, (loud b).eval cond [] = (h1, some ()) ∧ 0 < h1.length :=
    fun b => eval_loud cond []
  have hold : ∀ (b : Bool) (h1 : List Unit), (loud b).eval cond [] = (h1, some ()) →
      (loud b).exec 1 (.ifThenElse cond t (some f)) []
        = if b then (loud b).exec 1 t h1 else (loud b).exec 1 f h1 := by
    intro b h1 heval
    rw [Meaning.exec, heval]
    rfl
  rw [fold, foldElse, visitIfThenElse, hreturns] at h
  cases l with
  | none =>
    -- the condition is dropped
    obtain ⟨h1, heval, hpos⟩ := hcond true
    have hrun := congrArg (fun r => r.1.length) (h true)
    rw [hold true h1 heval] at hrun
    have hgrow : h1.length ≤ ((loud true).exec 1 t h1).1.length := grows_exec t h1
    have hrun : 0 = ((loud true).exec 1 t h1).1.length := hrun
    omega
  | some l =>
    cases r with
    | none =>
      -- there is nothing to return in the other branch
      obtain ⟨h1, heval, -⟩ := hcond false
      have hrun := congrArg Prod.snd (h false)
      rw [hold false h1 heval, if_neg Bool.false_ne_true, hbranch hsr hf] at hrun
      obtain ⟨h2, hret, -⟩ := exec_return_loud (b := false) 1 (.op3 cond l .null) lm []
      have hret : (Control.return (some ()) : Control Unit) = _ :=
        (congrArg Prod.snd hret).symm.trans hrun
      rcases after_kept (h1, Control.return none) rfl with hc | hlost
      · exact nomatch hret.trans hc
      · exact absurd ((congrArg Control.lost hret).trans hlost) Bool.false_ne_true
    | some r =>
      simp only [matching, Bool.and_eq_true, beq_iff_eq, Bool.not_eq_true'] at hmatch
      obtain ⟨rfl, hl, hr⟩ := hmatch
      have hnew : ∀ (b : Bool) (h1 : List Unit), (loud b).eval cond [] = (h1, some ()) →
          (loud b).exec 1 (.return (some (.op3 cond l r)) lm) []
            = if b then (loud b).exec 1 (.return (some l) lm) h1
              else (loud b).exec 1 (.return (some r) lm) h1 := by
        intro b h1 heval
        rw [exec_op3 hl hr, heval]
        rfl
      refine ⟨rfl, rfl, ?_, ?_⟩
      · by_contra hloud
        obtain ⟨h1, heval, -⟩ := hcond true
        have hrun := h true
        rw [hold true h1 heval, if_pos rfl, hbranch hsl ht] at hrun
        exact after_heard l lm h1 (Bool.eq_false_iff.mpr hloud)
          (((hnew true h1 heval).symm.trans hrun).trans rfl)
      · by_contra hloud
        obtain ⟨h1, heval, -⟩ := hcond false
        have hrun := h false
        rw [hold false h1 heval, if_neg Bool.false_ne_true, hbranch hsr hf] at hrun
        exact after_heard r lm h1 (Bool.eq_false_iff.mpr hloud)
          (((hnew false h1 heval).symm.trans hrun).trans rfl)

end Loud

/-! ## Every part -/

mutual

/-- The statement and the ones in it. -/
def parts : Stmt → List Stmt
  | .ifThenElse cond if_true if_false =>
    .ifThenElse cond if_true if_false :: (parts if_true ++ partsElse if_false)
  | .block list finalList => .block list finalList :: (partsList list ++ partsList finalList)
  | .while cond body => .while cond body :: parts body
  | s => [s]

def partsElse : Option Stmt → List Stmt
  | none => []
  | some s => parts s

def partsList : List Stmt → List Stmt
  | [] => []
  | s :: rest => parts s ++ partsList rest

end

section Parts

variable {generator}

mutual

theorem kept_parts : ∀ s : Stmt, Kept generator s → ∀ p ∈ parts s, Kept generator p
  | .ifThenElse cond if_true if_false, hkept, p, hp => by
    rcases List.mem_cons.mp hp with rfl | hp
    · exact hkept
    · rcases List.mem_append.mp hp with hp | hp
      · exact kept_parts if_true hkept.1 p hp
      · exact kept_partsElse if_false hkept.2.1 p hp
  | .block list finalList, hkept, p, hp => by
    rcases List.mem_cons.mp hp with rfl | hp
    · exact hkept
    · rcases List.mem_append.mp hp with hp | hp
      · exact kept_partsList list hkept.1 p hp
      · exact kept_partsList finalList hkept.2 p hp
  | .while cond body, hkept, p, hp => by
    rcases List.mem_cons.mp hp with rfl | hp
    · exact hkept
    · exact kept_parts body hkept p hp
  | .expr _, _, p, hp => by rw [List.mem_singleton.mp hp]; trivial
  | .return .., _, p, hp => by rw [List.mem_singleton.mp hp]; trivial
  | .break, _, p, hp => by rw [List.mem_singleton.mp hp]; trivial
  | .continue, _, p, hp => by rw [List.mem_singleton.mp hp]; trivial

theorem kept_partsElse : ∀ s : Option Stmt, KeptElse generator s →
    ∀ p ∈ partsElse s, Kept generator p
  | none, _, _, hp => absurd hp List.not_mem_nil
  | some s, hkept, p, hp => kept_parts s hkept p hp

theorem kept_partsList : ∀ list : List Stmt, KeptList generator list →
    ∀ p ∈ partsList list, Kept generator p
  | [], _, _, hp => absurd hp List.not_mem_nil
  | s :: rest, hkept, p, hp => by
    rcases List.mem_append.mp hp with hp | hp
    · exact kept_parts s hkept.1 p hp
    · exact kept_partsList rest hkept.2 p hp

end

mutual

theorem kept_of_preserved : ∀ s : Stmt, (∀ p ∈ parts s, Preserved generator p) → Kept generator s
  | .ifThenElse cond if_true if_false, h => by
    have htrue := kept_of_preserved if_true fun p hp =>
      h p (List.mem_cons_of_mem _ (List.mem_append_left _ hp))
    have hfalse := kept_of_preservedElse if_false fun p hp =>
      h p (List.mem_cons_of_mem _ (List.mem_append_right _ hp))
    refine ⟨htrue, hfalse, fun s hs => ?_⟩
    subst hs
    refine spares_of_exec _ cond (fun b h => ?_) (fun b h => ?_) fun b => ?_
    · exact ⟨(exec_fold _ if_true htrue).1 h, (exec_fold _ if_true htrue).2 h⟩
    · exact ⟨(exec_fold _ s hfalse).1 h, (exec_fold _ s hfalse).2 h⟩
    · exact h _ (List.mem_cons_self ..) Unit Unit (loud b) 1 []
  | .block list finalList, h =>
    ⟨kept_of_preservedList list fun p hp =>
      h p (List.mem_cons_of_mem _ (List.mem_append_left _ hp)),
    kept_of_preservedList finalList fun p hp =>
      h p (List.mem_cons_of_mem _ (List.mem_append_right _ hp))⟩
  | .while cond body, h => kept_of_preserved body fun p hp => h p (List.mem_cons_of_mem _ hp)
  | .expr _, _ => trivial
  | .return .., _ => trivial
  | .break, _ => trivial
  | .continue, _ => trivial

theorem kept_of_preservedElse : ∀ s : Option Stmt,
    (∀ p ∈ partsElse s, Preserved generator p) → KeptElse generator s
  | none, _ => trivial
  | some s, h => kept_of_preserved s h

theorem kept_of_preservedList : ∀ list : List Stmt,
    (∀ p ∈ partsList list, Preserved generator p) → KeptList generator list
  | [], _ => trivial
  | s :: rest, h =>
    ⟨kept_of_preserved s fun p hp => h p (List.mem_append_left _ hp),
    kept_of_preservedList rest fun p hp => h p (List.mem_append_right _ hp)⟩

end

end Parts

end CondFolding

open CondFolding

/-- **The pass keeps what a tree and its parts do exactly where every `if` that becomes one return
is spared**: its returns have values, and the finally lists of its branches do nothing. -/
theorem cond_folding_iff (generator : Bool) (s : Stmt) :
    (∀ p ∈ parts s, Preserved generator p) ↔ Kept generator s := by
  refine ⟨kept_of_preserved s, fun hkept p hp => ?_⟩
  exact fun ε ν M turns h => (exec_fold _ p (kept_parts s hkept p hp)).1 h

/-- `if (c) { return x } finally { f } else { return y }` -/
def finallyDropped : Stmt :=
  .ifThenElse (.leaf 0 false false)
    (.block [.return (some (.leaf 1 false false)) false] [.expr (.leaf 3 false false)])
    (some (.block [.return (some (.leaf 2 false false)) false] []))

theorem finally_dropped : ¬ Preserved false finallyDropped := by
  intro h
  have hrun := congrArg (fun r => r.1.length) (h Unit Unit (loud true) 0 [])
  exact absurd hrun (by decide)

end DaScript

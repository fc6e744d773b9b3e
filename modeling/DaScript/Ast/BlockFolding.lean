import DaScript.Ast.Statements

/-!
# Ast/BlockFolding — blocks made flat, and what comes after an exit dropped

`BlockFolding` of `ast_block_folding.cpp`, with labels and gotos.  Children are visited first; then

A `goto` goes to the nearest list around it that has the label (`findLabel`, and the C++ of
`aot_cpp.das`), finally lists being run on the way; one that no list has leaves the function.
`SimNode_BlockWithLabels` gives up where it might go on, at a label with nothing behind it and at
one further out than another label: that error is not followed.  A run has a number of jumps to
spend, and hangs on the next: two bodies that do the same for every number do the same, ending or
not.
-/

namespace DaScript.BlockFolding

open Control (next_done next_stop after_done after_stop)

/-- **A statement**: what is not spelled out is `simple`; expressions are leaves. -/
inductive Code
  | simple (id : ℕ)
  | ifThenElse (cond : ℕ) (if_true : Code) (if_false : Option Code)
  | block (list finalList : List Code)
  | with (list finalList : List Code)
  | assume
  | return (subexpr : Option ℕ)
  | break
  | continue
  | label (label : ℕ)
  | goto (label : ℕ)
  | gotoExpr (subexpr : ℕ)

/-- The label a statement is. -/
def labelOf : Code → Option ℕ
  | .label l => some l
  | _ => none

/-- What is behind a label of a list. -/
def behind (l : ℕ) : List Code → Option (List Code)
  | [] => none
  | c :: rest => if labelOf c = some l then some rest else behind l rest

/-! ## Runs -/

section Runs

variable {ε ν : Type}

/-- The jumps that may still be made, and the effects so far, the last first. -/
abbrev State (ε : Type) := ℕ × List ε

/-- A leaf is evaluated. -/
def act (M : Meaning ε ν) (id : ℕ) (s : State ε) : State ε × Option ν :=
  ((s.1, (M.leaf id s.2).1 ++ s.2), (M.leaf id s.2).2)

/-- A value, and how the statement ends with it. -/
def give (r : State ε × Option ν) (f : ν → Control ν) : State ε × Control ν :=
  match r with
  | (s, none) => (s, .panic)
  | (s, some v) => (s, f v)

/-- A list makes the jumps to its labels. -/
def resolve (found : ℕ → Option (State ε → State ε × Control ν)) (jumps : ℕ)
    (r : State ε × Control ν) : State ε × Control ν :=
  match r with
  | (s, .jump l) =>
    match found l with
    | none => (s, .jump l)
    | some run =>
      match jumps, s.1 with
      | jumps + 1, left + 1 => resolve found jumps (run (left, s.2))
      | _, _ => (s, .hang)
  | r => r
termination_by structural jumps

variable (M : Meaning ε ν)

mutual

/-- **A run** of a statement. -/
def exec : Code → State ε → State ε × Control ν
  | .simple id, s => give (act M id s) fun _ => .done
  | .ifThenElse cond if_true if_false, s =>
    M.choose (act M cond s) (fun s => exec if_true s) fun s => execElse if_false s
  | .block list finalList, s =>
    Control.after (resolve (fun l => execBehind l list) s.1 (execList list s)) fun s =>
      execFinals finalList s
  | .with list finalList, s =>
    Control.after (resolve (fun l => execBehind l list) s.1 (execList list s)) fun s =>
      execFinals finalList s
  | .assume, s => (s, .done)
  | .return none, s => (s, .return none)
  | .return (some e), s => give (act M e s) fun v => .return (some v)
  | .break, s => (s, .break)
  | .continue, s => (s, .continue)
  | .label _, s => (s, .done)
  | .goto l, s => (s, .jump l)
  | .gotoExpr e, s => give (act M e s) fun v => .jump (M.index v)

def execElse : Option Code → State ε → State ε × Control ν
  | none, s => (s, .done)
  | some c, s => exec c s

/-- One after the other, until one stops. -/
def execList : List Code → State ε → State ε × Control ν
  | [], s => (s, .done)
  | c :: rest, s => Control.next (exec c s) fun s => execList rest s

/-- The run from a label of the list. -/
def execBehind (l : ℕ) : List Code → Option (State ε → State ε × Control ν)
  | [] => none
  | c :: rest => if labelOf c = some l then some fun s => execList rest s else execBehind l rest

/-- The loop of `evalFinal`. -/
def execFinals : List Code → State ε → State ε × Control ν
  | [], s => (s, .done)
  | c :: rest, s => Control.nextFinal (exec c s) fun s => execFinals rest s

end

/-- What a caller sees: a void function returns at its end. -/
def call (isVoid : Bool) (r : State ε × Control ν) : State ε × Control ν :=
  match isVoid, r with
  | true, (s, .done) => (s, .return none)
  | _, r => r

end Runs

/-! ## The pass -/

mutual

def doesExprTerminates : Code → Bool
  | .block list _ => anyTerminates list
  | .ifThenElse _ if_true if_false => doesExprTerminates if_true && elseTerminates if_false
  | .with list _ => anyTerminates list
  | _ => false

def elseTerminates : Option Code → Bool
  | none => false
  | some c => doesExprTerminates c

/-- The loop over a block. -/
def anyTerminates : List Code → Bool
  | [] => false
  | c :: rest => terminatesHere c || anyTerminates rest

/-- In a block, an exit, or a block with one. -/
def terminatesHere : Code → Bool
  | .return _ | .break | .continue => true
  | .block list _ => anyTerminates list
  | _ => false

end

mutual

/-- `hasLabels`, of lists and the blocks in them. -/
def hasLabels : List Code → Bool
  | [] => false
  | c :: rest => labelled c || hasLabels rest

def labelled : Code → Bool
  | .label _ => true
  | .block list _ => hasLabels list
  | _ => false

end

/-- The labels that gotos seen so far name; `allLabels`, a goto computes its own. -/
structure Labels where
  labels : List ℕ
  allLabels : Bool
  deriving DecidableEq, Repr

namespace Labels

/-- A label is kept. -/
def has (S : Labels) (l : ℕ) : Bool := S.allLabels || S.labels.contains l

/-- `preVisit ( ExprGoto )` -/
def preVisit (S : Labels) : Code → Labels
  | .goto l => { S with labels := l :: S.labels }
  | .gotoExpr _ => { S with allLabels := true }
  | _ => S

end Labels

/-- How `collect` takes a statement that is no label. -/
inductive Exit
  | goto
  | exit
  | none
  deriving DecidableEq

/-- A `goto`, an exit, or an `if` that is one. -/
def exitOf : Code → Exit
  | .goto _ | .gotoExpr _ => .goto
  | .return _ | .break | .continue => .exit
  | .ifThenElse cond if_true if_false =>
    if doesExprTerminates (.ifThenElse cond if_true if_false) then .exit else .none
  | _ => .none

section Pass

variable (S : Labels)

mutual

/-- **`collect`**, from a place in a list on: `skipTilLabel` there. -/
def collectLoop (stopAtExit : Bool) : Bool → List Code → List Code
  | _, [] => []
  | skipTilLabel, c :: rest =>
    match labelOf c with
    | some l =>
      if S.has l then c :: collectLoop stopAtExit false rest
      else collectLoop stopAtExit skipTilLabel rest
    | none =>
      if skipTilLabel then collectLoop stopAtExit true rest
      else
        match exitOf c with
        | .goto => c :: collectLoop stopAtExit true rest
        | .exit => if stopAtExit then [c] else c :: collectLoop stopAtExit true rest
        | .none => collectCode c ++ collectLoop stopAtExit false rest

/-- What is pushed for a statement: a block without a finally list is made flat. -/
def collectCode : Code → List Code
  | .block list finalList =>
    match finalList with
    | [] => collectLoop (!hasLabels list) false list
    | finalList => [.block list finalList]
  | .with list finalList => [.block list finalList]
  | .assume => []
  | c => [c]

end

def collect (list : List Code) : List Code := collectLoop S (!hasLabels list) false list

end Pass

mutual

/-- The statements without others in them, in the order of a visit. -/
def atoms : Code → List Code
  | .ifThenElse _ if_true if_false => atoms if_true ++ atomsElse if_false
  | .block list finalList => atomsList list ++ atomsList finalList
  | .with list finalList => atomsList list ++ atomsList finalList
  | c => [c]

def atomsElse : Option Code → List Code
  | none => []
  | some c => atoms c

def atomsList : List Code → List Code
  | [] => []
  | c :: rest => atoms c ++ atomsList rest

end

/-- The labels known behind a statement. -/
def preVisits (S : Labels) (list : List Code) : Labels := (atomsList list).foldl Labels.preVisit S

mutual

/-- **The pass** on a statement, where some labels are known. -/
def fold (S : Labels) : Code → Code
  | .ifThenElse cond if_true if_false =>
    .ifThenElse cond (fold S if_true) (foldElse (preVisits S [if_true]) if_false)
  | .block list finalList =>
    .block (collect (preVisits S (list ++ finalList)) (foldList S list))
      (collect (preVisits S (list ++ finalList)) (foldList (preVisits S list) finalList))
  | .with list finalList =>
    .with (collect (preVisits S (list ++ finalList)) (foldList S list))
      (collect (preVisits S (list ++ finalList)) (foldList (preVisits S list) finalList))
  | c => c

def foldElse (S : Labels) : Option Code → Option Code
  | none => none
  | some c => some (fold S c)

def foldList (S : Labels) : List Code → List Code
  | [] => []
  | c :: rest => fold S c :: foldList (preVisits S [c]) rest

end

/-- `visit ( Function )`: a void function does not return at its end. -/
def visitFunction (isVoid : Bool) : Code → Code
  | .block list finalList =>
    match isVoid, list.getLast? with
    | true, some (.return _) => .block list.dropLast finalList
    | _, _ => .block list finalList
  | c => c

/-! ## The condition -/

/-- No exit, and no `goto`. -/
def quiet : Code → Bool
  | .return _ | .break | .continue | .goto _ | .gotoExpr _ => false
  | _ => true

mutual

/-- "Finally section can't have break, return, or goto". -/
def QuietFinals : Code → Prop
  | .ifThenElse _ if_true if_false => QuietFinals if_true ∧ QuietElse if_false
  | .block list finalList | .with list finalList =>
    QuietList list ∧ QuietList finalList ∧ ∀ c ∈ atomsList finalList, quiet c = true
  | _ => True

def QuietElse : Option Code → Prop
  | none => True
  | some c => QuietFinals c

def QuietList : List Code → Prop
  | [] => True
  | c :: rest => QuietFinals c ∧ QuietList rest

end

/-- **A function**, as inference lets it through: its labels differ, nothing leaves a finally list,
and a void function returns no value. -/
structure Function where
  isVoid : Bool
  body : Code
  labels_nodup : ((atoms body).filterMap labelOf).Nodup
  finals_quiet : QuietFinals body
  void_returns : isVoid = true → ∀ e, Code.return (some e) ∉ atoms body

/-- The function after the pass. -/
def Function.folded (f : Function) : Code := visitFunction f.isVoid (fold ⟨[], false⟩ f.body)

mutual

/-- The labels of a list and of the blocks in it that are made flat. -/
def plainLabels : List Code → List ℕ
  | [] => []
  | c :: rest => plainLabel c ++ plainLabels rest

def plainLabel : Code → List ℕ
  | .label l => [l]
  | .block list finalList => if finalList.isEmpty then plainLabels list else []
  | _ => []

end

section Condition

variable {ε ν : Type} (M : Meaning ε ν)

/-- A list makes the jumps that it can, all that are left. -/
def settle (list : List Code) (r : State ε × Control ν) : State ε × Control ν :=
  resolve (fun l => execBehind M l list) r.1.1 r

mutual

/-- An `if` that is taken for an exit is one, in a list and in the blocks made flat. -/
def IfsExit : List Code → Prop
  | [] => True
  | c :: rest => IfExits c ∧ IfsExit rest

def IfExits : Code → Prop
  | .ifThenElse cond if_true if_false =>
    doesExprTerminates (.ifThenElse cond if_true if_false) = true →
      ∀ s, (exec M (.ifThenElse cond if_true if_false) s).2 ≠ .done
  | .block list finalList => finalList = [] → IfsExit list
  | _ => True

end

/-- No jump leaves a list for a label in a block of it. -/
def JumpsOut (list : List Code) : Prop :=
  ∀ s l, (settle M list (execList M list s)).2 = .jump l → l ∉ plainLabels list

mutual

/-- **Every list that is made flat may be**: there, its blocks visited, each `if` that is taken for
an exit is one, and no jump comes to a label it had not come to. -/
def Kept (S : Labels) : Code → Prop
  | .ifThenElse _ if_true if_false => Kept S if_true ∧ KeptElse (preVisits S [if_true]) if_false
  | .block list finalList | .with list finalList =>
    KeptList S list ∧ KeptList (preVisits S list) finalList ∧
      IfsExit M (foldList S list) ∧ JumpsOut M (foldList S list)
  | _ => True

def KeptElse (S : Labels) : Option Code → Prop
  | none => True
  | some c => Kept S c

def KeptList (S : Labels) : List Code → Prop
  | [] => True
  | c :: rest => Kept S c ∧ KeptList (preVisits S [c]) rest

end

end Condition

/-! ## Jumps -/

section Jumps

variable {ε ν : Type} {found : ℕ → Option (State ε → State ε × Control ν)}

/-- **A run spends jumps**, and where it leaves by one it is to a label it may go to. -/
structure Fair (P : ℕ → Prop) (run : State ε → State ε × Control ν) : Prop where
  falls : ∀ s, (run s).1.1 ≤ s.1
  aims : ∀ s l, (run s).2 = .jump l → P l

theorem resolve_stop {r : State ε × Control ν} (hstop : ∀ l, r.2 ≠ .jump l) (jumps : ℕ) :
    resolve found jumps r = r := by
  obtain ⟨s, c⟩ := r
  cases c with
  | jump l => exact absurd rfl (hstop l)
  | _ => cases jumps <;> rfl

theorem resolve_none {l : ℕ} (hl : found l = none) (jumps : ℕ) (s : State ε) :
    resolve found jumps (s, .jump l) = (s, .jump l) := by
  unfold resolve
  simp only [hl]

theorem resolve_hang {l : ℕ} {run : State ε → State ε × Control ν} (hl : found l = some run)
    (jumps : ℕ) (h : List ε) :
    resolve found jumps ((0, h), .jump l) = ((0, h), .hang) := by
  unfold resolve
  simp only [hl]

theorem resolve_jump {l : ℕ} {run : State ε → State ε × Control ν} (hl : found l = some run)
    (jumps left : ℕ) (h : List ε) :
    resolve found (jumps + 1) ((left + 1, h), .jump l) = resolve found jumps (run (left, h)) := by
  rw [resolve]
  simp only [hl]

theorem resolve_settled {r : State ε × Control ν} (h : ∀ l, r.2 = .jump l → found l = none)
    (jumps : ℕ) : resolve found jumps r = r := by
  obtain ⟨s, c⟩ := r
  cases c with
  | jump l => exact resolve_none (h l rfl) jumps s
  | _ => exact resolve_stop (fun l hl => by cases hl) jumps

theorem settled_or_jumps (found : ℕ → Option (State ε → State ε × Control ν))
    (r : State ε × Control ν) :
    (∀ l, r.2 = .jump l → found l = none) ∨
      ∃ l run left h, found l = some run ∧ r = ((left, h), .jump l) := by
  obtain ⟨⟨left, h⟩, c⟩ := r
  by_cases hjump : ∃ l run, found l = some run ∧ c = .jump l
  · obtain ⟨l, run, hl, rfl⟩ := hjump
    exact .inr ⟨l, run, left, h, hl, rfl⟩
  · refine .inl fun l hl => Option.eq_none_iff_forall_ne_some.mpr fun run hrun => ?_
    exact hjump ⟨l, run, hrun, hl⟩

theorem resolve_enough {P : ℕ → Prop} (hfair : ∀ l run, found l = some run → Fair P run) :
    ∀ (jumps jumps' : ℕ) (r : State ε × Control ν), r.1.1 ≤ jumps → r.1.1 ≤ jumps' →
      resolve found jumps r = resolve found jumps' r := by
  intro jumps
  induction jumps with
  | zero =>
    intro jumps' r hr _
    rcases settled_or_jumps found r with hsettled | ⟨l, run, left, h, hl, rfl⟩
    · rw [resolve_settled hsettled, resolve_settled hsettled]
    · obtain rfl : left = 0 := Nat.le_zero.mp hr
      rw [resolve_hang hl, resolve_hang hl]
  | succ jumps ih =>
    intro jumps' r hr hr'
    rcases settled_or_jumps found r with hsettled | ⟨l, run, left, h, hl, rfl⟩
    · rw [resolve_settled hsettled, resolve_settled hsettled]
    · cases left with
      | zero => rw [resolve_hang hl, resolve_hang hl]
      | succ left =>
        obtain ⟨jumps', rfl⟩ := Nat.exists_eq_succ_of_ne_zero
          (Nat.pos_iff_ne_zero.mp (lt_of_lt_of_le left.succ_pos hr'))
        have hfall := (hfair l run hl).falls (left, h)
        rw [Nat.succ_eq_add_one, resolve_jump hl, resolve_jump hl]
        exact ih _ _ (hfall.trans (Nat.succ_le_succ_iff.mp hr))
          (hfall.trans (Nat.succ_le_succ_iff.mp hr'))

theorem resolve_fair {P : ℕ → Prop} (hfair : ∀ l run, found l = some run → Fair P run) :
    ∀ (jumps : ℕ) (r : State ε × Control ν), (∀ l, r.2 = .jump l → P l) →
      (resolve found jumps r).1.1 ≤ r.1.1 ∧
        ∀ l, (resolve found jumps r).2 = .jump l → P l ∧ found l = none := by
  intro jumps
  induction jumps with
  | zero =>
    intro r haim
    rcases settled_or_jumps found r with hsettled | ⟨l, run, left, h, hl, rfl⟩
    · rw [resolve_settled hsettled]
      exact ⟨le_rfl, fun l hl => ⟨haim l hl, hsettled l hl⟩⟩
    · unfold resolve
      simp only [hl]
      exact ⟨le_rfl, nofun⟩
  | succ jumps ih =>
    intro r haim
    rcases settled_or_jumps found r with hsettled | ⟨l, run, left, h, hl, rfl⟩
    · rw [resolve_settled hsettled]
      exact ⟨le_rfl, fun l hl => ⟨haim l hl, hsettled l hl⟩⟩
    · cases left with
      | zero =>
        rw [resolve_hang hl]
        exact ⟨le_rfl, nofun⟩
      | succ left =>
        rw [resolve_jump hl]
        obtain ⟨hfall, haim'⟩ := ih (run (left, h)) ((hfair l run hl).aims (left, h))
        exact ⟨(hfall.trans ((hfair l run hl).falls (left, h))).trans (Nat.le_succ _), haim'⟩

/-- The labels that the gotos among some statements may go to. -/
def Aims (atoms : List Code) (l : ℕ) : Prop :=
  .goto l ∈ atoms ∨ ∃ e, .gotoExpr e ∈ atoms

theorem Aims.mono {as bs : List Code} (h : as ⊆ bs) {l : ℕ} (ha : Aims as l) : Aims bs l :=
  ha.imp (fun hl => h hl) fun ⟨e, he⟩ => ⟨e, h he⟩

theorem Fair.mono {P Q : ℕ → Prop} (h : ∀ l, P l → Q l) {run : State ε → State ε × Control ν}
    (hrun : Fair P run) : Fair Q run :=
  ⟨hrun.falls, fun s l hl => h l (hrun.aims s l hl)⟩

theorem Fair.next {P : ℕ → Prop} {run rest : State ε → State ε × Control ν} (hrun : Fair P run)
    (hrest : Fair P rest) : Fair P fun s => Control.next (run s) rest := by
  refine ⟨fun s => ?_, fun s l hl => ?_⟩
  · by_cases hdone : (run s).2 = .done
    · have hr : run s = ((run s).1, .done) := Prod.ext rfl hdone
      rw [hr]
      exact (hrest.falls _).trans (hrun.falls s)
    · rw [next_stop hdone]
      exact hrun.falls s
  · by_cases hdone : (run s).2 = .done
    · have hr : run s = ((run s).1, .done) := Prod.ext rfl hdone
      rw [hr] at hl
      exact hrest.aims _ l hl
    · rw [next_stop hdone] at hl
      exact hrun.aims s l hl

theorem after_fair {P : ℕ → Prop} {r : State ε × Control ν}
    {finals : State ε → State ε × Control ν} (haim : ∀ l, r.2 = .jump l → P l)
    (hfall : ∀ s, (finals s).1.1 ≤ s.1) :
    (Control.after r finals).1.1 ≤ r.1.1 ∧ ∀ l, (Control.after r finals).2 = .jump l → P l := by
  obtain ⟨s, c⟩ := r
  unfold Control.after
  dsimp only
  split_ifs with hlost hlost'
  · exact ⟨le_rfl, haim⟩
  · refine ⟨hfall s, fun l hl => ?_⟩
    rw [show (finals s).2 = .jump l from hl] at hlost'
    exact absurd hlost' Bool.false_ne_true
  · exact ⟨hfall s, haim⟩

theorem give_fair {P : ℕ → Prop} (M : Meaning ε ν) (id : ℕ) (f : ν → Control ν)
    (haim : ∀ v l, f v = .jump l → P l) : Fair P fun s => give (act M id s) f := by
  refine ⟨fun s => ?_, fun s l hl => ?_⟩
  · unfold give act
    cases (M.leaf id s.2).2 <;> exact le_rfl
  · unfold give act at hl
    revert hl
    cases (M.leaf id s.2).2 with
    | none => exact nofun
    | some v => exact haim v l

variable (M : Meaning ε ν)

theorem block_fair (list finalList : List Code)
    (hlist : Fair (Aims (atomsList list)) (execList M list))
    (hfound : ∀ l run, execBehind M l list = some run → Fair (Aims (atomsList list)) run)
    (hfinals : ∀ s, (execFinals M finalList s).1.1 ≤ s.1) :
    Fair (Aims (atomsList list ++ atomsList finalList)) fun s =>
      Control.after (resolve (fun l => execBehind M l list) s.1 (execList M list s)) fun s =>
        execFinals M finalList s := by
  have hrun : ∀ s, _ := fun s => resolve_fair hfound s.1 (execList M list s) (hlist.aims s)
  have hafter : ∀ s, _ := fun s =>
    after_fair (fun l hl => ((hrun s).2 l hl).1) hfinals
  exact ⟨fun s => ((hafter s).1.trans (hrun s).1).trans (hlist.falls s), fun s l hl =>
    ((hafter s).2 l hl).mono (List.subset_append_left _ _)⟩

mutual

theorem exec_fair : ∀ c, Fair (Aims (atoms c)) (exec M c)
  | .simple id => by
    exact give_fair M id _ nofun
  | .ifThenElse cond if_true if_false => by
    have ht := (exec_fair if_true).mono fun _ => Aims.mono
      (List.subset_append_left (atoms if_true) (atomsElse if_false))
    have hf := (execElse_fair if_false).mono fun _ => Aims.mono
      (List.subset_append_right (atoms if_true) (atomsElse if_false))
    refine ⟨fun s => ?_, fun s l hl => ?_⟩
    · unfold exec Meaning.choose act
      cases (M.leaf cond s.2).2 with
      | none => exact le_rfl
      | some v =>
        dsimp only
        split_ifs
        · exact ht.falls _
        · exact hf.falls _
    · unfold exec Meaning.choose act at hl
      unfold atoms
      revert hl
      cases (M.leaf cond s.2).2 with
      | none => exact nofun
      | some v =>
        dsimp only
        split_ifs
        · exact ht.aims _ l
        · exact hf.aims _ l
  | .block list finalList => by
    exact block_fair M list finalList (execList_fair list) (execBehind_fair list)
      (execFinals_falls finalList)
  | .with list finalList => by
    exact block_fair M list finalList (execList_fair list) (execBehind_fair list)
      (execFinals_falls finalList)
  | .assume | .return none | .break | .continue | .label _ => by
    exact ⟨fun _ => le_rfl, nofun⟩
  | .return (some e) => by
    exact give_fair M e _ nofun
  | .goto l => by
    exact ⟨fun _ => le_rfl, fun _ l' hl => .inl (by
      rw [Control.jump.inj hl]
      exact List.mem_singleton_self _)⟩
  | .gotoExpr e => by
    exact give_fair M e _ fun _ _ _ => .inr ⟨e, List.mem_singleton_self _⟩

theorem execElse_fair : ∀ c, Fair (Aims (atomsElse c)) (execElse M c)
  | none => by
    exact ⟨fun _ => le_rfl, nofun⟩
  | some c => by
    exact exec_fair c

theorem execList_fair : ∀ list, Fair (Aims (atomsList list)) (execList M list)
  | [] => by
    exact ⟨fun _ => le_rfl, nofun⟩
  | c :: rest => by
    exact ((exec_fair c).mono fun _ => Aims.mono (List.subset_append_left _ _)).next
      ((execList_fair rest).mono fun _ => Aims.mono (List.subset_append_right _ _))

theorem execBehind_fair : ∀ list l run, execBehind M l list = some run →
    Fair (Aims (atomsList list)) run
  | [], _, _, h => nomatch h
  | c :: rest, l, run, h => by
    unfold execBehind at h
    unfold atomsList
    split_ifs at h
    · obtain rfl := Option.some.inj h
      exact (execList_fair rest).mono fun _ => Aims.mono (List.subset_append_right _ _)
    · exact (execBehind_fair rest l run h).mono fun _ =>
        Aims.mono (List.subset_append_right _ _)

theorem execFinals_falls : ∀ list s, (execFinals M list s).1.1 ≤ s.1
  | [], _ => le_rfl
  | c :: rest, s => by
    unfold execFinals Control.nextFinal
    dsimp only
    split_ifs
    · exact (exec_fair c).falls s
    · exact (execFinals_falls rest _).trans ((exec_fair c).falls s)

end

end Jumps

section Settling

variable {ε ν : Type} (M : Meaning ε ν)

theorem execBehind_eq (l : ℕ) (list : List Code) :
    execBehind M l list = (behind l list).map (execList M) := by
  induction list with
  | nil => rfl
  | cons c rest ih =>
    rw [execBehind, behind]
    split_ifs
    · rfl
    · exact ih

theorem settle_congr {list list' : List Code}
    (h : ∀ l, (behind l list).map (execList M) = (behind l list').map (execList M)) :
    settle M list = settle M list' := by
  funext r
  unfold settle
  congr 1
  funext l
  rw [execBehind_eq, execBehind_eq, h]

theorem exec_block (list finalList : List Code) (s : State ε) :
    exec M (.block list finalList) s
      = Control.after (settle M list (execList M list s)) (execFinals M finalList) := by
  rw [exec, settle]
  congr 1
  exact resolve_enough (execBehind_fair M list) _ _ _ ((execList_fair M list).falls s) le_rfl

theorem settle_stop (list : List Code) {r : State ε × Control ν} (hstop : ∀ l, r.2 ≠ .jump l) :
    settle M list r = r :=
  resolve_stop hstop _

theorem settle_none {list : List Code} {l : ℕ} (hl : behind l list = none) (s : State ε) :
    settle M list (s, .jump l) = (s, .jump l) :=
  resolve_none (by rw [execBehind_eq, hl]; rfl) _ s

theorem settle_hang {list n : List Code} {l : ℕ} (hl : behind l list = some n) (h : List ε) :
    settle M list ((0, h), .jump l) = ((0, h), .hang) :=
  resolve_hang (by rw [execBehind_eq, hl]; rfl) _ h

theorem settle_jump {list n : List Code} {l : ℕ} (hl : behind l list = some n) (left : ℕ)
    (h : List ε) :
    settle M list ((left + 1, h), .jump l) = settle M list (execList M n (left, h)) := by
  have hfound : execBehind M l list = some (execList M n) := by rw [execBehind_eq, hl]; rfl
  have hfall := (execBehind_fair M list l _ hfound).falls (left, h)
  unfold settle
  rw [resolve_jump hfound]
  exact resolve_enough (execBehind_fair M list) _ _ _ hfall le_rfl

theorem settle_fair (list : List Code) (r : State ε × Control ν) :
    (settle M list r).1.1 ≤ r.1.1 ∧ ∀ l, (settle M list r).2 = .jump l → behind l list = none := by
  have hfair := resolve_fair (P := fun _ => True)
    (fun l run hrun => (execBehind_fair M list l run hrun).mono fun _ _ => trivial)
    r.1.1 r fun _ _ => trivial
  refine ⟨hfair.1, fun l hl => ?_⟩
  have hnone := (hfair.2 l hl).2
  rwa [execBehind_eq, Option.map_eq_none_iff] at hnone

theorem execList_append (list list' : List Code) (s : State ε) :
    execList M (list ++ list') s = Control.next (execList M list s) (execList M list') := by
  induction list generalizing s with
  | nil => rfl
  | cons c rest ih =>
    rw [List.cons_append, execList, execList]
    rcases exec M c s with ⟨s', _ | _ | _ | _ | _ | _ | _⟩
    · exact ih s'
    all_goals rfl

end Settling

/-! ## Where labels are -/

theorem behind_spec {l : ℕ} {list n : List Code} (h : behind l list = some n) :
    ∃ pre, list = pre ++ .label l :: n := by
  induction list with
  | nil => exact nomatch h
  | cons c rest ih =>
    rw [behind] at h
    split_ifs at h with hc
    · obtain rfl := Option.some.inj h
      cases c with
      | label l' =>
        obtain rfl := Option.some.inj hc
        exact ⟨[], rfl⟩
      | _ => exact nomatch hc
    · obtain ⟨pre, rfl⟩ := ih h
      exact ⟨c :: pre, rfl⟩

theorem behind_none {l : ℕ} {list : List Code} :
    behind l list = none ↔ l ∉ list.filterMap labelOf := by
  induction list with
  | nil => exact ⟨fun _ => nofun, fun _ => rfl⟩
  | cons c rest ih =>
    rw [behind, List.filterMap_cons]
    cases hc : labelOf c with
    | none => simpa using ih
    | some l' =>
      by_cases hl : l' = l
      · subst hl
        simp
      · simpa [hl, Ne.symm hl] using ih

theorem behind_append {l : ℕ} {pre n : List Code}
    (hnodup : ((pre ++ .label l :: n).filterMap labelOf).Nodup) :
    behind l (pre ++ .label l :: n) = some n := by
  induction pre with
  | nil => exact if_pos rfl
  | cons c rest ih =>
    rw [List.cons_append, behind, if_neg, ih]
    · exact hnodup.sublist ((List.sublist_cons_self _ _).filterMap _)
    · intro hc
      rw [List.cons_append, List.filterMap_cons, hc] at hnodup
      refine (List.nodup_cons.mp hnodup).1 ?_
      rw [List.filterMap_append]
      exact List.mem_append_right _ (List.mem_filterMap.mpr ⟨_, List.mem_cons_self, rfl⟩)

/-! ## A list made flat -/

theorem hasLabels_behind {l : ℕ} {list n : List Code} (h : behind l list = some n) :
    hasLabels list = true := by
  induction list with
  | nil => exact nomatch h
  | cons c rest ih =>
    rw [behind] at h
    rw [hasLabels]
    split_ifs at h with hc
    · cases c with
      | label l' => rfl
      | _ => exact nomatch hc
    · rw [ih h, Bool.or_true]

section Flat

variable {ε ν : Type} {M : Meaning ε ν} {S : Labels}

theorem collectLoop_behind {l : ℕ} (hlive : S.has l = true) {list n : List Code}
    (h : behind l list = some n) (skipTilLabel : Bool) :
    ∃ pre, collectLoop S false skipTilLabel list
      = pre ++ .label l :: collectLoop S false false n := by
  induction list generalizing skipTilLabel with
  | nil => exact nomatch h
  | cons c rest ih =>
    rw [behind] at h
    rw [collectLoop]
    split_ifs at h with hc
    · obtain rfl := Option.some.inj h
      cases c with
      | label l' =>
        obtain rfl := Option.some.inj hc
        dsimp only [labelOf]
        rw [if_pos hlive]
        exact ⟨[], rfl⟩
      | _ => exact nomatch hc
    · have hskip : ∀ (pre' : List Code) (b : Bool), ∃ pre,
          pre' ++ collectLoop S false b rest = pre ++ .label l :: collectLoop S false false n :=
        fun pre' b => by
          obtain ⟨pre, hpre⟩ := ih h b
          exact ⟨pre' ++ pre, by rw [hpre, List.append_assoc]⟩
      split
      · split_ifs
        · exact hskip [c] false
        · exact hskip [] _
      · cases skipTilLabel with
        | true => exact hskip [] true
        | false =>
          cases exitOf c with
          | goto => exact hskip [c] true
          | exit => exact hskip [c] true
          | none => exact hskip _ false

/-- **Where a list has been put**, its labels are found with what is behind them. -/
def Placed (S : Labels) (T N tail : List Code) : Prop :=
  ∀ l n, behind l N = some n → S.has l = true →
    behind l T = some (collectLoop S (!hasLabels N) false n ++ tail)

theorem placed_collect {T N pre tail : List Code} (hnodup : (T.filterMap labelOf).Nodup)
    (hT : T = pre ++ (collect S N ++ tail)) : Placed S T N tail := by
  intro l n hl hlive
  have hhas := hasLabels_behind hl
  obtain ⟨pre', hpre⟩ := collectLoop_behind hlive hl false
  rw [collect, hhas, Bool.not_true, hpre] at hT
  rw [hhas, Bool.not_true]
  have hT' : T = (pre ++ pre') ++ .label l :: (collectLoop S false false n ++ tail) := by
    rw [hT, List.append_assoc, List.append_assoc, List.cons_append]
  rw [hT'] at hnodup ⊢
  exact behind_append hnodup

theorem run_next {T N tail X rest : List Code} {r : State ε × Control ν}
    (hdone : ∀ s, r = (s, .done) →
      settle M T (Control.next (settle M N (execList M rest s)) (execList M tail))
        = settle M T (execList M X s))
    (hjump : ∀ s l, r = (s, .jump l) →
      settle M T (Control.next (settle M N (s, .jump l)) (execList M tail))
        = settle M T (s, .jump l)) :
    settle M T (Control.next (settle M N (Control.next r (execList M rest))) (execList M tail))
      = settle M T (Control.next r (execList M X)) := by
  obtain ⟨s, c⟩ := r
  cases c with
  | done => exact hdone s rfl
  | jump l => exact hjump s l rfl
  | _ =>
    dsimp only [Control.next]
    rw [settle_stop M N (by exact fun _ => nofun)]

theorem run_jump {T N tail : List Code} (hplaced : Placed S T N tail) {l : ℕ}
    (hlive : S.has l = true) (s : State ε)
    (ih : ∀ n left h, left < s.1 → behind l N = some n →
      settle M T (Control.next (settle M N (execList M n (left, h))) (execList M tail))
        = settle M T (execList M (collectLoop S (!hasLabels N) false n ++ tail) (left, h))) :
    settle M T (Control.next (settle M N (s, .jump l)) (execList M tail))
      = settle M T (s, .jump l) := by
  cases hl : behind l N with
  | none =>
    rw [settle_none M hl]
    rfl
  | some n =>
    have hT := hplaced l n hl hlive
    obtain ⟨_ | left, h⟩ := s
    · rw [settle_hang M hl, settle_hang M hT]
      rfl
    · rw [settle_jump M hl, settle_jump M hT]
      exact ih n left h left.lt_succ_self hl

theorem collectCode_cases (c : Code) :
    (∃ list, c = .block list [] ∧ collectCode S c = collect S list) ∨
      ∀ (X : List Code) (s : State ε),
        execList M (collectCode S c ++ X) s = Control.next (exec M c s) (execList M X) := by
  cases c with
  | block list finalList =>
    cases finalList with
    | nil => exact .inl ⟨list, rfl, rfl⟩
    | cons f finalList => exact .inr fun X s => rfl
  | _ => exact .inr fun X s => rfl

theorem ifsExit_append {list list' : List Code} (h : IfsExit M (list ++ list')) :
    IfsExit M list' := by
  induction list with
  | nil => exact h
  | cons c rest ih => exact ih h.2

theorem atomsList_append (list list' : List Code) :
    atomsList (list ++ list') = atomsList list ++ atomsList list' := by
  induction list with
  | nil => rfl
  | cons c rest ih =>
    rw [List.cons_append, atomsList, atomsList, ih, List.append_assoc]

/-- Every goto of a list is known. -/
def Known (S : Labels) (list : List Code) : Prop := ∀ l, Aims (atomsList list) l → S.has l = true

theorem Known.behind {list n : List Code} {l : ℕ} (h : Known S list) (hn : behind l list = some n) :
    Known S n := by
  obtain ⟨pre, rfl⟩ := behind_spec hn
  intro l' hl'
  refine h l' (hl'.mono fun a ha => ?_)
  rw [atomsList_append, atomsList]
  exact List.mem_append_right _ (List.mem_append_right _ ha)

theorem exit_stops {c : Code} (hexit : exitOf c ≠ .none) (hif : IfExits M c) (s : State ε) :
    (exec M c s).2 ≠ .done := by
  cases c with
  | «return» subexpr =>
    cases subexpr with
    | none => exact nofun
    | some e =>
      unfold exec give act
      cases (M.leaf e s.2).2 <;> exact nofun
  | «break» => exact nofun
  | «continue» => exact nofun
  | goto l => exact nofun
  | gotoExpr e =>
    unfold exec give act
    cases (M.leaf e s.2).2 <;> exact nofun
  | ifThenElse cond if_true if_false =>
    refine hif ?_ s
    by_contra hends
    exact hexit (if_neg hends)
  | _ => exact absurd rfl hexit

theorem collect_run {T : List Code} (hnodup : (T.filterMap labelOf).Nodup) (N n tail : List Code)
    (s : State ε) (hplaced : Placed S T N tail)
    (hpos : ∃ pre, T = pre ++ (collectLoop S (!hasLabels N) false n ++ tail))
    (hifsN : IfsExit M N) (hifs : IfsExit M n) (hknownN : Known S N) (hknown : Known S n) :
    settle M T (Control.next (settle M N (execList M n s)) (execList M tail))
      = settle M T (execList M (collectLoop S (!hasLabels N) false n ++ tail) s) := by
  match n with
  | [] =>
    have hdone : settle M N (s, Control.done) = (s, .done) :=
      settle_stop M N (by exact fun _ => nofun)
    rw [execList, hdone]
    rfl
  | c :: rest =>
    have hrest : Known S rest := fun l hl =>
      hknown l (hl.mono (List.subset_append_right (atoms c) _))
    have haim : ∀ s' l, exec M c s = (s', .jump l) → S.has l = true := fun s' l hl =>
      hknown l (((exec_fair M c).aims s l (by rw [hl])).mono (List.subset_append_left _ _))
    have hfall : ∀ s' end', exec M c s = (s', end') → s'.1 ≤ s.1 := fun s' end' hr => by
      have h := (exec_fair M c).falls s
      rwa [hr] at h
    -- a jump spends one of those left: back to the list from its label
    have hjump : ∀ s' l, exec M c s = (s', .jump l) →
        settle M T (Control.next (settle M N (s', .jump l)) (execList M tail))
          = settle M T (s', .jump l) := fun s' l hl => by
      refine run_jump hplaced (haim s' l hl) s' fun n' left h hleft hn => ?_
      have hle := hfall s' _ hl
      have hT : ∃ pre, T = pre ++ (collectLoop S (!hasLabels N) false n' ++ tail) := by
        obtain ⟨pre, hpre⟩ := behind_spec (hplaced l n' hn (haim s' l hl))
        exact ⟨pre ++ [.label l], by rw [hpre, List.append_assoc]; rfl⟩
      obtain ⟨pre, hpre⟩ := behind_spec hn
      have hifs' : IfsExit M n' := by
        rw [hpre] at hifsN
        exact (ifsExit_append hifsN).2
      exact collect_run hnodup N n' tail (left, h) hplaced hT hifsN hifs' hknownN
        (hknownN.behind hn)
    have hgo : ∀ X pre, T = pre ++ (collectLoop S (!hasLabels N) false rest ++ tail) →
        X = collectLoop S (!hasLabels N) false rest ++ tail → ∀ s', exec M c s = (s', .done) →
        settle M T (Control.next (settle M N (execList M rest s')) (execList M tail))
          = settle M T (execList M X s') := fun X pre hpre hX s' hr => by
      have hle := hfall s' _ hr
      rw [hX]
      exact collect_run hnodup N rest tail s' hplaced ⟨pre, hpre⟩ hifsN hifs.2 hknownN hrest
    obtain ⟨pre, hpre⟩ := hpos
    rw [execList]
    rw [collectLoop] at hpre ⊢
    cases hc : labelOf c with
    | some l =>
      obtain rfl : c = .label l := by
        cases c with
        | label l' => exact congrArg _ (Option.some.inj hc)
        | _ => exact nomatch hc
      rw [hc] at hpre
      dsimp only at hpre ⊢
      split_ifs at hpre ⊢ with hlive
      · exact hgo _ (pre ++ [.label l]) (by rw [hpre, List.append_assoc]; rfl) rfl s rfl
      · exact hgo _ pre hpre rfl s rfl
    | none =>
      rw [hc] at hpre
      dsimp only at hpre ⊢
      rw [if_neg Bool.false_ne_true] at hpre ⊢
      have hexit : exitOf c ≠ .none → ∀ X,
          settle M T (Control.next (settle M N (Control.next (exec M c s) (execList M rest)))
            (execList M tail)) = settle M T (Control.next (exec M c s) (execList M X)) :=
        fun hexit X => run_next
          (fun s' hr => absurd (congrArg Prod.snd hr) (exit_stops hexit hifs.1 s)) hjump
      cases hkind : exitOf c with
      | goto => exact hexit (by rw [hkind]; exact nofun) _
      | exit =>
        dsimp only
        split_ifs
        · exact hexit (by rw [hkind]; exact nofun) _
        · exact hexit (by rw [hkind]; exact nofun) _
      | none =>
        rw [hkind] at hpre
        dsimp only at hpre ⊢
        rw [List.append_assoc] at hpre ⊢
        have hstep := run_next (M := M) (N := N)
          (hgo _ (pre ++ collectCode S c) (by rw [List.append_assoc]; exact hpre) rfl) hjump
        rw [hstep]
        rcases collectCode_cases (S := S) c with ⟨list, hblock, hlist⟩ | hcode
        · -- the block's own list, put here, before what is put behind it
          have hsize : sizeOf list < sizeOf c := by
            rw [hblock, Code.block.sizeOf_spec]
            omega
          subst hblock
          have hrun : exec M (.block list []) s = settle M list (execList M list s) := by
            rw [exec_block]
            exact after_done _
          rw [hlist] at hpre ⊢
          have hknownL : Known S list := fun l hl =>
            hknown l (hl.mono fun a ha => List.mem_append_left _ (List.mem_append_left _ ha))
          have hifsL : IfsExit M list := hifs.1 rfl
          rw [hrun]
          exact collect_run hnodup list list _ s (placed_collect hnodup hpre) ⟨pre, hpre⟩ hifsL
            hifsL hknownL hknownL
        · rw [hcode]
termination_by (s.1, sizeOf n)
decreasing_by
  all_goals simp_wf
  · exact Prod.Lex.left _ _ (by omega)
  · rcases hle.lt_or_eq with hlt | heq
    · exact Prod.Lex.left _ _ hlt
    · rw [heq]
      exact Prod.Lex.right _ (by omega)
  · exact Prod.Lex.right _ (by omega)

end Flat

/-! ## What the pass leaves -/

section Atoms

variable (S : Labels)

mutual

theorem atoms_collectLoop (stopAtExit : Bool) : ∀ (skipTilLabel : Bool) (list : List Code),
    (atomsList (collectLoop S stopAtExit skipTilLabel list)).Sublist (atomsList list)
  | _, [] => .slnil
  | skipTilLabel, c :: rest => by
    have hcode := atoms_collectCode c
    have hloop := fun skip => atoms_collectLoop stopAtExit skip rest
    have hkeep : ∀ skip, (atomsList (c :: collectLoop S stopAtExit skip rest)).Sublist
        (atomsList (c :: rest)) := fun skip =>
      List.Sublist.append (List.Sublist.refl _) (hloop skip)
    have hdrop : ∀ skip, (atomsList (collectLoop S stopAtExit skip rest)).Sublist
        (atomsList (c :: rest)) := fun skip => (hloop skip).trans (List.sublist_append_right _ _)
    rw [collectLoop]
    split
    · split_ifs
      · exact hkeep _
      · exact hdrop _
    · split_ifs
      · exact hdrop _
      · split
        · exact hkeep _
        · exact List.Sublist.append (List.Sublist.refl _) (List.nil_sublist _)
        · rw [atomsList_append]
          exact List.Sublist.append hcode (hloop _)
      · split
        · exact hkeep _
        · exact hkeep _
        · rw [atomsList_append]
          exact List.Sublist.append hcode (hloop _)

theorem atoms_collectCode : ∀ c : Code, (atomsList (collectCode S c)).Sublist (atoms c)
  | .block list [] => by
    rw [atoms, atomsList, List.append_nil]
    exact atoms_collectLoop _ false list
  | .block list (f :: finalList) => by
    rw [collectCode, atomsList, atomsList, List.append_nil]
    exact fun h => nomatch h
  | .with list finalList => by
    rw [collectCode, atomsList, atomsList, List.append_nil, atoms, atoms]
  | .assume => List.nil_sublist _
  | .simple _ | .ifThenElse .. | .return _ | .break | .continue | .label _ | .goto _
  | .gotoExpr _ => by
    rw [collectCode, atomsList, atomsList, List.append_nil]
    all_goals exact nofun

end

mutual

theorem atoms_fold : ∀ (S : Labels) (c : Code), (atoms (fold S c)).Sublist (atoms c)
  | S, .ifThenElse _ if_true if_false =>
    (atoms_fold S if_true).append (atoms_foldElse _ if_false)
  | S, .block list finalList =>
    ((atoms_collectLoop _ _ _ _).trans (atoms_foldList S list)).append
      ((atoms_collectLoop _ _ _ _).trans (atoms_foldList _ finalList))
  | S, .with list finalList =>
    ((atoms_collectLoop _ _ _ _).trans (atoms_foldList S list)).append
      ((atoms_collectLoop _ _ _ _).trans (atoms_foldList _ finalList))
  | _, .simple _ | _, .assume | _, .return _ | _, .break | _, .continue | _, .label _
  | _, .goto _ | _, .gotoExpr _ => List.Sublist.refl _

theorem atoms_foldElse : ∀ (S : Labels) (c : Option Code),
    (atomsElse (foldElse S c)).Sublist (atomsElse c)
  | _, none => List.Sublist.refl _
  | S, some c => atoms_fold S c

theorem atoms_foldList : ∀ (S : Labels) (list : List Code),
    (atomsList (foldList S list)).Sublist (atomsList list)
  | _, [] => List.Sublist.refl _
  | S, c :: rest => (atoms_fold S c).append (atoms_foldList _ rest)

end

theorem labels_sublist (list : List Code) :
    (list.filterMap labelOf).Sublist ((atomsList list).filterMap labelOf) := by
  induction list with
  | nil => exact List.Sublist.refl _
  | cons c rest ih =>
    rw [atomsList, List.filterMap_append]
    cases c with
    | label l => exact ih.cons_cons l
    | _ => exact ih.trans (List.sublist_append_right _ _)

end Atoms

/-! ## Finally lists -/

/-- Nothing in a list leaves it. -/
def Quiet (atoms : List Code) : Prop := ∀ c ∈ atoms, quiet c = true

mutual

theorem quiet_terminates : ∀ c, Quiet (atoms c) → doesExprTerminates c = false
  | .block list _, hq | .with list _, hq =>
    quiet_any list fun c hc => hq c (List.mem_append_left _ hc)
  | .ifThenElse _ if_true if_false, hq => by
    rw [doesExprTerminates, quiet_terminates if_true fun c hc => hq c (List.mem_append_left _ hc)]
    rfl
  | .simple _, _ | .assume, _ | .return _, _ | .break, _ | .continue, _ | .label _, _
  | .goto _, _ | .gotoExpr _, _ => rfl

theorem quiet_any : ∀ list, Quiet (atomsList list) → anyTerminates list = false
  | [], _ => rfl
  | c :: rest, hq => by
    rw [anyTerminates, quiet_here c fun c hc => hq c (List.mem_append_left _ hc),
      quiet_any rest fun c hc => hq c (List.mem_append_right _ hc)]
    rfl

theorem quiet_here : ∀ c, Quiet (atoms c) → terminatesHere c = false
  | .block list _, hq => quiet_any list fun c hc => hq c (List.mem_append_left _ hc)
  | .return _, hq | .break, hq | .continue, hq => nomatch hq _ (List.mem_singleton_self _)
  | .with .., _ | .ifThenElse .., _ | .simple _, _ | .assume, _ | .label _, _ | .goto _, _
  | .gotoExpr _, _ => rfl

end

section Quiet

variable {ε ν : Type} {M : Meaning ε ν}

/-- A run comes to its end, or there is no more to run. -/
def Ends (c : Control ν) : Prop := c = .done ∨ c.lost = true

theorem Ends.not_jump {c : Control ν} (h : Ends c) (l : ℕ) : c ≠ .jump l := by
  rintro rfl
  rcases h with h | h
  · exact nomatch h
  · exact Bool.false_ne_true h

theorem ends_after {r : State ε × Control ν} {finals : State ε → State ε × Control ν}
    (hr : Ends r.2) : Ends (Control.after r finals).2 := by
  obtain ⟨s, c⟩ := r
  unfold Control.after
  dsimp only
  split_ifs with hlost hlost'
  · exact hr
  · exact .inr hlost'
  · exact hr

mutual

theorem quiet_ends : ∀ c, Quiet (atoms c) → ∀ s, Ends (exec M c s).2
  | .block list finalList, hq, s => by
    rw [exec_block]
    have hlist := quiet_endsList list (fun c hc => hq c (List.mem_append_left _ hc)) s
    rw [settle_stop M list hlist.not_jump]
    exact ends_after hlist
  | .with list finalList, hq, s => by
    have hblock : exec M (.with list finalList) s = exec M (.block list finalList) s := rfl
    rw [hblock, exec_block]
    have hlist := quiet_endsList list (fun c hc => hq c (List.mem_append_left _ hc)) s
    rw [settle_stop M list hlist.not_jump]
    exact ends_after hlist
  | .ifThenElse cond if_true if_false, hq, s => by
    have ht := quiet_ends if_true fun c hc => hq c (List.mem_append_left _ hc)
    have hf := quiet_endsElse if_false fun c hc => hq c (List.mem_append_right _ hc)
    unfold exec Meaning.choose act
    cases (M.leaf cond s.2).2 with
    | none => exact .inr rfl
    | some v =>
      dsimp only
      split_ifs
      · exact ht _
      · exact hf _
  | .simple id, _, s => by
    unfold exec give act
    cases (M.leaf id s.2).2 with
    | none => exact .inr rfl
    | some v => exact .inl rfl
  | .assume, _, _ | .label _, _, _ => .inl rfl
  | .return _, hq, _ | .break, hq, _ | .continue, hq, _ | .goto _, hq, _ | .gotoExpr _, hq, _ =>
    nomatch hq _ (List.mem_singleton_self _)

theorem quiet_endsElse : ∀ c, Quiet (atomsElse c) → ∀ s, Ends (execElse M c s).2
  | none, _, _ => .inl rfl
  | some c, hq, s => quiet_ends c hq s

theorem quiet_endsList : ∀ list, Quiet (atomsList list) → ∀ s, Ends (execList M list s).2
  | [], _, _ => .inl rfl
  | c :: rest, hq, s => by
    have hc := quiet_ends c (fun c hc => hq c (List.mem_append_left _ hc)) s
    rw [execList]
    by_cases hdone : (exec M c s).2 = .done
    · have hr : exec M c s = ((exec M c s).1, .done) := Prod.ext rfl hdone
      rw [hr]
      exact quiet_endsList rest (fun c hc => hq c (List.mem_append_right _ hc)) _
    · rw [next_stop hdone]
      exact hc

end

theorem quiet_finals (list : List Code) (hq : Quiet (atomsList list)) (s : State ε) :
    execFinals M list s = execList M list s := by
  induction list generalizing s with
  | nil => rfl
  | cons c rest ih =>
    have hc := quiet_ends (M := M) c (fun c hc => hq c (List.mem_append_left _ hc)) s
    rw [execFinals, execList]
    rcases hr : exec M c s with ⟨s', end'⟩
    rw [hr] at hc
    rcases hc with rfl | hlost
    · exact ih (fun c hc => hq c (List.mem_append_right _ hc)) s'
    · rw [next_stop fun hdone => by
        rw [show end' = .done from hdone] at hlost
        exact Bool.false_ne_true hlost]
      exact if_pos hlost

mutual

theorem quiet_ifsExit : ∀ list, Quiet (atomsList list) → IfsExit M list
  | [], _ => trivial
  | c :: rest, hq => ⟨quiet_ifExits c fun c hc => hq c (List.mem_append_left _ hc),
      quiet_ifsExit rest fun c hc => hq c (List.mem_append_right _ hc)⟩

theorem quiet_ifExits : ∀ c, Quiet (atoms c) → IfExits M c
  | .ifThenElse cond if_true if_false, hq => fun hends => by
    rw [quiet_terminates _ hq] at hends
    exact absurd hends Bool.false_ne_true
  | .block list _, hq => fun _ => quiet_ifsExit list fun c hc => hq c (List.mem_append_left _ hc)
  | .with .., _ | .simple _, _ | .assume, _ | .return _, _ | .break, _ | .continue, _ | .label _, _
  | .goto _, _ | .gotoExpr _, _ => trivial

end

theorem quiet_collect (S : Labels) {list : List Code} (hq : Quiet (atomsList list))
    (hnodup : ((atomsList list).filterMap labelOf).Nodup) (s : State ε) :
    execList M (collect S list) s = execList M list s := by
  have hsub := atoms_collectLoop S (!hasLabels list) false list
  have hnodup' : ((collect S list).filterMap labelOf).Nodup :=
    hnodup.sublist ((labels_sublist _).trans (hsub.filterMap _))
  have hknown : Known S list := by
    rintro l (hl | ⟨e, hl⟩) <;> exact nomatch hq _ hl
  have hpos : collect S list = [] ++ (collect S list ++ []) := by
    rw [List.nil_append, List.append_nil]
  have hrun := collect_run (M := M) hnodup' list list [] s (placed_collect hnodup' hpos)
    ⟨[], hpos⟩ (quiet_ifsExit list hq) (quiet_ifsExit list hq) hknown hknown
  have hlist := quiet_endsList (M := M) list hq s
  have hcollect := quiet_endsList (M := M) (collect S list) (fun c hc => hq c (hsub.subset hc)) s
  have hnil : execList M [] = fun s => (s, .done) := rfl
  rw [List.append_nil, hnil, next_done, settle_stop M list hlist.not_jump,
    settle_stop M _ hlist.not_jump] at hrun
  exact (hrun.trans (settle_stop M _ hcollect.not_jump)).symm

end Quiet

/-! ## The pass keeps what is run -/

mutual

theorem plain_collectLoop (S : Labels) (stopAtExit : Bool) : ∀ (skipTilLabel : Bool)
    (list : List Code), (collectLoop S stopAtExit skipTilLabel list).filterMap labelOf
      ⊆ plainLabels list
  | _, [] => List.nil_subset _
  | skipTilLabel, c :: rest => by
    have hcode := plain_collectCode S c
    have hloop := fun skip => plain_collectLoop S stopAtExit skip rest
    have hrest : ∀ skip, (collectLoop S stopAtExit skip rest).filterMap labelOf
        ⊆ plainLabels (c :: rest) := fun skip =>
      List.Subset.trans (hloop skip) (List.subset_append_right _ _)
    have hkeep : labelOf c = none → ∀ skip,
        (c :: collectLoop S stopAtExit skip rest).filterMap labelOf ⊆ plainLabels (c :: rest) :=
      fun hc skip => by
        rw [List.filterMap_cons_none hc]
        exact hrest skip
    have hpush : (collectCode S c ++ collectLoop S stopAtExit false rest).filterMap labelOf
        ⊆ plainLabels (c :: rest) := by
      rw [List.filterMap_append, plainLabels]
      exact List.append_subset.mpr
        ⟨List.Subset.trans hcode (List.subset_append_left _ _), hrest false⟩
    rw [collectLoop]
    split
    · rename_i l hc
      split_ifs
      · rw [List.filterMap_cons_some hc]
        refine List.cons_subset.mpr ⟨?_, hrest false⟩
        cases c with
        | label l' =>
          obtain rfl := Option.some.inj hc
          exact List.mem_append_left _ (List.mem_singleton_self _)
        | _ => exact nomatch hc
      · exact hrest _
    · rename_i hc
      cases skipTilLabel with
      | true => exact hrest true
      | false =>
        rw [if_neg Bool.false_ne_true]
        split
        · exact hkeep hc true
        · split_ifs
          · rw [List.filterMap_cons_none hc]
            exact List.nil_subset _
          · exact hkeep hc true
        · exact hpush

theorem plain_collectCode (S : Labels) : ∀ c : Code,
    (collectCode S c).filterMap labelOf ⊆ plainLabel c
  | .block list [] => plain_collectLoop S _ false list
  | .label _ => fun _ h => h
  | .block _ (_ :: _) | .with .. | .assume | .simple _ | .ifThenElse .. | .return _ | .break
  | .continue | .goto _ | .gotoExpr _ => List.nil_subset _

end

theorem has_preVisit {S : Labels} {as : List Code} {l : ℕ} (h : S.has l = true ∨ Aims as l) :
    (as.foldl Labels.preVisit S).has l = true := by
  induction as generalizing S with
  | nil =>
    rcases h with h | h | ⟨e, h⟩
    · exact h
    · exact nomatch h
    · exact nomatch h
  | cons a as ih =>
    refine ih ?_
    rcases h with h | h | ⟨e, h⟩
    · refine .inl ?_
      unfold Labels.has at h ⊢
      rw [Bool.or_eq_true] at h ⊢
      unfold Labels.preVisit
      split
      · refine h.imp id fun h => ?_
        rw [List.contains_cons, h, Bool.or_true]
      · exact .inl rfl
      · exact h
    · rcases List.mem_cons.mp h with rfl | h
      · refine .inl ?_
        unfold Labels.has Labels.preVisit
        rw [List.contains_cons, beq_self_eq_true, Bool.true_or, Bool.or_true]
      · exact .inr (.inl h)
    · rcases List.mem_cons.mp h with rfl | h
      · exact .inl rfl
      · exact .inr (.inr ⟨e, h⟩)

section Fold

variable {ε ν : Type} {M : Meaning ε ν}

/-- Two statements are as good, in a list. -/
structure Same (M : Meaning ε ν) (c c' : Code) : Prop where
  label : labelOf c = labelOf c'
  run : exec M c = exec M c'

theorem same_execList {list list' : List Code} (h : List.Forall₂ (Same M) list list') :
    execList M list = execList M list' := by
  induction h with
  | nil => rfl
  | cons hc _ ih =>
    funext s
    rw [execList, execList, hc.run]
    exact congrArg _ ih

theorem same_execFinals {list list' : List Code} (h : List.Forall₂ (Same M) list list') :
    execFinals M list = execFinals M list' := by
  induction h with
  | nil => rfl
  | cons hc _ ih =>
    funext s
    rw [execFinals, execFinals, hc.run]
    exact congrArg _ ih

theorem same_settle {list list' : List Code} (h : List.Forall₂ (Same M) list list') :
    settle M list = settle M list' := by
  refine settle_congr M fun l => ?_
  induction h with
  | nil => rfl
  | cons hc hrest ih =>
    rw [behind, behind, hc.label]
    split_ifs
    · exact congrArg some (same_execList hrest)
    · exact ih

theorem block_same {S : Labels} {T list F finalList : List Code}
    (hT : List.Forall₂ (Same M) T list) (hF : List.Forall₂ (Same M) F finalList)
    (hnodup : ((atomsList T).filterMap labelOf).Nodup)
    (hnodupF : ((atomsList F).filterMap labelOf).Nodup) (hq : Quiet (atomsList F))
    (hknown : Known S T) (hifs : IfsExit M T) (hout : JumpsOut M T) :
    exec M (.block (collect S T) (collect S F)) = exec M (.block list finalList) := by
  funext s
  have hsub := atoms_collectLoop S (!hasLabels T) false T
  have hnodup' : ((collect S T).filterMap labelOf).Nodup :=
    hnodup.sublist ((labels_sublist _).trans (hsub.filterMap _))
  have hpos : collect S T = [] ++ (collect S T ++ []) := by
    rw [List.nil_append, List.append_nil]
  have hrun := collect_run (M := M) hnodup' T T [] s (placed_collect hnodup' hpos)
    ⟨[], hpos⟩ hifs hifs hknown hknown
  have hnil : execList M [] = fun s => (s, .done) := rfl
  rw [List.append_nil, hnil, next_done] at hrun
  have hlist : settle M (collect S T) (execList M (collect S T) s)
      = settle M T (execList M T s) := by
    refine hrun.symm.trans ?_
    rcases hend : settle M T (execList M T s) with ⟨s', end'⟩
    by_cases hstop : ∀ l, end' ≠ .jump l
    · exact settle_stop M _ hstop
    · push Not at hstop
      obtain ⟨l, rfl⟩ := hstop
      have hl : l ∉ plainLabels T := hout s l (by rw [hend])
      exact settle_none M (behind_none.2 fun h => hl (plain_collectLoop S _ _ T h)) s'
  have hfinals : execFinals M (collect S F) = execFinals M finalList := by
    funext s
    have hsubF : (atomsList (collect S F)).Sublist (atomsList F) := atoms_collectLoop S _ false F
    rw [quiet_finals _ fun c hc => hq c (hsubF.subset hc), quiet_collect S hq hnodupF,
      ← quiet_finals F hq, same_execFinals hF]
  rw [exec_block, exec_block, hlist, hfinals, same_settle hT, same_execList hT]

/-- The labels of a statement differ. -/
def Distinct (atoms : List Code) : Prop := (atoms.filterMap labelOf).Nodup

theorem Distinct.sublist {as bs : List Code} (h : Distinct bs) (hsub : as.Sublist bs) :
    Distinct as :=
  List.Nodup.sublist (hsub.filterMap _) h

theorem labelOf_fold (S : Labels) (c : Code) : labelOf (fold S c) = labelOf c := by
  cases c <;> rfl

theorem exec_foldBlock (S : Labels) (list finalList : List Code)
    (hnodup : Distinct (atomsList list ++ atomsList finalList)) (hq : Quiet (atomsList finalList))
    (hT : List.Forall₂ (Same M) (foldList S list) list)
    (hF : List.Forall₂ (Same M) (foldList (preVisits S list) finalList) finalList)
    (hifs : IfsExit M (foldList S list)) (hout : JumpsOut M (foldList S list)) :
    exec M (.block (collect (preVisits S (list ++ finalList)) (foldList S list))
      (collect (preVisits S (list ++ finalList)) (foldList (preVisits S list) finalList)))
      = exec M (.block list finalList) := by
  have hsub := atoms_foldList S list
  have hsubF := atoms_foldList (preVisits S list) finalList
  refine block_same hT hF (hnodup.sublist (hsub.trans (List.sublist_append_left _ _)))
    (hnodup.sublist (hsubF.trans (List.sublist_append_right _ _)))
    (fun c hc => hq c (hsubF.subset hc)) (fun l hl => ?_) hifs hout
  refine has_preVisit (.inr (hl.mono fun a ha => ?_))
  rw [atomsList_append]
  exact List.mem_append_left _ (hsub.subset ha)

mutual

theorem exec_fold : ∀ (S : Labels) (c : Code), Distinct (atoms c) → QuietFinals c → Kept M S c →
    exec M (fold S c) = exec M c
  | S, .ifThenElse cond if_true if_false, hnodup, hq, hkept => by
    have ht := exec_fold S if_true (hnodup.sublist (List.sublist_append_left _ _)) hq.1 hkept.1
    have hf := exec_foldElse _ if_false (hnodup.sublist (List.sublist_append_right _ _)) hq.2
      hkept.2
    funext s
    rw [fold, exec, exec, ht, hf]
  | S, .block list finalList, hnodup, hq, hkept => by
    rw [fold]
    exact exec_foldBlock S list finalList hnodup hq.2.2
      (exec_foldList S list (hnodup.sublist (List.sublist_append_left _ _)) hq.1 hkept.1)
      (exec_foldList _ finalList (hnodup.sublist (List.sublist_append_right _ _)) hq.2.1
        hkept.2.1) hkept.2.2.1 hkept.2.2.2
  | S, .with list finalList, hnodup, hq, hkept => by
    have hwith : ∀ a b, exec M (.with a b) = exec M (.block a b) := fun _ _ => rfl
    rw [fold, hwith, hwith]
    exact exec_foldBlock S list finalList hnodup hq.2.2
      (exec_foldList S list (hnodup.sublist (List.sublist_append_left _ _)) hq.1 hkept.1)
      (exec_foldList _ finalList (hnodup.sublist (List.sublist_append_right _ _)) hq.2.1
        hkept.2.1) hkept.2.2.1 hkept.2.2.2
  | _, .simple _, _, _, _ | _, .assume, _, _, _ | _, .return _, _, _, _ | _, .break, _, _, _
  | _, .continue, _, _, _ | _, .label _, _, _, _ | _, .goto _, _, _, _
  | _, .gotoExpr _, _, _, _ => rfl

theorem exec_foldElse : ∀ (S : Labels) (c : Option Code), Distinct (atomsElse c) → QuietElse c →
    KeptElse M S c → execElse M (foldElse S c) = execElse M c
  | _, none, _, _, _ => rfl
  | S, some c, hnodup, hq, hkept => exec_fold S c hnodup hq hkept

theorem exec_foldList : ∀ (S : Labels) (list : List Code), Distinct (atomsList list) →
    QuietList list → KeptList M S list → List.Forall₂ (Same M) (foldList S list) list
  | _, [], _, _, _ => .nil
  | S, c :: rest, hnodup, hq, hkept => .cons
    ⟨labelOf_fold S c,
      exec_fold S c (hnodup.sublist (List.sublist_append_left _ _)) hq.1 hkept.1⟩
    (exec_foldList _ rest (hnodup.sublist (List.sublist_append_right _ _)) hq.2 hkept.2)

end

end Fold

/-! ## The return at the end -/

section Last

variable {ε ν : Type} {M : Meaning ε ν}

theorem mem_atomsList {list : List Code} {c a : Code} (hc : c ∈ list) (ha : a ∈ atoms c) :
    a ∈ atomsList list := by
  induction list with
  | nil => exact nomatch hc
  | cons c' rest ih =>
    rcases List.mem_cons.mp hc with rfl | hc
    · exact List.mem_append_left _ ha
    · exact List.mem_append_right _ (ih hc)

theorem behind_last (list : List Code) (l : ℕ) :
    behind l (list ++ [.return none]) = (behind l list).map (· ++ [.return none]) := by
  induction list with
  | nil => rfl
  | cons c rest ih =>
    rw [List.cons_append, behind, behind, ih]
    split_ifs <;> rfl

theorem settle_last (list : List Code) (left : ℕ) : ∀ (n : List Code) (s : State ε), s.1 < left →
    call true (settle M list (execList M n s))
      = call true (settle M (list ++ [.return none]) (execList M (n ++ [.return none]) s)) := by
  induction left with
  | zero => exact fun _ _ hs => absurd hs (Nat.not_lt_zero _)
  | succ left ih =>
    intro n s hs
    have hfall := (execList_fair M n).falls s
    rw [execList_append]
    rcases hr : execList M n s with ⟨⟨left', h⟩, end'⟩
    rw [hr] at hfall
    cases end' with
    | jump l =>
      have hlast := behind_last list l
      dsimp only [Control.next]
      cases hl : behind l list with
      | none =>
        rw [hl] at hlast
        rw [settle_none M hl, settle_none M hlast]
      | some n' =>
        rw [hl] at hlast
        cases left' with
        | zero => rw [settle_hang M hl, settle_hang M hlast]
        | succ left' =>
          rw [settle_jump M hl, settle_jump M hlast]
          exact ih n' (left', h) (Nat.lt_of_succ_lt_succ (lt_of_le_of_lt hfall hs))
    | _ =>
      rw [settle_stop M list (by exact fun _ => nofun)]
      dsimp only [Control.next, execList, exec, call]
      rw [settle_stop M _ (by exact fun _ => nofun)]

theorem call_after {r r' : State ε × Control ν} (h : call true r = call true r')
    (finals : State ε → State ε × Control ν) :
    call true (Control.after r finals) = call true (Control.after r' finals) := by
  have hcall : ∀ r : State ε × Control ν,
      call true (Control.after r finals) = call true (Control.after (call true r) finals) := by
    rintro ⟨s, c⟩
    cases c with
    | done =>
      rcases hf : finals s with ⟨s', c'⟩
      have hafter : ∀ c : Control ν, c.lost = false →
          Control.after (s, c) finals = (s', if c'.lost then c' else c) := fun c hc => by
        unfold Control.after
        dsimp only
        rw [hc, if_neg Bool.false_ne_true, hf]
      rw [show call true (s, Control.done) = (s, Control.return none) from rfl, hafter _ rfl,
        hafter _ rfl]
      cases c' <;> rfl
    | _ => rfl
  rw [hcall r, hcall r', h]

theorem exec_visitFunction (isVoid : Bool) (body : Code)
    (hvoid : isVoid = true → ∀ e, Code.return (some e) ∉ atoms body) (s : State ε) :
    call isVoid (exec M (visitFunction isVoid body) s) = call isVoid (exec M body s) := by
  cases body with
  | block list finalList =>
    dsimp only [visitFunction]
    split
    · rename_i subexpr hlast
      obtain ⟨pre, rfl⟩ := List.getLast?_eq_some_iff.mp hlast
      obtain rfl : subexpr = none := by
        cases subexpr with
        | none => rfl
        | some e =>
          refine absurd ?_ (hvoid rfl e)
          exact List.mem_append_left _ (mem_atomsList (List.mem_append_right _
            (List.mem_singleton_self _)) (List.mem_singleton_self _))
      rw [List.dropLast_concat, exec_block, exec_block]
      exact call_after (settle_last pre (s.1 + 1) pre s s.1.lt_succ_self) _
    · rfl
  | _ => rfl

end Last

/-! ## Where the condition holds -/

section Holds

variable {ε ν : Type} {M : Meaning ε ν}

theorem jumpsOut_of_flat {list : List Code}
    (hflat : ∀ l ∈ plainLabels list, l ∈ list.filterMap labelOf) : JumpsOut M list :=
  fun _ l hl hplain => behind_none.1 ((settle_fair M list _).2 l hl) (hflat l hplain)

theorem behind_unlabelled {list : List Code} (h : (atomsList list).filterMap labelOf = [])
    (l : ℕ) : behind l list = none :=
  behind_none.2 fun hl => by
    have hmem := (labels_sublist list).subset hl
    rw [h] at hmem
    exact nomatch hmem

theorem settle_unlabelled {list : List Code} (h : (atomsList list).filterMap labelOf = [])
    (r : State ε × Control ν) : settle M list r = r := by
  obtain ⟨s, c⟩ := r
  by_cases hstop : ∀ l, c ≠ .jump l
  · exact settle_stop M list hstop
  · push Not at hstop
    obtain ⟨l, rfl⟩ := hstop
    exact settle_none M (behind_unlabelled h l) s

theorem filterMap_append_nil {as bs : List Code} (h : (as ++ bs).filterMap labelOf = []) :
    as.filterMap labelOf = [] ∧ bs.filterMap labelOf = [] := by
  rw [List.filterMap_append] at h
  exact List.append_eq_nil_iff.mp h

theorem next_not_done {r : State ε × Control ν} {rest : State ε → State ε × Control ν}
    (h : r.2 = .done → ∀ s, (rest s).2 ≠ .done) : (Control.next r rest).2 ≠ .done := by
  by_cases hdone : r.2 = .done
  · have hr : r = (r.1, .done) := Prod.ext rfl hdone
    rw [hr]
    exact h hdone _
  · rw [next_stop hdone]
    exact hdone

mutual

theorem terminates_stops : ∀ c, doesExprTerminates c = true → (atoms c).filterMap labelOf = [] →
    ∀ s, (exec M c s).2 ≠ .done
  | .block list finalList, hends, hlabels, s => by
    have hlist := (filterMap_append_nil hlabels).1
    rw [exec_block, settle_unlabelled hlist]
    exact after_stop (any_stops list hends hlist s) _
  | .with list finalList, hends, hlabels, s => by
    have hwith : exec M (.with list finalList) s = exec M (.block list finalList) s := rfl
    have hlist := (filterMap_append_nil hlabels).1
    rw [hwith, exec_block, settle_unlabelled hlist]
    exact after_stop (any_stops list hends hlist s) _
  | .ifThenElse cond if_true (some if_false), hends, hlabels, s => by
    obtain ⟨ht, hf⟩ := Bool.and_eq_true_iff.mp hends
    obtain ⟨htl, hfl⟩ := filterMap_append_nil hlabels
    have hstopt := terminates_stops if_true ht htl
    have hstopf := terminates_stops if_false hf hfl
    unfold exec Meaning.choose act
    cases (M.leaf cond s.2).2 with
    | none => exact nofun
    | some v =>
      dsimp only
      split_ifs
      · exact hstopt _
      · exact hstopf _
  | .ifThenElse _ if_true none, hends, _, _ =>
    absurd (Bool.and_eq_true_iff.mp hends).2 Bool.false_ne_true

theorem any_stops : ∀ list, anyTerminates list = true → (atomsList list).filterMap labelOf = [] →
    ∀ s, (execList M list s).2 ≠ .done
  | c :: rest, hends, hlabels, s => by
    obtain ⟨hc, hrest⟩ := filterMap_append_nil hlabels
    rw [execList]
    rcases Bool.or_eq_true_iff.mp hends with hhere | hlater
    · exact next_not_done fun hdone => absurd hdone (here_stops c hhere hc s)
    · exact next_not_done fun _ => any_stops rest hlater hrest

theorem here_stops : ∀ c, terminatesHere c = true → (atoms c).filterMap labelOf = [] →
    ∀ s, (exec M c s).2 ≠ .done
  | .block list finalList, hends, hlabels, s => by
    have hlist := (filterMap_append_nil hlabels).1
    rw [exec_block, settle_unlabelled hlist]
    exact after_stop (any_stops list hends hlist s) _
  | .return subexpr, _, _, s => exit_stops (M := M) (c := .return subexpr) nofun trivial s
  | .break, _, _, _ => nofun
  | .continue, _, _, _ => nofun

end

theorem fold_unlabelled (S : Labels) {list : List Code}
    (h : (atomsList list).filterMap labelOf = []) :
    (atomsList (foldList S list)).filterMap labelOf = [] :=
  List.sublist_nil.mp (by
    rw [← h]
    exact (atoms_foldList S list).filterMap _)

mutual

theorem ifsExit_unlabelled : ∀ list, (atomsList list).filterMap labelOf = [] → IfsExit M list
  | [], _ => trivial
  | c :: rest, h => ⟨ifExits_unlabelled c (filterMap_append_nil h).1,
      ifsExit_unlabelled rest (filterMap_append_nil h).2⟩

theorem ifExits_unlabelled : ∀ c, (atoms c).filterMap labelOf = [] → IfExits M c
  | .ifThenElse .., h => fun hends => terminates_stops _ hends h
  | .block list _, h => fun _ => ifsExit_unlabelled list (filterMap_append_nil h).1
  | .with .., _ | .simple _, _ | .assume, _ | .return _, _ | .break, _ | .continue, _ | .label _, _
  | .goto _, _ | .gotoExpr _, _ => trivial

end

mutual

theorem plain_subset : ∀ list, plainLabels list ⊆ (atomsList list).filterMap labelOf
  | [] => fun _ h => h
  | c :: rest => by
    rw [plainLabels, atomsList, List.filterMap_append]
    exact List.append_subset.mpr
      ⟨List.Subset.trans (plain_subsetCode c) (List.subset_append_left _ _),
        List.Subset.trans (plain_subset rest) (List.subset_append_right _ _)⟩

theorem plain_subsetCode : ∀ c, plainLabel c ⊆ (atoms c).filterMap labelOf
  | .block list finalList => by
    rw [plainLabel, atoms, List.filterMap_append]
    split_ifs
    · exact List.Subset.trans (plain_subset list) (List.subset_append_left _ _)
    · exact List.nil_subset _
  | .label _ => fun _ h => h
  | .ifThenElse .. | .with .. | .simple _ | .assume | .return _ | .break | .continue | .goto _
  | .gotoExpr _ => List.nil_subset _

end

theorem plain_unlabelled {list : List Code} (h : (atomsList list).filterMap labelOf = []) :
    plainLabels list = [] := by
  have hsub := plain_subset list
  rw [h] at hsub
  exact List.subset_nil.mp hsub

mutual

theorem kept_unlabelled : ∀ (S : Labels) (c : Code), (atoms c).filterMap labelOf = [] → Kept M S c
  | S, .ifThenElse _ if_true if_false, h =>
    ⟨kept_unlabelled S if_true (filterMap_append_nil h).1,
      kept_unlabelledElse _ if_false (filterMap_append_nil h).2⟩
  | S, .block list finalList, h | S, .with list finalList, h =>
    ⟨kept_unlabelledList S list (filterMap_append_nil h).1,
      kept_unlabelledList _ finalList (filterMap_append_nil h).2,
      ifsExit_unlabelled _ (fold_unlabelled S (filterMap_append_nil h).1),
      jumpsOut_of_flat (by
        rw [plain_unlabelled (fold_unlabelled S (filterMap_append_nil h).1)]
        exact nofun)⟩
  | _, .simple _, _ | _, .assume, _ | _, .return _, _ | _, .break, _ | _, .continue, _
  | _, .label _, _ | _, .goto _, _ | _, .gotoExpr _, _ => trivial

theorem kept_unlabelledElse : ∀ (S : Labels) (c : Option Code),
    (atomsElse c).filterMap labelOf = [] → KeptElse M S c
  | _, none, _ => trivial
  | S, some c, h => kept_unlabelled S c h

theorem kept_unlabelledList : ∀ (S : Labels) (list : List Code),
    (atomsList list).filterMap labelOf = [] → KeptList M S list
  | _, [], _ => trivial
  | S, c :: rest, h => ⟨kept_unlabelled S c (filterMap_append_nil h).1,
      kept_unlabelledList _ rest (filterMap_append_nil h).2⟩

end

end Holds

/-! ## Whole functions -/

/-- A function of which little is left. -/
def tidy : Function where
  isVoid := true
  body := .block
    [.ifThenElse 0 (.block [.goto 7] []) none, .block [.simple 1, .assume] [], .return none,
      .simple 2, .label 7, .label 8, .with [.simple 3] [], .return none] [.simple 4]
  labels_nodup := by decide
  finals_quiet := by simp [QuietFinals, QuietList, QuietElse, atomsList, atoms, quiet]
  void_returns := by simp [atoms, atomsElse, atomsList]

/-- Leaves that leave their own mark, all true. -/
def marks : Meaning ℕ ℕ where
  leaf id _ := ([id], some 1)
  null _ := ([], none)
  moved v _ := ([], some v)
  truth v := v != 0
  index v := v

theorem tidy_kept : Kept marks ⟨[], false⟩ tidy.body := by
  refine ⟨⟨kept_unlabelled _ _ rfl, kept_unlabelled _ _ rfl, trivial, trivial, trivial, trivial,
    kept_unlabelled _ _ rfl, trivial, trivial⟩, kept_unlabelledList _ _ rfl, ?_, ?_⟩
  · exact ⟨ifExits_unlabelled _ rfl, ifExits_unlabelled _ rfl, trivial, trivial, trivial, trivial,
      trivial, trivial, trivial⟩
  · exact jumpsOut_of_flat (by decide)

/-- An `if` both of whose branches return, but for a jump over one of the returns; and more. -/
def overReturn : Function where
  isVoid := true
  body := .block
    [.ifThenElse 0
      (.block [.ifThenElse 1 (.block [.goto 7] []) none, .return none, .label 7, .simple 2] [])
      (some (.block [.return none] [])),
    .simple 3] []
  labels_nodup := by decide
  finals_quiet := by simp [QuietFinals, QuietList, QuietElse, atomsList]
  void_returns := by simp [atoms, atomsElse, atomsList]

end DaScript.BlockFolding

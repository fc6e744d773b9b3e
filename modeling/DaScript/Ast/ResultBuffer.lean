import DaScript.Ast.Statements

/-!
# Ast/ResultBuffer — a local variable in the place of the result

A function that returns a structure, a tuple or a fixed array writes it into memory of its caller.
`VarCMRes` of `ast_allocate_stack.cpp` puts the variable that is returned there (`aliasCMRES`), and
`AllocateStack` lets `return Make(..)` and `return f(..)` write there as they go.

What expressions do is a program that reads and writes cells of variables, and cells of where its
result goes (`Prog`).
-/

namespace DaScript.ResultBuffer

/-! ## Programs -/

/-- **What an expression does**, or a call all of it: it gets and sets cells of variables, puts and
looks at cells of its result, and leaves effects, or it panics; a condition is true or not. -/
inductive Prog (ε ν : Type)
  | done (value : Bool)
  | panic
  | get (v c : ℕ) (rest : ν → Prog ε ν)
  | set (v c : ℕ) (value : ν) (rest : Prog ε ν)
  | put (c : ℕ) (value : ν) (rest : Prog ε ν)
  | look (c : ℕ) (rest : ν → Prog ε ν)
  | effect (e : ε) (rest : Prog ε ν)

variable {ε ν : Type}

/-- The cells of variables, the memory for the result, and the effects so far, the last first. -/
structure State (ε ν : Type) where
  env : ℕ → ℕ → ν
  result : ℕ → ν
  effects : List ε

/-- A cell of a variable, where one of them may be in the place of the result. -/
def State.get (aliased : Option ℕ) (s : State ε ν) (v c : ℕ) : ν :=
  if aliased = some v then s.result c else s.env v c

def State.set (aliased : Option ℕ) (s : State ε ν) (v c : ℕ) (value : ν) : State ε ν :=
  if aliased = some v then { s with result := Function.update s.result c value }
  else { s with env := Function.update s.env v (Function.update (s.env v) c value) }

/-- A run, whose result goes to the result of the function, or into memory of its own. -/
def Prog.run (aliased : Option ℕ) (direct : Bool) :
    Prog ε ν → State ε ν → (ℕ → ν) → State ε ν × (ℕ → ν) × Option Bool
  | .done value, s, own => (s, own, some value)
  | .panic, s, own => (s, own, none)
  | .get v c rest, s, own => (rest (s.get aliased v c)).run aliased direct s own
  | .set v c value rest, s, own => rest.run aliased direct (s.set aliased v c value) own
  | .put c value rest, s, own =>
    if direct then rest.run aliased direct { s with result := Function.update s.result c value } own
    else rest.run aliased direct s (Function.update own c value)
  | .look c rest, s, own => (rest (if direct then s.result c else own c)).run aliased direct s own
  | .effect e rest, s, own => rest.run aliased direct { s with effects := e :: s.effects } own

/-! ## Functions -/

/-- What is returned; `cmresAlias` is what keeps a call from writing as it goes. -/
inductive Ret (ε ν : Type)
  | var (v : ℕ)
  | makeLocal (p : Prog ε ν)
  | call (p : Prog ε ν) (cmresAlias : Bool)
  | invoke (p : Prog ε ν) (cmresAlias : Bool)

/-- **A statement.**  A declaration is a program too, and so are the iterators of `for`. -/
inductive Stmt (ε ν : Type)
  | run (p : Prog ε ν)
  | ifThenElse (cond : Prog ε ν) (if_true if_false : Stmt ε ν)
  | block (list finalList : List (Stmt ε ν))
  | while (cond : Prog ε ν) (body : Stmt ε ν)
  | for (next : Prog ε ν) (body : Stmt ε ν)
  | return (r : Ret ε ν)
  | break
  | continue

def Stmt.hasFinally : Stmt ε ν → Bool
  | .block _ finalList => !finalList.isEmpty
  | _ => false

/-! ## `VarCMRes` -/

section VarCMRes

/-- What is known of variables. -/
structure Variable where
  local_ : Bool
  inScope : Bool
  ref : Bool

mutual

/-- The returns of a statement as they are visited, and whether a finally list is around. -/
def Stmt.returns (finals : Bool) : Stmt ε ν → List (Ret ε ν × Bool)
  | .ifThenElse _ if_true if_false => if_true.returns finals ++ if_false.returns finals
  | .block list finalList =>
    returnsAll (finals || !finalList.isEmpty) list ++
      returnsAll (finals || !finalList.isEmpty) finalList
  | .while _ body => body.returns finals
  | .for _ body => body.returns finals
  | .return r => [(r, finals)]
  | .run _ => []
  | .break => []
  | .continue => []

def returnsAll (finals : Bool) : List (Stmt ε ν) → List (Ret ε ν × Bool)
  | [] => []
  | s :: rest => s.returns finals ++ returnsAll finals rest

end

/-- The visitor's own variables. -/
structure VarCMRes where
  cmresVAR : Option ℕ
  failedToCMRES : Bool

variable (table : ℕ → Variable)

/-- `return v` -/
def VarCMRes.local (st : VarCMRes) (v : ℕ) : VarCMRes :=
  if (table v).inScope || (table v).ref then { st with failedToCMRES := true }
  else
    match st.cmresVAR with
    | none => { st with cmresVAR := some v }
    | some w => if w = v then st else { st with failedToCMRES := true }

/-- `preVisit(ExprReturn *)` -/
def VarCMRes.preVisit (st : VarCMRes) (r : Ret ε ν × Bool) : VarCMRes :=
  if st.failedToCMRES then st
  else
    match r with
    | (.var v, finals) =>
      if (table v).local_ then
        { st.local table v with failedToCMRES := (st.local table v).failedToCMRES || finals }
      else st
    | _ => st

/-- `aliasCMRES`: the variable that is put in the place of the result. -/
def aliasCMRES (body : Stmt ε ν) : Option ℕ :=
  let st := (body.returns false).foldl (VarCMRes.preVisit table) ⟨none, false⟩
  if st.failedToCMRES then none else st.cmresVAR

end VarCMRes

/-! ## Runs -/

section Exec

variable (aliased : Option ℕ) (routed : Bool) (own : ℕ → ν) (turns : ℕ)

/-- The result is written as a program goes, or copied when it is through. -/
def write (direct : Bool) (p : Prog ε ν) (s : State ε ν) : State ε ν × Control ℕ :=
  match p.run aliased direct s own with
  | (s, _, none) => (s, .panic)
  | (s, own, some _) => (if direct then s else { s with result := own }, .return none)

/-- `preVisit(ExprReturn *)` of `AllocateStack`, and what the return then does.  It is a `return`
with a variable, or without. -/
def giveBack : Ret ε ν → State ε ν → State ε ν × Control ℕ
  | .var v, s => ({ s with result := s.get aliased v }, .return (some v))
  | .makeLocal p, s => write aliased own routed p s
  | .call p cmresAlias, s => write aliased own (routed && !cmresAlias) p s
  | .invoke p cmresAlias, s => write aliased own (routed && !cmresAlias) p s

/-- A condition and what comes of it. -/
def choose (cond : Prog ε ν) (s : State ε ν) (t f : State ε ν → State ε ν × Control ℕ) :
    State ε ν × Control ℕ :=
  match cond.run aliased false s own with
  | (s, _, none) => (s, .panic)
  | (s, _, some b) => if b then t s else f s

/-- With a finally list behind its body the condition of `while` is asked once more. -/
def leave (asks : Bool) (cond : Prog ε ν) (s : State ε ν) (c : Control ℕ) :
    State ε ν × Control ℕ :=
  if asks then
    match cond.run aliased false s own with
    | (s, _, none) => (s, .panic)
    | (s, _, some _) => (s, c)
  else (s, c)

/-- The turns of a loop. -/
def whileLoop (asks : Bool) (cond : Prog ε ν) (body : State ε ν → State ε ν × Control ℕ) :
    ℕ → State ε ν → State ε ν × Control ℕ
  | 0, s => (s, .hang)
  | turns + 1, s =>
    choose aliased own cond s (fun s =>
      match body s with
      | (s, .done) | (s, .continue) => whileLoop asks cond body turns s
      | (s, .break) => leave aliased own asks cond s .done
      | (s, .return v) => leave aliased own asks cond s (.return v)
      | r => r) fun s => (s, .done)

mutual

/-- **A run**; loops get `turns`. -/
def exec : Stmt ε ν → State ε ν → State ε ν × Control ℕ
  | .run p, s => choose aliased own p s (fun s => (s, .done)) fun s => (s, .done)
  | .ifThenElse cond if_true if_false, s =>
    choose aliased own cond s (fun s => exec if_true s) fun s => exec if_false s
  | .block list finalList, s => Control.after (execList list s) fun s => execFinals finalList s
  | .while cond body, s =>
    whileLoop aliased own body.hasFinally cond (fun s => exec body s) turns s
  | .for next body, s => whileLoop aliased own false next (fun s => exec body s) turns s
  | .return r, s => giveBack aliased routed own r s
  | .break, s => (s, .break)
  | .continue, s => (s, .continue)

def execList : List (Stmt ε ν) → State ε ν → State ε ν × Control ℕ
  | [], s => (s, .done)
  | first :: rest, s => Control.next (exec first s) fun s => execList rest s

def execFinals : List (Stmt ε ν) → State ε ν → State ε ν × Control ℕ
  | [], s => (s, .done)
  | first :: rest, s => Control.nextFinal (exec first s) fun s => execFinals rest s

end

end Exec

/-! ## What keeps the variable and the result apart -/

section Kept

variable (x size : ℕ)

/-- **A direct return does not need `x` where it has written**: no cell of `x` is read or set when
that of the result has been put.  It puts the whole result, and looks at what it has put. -/
def Prog.Kept : List ℕ → Prog ε ν → State ε ν → (ℕ → ν) → Prop
  | written, .done _, _, _ => ∀ c < size, c ∈ written
  | _, .panic, _, _ => True
  | written, .get v c rest, s, own =>
    (v = x → c ∉ written) ∧ (rest (s.env v c)).Kept written s own
  | written, .set v c value rest, s, own =>
    (v = x → c ∉ written) ∧ rest.Kept written (s.set none v c value) own
  | written, .put c value rest, s, own => rest.Kept (c :: written) s (Function.update own c value)
  | written, .look c rest, s, own => c ∈ written ∧ (rest (own c)).Kept written s own
  | written, .effect e rest, s, own => rest.Kept written { s with effects := e :: s.effects } own

/-- It does not touch `x`. -/
def Prog.Avoids : Prog ε ν → Prop
  | .done _ => True
  | .panic => True
  | .get v _ rest => v ≠ x ∧ ∀ value, (rest value).Avoids
  | .set v _ _ rest => v ≠ x ∧ rest.Avoids
  | .put _ _ rest => rest.Avoids
  | .look _ rest => ∀ value, (rest value).Avoids
  | .effect _ rest => rest.Avoids

mutual

/-- A statement of a finally list, which has no `return`, does not touch `x`. -/
def Stmt.Avoids : Stmt ε ν → Prop
  | .run p => p.Avoids x
  | .ifThenElse cond if_true if_false => cond.Avoids x ∧ if_true.Avoids ∧ if_false.Avoids
  | .block list finalList => AvoidsAll list ∧ AvoidsAll finalList
  | .while cond body => cond.Avoids x ∧ body.Avoids
  | .for next body => next.Avoids x ∧ body.Avoids
  | .return _ => False
  | .break => True
  | .continue => True

def AvoidsAll : List (Stmt ε ν) → Prop
  | [] => True
  | s :: rest => s.Avoids ∧ AvoidsAll rest

end

/-- A return was met. -/
def returned : Control ℕ → Bool
  | .return _ => true
  | _ => false

/-- A return of something else than `x`. -/
def returnedOther (c : Control ℕ) : Prop := returned c = true ∧ c ≠ .return (some x)

variable (own : ℕ → ν) (turns : ℕ)

/-- What is returned keeps `x` and the result apart, if it is written as it goes. -/
def Ret.Kept : Ret ε ν → State ε ν → Prop
  | .var _, _ => True
  | .makeLocal p, s => p.Kept x size [] s own
  | .call p cmresAlias, s => cmresAlias = false → p.Kept x size [] s own
  | .invoke p cmresAlias, s => cmresAlias = false → p.Kept x size [] s own

/-- The turns of a loop. -/
def KeptTurns (asks : Bool) (cond : Prog ε ν) (body : State ε ν → State ε ν × Control ℕ)
    (kept : State ε ν → Prop) : ℕ → State ε ν → Prop
  | 0, _ => True
  | turns + 1, s =>
    match cond.run none false s own with
    | (s, _, some true) => kept s ∧
      match body s with
      | (s, .done) | (s, .continue) => KeptTurns asks cond body kept turns s
      | (_, .return v) => v ≠ some x → asks = true → cond.Avoids x
      | _ => True
    | _ => True

mutual

/-- **A run keeps `x` and the result apart**: the return that is met does, and after a return of
something else than `x` no finally list touches `x`. -/
def Stmt.Kept : Stmt ε ν → State ε ν → Prop
  | .ifThenElse cond if_true if_false, s =>
    match cond.run none false s own with
    | (_, _, none) => True
    | (s, _, some b) => if b then if_true.Kept s else if_false.Kept s
  | .block list finalList, s =>
    KeptAll list s ∧
      ((execList none false own turns list s).2.lost = false →
        (¬returnedOther x (execList none false own turns list s).2 →
          KeptFinals finalList (execList none false own turns list s).1) ∧
        (returnedOther x (execList none false own turns list s).2 → AvoidsAll x finalList))
  | .while cond body, s =>
    KeptTurns x own body.hasFinally cond (exec none false own turns body) (fun s => body.Kept s)
      turns s
  | .for next body, s =>
    KeptTurns x own false next (exec none false own turns body) (fun s => body.Kept s) turns s
  | .return r, s => r.Kept x size own s
  | _, _ => True

def KeptAll : List (Stmt ε ν) → State ε ν → Prop
  | [], _ => True
  | first :: rest, s => first.Kept s ∧ ((exec none false own turns first s).2 = .done →
      KeptAll rest (exec none false own turns first s).1)

/-- A finally list that runs without a return before it; it has none itself. -/
def KeptFinals : List (Stmt ε ν) → State ε ν → Prop
  | [], _ => True
  | first :: rest, s => first.Kept s ∧ returned (exec none false own turns first s).2 = false ∧
      ((exec none false own turns first s).2.lost = false →
        KeptFinals rest (exec none false own turns first s).1)

end

end Kept

end DaScript.ResultBuffer

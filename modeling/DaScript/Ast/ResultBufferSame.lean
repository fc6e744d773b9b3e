import DaScript.Ast.ResultBuffer

/-!
# Ast/ResultBufferSame — what is returned, with a variable in the place of the result

Until a return is met the two runs differ only in where `x` is (`Before`); then its place holds the
result, and `x` is gone (`After`).  A return that writes as it goes is between the two, cell by cell
(`Midway`).  No finally list comes after `return x`: that is what `VarCMRes` looks for.
-/

namespace DaScript.ResultBuffer

variable {ε ν : Type} {x size : ℕ}

/-! ## Two runs -/

/-- `x` is in the place of the result, in the first state. -/
structure Before (x : ℕ) (s s' : State ε ν) : Prop where
  effects : s.effects = s'.effects
  env : ∀ v, v ≠ x → s.env v = s'.env v
  cells : ∀ c, s.result c = s'.env x c

/-- The result is there. -/
structure After (x size : ℕ) (s s' : State ε ν) : Prop where
  effects : s.effects = s'.effects
  env : ∀ v, v ≠ x → s.env v = s'.env v
  result : ∀ c < size, s.result c = s'.result c

/-- Some cells of the result are written, in the second run into memory of its own. -/
structure Midway (x : ℕ) (written : List ℕ) (s s' : State ε ν) (own : ℕ → ν) : Prop where
  effects : s.effects = s'.effects
  env : ∀ v, v ≠ x → s.env v = s'.env v
  cells : ∀ c, c ∉ written → s.result c = s'.env x c
  put : ∀ c ∈ written, s.result c = own c

section Progs

variable {s s' : State ε ν} {own : ℕ → ν}

theorem get_some (s : State ε ν) (c : ℕ) : s.get (some x) x c = s.result c := if_pos rfl

theorem get_other (s : State ε ν) {v : ℕ} (hv : v ≠ x) (c : ℕ) :
    s.get (some x) v c = s.env v c := if_neg fun h => hv (Option.some.inj h).symm

theorem set_some (s : State ε ν) (c : ℕ) (value : ν) :
    s.set (some x) x c value = { s with result := Function.update s.result c value } := if_pos rfl

theorem set_other (s : State ε ν) {v : ℕ} (hv : v ≠ x) (c : ℕ) (value : ν) :
    s.set (some x) v c value = s.set none v c value :=
  (if_neg fun h => hv (Option.some.inj h).symm).trans (if_neg (Option.some_ne_none v).symm).symm

theorem env_set {v : ℕ} (henv : ∀ w, w ≠ x → s.env w = s'.env w) (hv : v ≠ x) (c : ℕ)
    (value : ν) :
    ∀ w, w ≠ x → (s.set none v c value).env w = (s'.set none v c value).env w := by
  intro w hw
  change Function.update s.env v _ w = Function.update s'.env v _ w
  by_cases hwv : w = v
  · rw [hwv, Function.update_self, Function.update_self, henv v hv]
  · rw [Function.update_of_ne hwv, Function.update_of_ne hwv, henv w hw]

theorem env_set_self (s : State ε ν) {v : ℕ} (hv : v ≠ x) (c : ℕ) (value : ν) :
    (s.set none v c value).env x = s.env x := Function.update_of_ne (Ne.symm hv) _ _

theorem Before.set (h : Before x s s') (v c : ℕ) (value : ν) :
    Before x (s.set (some x) v c value) (s'.set none v c value) := by
  by_cases hv : v = x
  · subst hv
    rw [set_some]
    refine ⟨h.effects, fun w hw => ?_, fun d => ?_⟩
    · exact (h.env w hw).trans (Function.update_of_ne hw _ _).symm
    · change Function.update s.result c value d = Function.update s'.env v _ v d
      rw [Function.update_self]
      by_cases hd : d = c
      · rw [hd, Function.update_self, Function.update_self]
      · rw [Function.update_of_ne hd, Function.update_of_ne hd, h.cells d]
  · rw [set_other s hv]
    exact ⟨h.effects, env_set h.env hv c value,
      fun d => (h.cells d).trans (congrFun (env_set_self s' hv c value).symm d)⟩

theorem Before.get (h : Before x s s') (v c : ℕ) :
    s.get (some x) v c = s'.get none v c := by
  by_cases hv : v = x
  · subst hv
    exact (get_some s c).trans (h.cells c)
  · exact (get_other s hv c).trans (congrFun (h.env v hv) c)

theorem run_before (p : Prog ε ν) (h : Before x s s') (own : ℕ → ν) :
    ∃ u u' o value, p.run (some x) false s own = (u, o, value) ∧
      p.run none false s' own = (u', o, value) ∧ Before x u u' := by
  induction p generalizing s s' own with
  | done value => exact ⟨s, s', own, some value, rfl, rfl, h⟩
  | panic => exact ⟨s, s', own, none, rfl, rfl, h⟩
  | get v c rest ih =>
    rw [Prog.run, Prog.run, h.get]
    exact ih _ h own
  | set v c value rest ih => exact ih (h.set v c value) own
  | put c value rest ih => exact ih h _
  | look c rest ih => exact ih _ h own
  | effect e rest ih =>
    have heffect : Before x { s with effects := e :: s.effects }
        { s' with effects := e :: s'.effects } :=
      ⟨congrArg (List.cons e) h.effects, h.env, h.cells⟩
    exact ih heffect own

theorem run_after (p : Prog ε ν) (hp : p.Avoids x) (h : After x size s s') (own : ℕ → ν) :
    ∃ u u' o value, p.run (some x) false s own = (u, o, value) ∧
      p.run none false s' own = (u', o, value) ∧ After x size u u' := by
  induction p generalizing s s' own with
  | done value => exact ⟨s, s', own, some value, rfl, rfl, h⟩
  | panic => exact ⟨s, s', own, none, rfl, rfl, h⟩
  | get v c rest ih =>
    obtain ⟨hv, hrest⟩ := hp
    rw [Prog.run, Prog.run, get_other s hv, h.env v hv]
    exact ih _ (hrest _) h own
  | set v c value rest ih =>
    obtain ⟨hv, hrest⟩ := hp
    rw [Prog.run, Prog.run, set_other s hv]
    have hset : After x size (s.set none v c value) (s'.set none v c value) :=
      ⟨h.effects, env_set h.env hv c value, h.result⟩
    exact ih hrest hset own
  | put c value rest ih => exact ih hp h _
  | look c rest ih => exact ih _ (hp _) h own
  | effect e rest ih =>
    have heffect : After x size { s with effects := e :: s.effects }
        { s' with effects := e :: s'.effects } :=
      ⟨congrArg (List.cons e) h.effects, h.env, h.result⟩
    exact ih hp heffect own

theorem run_direct (p : Prog ε ν) {written : List ℕ} (own₀ : ℕ → ν)
    (hp : p.Kept x size written s' own) (h : Midway x written s s' own) :
    (p.run (some x) true s own₀).2.2 = (p.run none false s' own).2.2 ∧
      (p.run (some x) true s own₀).1.effects = (p.run none false s' own).1.effects ∧
      ((p.run none false s' own).2.2.isSome →
        After x size (p.run (some x) true s own₀).1
          { (p.run none false s' own).1 with result := (p.run none false s' own).2.1 }) := by
  induction p generalizing s s' own written with
  | done value =>
    exact ⟨rfl, h.effects, fun _ => ⟨h.effects, h.env, fun c hc => h.put c (hp c hc)⟩⟩
  | panic => exact ⟨rfl, h.effects, fun hsome => by cases hsome⟩
  | get v c rest ih =>
    obtain ⟨hv, hrest⟩ := hp
    have hget : s.get (some x) v c = s'.env v c := by
      by_cases hvx : v = x
      · subst hvx
        exact (get_some s c).trans (h.cells c (hv rfl))
      · exact (get_other s hvx c).trans (congrFun (h.env v hvx) c)
    rw [Prog.run, Prog.run, hget]
    exact ih _ hrest h
  | set v c value rest ih =>
    obtain ⟨hv, hrest⟩ := hp
    refine ih hrest ?_
    by_cases hvx : v = x
    · subst hvx
      rw [set_some]
      refine ⟨h.effects, fun w hw => (h.env w hw).trans (Function.update_of_ne hw _ _).symm,
        fun d hd => ?_, fun d hd => ?_⟩
      · change Function.update s.result c value d = Function.update s'.env v _ v d
        rw [Function.update_self]
        by_cases hdc : d = c
        · rw [hdc, Function.update_self, Function.update_self]
        · rw [Function.update_of_ne hdc, Function.update_of_ne hdc, h.cells d hd]
      · have hdc : d ≠ c := by
          rintro rfl
          exact hv rfl hd
        exact (Function.update_of_ne hdc _ _).trans (h.put d hd)
    · rw [set_other s hvx]
      exact ⟨h.effects, env_set h.env hvx c value,
        fun d hd => (h.cells d hd).trans (congrFun (env_set_self s' hvx c value).symm d), h.put⟩
  | put c value rest ih =>
    refine ih hp ⟨h.effects, h.env, fun d hd => ?_, fun d hd => ?_⟩
    · obtain ⟨hdc, hd⟩ := not_or.mp (List.mem_cons.not.mp hd)
      exact (Function.update_of_ne hdc _ _).trans (h.cells d hd)
    · change Function.update s.result c value d = Function.update own c value d
      by_cases hdc : d = c
      · rw [hdc, Function.update_self, Function.update_self]
      · rw [Function.update_of_ne hdc, Function.update_of_ne hdc,
          h.put d ((List.mem_cons.mp hd).resolve_left hdc)]
  | look c rest ih =>
    obtain ⟨hc, hrest⟩ := hp
    rw [Prog.run, Prog.run, if_pos rfl, if_neg Bool.false_ne_true, h.put c hc]
    exact ih _ hrest h
  | effect e rest ih =>
    exact ih hp ⟨congrArg (List.cons e) h.effects, h.env, h.cells, h.put⟩

end Progs

/-! ## Statements after a return -/

section Afterwards

variable {own : ℕ → ν} {turns : ℕ}

/-- Two runs that leave the result alone. -/
def Alike (x size : ℕ) (run run' : State ε ν → State ε ν × Control ℕ) : Prop :=
  ∀ s s', After x size s s' → (run s).2 = (run' s').2 ∧ After x size (run s).1 (run' s').1

theorem choose_after {cond : Prog ε ν} (hcond : cond.Avoids x)
    {t t' f f' : State ε ν → State ε ν × Control ℕ} (ht : Alike x size t t')
    (hf : Alike x size f f') :
    Alike x size (fun s => choose (some x) own cond s t f)
      fun s => choose none own cond s t' f' := by
  intro s s' h
  obtain ⟨u, u', o, value, hu, hu', hafter⟩ := run_after cond hcond h own
  dsimp only [choose]
  rw [hu, hu']
  cases value with
  | none => exact ⟨rfl, hafter⟩
  | some b =>
    cases b with
    | true => exact ht _ _ hafter
    | false => exact hf _ _ hafter

theorem leave_after {asks : Bool} {cond : Prog ε ν} (hcond : asks = true → cond.Avoids x)
    (c : Control ℕ) :
    Alike x size (fun s => leave (some x) own asks cond s c)
      fun s => leave none own asks cond s c := by
  intro s s' h
  unfold leave
  cases asks with
  | false => exact ⟨rfl, h⟩
  | true =>
    obtain ⟨u, u', o, value, hu, hu', hafter⟩ := run_after cond (hcond rfl) h own
    dsimp only
    rw [hu, hu']
    cases value <;> exact ⟨rfl, hafter⟩

theorem whileLoop_after {asks : Bool} {cond : Prog ε ν} (hcond : cond.Avoids x)
    {body body' : State ε ν → State ε ν × Control ℕ} (hbody : Alike x size body body')
    (turns : ℕ) :
    Alike x size (whileLoop (some x) own asks cond body turns)
      (whileLoop none own asks cond body' turns) := by
  induction turns with
  | zero => exact fun s s' h => ⟨rfl, h⟩
  | succ turns ih =>
    refine choose_after hcond (fun s s' h => ?_) fun s s' h => ⟨rfl, h⟩
    obtain ⟨hcontrol, hafter⟩ := hbody s s' h
    generalize body s = r, body' s' = r' at hcontrol hafter
    obtain ⟨u, c⟩ := r
    obtain ⟨u', c'⟩ := r'
    obtain rfl : c = c' := hcontrol
    cases c with
    | done => exact ih u u' hafter
    | «continue» => exact ih u u' hafter
    | «break» => exact leave_after (fun _ => hcond) _ u u' hafter
    | «return» v => exact leave_after (fun _ => hcond) _ u u' hafter
    | jump label => exact ⟨rfl, hafter⟩
    | panic => exact ⟨rfl, hafter⟩
    | hang => exact ⟨rfl, hafter⟩

theorem Alike.next {first first' rest rest' : State ε ν → State ε ν × Control ℕ}
    (hfirst : Alike x size first first') (hrest : Alike x size rest rest') :
    Alike x size (fun s => Control.next (first s) rest) fun s => Control.next (first' s) rest' := by
  intro s s' h
  obtain ⟨hcontrol, hafter⟩ := hfirst s s' h
  dsimp only
  generalize first s = r, first' s' = r' at hcontrol hafter
  obtain ⟨u, c⟩ := r
  obtain ⟨u', c'⟩ := r'
  obtain rfl : c = c' := hcontrol
  cases c with
  | done => exact hrest u u' hafter
  | _ => exact ⟨rfl, hafter⟩

theorem Alike.nextFinal {first first' rest rest' : State ε ν → State ε ν × Control ℕ}
    (hfirst : Alike x size first first') (hrest : Alike x size rest rest') :
    Alike x size (fun s => Control.nextFinal (first s) rest)
      fun s => Control.nextFinal (first' s) rest' := by
  intro s s' h
  obtain ⟨hcontrol, hafter⟩ := hfirst s s' h
  dsimp only
  generalize first s = r, first' s' = r' at hcontrol hafter
  obtain ⟨u, c⟩ := r
  obtain ⟨u', c'⟩ := r'
  obtain rfl : c = c' := hcontrol
  rw [Control.nextFinal, Control.nextFinal]
  split
  · exact ⟨rfl, hafter⟩
  · exact hrest u u' hafter

theorem Alike.after {list list' finals finals' : State ε ν → State ε ν × Control ℕ}
    (hlist : Alike x size list list') (hfinals : Alike x size finals finals') :
    Alike x size (fun s => Control.after (list s) finals)
      fun s => Control.after (list' s) finals' := by
  intro s s' h
  obtain ⟨hcontrol, hafter⟩ := hlist s s' h
  dsimp only
  generalize list s = r, list' s' = r' at hcontrol hafter
  obtain ⟨u, c⟩ := r
  obtain ⟨u', c'⟩ := r'
  obtain rfl : c = c' := hcontrol
  rw [Control.after, Control.after]
  split
  · exact ⟨rfl, hafter⟩
  · obtain ⟨hlast, hend⟩ := hfinals u u' hafter
    generalize finals u = q, finals' u' = q' at hlast hend
    obtain ⟨w, d⟩ := q
    obtain ⟨w', d'⟩ := q'
    obtain rfl : d = d' := hlast
    exact ⟨rfl, hend⟩

mutual

theorem exec_after (s : Stmt ε ν) (hs : s.Avoids x) :
    Alike x size (exec (some x) true own turns s) (exec none false own turns s) := by
  cases s with
  | run p => exact choose_after hs (fun t t' h => ⟨rfl, h⟩) fun t t' h => ⟨rfl, h⟩
  | ifThenElse cond if_true if_false =>
    exact choose_after hs.1 (exec_after if_true hs.2.1) (exec_after if_false hs.2.2)
  | block list finalList =>
    exact (execList_after list hs.1).after (execFinals_after finalList hs.2)
  | «while» cond body => exact whileLoop_after hs.1 (exec_after body hs.2) turns
  | «for» next body => exact whileLoop_after hs.1 (exec_after body hs.2) turns
  | «return» r => exact absurd hs not_false
  | «break» => exact fun t t' h => ⟨rfl, h⟩
  | «continue» => exact fun t t' h => ⟨rfl, h⟩

theorem execList_after (list : List (Stmt ε ν)) (hlist : AvoidsAll x list) :
    Alike x size (execList (some x) true own turns list) (execList none false own turns list) := by
  cases list with
  | nil => exact fun t t' h => ⟨rfl, h⟩
  | cons s rest => exact (exec_after s hlist.1).next (execList_after rest hlist.2)

theorem execFinals_after (list : List (Stmt ε ν)) (hlist : AvoidsAll x list) :
    Alike x size (execFinals (some x) true own turns list)
      (execFinals none false own turns list) := by
  cases list with
  | nil => exact fun t t' h => ⟨rfl, h⟩
  | cons s rest => exact (exec_after s hlist.1).nextFinal (execFinals_after rest hlist.2)

end

end Afterwards

/-! ## `VarCMRes` -/

section Marks

variable {table : ℕ → Variable}

theorem preVisit_failed {st : VarCMRes} (h : st.failedToCMRES = true) (r : Ret ε ν × Bool) :
    st.preVisit table r = st := if_pos h

theorem foldl_failed {st : VarCMRes} (h : st.failedToCMRES = true) (rs : List (Ret ε ν × Bool)) :
    (rs.foldl (VarCMRes.preVisit table) st).failedToCMRES = true := by
  induction rs with
  | nil => exact h
  | cons r rs ih => rwa [List.foldl_cons, preVisit_failed h]

theorem local_cmresVAR {st : VarCMRes} {v w : ℕ} (h : (st.local table v).cmresVAR = some w) :
    st.cmresVAR = some w ∨ v = w := by
  unfold VarCMRes.local at h
  split at h
  next => exact .inl h
  next =>
    split at h
    next => exact .inr (Option.some.inj h)
    next hvar =>
      split at h
      · exact .inl h
      · exact .inl h

theorem preVisit_ok {st : VarCMRes} (r : Ret ε ν × Bool)
    (h : (st.preVisit table r).failedToCMRES = false) :
    (∀ w, (st.preVisit table r).cmresVAR = some w →
        st.cmresVAR = some w ∨ (table w).local_ = true) ∧
      ∀ v, r.1 = .var v → (table v).local_ = true → r.2 = false := by
  obtain ⟨r, finals⟩ := r
  unfold VarCMRes.preVisit at h ⊢
  split at h
  next hfailed =>
    rw [hfailed] at h
    cases h
  next hfailed =>
    rw [if_neg hfailed]
    cases r with
    | makeLocal p => exact ⟨fun w hw => .inl hw, fun v hv => by cases hv⟩
    | call p cmresAlias => exact ⟨fun w hw => .inl hw, fun v hv => by cases hv⟩
    | invoke p cmresAlias => exact ⟨fun w hw => .inl hw, fun v hv => by cases hv⟩
    | var v =>
      dsimp only at h ⊢
      cases hlocal : (table v).local_ with
      | false =>
        refine ⟨fun w hw => .inl hw, fun u hu hlocal' => ?_⟩
        obtain rfl : v = u := Ret.var.inj hu
        rw [hlocal] at hlocal'
        cases hlocal'
      | true =>
        rw [hlocal, if_pos rfl] at h
        rw [if_pos rfl]
        refine ⟨fun w hw => ?_, fun u hu _ => (Bool.or_eq_false_iff.mp h).2⟩
        have hcases : st.cmresVAR = some w ∨ v = w := local_cmresVAR hw
        rcases hcases with hsome | rfl
        · exact .inl hsome
        · exact .inr hlocal

theorem foldl_ok (rs : List (Ret ε ν × Bool)) {st : VarCMRes}
    (h : (rs.foldl (VarCMRes.preVisit table) st).failedToCMRES = false) :
    (∀ w, (rs.foldl (VarCMRes.preVisit table) st).cmresVAR = some w →
        st.cmresVAR = some w ∨ (table w).local_ = true) ∧
      ∀ r ∈ rs, ∀ v, r.1 = .var v → (table v).local_ = true → r.2 = false := by
  induction rs generalizing st with
  | nil => exact ⟨fun w hw => .inl hw, fun r hr => absurd hr List.not_mem_nil⟩
  | cons r rs ih =>
    rw [List.foldl_cons] at h ⊢
    have hfirst : (st.preVisit table r).failedToCMRES = false := by
      by_contra hfailed
      rw [foldl_failed (Bool.not_eq_false _ ▸ hfailed)] at h
      cases h
    obtain ⟨hvar, hfinals⟩ := preVisit_ok r hfirst
    obtain ⟨hvars, hall⟩ := ih h
    refine ⟨fun w hw => ?_, List.forall_mem_cons.mpr ⟨hfinals, hall⟩⟩
    exact (hvars w hw).elim (hvar w) .inr

theorem aliasCMRES_plain {body : Stmt ε ν} (h : aliasCMRES table body = some x) (b : Bool)
    (hb : (Ret.var x, b) ∈ body.returns false) : b = false := by
  unfold aliasCMRES at h
  dsimp only at h
  split at h
  next => cases h
  next hok =>
    obtain ⟨hvar, hfinals⟩ := foldl_ok _ (Bool.not_eq_true _ ▸ hok)
    have hlocal := (hvar x h).resolve_left fun hnone => by cases hnone
    exact hfinals _ hb x rfl hlocal

/-! ### Returns of the variable -/

variable {own : ℕ → ν} {turns : ℕ} {aliased : Option ℕ} {routed : Bool}

mutual

theorem returns_true (s : Stmt ε ν) (r : Ret ε ν × Bool) (h : r ∈ s.returns true) : r.2 = true := by
  cases s with
  | run p => cases h
  | ifThenElse cond if_true if_false =>
    exact (List.mem_append.mp h).elim (returns_true if_true r) (returns_true if_false r)
  | block list finalList =>
    exact (List.mem_append.mp h).elim (returnsAll_true list r) (returnsAll_true finalList r)
  | «while» cond body => exact returns_true body r h
  | «for» next body => exact returns_true body r h
  | «return» r' =>
    rw [List.mem_singleton.mp h]
  | «break» => cases h
  | «continue» => cases h

theorem returnsAll_true (list : List (Stmt ε ν)) (r : Ret ε ν × Bool)
    (h : r ∈ returnsAll true list) : r.2 = true := by
  cases list with
  | nil => cases h
  | cons s rest =>
    exact (List.mem_append.mp h).elim (returns_true s r) (returnsAll_true rest r)

end

/-- A run that does not return `x`. -/
def Never (x : ℕ) (run : State ε ν → State ε ν × Control ℕ) : Prop :=
  ∀ s, (run s).2 ≠ .return (some x)

theorem choose_never {cond : Prog ε ν} {t f : State ε ν → State ε ν × Control ℕ}
    (ht : Never x t) (hf : Never x f) : Never x fun s => choose aliased own cond s t f := by
  intro s
  dsimp only [choose]
  generalize cond.run aliased false s own = r
  obtain ⟨u, o, _ | b⟩ := r
  · exact fun heq => by cases heq
  · dsimp only
    split
    · exact ht u
    · exact hf u

theorem leave_never {asks : Bool} {cond : Prog ε ν} {s : State ε ν} {c : Control ℕ}
    (hc : c ≠ .return (some x)) : (leave aliased own asks cond s c).2 ≠ .return (some x) := by
  unfold leave
  split
  · generalize cond.run aliased false s own = r
    obtain ⟨u, o, _ | b⟩ := r
    · exact fun heq => by cases heq
    · exact hc
  · exact hc

theorem whileLoop_never {asks : Bool} {cond : Prog ε ν}
    {body : State ε ν → State ε ν × Control ℕ} (hbody : Never x body) (turns : ℕ) :
    Never x (whileLoop aliased own asks cond body turns) := by
  induction turns with
  | zero => exact fun s heq => by cases heq
  | succ turns ih =>
    refine choose_never (fun s => ?_) fun s heq => by cases heq
    have h := hbody s
    generalize body s = r at h
    obtain ⟨u, c⟩ := r
    cases c with
    | done => exact ih u
    | «continue» => exact ih u
    | «break» => exact leave_never fun heq => by cases heq
    | «return» v => exact leave_never h
    | jump label => exact fun heq => by cases heq
    | panic => exact fun heq => by cases heq
    | hang => exact fun heq => by cases heq

mutual

theorem exec_never (s : Stmt ε ν) {finals : Bool} (h : ∀ b, (Ret.var x, b) ∉ s.returns finals) :
    Never x (exec aliased routed own turns s) := by
  cases s with
  | run p => exact choose_never (fun s heq => by cases heq) fun s heq => by cases heq
  | ifThenElse cond if_true if_false =>
    exact choose_never (exec_never if_true fun b hb => h b (List.mem_append_left _ hb))
      (exec_never if_false fun b hb => h b (List.mem_append_right _ hb))
  | block list finalList =>
    have hlist := execList_never list fun b hb => h b (List.mem_append_left _ hb)
    intro s
    have hrun := hlist s
    rw [exec, Control.after]
    generalize execList aliased routed own turns list s = r at hrun
    obtain ⟨u, c⟩ := r
    dsimp only at hrun ⊢
    split
    · exact hrun
    · generalize execFinals aliased routed own turns finalList u = q
      obtain ⟨w, d⟩ := q
      cases d with
      | panic => exact fun heq => by cases heq
      | hang => exact fun heq => by cases heq
      | _ => exact hrun
  | «while» cond body => exact whileLoop_never (exec_never body h) turns
  | «for» next body => exact whileLoop_never (exec_never body h) turns
  | «return» r =>
    intro s
    have hwrite : ∀ direct p, (write aliased own direct p s).2 ≠ .return (some x) := by
      intro direct p
      unfold write
      generalize p.run aliased direct s own = q
      obtain ⟨u, o, _ | b⟩ := q
      · exact fun heq => by cases heq
      · exact fun heq => by cases heq
    cases r with
    | var v =>
      rintro heq
      obtain rfl : v = x := by cases heq; rfl
      exact h finals (List.mem_singleton.mpr rfl)
    | makeLocal p => exact hwrite _ p
    | call p cmresAlias => exact hwrite _ p
    | invoke p cmresAlias => exact hwrite _ p
  | «break» => exact fun s heq => by cases heq
  | «continue» => exact fun s heq => by cases heq

theorem execList_never (list : List (Stmt ε ν)) {finals : Bool}
    (h : ∀ b, (Ret.var x, b) ∉ returnsAll finals list) :
    Never x (execList aliased routed own turns list) := by
  cases list with
  | nil => exact fun s heq => by cases heq
  | cons first rest =>
    have hfirst := exec_never first fun b hb => h b (List.mem_append_left _ hb)
    have hrest := execList_never rest fun b hb => h b (List.mem_append_right _ hb)
    intro s
    have hrun := hfirst s
    rw [execList]
    generalize exec aliased routed own turns first s = r at hrun
    obtain ⟨u, c⟩ := r
    cases c with
    | done => exact hrest u
    | _ => exact hrun

end

theorem list_never {list finalList : List (Stmt ε ν)} {finals : Bool}
    (h : ∀ b, (Ret.var x, b) ∈ (Stmt.block list finalList).returns finals → b = false)
    (hfinals : finalList ≠ []) : Never x (execList aliased routed own turns list) := by
  have hflag : (finals || !finalList.isEmpty) = true := by
    cases finalList with
    | nil => exact absurd rfl hfinals
    | cons first rest => exact Bool.or_true finals
  have hnone : ∀ b, (Ret.var x, b) ∉ returnsAll true list := by
    intro b hb
    have htrue := returnsAll_true list (Ret.var x, b) hb
    rw [h b (by rw [Stmt.returns, hflag]; exact List.mem_append_left _ hb)] at htrue
    cases htrue
  exact execList_never list hnone

theorem block_never {s : Stmt ε ν} {finals : Bool}
    (h : ∀ b, (Ret.var x, b) ∈ s.returns finals → b = false) (hs : s.hasFinally = true) :
    Never x (exec aliased routed own turns s) := by
  suffices hnone : ∀ b, (Ret.var x, b) ∉ s.returns finals from exec_never s hnone
  intro b hb
  cases s with
  | block list finalList =>
    have hflag : (finals || !finalList.isEmpty) = true := by
      rw [show (!finalList.isEmpty) = true from hs, Bool.or_true]
    have hfalse := h b hb
    rw [Stmt.returns, hflag] at hb
    have htrue : b = true := (List.mem_append.mp hb).elim
      (returnsAll_true list (Ret.var x, b)) (returnsAll_true finalList (Ret.var x, b))
    rw [hfalse] at htrue
    cases htrue
  | _ => cases hs

end Marks

/-! ## Statements -/

section Statements

variable {own : ℕ → ν} {turns : ℕ}

/-- How two runs end. -/
structure Ended (x size : ℕ) (r r' : State ε ν × Control ℕ) : Prop where
  control : r.2 = r'.2
  effects : r.1.effects = r'.1.effects
  before : r'.2.lost = false → returned r'.2 = false → Before x r.1 r'.1
  after : returned r'.2 = true → After x size r.1 r'.1

theorem Ended.of_before {s s' : State ε ν} (h : Before x s s') {c : Control ℕ}
    (hc : returned c = false) : Ended x size (s, c) (s', c) :=
  ⟨rfl, h.effects, fun _ _ => h, fun hret => absurd (hc.symm.trans hret) Bool.false_ne_true⟩

theorem Ended.of_lost {s s' : State ε ν} (h : s.effects = s'.effects) {c : Control ℕ}
    (hc : c.lost = true) : Ended x size (s, c) (s', c) := by
  refine ⟨rfl, h, fun hlost => ?_, fun hret => ?_⟩
  · rw [hc] at hlost
    cases hlost
  · cases c <;> first | (cases hret; done) | cases hc

theorem Ended.of_after {s s' : State ε ν} (h : After x size s s') {c : Control ℕ}
    (hc : returned c = true) : Ended x size (s, c) (s', c) :=
  ⟨rfl, h.effects, fun _ hret => absurd (hret.symm.trans hc) Bool.false_ne_true, fun _ => h⟩

/-- Two runs that end so, if a condition holds of the second state. -/
def Together (x size : ℕ) (kept : State ε ν → Prop)
    (run run' : State ε ν → State ε ν × Control ℕ) : Prop :=
  ∀ s s', Before x s s' → kept s' → Ended x size (run s) (run' s')

theorem leave_before (asks : Bool) (cond : Prog ε ν) {c : Control ℕ} (hc : returned c = false)
    {s s' : State ε ν} (h : Before x s s') :
    Ended x size (leave (some x) own asks cond s c) (leave none own asks cond s' c) := by
  unfold leave
  cases asks with
  | false => exact .of_before h hc
  | true =>
    obtain ⟨u, u', o, value, hu, hu', hbefore⟩ := run_before cond h own
    rw [hu, hu']
    cases value with
    | none => exact .of_lost hbefore.effects rfl
    | some b => exact .of_before hbefore hc

theorem leave_returned {asks : Bool} {cond : Prog ε ν} (hcond : asks = true → cond.Avoids x)
    (v : Option ℕ) {s s' : State ε ν} (h : After x size s s') :
    Ended x size (leave (some x) own asks cond s (.return v))
      (leave none own asks cond s' (.return v)) := by
  unfold leave
  cases asks with
  | false => exact .of_after h rfl
  | true =>
    obtain ⟨u, u', o, value, hu, hu', hafter⟩ := run_after cond (hcond rfl) h own
    rw [hu, hu']
    cases value with
    | none => exact .of_lost hafter.effects rfl
    | some b => exact .of_after hafter rfl

theorem whileLoop_together {asks : Bool} {cond : Prog ε ν}
    {body body' : State ε ν → State ε ν × Control ℕ} {kept : State ε ν → Prop}
    (hbody : Together x size kept body body') (hx : asks = true → Never x body') (turns : ℕ) :
    Together x size (KeptTurns x own asks cond body' kept turns)
      (whileLoop (some x) own asks cond body turns)
      (whileLoop none own asks cond body' turns) := by
  induction turns with
  | zero => exact fun s s' h _ => .of_lost h.effects rfl
  | succ turns ih =>
    intro s s' h hkept
    obtain ⟨u, u', o, value, hu, hu', hbefore⟩ := run_before cond h own
    rw [KeptTurns, hu'] at hkept
    rw [whileLoop, whileLoop, choose, choose, hu, hu']
    cases value with
    | none => exact .of_lost hbefore.effects rfl
    | some b =>
      cases b with
      | false => exact .of_before hbefore rfl
      | true =>
        obtain ⟨hk, hrest⟩ := hkept
        have hended := hbody u u' hbefore hk
        have hnever := fun hasks => hx hasks u'
        dsimp only at hrest hnever ⊢
        rw [if_pos rfl, if_pos rfl]
        generalize body u = q, body' u' = q' at hended hrest hnever
        obtain ⟨w, c⟩ := q
        obtain ⟨w', c'⟩ := q'
        obtain rfl : c = c' := hended.control
        cases c with
        | done => exact ih w w' (hended.before rfl rfl) hrest
        | «continue» => exact ih w w' (hended.before rfl rfl) hrest
        | «break» => exact leave_before asks cond rfl (hended.before rfl rfl)
        | «return» v =>
          refine leave_returned (fun hasks => hrest (fun hv => ?_) hasks) v (hended.after rfl)
          exact hnever hasks (congrArg Control.return hv)
        | jump label => exact .of_before (hended.before rfl rfl) rfl
        | panic => exact .of_lost hended.effects rfl
        | hang => exact .of_lost hended.effects rfl

theorem choose_together {cond : Prog ε ν} {t t' f f' : State ε ν → State ε ν × Control ℕ}
    {s s' : State ε ν} (h : Before x s s')
    (hrest : ∀ u u' o b, cond.run none false s' own = (u', o, some b) → Before x u u' →
      Ended x size (if b then t u else f u) (if b then t' u' else f' u')) :
    Ended x size (choose (some x) own cond s t f) (choose none own cond s' t' f') := by
  obtain ⟨u, u', o, value, hu, hu', hbefore⟩ := run_before cond h own
  unfold choose
  rw [hu, hu']
  cases value with
  | none => exact .of_lost hbefore.effects rfl
  | some b => exact hrest u u' o b hu' hbefore

theorem write_ended (direct : Bool) {p : Prog ε ν} {s s' : State ε ν} (h : Before x s s')
    (hkept : direct = true → p.Kept x size [] s' own) :
    Ended x size (write (some x) own direct p s) (write none own false p s') := by
  unfold write
  cases direct with
  | false =>
    obtain ⟨u, u', o, value, hu, hu', hbefore⟩ := run_before p h own
    rw [hu, hu']
    cases value with
    | none => exact .of_lost hbefore.effects rfl
    | some b =>
      have hafter : After x size { u with result := o } { u' with result := o } :=
        ⟨hbefore.effects, hbefore.env, fun c _ => rfl⟩
      exact .of_after hafter rfl
  | true =>
    have hmid : Midway x [] s s' own :=
      ⟨h.effects, h.env, fun c _ => h.cells c, fun c hc => absurd hc List.not_mem_nil⟩
    obtain ⟨hvalue, heffects, hafter⟩ := run_direct p own (hkept rfl) hmid
    generalize p.run (some x) true s own = r, p.run none false s' own = r'
      at hvalue heffects hafter
    obtain ⟨u, o, value⟩ := r
    obtain ⟨u', o', value'⟩ := r'
    obtain rfl : value = value' := hvalue
    cases value with
    | none => exact .of_lost heffects rfl
    | some b => exact .of_after (hafter rfl) rfl

theorem giveBack_ended (r : Ret ε ν) {s s' : State ε ν} (h : Before x s s')
    (hkept : r.Kept x size own s') :
    Ended x size (giveBack (some x) true own r s) (giveBack none false own r s') := by
  cases r with
  | var v =>
    have hafter : After x size { s with result := s.get (some x) v }
        { s' with result := s'.get none v } :=
      ⟨h.effects, h.env, fun c _ => h.get v c⟩
    exact .of_after hafter rfl
  | makeLocal p => exact write_ended true h fun _ => hkept
  | call p cmresAlias =>
    exact write_ended _ h fun hdirect => hkept (by simpa using hdirect)
  | invoke p cmresAlias =>
    exact write_ended _ h fun hdirect => hkept (by simpa using hdirect)

theorem execFinals_control {aliased : Option ℕ} {routed : Bool} (list : List (Stmt ε ν))
    (s : State ε ν) : returned (execFinals aliased routed own turns list s).2 = false ∨
      (execFinals aliased routed own turns list s).2.lost = true := by
  induction list generalizing s with
  | nil => exact .inl rfl
  | cons first rest ih =>
    rw [execFinals]
    generalize exec aliased routed own turns first s = r
    obtain ⟨u, c⟩ := r
    rw [Control.nextFinal]
    split
    next hlost => exact .inr hlost
    next => exact ih u

theorem Ended.finally {r r' : State ε ν × Control ℕ} (h : Ended x size r r') {c : Control ℕ}
    (hc : returned c = false)
    (hcontrol : returned r'.2 = false ∨ r'.2.lost = true) :
    Ended x size (r.1, if r.2.lost then r.2 else c) (r'.1, if r'.2.lost then r'.2 else c) := by
  rw [h.control]
  cases hd : r'.2.lost with
  | true => exact .of_lost h.effects hd
  | false =>
    have hreturned := hcontrol.resolve_right fun htrue => by
      rw [hd] at htrue
      cases htrue
    exact .of_before (h.before hd hreturned) hc

mutual

theorem exec_together (s : Stmt ε ν) {finals : Bool}
    (hplain : ∀ b, (Ret.var x, b) ∈ s.returns finals → b = false) :
    Together x size (fun t => s.Kept x size own turns t) (exec (some x) true own turns s)
      (exec none false own turns s) := by
  intro t t' h hkept
  cases s with
  | run p =>
    refine choose_together h fun u u' o b _ hbefore => ?_
    cases b <;> exact .of_before hbefore rfl
  | ifThenElse cond if_true if_false =>
    rw [Stmt.Kept] at hkept
    refine choose_together h fun u u' o b hrun hbefore => ?_
    rw [hrun] at hkept
    cases b with
    | true =>
      exact exec_together if_true (fun b hb => hplain b (List.mem_append_left _ hb)) u u' hbefore
        hkept
    | false =>
      exact exec_together if_false (fun b hb => hplain b (List.mem_append_right _ hb)) u u' hbefore
        hkept
  | block list finalList =>
    obtain ⟨hlist, hfinals⟩ := hkept
    have hended := execList_together list (fun b hb => hplain b (List.mem_append_left _ hb)) t t' h
      hlist
    have hlast := fun b hb => hplain b (List.mem_append_right _ hb)
    have hnever : finalList ≠ [] → (execList none false own turns list t').2 ≠ .return (some x) :=
      fun hne => list_never hplain hne t'
    rw [exec, exec]
    generalize execList (some x) true own turns list t = r,
      execList none false own turns list t' = r' at hended hfinals hnever
    obtain ⟨u, c⟩ := r
    obtain ⟨u', c'⟩ := r'
    obtain rfl : c = c' := hended.control
    cases hlost : c.lost with
    | true =>
      rw [Control.after, Control.after, if_pos hlost, if_pos hlost]
      exact hended
    | false =>
      obtain ⟨hkept, havoids⟩ := hfinals hlost
      rw [Control.after, Control.after, hlost, if_neg Bool.false_ne_true, if_neg Bool.false_ne_true]
      cases hreturned : returned c with
      | false =>
        have hnot : ¬returnedOther x c :=
          fun hother => Bool.false_ne_true (hreturned.symm.trans hother.1)
        have hend := execFinals_together finalList hlast u u' (hended.before hlost hreturned)
          (hkept hnot)
        exact hend.finally hreturned (execFinals_control finalList u')
      | true =>
        by_cases hx : c = .return (some x)
        · have hnil : finalList = [] := by_contra fun hne => hnever hne hx
          subst hnil
          exact .of_after (hended.after hreturned) hreturned
        · obtain ⟨hcontrol, hafter⟩ :=
            execFinals_after finalList (havoids ⟨hreturned, hx⟩) u u' (hended.after hreturned)
          generalize execFinals (some x) true own turns finalList u = q,
            execFinals none false own turns finalList u' = q' at hcontrol hafter
          obtain ⟨w, d⟩ := q
          obtain ⟨w', d'⟩ := q'
          obtain rfl : d = d' := hcontrol
          dsimp only
          split
          next hd => exact .of_lost hafter.effects hd
          next => exact .of_after hafter hreturned
  | «while» cond body =>
    exact whileLoop_together (exec_together body hplain) (fun hasks => block_never hplain hasks)
      turns t t' h hkept
  | «for» next body =>
    exact whileLoop_together (exec_together body hplain) (fun hasks => by cases hasks) turns t t' h
      hkept
  | «return» r => exact giveBack_ended r h hkept
  | «break» => exact .of_before h rfl
  | «continue» => exact .of_before h rfl

theorem execList_together (list : List (Stmt ε ν)) {finals : Bool}
    (hplain : ∀ b, (Ret.var x, b) ∈ returnsAll finals list → b = false) :
    Together x size (fun t => KeptAll x size own turns list t)
      (execList (some x) true own turns list) (execList none false own turns list) := by
  intro t t' h hkept
  cases list with
  | nil => exact .of_before h rfl
  | cons first rest =>
    obtain ⟨hfirst, hrest⟩ := hkept
    have hended := exec_together first (fun b hb => hplain b (List.mem_append_left _ hb)) t t' h
      hfirst
    have hplain' := fun b hb => hplain b (List.mem_append_right _ hb)
    rw [execList, execList]
    generalize exec (some x) true own turns first t = r, exec none false own turns first t' = r'
      at hended hrest
    obtain ⟨u, c⟩ := r
    obtain ⟨u', c'⟩ := r'
    obtain rfl : c = c' := hended.control
    by_cases hdone : c = .done
    · subst hdone
      exact execList_together rest hplain' u u' (hended.before rfl rfl) (hrest rfl)
    · rw [Control.next_stop hdone, Control.next_stop hdone]
      exact hended

theorem execFinals_together (list : List (Stmt ε ν)) {finals : Bool}
    (hplain : ∀ b, (Ret.var x, b) ∈ returnsAll finals list → b = false) :
    Together x size (fun t => KeptFinals x size own turns list t)
      (execFinals (some x) true own turns list) (execFinals none false own turns list) := by
  intro t t' h hkept
  cases list with
  | nil => exact .of_before h rfl
  | cons first rest =>
    obtain ⟨hfirst, hreturned, hrest⟩ := hkept
    have hended := exec_together first (fun b hb => hplain b (List.mem_append_left _ hb)) t t' h
      hfirst
    have hplain' := fun b hb => hplain b (List.mem_append_right _ hb)
    rw [execFinals, execFinals]
    generalize exec (some x) true own turns first t = r, exec none false own turns first t' = r'
      at hended hrest hreturned
    obtain ⟨u, c⟩ := r
    obtain ⟨u', c'⟩ := r'
    obtain rfl : c = c' := hended.control
    rw [Control.nextFinal, Control.nextFinal]
    cases hlost : c.lost with
    | true => exact hended
    | false =>
      exact execFinals_together rest hplain' u u' (hended.before hlost hreturned) (hrest hlost)

end

end Statements

/-! ## Functions -/

section Functions

variable {table : ℕ → Variable}

/-- All variables are local ones. -/
def allLocal (_ : ℕ) : Variable := ⟨true, false, false⟩

/-- `x` gets two cells, is returned if the other variable is not zero, and else something is made of
it. -/
def pair (made : Prog ℕ ℕ) : Stmt ℕ ℕ :=
  .block [.run (.set 0 0 1 (.set 0 1 2 (.done true))),
    .ifThenElse (.get 1 0 fun v => .done (v ≠ 0)) (.block [.return (.var 0)] []) (.block [] []),
    .return (.makeLocal made)] []

end Functions

end DaScript.ResultBuffer

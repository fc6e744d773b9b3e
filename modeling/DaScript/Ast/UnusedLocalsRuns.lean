import DaScript.Ast.UnusedLocals

/-!
# Ast/UnusedLocalsRuns — a body runs as before without its unused variables

Two runs, of a body and of what `RemoveUnusedLocalVariables` makes of it, differ in variables only
that are not read any more (`Alike`).  Each step keeps that, with one case for each statement.
-/

namespace DaScript.UnusedLocals

variable {ε ν : Type}

/-! ## Two runs -/

section Runs

variable (known : ℕ → Option ν) (hidden : ℕ → Prop)

/-- Two states that differ in hidden variables only, and in the first of which what is known of some
variables is true. -/
structure Alike (scope : List ℕ) (s s' : State ε ν) : Prop where
  effects : s'.effects = s.effects
  turns : s'.turns = s.turns
  env : ∀ x, ¬hidden x → s'.env x = s.env x
  known : ∀ x ∈ scope, ∀ v, known x = some v → s.env x = v

/-- A hidden variable is only read as a value, and that is known; one that is known is not written;
and what is read is in scope. -/
structure Reads (scope : List ℕ) (v : ExprVar) : Prop where
  hidden : hidden v.id → v.r2v = true ∧ (known v.id).isSome
  unwritten : (known v.id).isSome → v.write = false
  scope : (known v.id).isSome → v.r2v = true → v.id ∈ scope

variable {known hidden} {scope : List ℕ} (M : Meaning ε ν)

theorem passed_visit (e : Expr ν) : (e.visit known).passed = e.passed := by
  cases e with
  | const value constexpression noSideEffects => rfl
  | call func arguments noSideEffects => rfl
  | var v noSideEffects =>
    rw [Expr.visit]
    cases known v.id with
    | none => rfl
    | some value =>
      dsimp only
      split
      next hr2v => simp [Expr.passed, hr2v]
      next => rfl

theorem mem_vars_of_passed {e : Expr ν} {x : ExprVar} (h : e.passed = some x) :
    x ∈ e.vars ∧ x.r2v = false := by
  cases e with
  | const value constexpression noSideEffects => cases h
  | call func arguments noSideEffects => cases h
  | var v noSideEffects =>
    rw [Expr.passed] at h
    split at h
    next => cases h
    next hr2v =>
      obtain rfl := Option.some.inj h
      exact ⟨List.mem_singleton.mpr rfl, Bool.not_eq_true _ ▸ hr2v⟩

theorem contents_visit {s s' : State ε ν} (hs : Alike known hidden scope s s')
    (arguments : List (Expr ν))
    (harguments : ∀ v ∈ Expr.varsAll arguments, Reads known hidden scope v) (values : List ν) :
    Meaning.contents s' (visitAll known arguments) values =
      Meaning.contents s arguments values := by
  induction arguments generalizing values with
  | nil => rfl
  | cons e arguments ih =>
    cases values with
    | nil => rfl
    | cons value values =>
      obtain ⟨he, hrest⟩ := List.forall_mem_append.mp harguments
      rw [visitAll, Meaning.contents, Meaning.contents, ih hrest, passed_visit]
      cases hpassed : e.passed with
      | none => rfl
      | some x =>
        obtain ⟨hx, hr2v⟩ := mem_vars_of_passed hpassed
        dsimp only
        rw [hs.env x.id fun hhidden => ?_]
        rw [((he x hx).hidden hhidden).1] at hr2v
        cases hr2v

theorem writeBack_visit (arguments : List (Expr ν))
    (harguments : ∀ v ∈ Expr.varsAll arguments, Reads known hidden scope v) (values : List ν)
    {env env' : ℕ → ν} (henv : ∀ x, ¬hidden x → env' x = env x)
    (hknown : ∀ x ∈ scope, ∀ v, known x = some v → env x = v) :
    (∀ x, ¬hidden x → Meaning.writeBack (visitAll known arguments) values env' x =
      Meaning.writeBack arguments values env x) ∧
    ∀ x ∈ scope, ∀ v, known x = some v → Meaning.writeBack arguments values env x = v := by
  induction arguments generalizing values env env' with
  | nil => exact ⟨henv, hknown⟩
  | cons e arguments ih =>
    cases values with
    | nil => exact ⟨henv, hknown⟩
    | cons value values =>
      obtain ⟨he, hrest⟩ := List.forall_mem_append.mp harguments
      rw [visitAll, Meaning.writeBack, Meaning.writeBack, passed_visit]
      cases hpassed : e.passed with
      | none => exact ih hrest values henv hknown
      | some x =>
        dsimp only
        split
        next hwrite =>
          refine ih hrest values (fun y hy => ?_) fun y hy v hv => ?_
          · by_cases hyx : y = x.id
            · rw [hyx, Function.update_self, Function.update_self]
            · rw [Function.update_of_ne hyx, Function.update_of_ne hyx, henv y hy]
          · have hyx : y ≠ x.id := by
              rintro rfl
              have hunwritten := (he x (mem_vars_of_passed hpassed).1).unwritten (by rw [hv]; rfl)
              rw [hwrite] at hunwritten
              cases hunwritten
            rw [Function.update_of_ne hyx, hknown y hy v hv]
        next => exact ih hrest values henv hknown

mutual

theorem eval_visit {s s' : State ε ν} (e : Expr ν)
    (he : ∀ v ∈ e.vars, Reads known hidden scope v) (hs : Alike known hidden scope s s') :
    (M.eval (e.visit known) s').2 = (M.eval e s).2 ∧
      Alike known hidden scope (M.eval e s).1 (M.eval (e.visit known) s').1 := by
  cases e with
  | const value constexpression noSideEffects => exact ⟨rfl, hs⟩
  | var v noSideEffects =>
    have hv := he v (List.mem_singleton.mpr rfl)
    rw [Expr.visit]
    cases hknown : known v.id with
    | none =>
      refine ⟨congrArg some (hs.env _ fun hhidden => ?_), hs⟩
      have hsome := (hv.hidden hhidden).2
      rw [hknown] at hsome
      cases hsome
    | some value =>
      dsimp only
      split
      next hr2v =>
        have hscope := hv.scope (by rw [hknown]; rfl) hr2v
        exact ⟨congrArg some (hs.known _ hscope _ hknown).symm, hs⟩
      next hr2v =>
        exact ⟨congrArg some (hs.env _ fun hhidden => hr2v (hv.hidden hhidden).1), hs⟩
  | call func arguments noSideEffects =>
    obtain ⟨hvalues, hargs⟩ := evalAll_visit arguments he hs
    rw [Expr.visit, Meaning.eval, Meaning.eval]
    generalize M.evalAll arguments s = r, M.evalAll (visitAll known arguments) s' = r'
      at hvalues hargs
    obtain ⟨t, values⟩ := r
    obtain ⟨t', values'⟩ := r'
    obtain rfl : values' = values := hvalues
    cases values' with
    | none => exact ⟨rfl, hargs⟩
    | some values =>
      dsimp only at hargs ⊢
      rw [contents_visit hargs arguments he, hargs.effects]
      generalize M.call func _ _ = called
      obtain ⟨new, _ | ⟨v, left⟩⟩ := called
      · exact ⟨rfl, rfl, hargs.turns, hargs.env, hargs.known⟩
      · obtain ⟨henv, hknown⟩ := writeBack_visit arguments he left hargs.env hargs.known
        exact ⟨rfl, rfl, hargs.turns, henv, hknown⟩

theorem evalAll_visit {s s' : State ε ν} (es : List (Expr ν))
    (hes : ∀ v ∈ Expr.varsAll es, Reads known hidden scope v) (hs : Alike known hidden scope s s') :
    (M.evalAll (visitAll known es) s').2 = (M.evalAll es s).2 ∧
      Alike known hidden scope (M.evalAll es s).1 (M.evalAll (visitAll known es) s').1 := by
  cases es with
  | nil => exact ⟨rfl, hs⟩
  | cons e rest =>
    obtain ⟨he, hrest⟩ := List.forall_mem_append.mp hes
    obtain ⟨hvalue, hfirst⟩ := eval_visit e he hs
    rw [visitAll, Meaning.evalAll, Meaning.evalAll]
    generalize M.eval e s = r, M.eval (e.visit known) s' = r' at hvalue hfirst
    obtain ⟨t, value⟩ := r
    obtain ⟨t', value'⟩ := r'
    obtain rfl : value' = value := hvalue
    cases value' with
    | none => exact ⟨rfl, hfirst⟩
    | some v =>
      obtain ⟨hvalues, hlast⟩ := evalAll_visit rest hrest hfirst
      dsimp only at hvalues hlast ⊢
      generalize M.evalAll rest t = q, M.evalAll (visitAll known rest) t' = q' at hvalues hlast
      obtain ⟨u, values⟩ := q
      obtain ⟨u', values'⟩ := q'
      obtain rfl : values' = values := hvalues
      cases values' with
      | none => exact ⟨rfl, hlast⟩
      | some vs => exact ⟨rfl, hlast⟩

end

end Runs

/-! ## The pass changes nothing -/

section Pass

variable (M : Meaning ε ν) (table : ℕ → Variable ν) (body : Stmt ν)

/-- A variable that is at most read as a value that is known. -/
def Hidden (flags : ℕ → Access) (x : ℕ) : Prop :=
  (flags x).access_ref = false ∧ (flags x).access_pass = false ∧
    ((flags x).access_get = false ∨ (known table flags x).isSome)

/-- Two states, before and after the pass. -/
abbrev Same (scope : List ℕ) (s s' : State ε ν) : Prop :=
  Alike (known table (trackVariableFlags table body))
    (Hidden table (trackVariableFlags table body)) scope s s'

/-- The flags are right, and a variable that has no initializer, and that is only read as a value,
is of no enumeration without 0. -/
structure Right : Prop where
  quiet : ∀ x init, (table x).init = some init → init.noSideEffects = true →
    ∀ s, ∃ v, M.eval init s = (s, some v)
  zero : ∀ x, (trackVariableFlags table body x).access_init = false →
    (trackVariableFlags table body x).access_get = true →
    (trackVariableFlags table body x).access_ref = false →
    (trackVariableFlags table body x).access_pass = false →
    (table x).isFoldable = true → (table x).zeroIsConst = true

variable {M table body} {scope : List ℕ} {s s' : State ε ν}

theorem Alike.mono {known : ℕ → Option ν} {hidden : ℕ → Prop} {scope scope' : List ℕ}
    (h : Alike known hidden scope s s') (hsub : ∀ x ∈ scope', x ∈ scope) :
    Alike known hidden scope' s s' :=
  ⟨h.effects, h.turns, h.env, fun x hx => h.known x (hsub x hx)⟩

theorem access_get_of_mem {v : ExprVar} (hv : v ∈ body.vars table) (hwrite : v.write = false) :
    (trackVariableFlags table body v.id).access_get = true :=
  List.any_eq_true.mpr ⟨v, hv, by simp [hwrite]⟩

theorem access_ref_of_mem {v : ExprVar} (hv : v ∈ body.vars table) (hwrite : v.write = true) :
    (trackVariableFlags table body v.id).access_ref = true :=
  List.any_eq_true.mpr ⟨v, hv, by simp [hwrite]⟩

theorem access_pass_of_mem {v : ExprVar} (hv : v ∈ body.vars table) (hwrite : v.write = false)
    (hr2v : v.r2v = false) : (trackVariableFlags table body v.id).access_pass = true :=
  List.any_eq_true.mpr ⟨v, hv, by simp [hwrite, hr2v]⟩

theorem known_ref {flags : ℕ → Access} {x : ℕ} (h : (known table flags x).isSome) :
    (flags x).access_ref = false := by
  unfold known at h
  cases href : (flags x).access_ref with
  | false => rfl
  | true => simp [href] at h

theorem reads_of_mem {v : ExprVar} (hv : v ∈ body.vars table) (hscope : v.id ∈ scope) :
    Reads (known table (trackVariableFlags table body))
      (Hidden table (trackVariableFlags table body)) scope v := by
  have hwrite : (trackVariableFlags table body v.id).access_ref = false → v.write = false := by
    intro href
    by_contra hwrite
    rw [access_ref_of_mem hv (Bool.not_eq_false _ ▸ hwrite)] at href
    cases href
  refine ⟨fun ⟨href, hpass, hget⟩ => ?_, fun hknown => hwrite (known_ref hknown), fun _ _ => hscope⟩
  have hnot := hwrite href
  constructor
  · by_contra hr2v
    rw [access_pass_of_mem hv hnot (Bool.not_eq_true _ ▸ hr2v)] at hpass
    cases hpass
  · refine hget.resolve_left fun hnone => ?_
    rw [access_get_of_mem hv hnot] at hnone
    cases hnone

variable (M) in
theorem eval_same {e : Expr ν} (hvars : ∀ v ∈ e.vars, v ∈ body.vars table)
    (hscope : ReadsIn scope e.vars) (hs : Same table body scope s s') :
    ∃ t t' value, M.eval e s = (t, value) ∧
      M.eval (e.visit (known table (trackVariableFlags table body))) s' = (t', value) ∧
      Same table body scope t t' := by
  obtain ⟨hvalue, hsame⟩ :=
    eval_visit M e (fun v hv => reads_of_mem (hvars v hv) (hscope v hv)) hs
  exact ⟨_, _, _, rfl, Prod.ext rfl hvalue, hsame⟩

/-! ### Declarations -/

theorem Alike.update {known : ℕ → Option ν} {hidden : ℕ → Prop} (h : Alike known hidden scope s s')
    (x : ℕ) (v : ν) (hv : ∀ w, known x = some w → v = w) :
    Alike known hidden (x :: scope) { s with env := Function.update s.env x v }
      { s' with env := Function.update s'.env x v } := by
  refine ⟨h.effects, h.turns, fun y hy => ?_, fun y hy w hw => ?_⟩
  · change Function.update s'.env x v y = Function.update s.env x v y
    by_cases hyx : y = x
    · rw [hyx, Function.update_self, Function.update_self]
    · rw [Function.update_of_ne hyx, Function.update_of_ne hyx, h.env y hy]
  · change Function.update s.env x v y = w
    by_cases hyx : y = x
    · rw [hyx, Function.update_self]
      exact hv w (hyx ▸ hw)
    · rw [Function.update_of_ne hyx]
      exact h.known y ((List.mem_cons.mp hy).resolve_left hyx) w hw

theorem Alike.updateHidden {known : ℕ → Option ν} {hidden : ℕ → Prop}
    (h : Alike known hidden scope s s') {x : ℕ} (hx : hidden x) (v : ν)
    (hv : ∀ w, known x = some w → v = w) :
    Alike known hidden (x :: scope) { s with env := Function.update s.env x v } s' := by
  refine ⟨h.effects, h.turns, fun y hy => ?_, fun y hy w hw => ?_⟩
  · have hyx : y ≠ x := by
      rintro rfl
      exact hy hx
    change s'.env y = Function.update s.env x v y
    rw [Function.update_of_ne hyx, h.env y hy]
  · change Function.update s.env x v y = w
    by_cases hyx : y = x
    · rw [hyx, Function.update_self]
      exact hv w (hyx ▸ hw)
    · rw [Function.update_of_ne hyx]
      exact h.known y ((List.mem_cons.mp hy).resolve_left hyx) w hw

theorem known_init {flags : ℕ → Access} {x : ℕ} {w : ν} (h : known table flags x = some w) :
    ((table x).init = none → w = (table x).zero) ∧
      ∀ e, (table x).init = some e → ∃ noSideEffects, e = .const w true noSideEffects := by
  unfold known at h
  split at h
  next => cases h
  next =>
    split at h
    next value noSideEffects hinit =>
      obtain rfl := Option.some.inj h
      refine ⟨fun hnone => ?_, fun e he => ⟨noSideEffects, ?_⟩⟩
      · rw [hnone] at hinit
        cases hinit
      · exact Option.some.inj (he.symm.trans hinit)
    next => cases h
    next hinit =>
      split at h
      next =>
        refine ⟨fun _ => (Option.some.inj h).symm, fun e he => ?_⟩
        rw [hinit] at he
        cases he
      next => cases h

theorem constexpression_visit {k : ℕ → Option ν} {e : Expr ν}
    (h : (e.visit k).constexpression = true) :
    ∃ value noSideEffects, e = .const value true noSideEffects := by
  cases e with
  | const value constexpression noSideEffects =>
    obtain rfl : constexpression = true := h
    exact ⟨value, noSideEffects, rfl⟩
  | call func arguments noSideEffects => cases h
  | var v noSideEffects =>
    rw [Expr.visit] at h
    split at h
    next =>
      split at h
      · cases h
      · cases h
    next => cases h

theorem noSideEffects_visit {k : ℕ → Option ν} {e : Expr ν}
    (h : (e.visit k).noSideEffects = true) : e.noSideEffects = true := by
  cases e with
  | const value constexpression noSideEffects => exact h
  | call func arguments noSideEffects => exact h
  | var v noSideEffects =>
    rw [Expr.visit] at h
    split at h
    next =>
      split at h
      · cases h
      · exact h
    next => exact h

theorem removed_hidden (hright : Right M table body) {x : ℕ}
    (hlocal : (table x).accessExtern = false ∧ x ∉ body.loops)
    (h : removed table (trackVariableFlags table body) x = true) :
    Hidden table (trackVariableFlags table body) x ∧
      ∀ init, (table x).init = some init → ∀ s, ∃ v, M.eval init s = (s, some v) := by
  unfold removed at h
  simp only [Bool.or_eq_true, Bool.and_eq_true, Bool.not_eq_true'] at h
  rcases h with ((⟨⟨⟨hget, href⟩, hinit⟩, hpass⟩ | ⟨⟨href, hpass⟩, hconst⟩) |
    ⟨⟨⟨href, hpass⟩, hnone⟩, hfold⟩) | ⟨⟨⟨href, hpass⟩, hget⟩, hquiet⟩
  · refine ⟨⟨href, hpass, .inl hget⟩, fun init hsome => ?_⟩
    have hnone := (Bool.or_eq_false_iff.mp hinit).1
    rw [hsome] at hnone
    cases hnone
  · obtain ⟨e, he, hvisited⟩ := (Option.any_eq_true _ _).mp hconst
    obtain ⟨init, hinit, rfl⟩ := Option.map_eq_some_iff.mp he
    obtain ⟨value, noSideEffects, rfl⟩ := constexpression_visit hvisited
    have hknown : known table (trackVariableFlags table body) x = some value := by
      rw [known, href, hlocal.1, hinit]
      rfl
    refine ⟨⟨href, hpass, .inr (by rw [hknown]; rfl)⟩, fun init' hinit' s => ⟨value, ?_⟩⟩
    obtain rfl := Option.some.inj (hinit.symm.trans hinit')
    rfl
  · have hnone' : (table x).init = none :=
      Option.map_eq_none_iff.mp (Option.isNone_iff_eq_none.mp hnone)
    have haccess : (trackVariableFlags table body x).access_init = false :=
      Bool.or_eq_false_iff.mpr ⟨by rw [hnone']; rfl, decide_eq_false hlocal.2⟩
    refine ⟨⟨href, hpass, ?_⟩, fun init hinit => ?_⟩
    · cases hget : (trackVariableFlags table body x).access_get with
      | false => exact .inl rfl
      | true =>
        refine .inr ?_
        rw [known, href, hlocal.1, hnone', hfold, haccess,
          hright.zero x haccess hget href hpass hfold]
        rfl
    · rw [hnone'] at hinit
      cases hinit
  · obtain ⟨e, he, hvisited⟩ := (Option.any_eq_true _ _).mp hquiet
    obtain ⟨init, hinit, rfl⟩ := Option.map_eq_some_iff.mp he
    refine ⟨⟨href, hpass, .inl hget⟩, fun init' hinit' => ?_⟩
    obtain rfl := Option.some.inj (hinit.symm.trans hinit')
    exact hright.quiet x init hinit (noSideEffects_visit hvisited)

theorem known_eval {flags : ℕ → Access} {x : ℕ} {init : Expr ν} {v w : ν}
    (hinit : (table x).init = some init) (heval : (M.eval init s).2 = some v)
    (hw : known table flags x = some w) : v = w := by
  obtain ⟨noSideEffects, rfl⟩ := (known_init hw).2 init hinit
  exact (Option.some.inj heval).symm

/-- How two runs end. -/
structure Ends (table : ℕ → Variable ν) (body : Stmt ν) (scope declared : List ℕ)
    (r r' : State ε ν × Control ν) : Prop where
  control : r'.2 = r.2
  alike : Same table body scope r.1 r'.1
  done : r.2 = .done → Same table body (declared ++ scope) r.1 r'.1

theorem Ends.under {x : ℕ} {xs : List ℕ} {r r' : State ε ν × Control ν}
    (h : Ends table body (x :: scope) xs r r') : Ends table body scope (x :: xs) r r' := by
  refine ⟨h.control, h.alike.mono fun y hy => List.mem_cons_of_mem _ hy, fun hdone =>
    (h.done hdone).mono fun y hy => ?_⟩
  simp only [List.mem_append, List.mem_cons] at hy ⊢
  tauto

theorem declare_same (hright : Right M table body) (xs : List ℕ)
    (hvars : ∀ v ∈ initVars table xs, v ∈ body.vars table) {scope : List ℕ}
    (hscoped : ScopedLet table body.loops scope xs) {s s' : State ε ν}
    (hs : Same table body scope s s') :
    Ends table body scope xs (M.declare table xs s)
      (M.declare (visitTable table (trackVariableFlags table body))
        (xs.filter fun x => !removed table (trackVariableFlags table body) x) s') := by
  induction xs generalizing scope s s' with
  | nil => exact ⟨rfl, hs, fun _ => hs⟩
  | cons x xs ih =>
    obtain ⟨hlocal, hreads, hrest⟩ := hscoped
    obtain ⟨hx, hxs⟩ : (∀ v ∈ ((table x).init.map Expr.vars).getD [], v ∈ body.vars table) ∧
        ∀ v ∈ initVars table xs, v ∈ body.vars table := List.forall_mem_append.mp hvars
    rw [List.filter_cons, Meaning.declare]
    cases hremoved : removed table (trackVariableFlags table body) x with
    | true =>
      rw [if_neg (by simp)]
      obtain ⟨hhidden, hquiet⟩ := removed_hidden hright hlocal hremoved
      cases hinit : (table x).init with
      | none =>
        exact (ih hxs hrest (hs.updateHidden hhidden _ fun w hw =>
          ((known_init hw).1 hinit).symm)).under
      | some init =>
        obtain ⟨v, hv⟩ := hquiet init hinit s
        dsimp only
        rw [hv]
        exact (ih hxs hrest (hs.updateHidden hhidden v fun w hw =>
          known_eval hinit (congrArg Prod.snd hv) hw)).under
    | false =>
      have hvisited : (visitTable table (trackVariableFlags table body) x).init =
          (table x).init.map (Expr.visit (known table (trackVariableFlags table body))) := rfl
      rw [if_pos (show (!false) = true from rfl), Meaning.declare, hvisited]
      cases hinit : (table x).init with
      | none =>
        exact (ih hxs hrest (hs.update x _ fun w hw => ((known_init hw).1 hinit).symm)).under
      | some init =>
        rw [hinit] at hx hreads
        obtain ⟨t, t', value, ht, ht', hsame⟩ := eval_same M hx hreads hs
        dsimp only [Option.map]
        rw [ht, ht']
        cases value with
        | none => exact ⟨rfl, hsame, fun hdone => by cases hdone⟩
        | some v =>
          exact (ih hxs hrest (hsame.update x v fun w hw =>
            known_eval hinit (congrArg Prod.snd ht) hw)).under

end Pass

/-! ### Loops -/

section Loops

variable {M : Meaning ε ν} {table : ℕ → Variable ν} {body : Stmt ν} {scope : List ℕ}

theorem visitAll_eq_map (k : ℕ → Option ν) (es : List (Expr ν)) :
    visitAll k es = es.map (Expr.visit k) := by
  induction es with
  | nil => rfl
  | cons e es ih => rw [visitAll, List.map_cons, ih]

theorem evalAll_length {es : List (Expr ν)} {s : State ε ν} {vs : List ν}
    (h : (M.evalAll es s).2 = some vs) : vs.length = es.length := by
  induction es generalizing s vs with
  | nil =>
    obtain rfl : [] = vs := Option.some.inj h
    rfl
  | cons e es ih =>
    rw [Meaning.evalAll] at h
    generalize M.eval e s = r at h
    obtain ⟨t, _ | v⟩ := r
    · cases h
    · dsimp only at h
      generalize hrest : M.evalAll es t = q at h
      obtain ⟨u, _ | rest⟩ := q
      · cases h
      · obtain rfl : v :: rest = vs := Option.some.inj h
        exact congrArg Nat.succ (ih (s := t) (by rw [hrest]))

theorem sources_same {marks : List Bool} {es : List (Expr ν)} (hlength : marks.length = es.length)
    (hvars : ∀ v ∈ Expr.varsAll es, v ∈ body.vars table) (hscope : ReadsIn scope (Expr.varsAll es))
    {s s' : State ε ν} (hquiet : QuietSources M marks es s) (hs : Same table body scope s s') :
    (M.evalAll (keep marks (visitAll (known table (trackVariableFlags table body)) es)) s').2 =
        (M.evalAll es s).2.map (keep marks) ∧
      Same table body scope (M.evalAll es s).1
        (M.evalAll (keep marks (visitAll (known table (trackVariableFlags table body)) es))
          s').1 := by
  induction es generalizing marks s s' with
  | nil =>
    obtain rfl := List.length_eq_zero_iff.mp hlength
    exact ⟨rfl, hs⟩
  | cons e es ih =>
    obtain ⟨he, hes⟩ := List.forall_mem_append.mp hvars
    obtain ⟨hein, hesin⟩ := List.forall_mem_append.mp hscope
    cases marks with
    | nil => cases hlength
    | cons mark marks =>
      have hlength' := Nat.succ.inj hlength
      cases mark with
      | false =>
        obtain ⟨⟨v, hv⟩, hrest⟩ := hquiet
        obtain ⟨hvalues, hsame⟩ := ih hlength' hes hesin hrest hs
        rw [Meaning.evalAll, hv, visitAll, keep]
        dsimp only
        rw [hvalues]
        generalize M.evalAll es s = r at hsame hvalues ⊢
        obtain ⟨t, _ | vs⟩ := r
        · exact ⟨rfl, hsame⟩
        · exact ⟨rfl, hsame⟩
      | true =>
        obtain ⟨t, t', value, ht, ht', hsame⟩ := eval_same M he hein hs
        rw [QuietSources, ht] at hquiet
        rw [Meaning.evalAll, visitAll, keep, Meaning.evalAll, ht, ht']
        cases value with
        | none => exact ⟨rfl, hsame⟩
        | some v =>
          obtain ⟨hvalues, hlast⟩ := ih hlength' hes hesin hquiet hsame
          dsimp only at hvalues hlast ⊢
          generalize M.evalAll es t = q, M.evalAll (keep marks _) t' = q' at hvalues hlast
          obtain ⟨u, values⟩ := q
          obtain ⟨u', values'⟩ := q'
          obtain rfl : values' = values.map (keep marks) := hvalues
          cases values with
          | none => exact ⟨rfl, hlast⟩
          | some vs => exact ⟨rfl, hlast⟩

/-- The variables of a loop whose sources go are hidden, and of none of them is anything known. -/
structure Loose (known : ℕ → Option ν) (hidden : ℕ → Prop) (marks : List Bool) (xs : List ℕ) :
    Prop where
  gone : ∀ p ∈ marks.zip xs, p.1 = false → hidden p.2
  unknown : ∀ x ∈ xs, known x = none

theorem bindAll_same {known : ℕ → Option ν} {hidden : ℕ → Prop} {marks : List Bool} {xs : List ℕ}
    (hloose : Loose known hidden marks xs) (hlength : marks.length = xs.length) (vs : List ν)
    {env env' : ℕ → ν} (henv : ∀ x, ¬hidden x → env' x = env x) :
    ∀ x, ¬hidden x → bindAll (keep marks xs) (keep marks vs) env' x = bindAll xs vs env x := by
  induction xs generalizing marks vs env env' with
  | nil =>
    obtain rfl := List.length_eq_zero_iff.mp hlength
    cases vs <;> exact henv
  | cons x xs ih =>
    cases marks with
    | nil => cases hlength
    | cons mark marks =>
      have hrest : Loose known hidden marks xs :=
        ⟨fun p hp => hloose.gone p (List.mem_cons_of_mem _ hp), fun y hy =>
          hloose.unknown y (List.mem_cons_of_mem _ hy)⟩
      have hlength' := Nat.succ.inj hlength
      cases vs with
      | nil =>
        have hnone : ∀ (ys : List ℕ) (e : ℕ → ν), bindAll ys [] e = e := by
          intro ys e
          cases ys <;> rfl
        have hkeep : keep (mark :: marks) ([] : List ν) = [] := by cases mark <;> rfl
        rw [hkeep, hnone, hnone]
        exact henv
      | cons v vs =>
        cases mark with
        | true =>
          refine ih hrest hlength' vs fun y hy => ?_
          by_cases hyx : y = x
          · rw [hyx, Function.update_self, Function.update_self]
          · rw [Function.update_of_ne hyx, Function.update_of_ne hyx, henv y hy]
        | false =>
          refine ih hrest hlength' vs fun y hy => ?_
          have hyx : y ≠ x := by
            rintro rfl
            exact hy (hloose.gone (false, y) List.mem_cons_self rfl)
          rw [Function.update_of_ne hyx, henv y hy]

theorem bindAll_known {known : ℕ → Option ν} {xs : List ℕ} (hxs : ∀ x ∈ xs, known x = none)
    (vs : List ν) {env : ℕ → ν} {x : ℕ} {w : ν} (hx : known x = some w) (henv : env x = w) :
    bindAll xs vs env x = w := by
  induction xs generalizing vs env with
  | nil => exact henv
  | cons y xs ih =>
    cases vs with
    | nil => exact henv
    | cons v vs =>
      obtain ⟨hy, hxs⟩ := List.forall_mem_cons.mp hxs
      refine ih hxs vs ?_
      have hxy : x ≠ y := by
        rintro rfl
        rw [hy] at hx
        cases hx
      rw [Function.update_of_ne hxy, henv]

theorem turn_same {marks : List Bool} {xs : List ℕ}
    (hloose : Loose (known table (trackVariableFlags table body))
      (Hidden table (trackVariableFlags table body)) marks xs)
    (hlength : marks.length = xs.length) {s s' : State ε ν} (hs : Same table body scope s s')
    (at_ : ℕ) (vs : List ν) :
    Same table body (xs ++ scope) { s.turn at_ with env := bindAll xs vs s.env }
      { s'.turn at_ with env := bindAll (keep marks xs) (keep marks vs) s'.env } := by
  refine ⟨hs.effects, congrArg (List.cons at_) hs.turns, bindAll_same hloose hlength vs hs.env,
    fun x hx w hw => bindAll_known hloose.unknown vs hw (hs.known x ?_ w hw)⟩
  refine (List.mem_append.mp hx).resolve_left fun hmem => ?_
  rw [hloose.unknown x hmem] at hw
  cases hw

theorem Alike.effects' {known : ℕ → Option ν} {hidden : ℕ → Prop} {s s' : State ε ν}
    (h : Alike known hidden scope s s') (effects : List ε) :
    Alike known hidden scope { s with effects := effects } { s' with effects := effects } :=
  ⟨rfl, h.turns, h.env, h.known⟩

theorem forLoop_same {marks : List Bool} {xs : List ℕ}
    (hloose : Loose (known table (trackVariableFlags table body))
      (Hidden table (trackVariableFlags table body)) marks xs)
    (hlength : marks.length = xs.length) {at_ : ℕ}
    {run run' : State ε ν → State ε ν × Control ν} {promised : State ε ν → Prop}
    (hrun : ∀ t t', Same table body (xs ++ scope) t t' → promised t →
      (run' t').2 = (run t).2 ∧ Same table body (xs ++ scope) (run t).1 (run' t').1)
    (turns : ℕ) (ps : List (ν × ν)) (hps : marks.length = ps.length) {s s' : State ε ν}
    (hturns : QuietTurns M at_ xs run promised marks turns ps s)
    (hs : Same table body scope s s') :
    (M.forLoop at_ (keep marks xs) run' turns (keep marks ps) s').2 =
        (M.forLoop at_ xs run turns ps s).2 ∧
      Same table body scope (M.forLoop at_ xs run turns ps s).1
        (M.forLoop at_ (keep marks xs) run' turns (keep marks ps) s').1 := by
  induction turns generalizing ps s s' with
  | zero => exact ⟨rfl, hs⟩
  | succ turns ih =>
    have hsub : ∀ x ∈ scope, x ∈ xs ++ scope := fun x => List.mem_append_right xs
    obtain ⟨hpromised, hrest⟩ := hturns
    have hturn := turn_same hloose hlength hs at_ (ps.map Prod.fst)
    rw [keep_map] at hturn
    obtain ⟨hcontrol, hsame⟩ := hrun _ _ hturn hpromised
    rw [Meaning.forLoop, Meaning.forLoop]
    generalize run _ = r, run' _ = r' at hcontrol hsame hrest
    obtain ⟨t, c⟩ := r
    obtain ⟨t', c'⟩ := r'
    obtain rfl : c' = c := hcontrol
    have hafter := hsame.mono hsub
    cases c'
    case «return» | «break» | jump | panic | hang => exact ⟨rfl, hafter⟩
    -- The turn is over, by itself or by `continue`.
    all_goals
      obtain ⟨hstep, hmore⟩ := hrest
      dsimp only at hstep hmore hafter ⊢
      rw [← keep_map, hafter.effects,
        advance_keep M true (hps.trans (List.length_map Prod.snd).symm) hstep]
      cases hall : M.advance true (ps.map Prod.snd) t.effects with
      | mk h r =>
        rw [hall] at hmore
        cases r with
        | none => exact ⟨rfl, hafter.effects' h⟩
        | some r =>
          cases r with
          | none => exact ⟨rfl, hafter.effects' h⟩
          | some qs =>
            refine ih qs ?_ hmore (hafter.effects' h)
            rw [hps, advance_length M hall, List.length_map]

theorem leave_same (asks : Bool) {cond : Expr ν} (hvars : ∀ v ∈ cond.vars, v ∈ body.vars table)
    (hscope : ReadsIn scope cond.vars) {s s' : State ε ν} (hs : Same table body scope s s')
    (c : Control ν) :
    (M.leave asks (cond.visit (known table (trackVariableFlags table body))) s' c).2 =
        (M.leave asks cond s c).2 ∧
      Same table body scope (M.leave asks cond s c).1
        (M.leave asks (cond.visit (known table (trackVariableFlags table body))) s' c).1 := by
  unfold Meaning.leave
  split
  · obtain ⟨t, t', value, ht, ht', hsame⟩ := eval_same M hvars hscope hs
    rw [ht, ht']
    cases value <;> exact ⟨rfl, hsame⟩
  · exact ⟨rfl, hs⟩

theorem whileLoop_same {at_ : ℕ} (asks : Bool) {cond : Expr ν}
    (hvars : ∀ v ∈ cond.vars, v ∈ body.vars table) (hscope : ReadsIn scope cond.vars)
    {run run' : State ε ν → State ε ν × Control ν} {promised : State ε ν → Prop}
    (hrun : ∀ t t', Same table body scope t t' → promised t →
      (run' t').2 = (run t).2 ∧ Same table body scope (run t).1 (run' t').1)
    (turns : ℕ) {s s' : State ε ν} (hturns : PromisedTurns M at_ cond run promised turns s)
    (hs : Same table body scope s s') :
    (M.whileLoop at_ asks (cond.visit (known table (trackVariableFlags table body))) run' turns
        s').2 = (M.whileLoop at_ asks cond run turns s).2 ∧
      Same table body scope (M.whileLoop at_ asks cond run turns s).1
        (M.whileLoop at_ asks (cond.visit (known table (trackVariableFlags table body))) run'
          turns s').1 := by
  induction turns generalizing s s' with
  | zero => exact ⟨rfl, hs⟩
  | succ turns ih =>
    obtain ⟨t, t', value, ht, ht', hsame⟩ := eval_same M hvars hscope hs
    rw [PromisedTurns, ht] at hturns
    rw [Meaning.whileLoop, Meaning.whileLoop, ht, ht']
    cases value with
    | none => exact ⟨rfl, hsame⟩
    | some v =>
      dsimp only [Meaning.choose] at hturns ⊢
      split
      next htruth =>
        obtain ⟨hpromised, hrest⟩ := hturns htruth
        have hturn : Same table body scope (t.turn at_) (t'.turn at_) :=
          ⟨hsame.effects, congrArg (List.cons at_) hsame.turns, hsame.env, hsame.known⟩
        obtain ⟨hcontrol, hafter⟩ := hrun _ _ hturn hpromised
        generalize run _ = q, run' _ = q' at hcontrol hafter hrest
        obtain ⟨u, c⟩ := q
        obtain ⟨u', c'⟩ := q'
        obtain rfl : c' = c := hcontrol
        cases c' with
        | done => exact ih hrest hafter
        | «continue» => exact ih hrest hafter
        | «break» => exact leave_same asks hvars hscope hafter _
        | «return» v => exact leave_same asks hvars hscope hafter _
        | jump label => exact ⟨rfl, hafter⟩
        | panic => exact ⟨rfl, hafter⟩
        | hang => exact ⟨rfl, hafter⟩
      next => exact ⟨rfl, hsame⟩

end Loops

/-! ### Statements -/

section Statements

variable {M : Meaning ε ν} {table : ℕ → Variable ν} {body : Stmt ν} {scope : List ℕ} {turns : ℕ}

theorem access_pass_false {x : ℕ} (h : (trackVariableFlags table body x).access_get = false) :
    (trackVariableFlags table body x).access_pass = false := by
  refine List.any_eq_false.mpr fun v hv hpass => List.any_eq_false.mp h v hv ?_
  simp only [decide_eq_true_eq] at hpass ⊢
  exact ⟨hpass.1, hpass.2.1⟩

theorem stay_gone {flags : ℕ → Access} {size : ℕ} {xs : List ℕ} :
    ∀ p ∈ (stay flags size xs).zip xs, p.1 = false → unusedIterator flags p.2 = true := by
  induction xs generalizing size with
  | nil => exact fun p hp => absurd hp (by cases stay flags size [] <;> exact List.not_mem_nil)
  | cons x rest ih =>
    intro p hp hgone
    rw [stay] at hp
    split at hp
    next hunused =>
      obtain rfl | hp := List.mem_cons.mp hp
      · exact hunused.1
      · exact ih p hp hgone
    next =>
      obtain rfl | hp := List.mem_cons.mp hp
      · cases hgone
      · exact ih p hp hgone

theorem staying_loose {allow : Bool} {xs : List ℕ} (hloops : ∀ x ∈ xs, x ∈ body.loops)
    (hinit : ∀ x ∈ xs, (table x).init = none) :
    Loose (known table (trackVariableFlags table body))
      (Hidden table (trackVariableFlags table body))
      (staying (trackVariableFlags table body) allow xs) xs := by
  refine ⟨fun p hp hgone => ?_, fun x hx => ?_⟩
  · unfold staying at hp
    split at hp
    next =>
      have hunused := stay_gone p hp hgone
      obtain ⟨href, hget⟩ := Bool.and_eq_true_iff.mp hunused
      have hget' : (trackVariableFlags table body p.2).access_get = false := by simpa using hget
      exact ⟨by simpa using href, access_pass_false hget', .inl hget'⟩
    next =>
      have htrue := List.eq_of_mem_replicate (List.of_mem_zip (a := p.1) (b := p.2) hp).1
      rw [hgone] at htrue
      cases htrue
  · have haccess : (trackVariableFlags table body x).access_init = true :=
      Bool.or_eq_true_iff.mpr (.inr (decide_eq_true (hloops x hx)))
    rw [known, hinit x hx, haccess]
    simp

theorem Ends.plain {r r' : State ε ν × Control ν}
    (h : r'.2 = r.2 ∧ Same table body scope r.1 r'.1) : Ends table body scope [] r r' :=
  ⟨h.1, h.2, fun _ => h.2⟩

theorem Ends.on {s : Stmt ν} {st : State ε ν} {r' : State ε ν × Control ν}
    (h : Ends table body scope s.declared (M.exec table turns s st) r')
    (hlost : (M.exec table turns s st).2.lost = false) :
    Same table body (s.declared ++ scope) (M.exec table turns s st).1 r'.1 := by
  by_cases hdone : (M.exec table turns s st).2 = .done
  · exact h.done hdone
  · have hdeclared : s.declared = [] := by
      cases s with
      | «let» xs =>
        rcases declare_control M table xs st with hrun | hrun
        · exact absurd hrun hdone
        · rw [Meaning.exec, hrun] at hlost
          cases hlost
      | _ => rfl
    rw [hdeclared]
    exact h.alike

theorem early_of_stops {s : Stmt ν} {rest : List (Stmt ν)} {st : State ε ν}
    (hdone : (M.exec table turns s st).2 ≠ .done)
    (hlost : (M.exec table turns s st).2.lost = false) : early (s :: rest) = [] := by
  have hstop : s.mayStop = true := by
    by_contra hstop
    rcases exec_stays s (Bool.not_eq_true _ ▸ hstop) st with hrun | hrun
    · exact hdone hrun
    · rw [hrun] at hlost
      cases hlost
  have hdeclared : s.declared = [] := by
    cases s with
    | «let» xs => cases hstop
    | _ => rfl
  rw [early, hdeclared, if_pos hstop, List.nil_append]

mutual

theorem exec_same (hright : Right M table body) (s : Stmt ν) {scope : List ℕ}
    (hvars : ∀ v ∈ s.vars table, v ∈ body.vars table) (hloops : ∀ x ∈ s.loops, x ∈ body.loops)
    (hscoped : Scoped table body.loops scope s) {st st' : State ε ν}
    (hpromised : Promised M table (trackVariableFlags table body) turns s st)
    (hs : Same table body scope st st') :
    Ends table body scope s.declared (M.exec table turns s st)
      (M.exec (visitTable table (trackVariableFlags table body)) turns
        (s.visit table (trackVariableFlags table body)) st') := by
  cases s with
  | expr e =>
    obtain ⟨t, t', value, ht, ht', hsame⟩ := eval_same M hvars hscoped hs
    rw [Stmt.visit, Meaning.exec, Meaning.exec, ht, ht']
    cases value <;> exact .plain ⟨rfl, hsame⟩
  | «let» xs =>
    rw [Stmt.visit, Meaning.exec, Meaning.exec]
    exact declare_same hright xs hvars hscoped hs
  | ifThenElse cond if_true if_false =>
    obtain ⟨hcond, hvars⟩ := List.forall_mem_append.mp hvars
    obtain ⟨htrue, hfalse⟩ := List.forall_mem_append.mp hvars
    obtain ⟨hltrue, hlfalse⟩ := List.forall_mem_append.mp hloops
    obtain ⟨hscond, hstrue, hsfalse⟩ := hscoped
    obtain ⟨t, t', value, ht, ht', hsame⟩ := eval_same M hcond hscond hs
    rw [Promised, ht] at hpromised
    rw [Stmt.visit, Meaning.exec, Meaning.exec, ht, ht']
    cases value with
    | none => exact .plain ⟨rfl, hsame⟩
    | some v =>
      dsimp only [Meaning.choose] at hpromised ⊢
      split at hpromised
      next htruth =>
        rw [if_pos htruth, if_pos htruth]
        have h := exec_same hright if_true htrue hltrue hstrue hpromised hsame
        exact .plain ⟨h.control, h.alike⟩
      next htruth =>
        rw [if_neg htruth, if_neg htruth]
        have h := exec_same hright if_false hfalse hlfalse hsfalse hpromised hsame
        exact .plain ⟨h.control, h.alike⟩
  | block list finalList =>
    obtain ⟨hvlist, hvfinal⟩ := List.forall_mem_append.mp hvars
    obtain ⟨hllist, hlfinal⟩ := List.forall_mem_append.mp hloops
    obtain ⟨hslist, hsfinal⟩ := hscoped
    obtain ⟨hplist, hpfinal⟩ := hpromised
    obtain ⟨hcontrol, hsame, hearly⟩ := execList_same hright list hvlist hllist hslist hplist hs
    rw [Stmt.visit, Meaning.exec, Meaning.exec]
    generalize M.execList table turns list st = r, M.execList _ turns (visitList _ _ list) st' = r'
      at hcontrol hsame hearly hpfinal
    obtain ⟨t, c⟩ := r
    obtain ⟨t', c'⟩ := r'
    obtain rfl : c' = c := hcontrol
    dsimp only [Control.after] at hearly hpfinal ⊢
    cases hlost : c'.lost with
    | true => exact .plain ⟨rfl, hsame⟩
    | false =>
      obtain ⟨hfinals, hlast⟩ := execFinals_same hright finalList hvfinal hlfinal hsfinal
        (hpfinal hlost) (hearly hlost)
      rw [if_neg Bool.false_ne_true, if_neg Bool.false_ne_true]
      generalize M.execFinals table turns finalList t = q,
        M.execFinals _ turns (visitList _ _ finalList) t' = q' at hfinals hlast
      obtain ⟨u, d⟩ := q
      obtain ⟨u', d'⟩ := q'
      obtain rfl : d' = d := hfinals
      exact .plain ⟨rfl, hlast.mono fun x => List.mem_append_right _⟩
  | «while» at_ cond inner =>
    obtain ⟨hcond, hinner⟩ := List.forall_mem_append.mp hvars
    obtain ⟨hscond, hsinner⟩ := hscoped
    rw [Stmt.visit, Meaning.exec, Meaning.exec]
    have hfinally : (inner.visit table (trackVariableFlags table body)).hasFinally =
        inner.hasFinally := by
      cases inner with
      | block list finalList => cases finalList <;> rfl
      | «return» subexpr => cases subexpr <;> rfl
      | _ => rfl
    rw [hfinally]
    refine .plain (whileLoop_same _ hcond hscond (fun t t' ht hp => ?_) turns hpromised hs)
    have h := exec_same hright inner hinner hloops hsinner hp ht
    exact ⟨h.control, h.alike⟩
  | «for» at_ allow iterators inner =>
    obtain ⟨hsources, hinner⟩ := List.forall_mem_append.mp hvars
    obtain ⟨hliter, hlinner⟩ := List.forall_mem_append.mp hloops
    obtain ⟨hinit, hssources, hsinner⟩ := hscoped
    obtain ⟨hquiet, hrest⟩ := hpromised
    have hlength : (staying (trackVariableFlags table body) allow (iterators.map Prod.fst)).length =
        (iterators.map Prod.snd).length := by
      rw [staying_length, List.length_map, List.length_map]
    have hloose : Loose _ _ (staying (trackVariableFlags table body) allow _) _ :=
      staying_loose (fun x hx => hloops x (List.mem_append_left _ hx)) hinit
    obtain ⟨hvalues, hsame⟩ := sources_same (M := M) hlength hsources hssources hquiet hs
    have hfst : (iterators.map fun it =>
        (it.1, it.2.visit (known table (trackVariableFlags table body)))).map Prod.fst =
        iterators.map Prod.fst := List.map_map
    have hsnd : (iterators.map fun it =>
        (it.1, it.2.visit (known table (trackVariableFlags table body)))).map Prod.snd =
        visitAll (known table (trackVariableFlags table body)) (iterators.map Prod.snd) := by
      rw [visitAll_eq_map, List.map_map, List.map_map]
      rfl
    rw [Stmt.visit, Meaning.exec, Meaning.exec, ← keep_map, ← keep_map, hfst, hsnd]
    have hits : ∀ its, (M.evalAll (iterators.map Prod.snd) st).2 = some its →
        its.length = (iterators.map Prod.snd).length := fun its => evalAll_length
    generalize M.evalAll (iterators.map Prod.snd) st = r, M.evalAll (keep _ (visitAll _ _)) st' = r'
      at hvalues hsame hrest hits
    obtain ⟨t, its⟩ := r
    obtain ⟨t', its'⟩ := r'
    obtain rfl : its' = its.map (keep _) := hvalues
    cases its with
    | none => exact .plain ⟨rfl, hsame⟩
    | some its =>
      obtain ⟨hstep, hmore⟩ := hrest
      dsimp only [Option.map] at hmore hstep hsame ⊢
      rw [hsame.effects, advance_keep M false (hlength.trans (hits its rfl).symm) hstep]
      cases hall : M.advance false its t.effects with
      | mk h r =>
        rw [hall] at hmore
        cases r with
        | none => exact .plain ⟨rfl, hsame.effects' h⟩
        | some r =>
          cases r with
          | none => exact .plain ⟨rfl, hsame.effects' h⟩
          | some ps =>
            have hps := ((advance_length M hall).trans (hits its rfl)).trans hlength.symm
            refine .plain (forLoop_same hloose (hlength.trans (by simp)) (fun u u' hu hp => ?_)
              turns ps hps.symm hmore (hsame.effects' h))
            have h := exec_same hright inner hinner hlinner hsinner hp hu
            exact ⟨h.control, h.alike⟩
  | «return» subexpr =>
    cases subexpr with
    | none => exact .plain ⟨rfl, hs⟩
    | some e =>
      obtain ⟨t, t', value, ht, ht', hsame⟩ := eval_same M hvars hscoped hs
      rw [Stmt.visit, Meaning.exec, Meaning.exec, ht, ht']
      cases value <;> exact .plain ⟨rfl, hsame⟩
  | «break» => exact .plain ⟨rfl, hs⟩
  | «continue» => exact .plain ⟨rfl, hs⟩

theorem execList_same (hright : Right M table body) (list : List (Stmt ν)) {scope : List ℕ}
    (hvars : ∀ v ∈ stmtVars table list, v ∈ body.vars table)
    (hloops : ∀ x ∈ stmtLoops list, x ∈ body.loops)
    (hscoped : ScopedList table body.loops scope list) {st st' : State ε ν}
    (hpromised : PromisedList M table (trackVariableFlags table body) turns list st)
    (hs : Same table body scope st st') :
    (M.execList (visitTable table (trackVariableFlags table body)) turns
        (visitList table (trackVariableFlags table body) list) st').2 =
        (M.execList table turns list st).2 ∧
      Same table body scope (M.execList table turns list st).1
        (M.execList (visitTable table (trackVariableFlags table body)) turns
          (visitList table (trackVariableFlags table body) list) st').1 ∧
      ((M.execList table turns list st).2.lost = false →
        Same table body (early list ++ scope) (M.execList table turns list st).1
          (M.execList (visitTable table (trackVariableFlags table body)) turns
            (visitList table (trackVariableFlags table body) list) st').1) := by
  cases list with
  | nil => exact ⟨rfl, hs, fun _ => hs⟩
  | cons s rest =>
    obtain ⟨hvs, hvrest⟩ := List.forall_mem_append.mp hvars
    obtain ⟨hls, hlrest⟩ := List.forall_mem_append.mp hloops
    obtain ⟨hss, hsrest⟩ := hscoped
    obtain ⟨hps, hprest⟩ := hpromised
    have hfirst := exec_same hright s hvs hls hss hps hs
    have hearly : (M.exec table turns s st).2 ≠ .done →
        (M.exec table turns s st).2.lost = false → early (s :: rest) = [] := early_of_stops
    rw [visitList, Meaning.execList, Meaning.execList]
    generalize M.exec table turns s st = r, M.exec _ turns (s.visit _ _) st' = r'
      at hfirst hprest hearly
    obtain ⟨t, c⟩ := r
    obtain ⟨t', c'⟩ := r'
    obtain rfl : c' = c := hfirst.control
    by_cases hdone : c' = .done
    · subst hdone
      obtain ⟨hcontrol, hlast, hall⟩ :=
        execList_same hright rest hvrest hlrest hsrest (hprest rfl) (hfirst.done rfl)
      refine ⟨hcontrol, hlast.mono fun x => List.mem_append_right _, fun hlost =>
        (hall hlost).mono fun x hx => ?_⟩
      rw [early] at hx
      split at hx
      · exact List.mem_append_right _ (by simpa using hx)
      · simp only [List.mem_append] at hx ⊢
        tauto
    · rw [Control.next_stop hdone, Control.next_stop hdone]
      exact ⟨rfl, hfirst.alike, fun hlost => (hearly hdone hlost) ▸ hfirst.alike⟩

theorem execFinals_same (hright : Right M table body) (list : List (Stmt ν)) {scope : List ℕ}
    (hvars : ∀ v ∈ stmtVars table list, v ∈ body.vars table)
    (hloops : ∀ x ∈ stmtLoops list, x ∈ body.loops)
    (hscoped : ScopedList table body.loops scope list) {st st' : State ε ν}
    (hpromised : PromisedFinals M table (trackVariableFlags table body) turns list st)
    (hs : Same table body scope st st') :
    (M.execFinals (visitTable table (trackVariableFlags table body)) turns
        (visitList table (trackVariableFlags table body) list) st').2 =
        (M.execFinals table turns list st).2 ∧
      Same table body scope (M.execFinals table turns list st).1
        (M.execFinals (visitTable table (trackVariableFlags table body)) turns
          (visitList table (trackVariableFlags table body) list) st').1 := by
  cases list with
  | nil => exact ⟨rfl, hs⟩
  | cons s rest =>
    obtain ⟨hvs, hvrest⟩ := List.forall_mem_append.mp hvars
    obtain ⟨hls, hlrest⟩ := List.forall_mem_append.mp hloops
    obtain ⟨hss, hsrest⟩ := hscoped
    obtain ⟨hps, hprest⟩ := hpromised
    have hfirst := exec_same hright s hvs hls hss hps hs
    have hon := hfirst.on
    rw [visitList, Meaning.execFinals, Meaning.execFinals]
    generalize M.exec table turns s st = r, M.exec _ turns (s.visit _ _) st' = r'
      at hfirst hprest hon
    obtain ⟨t, c⟩ := r
    obtain ⟨t', c'⟩ := r'
    obtain rfl : c' = c := hfirst.control
    dsimp only [Control.nextFinal] at hon hprest ⊢
    cases hlost : c'.lost with
    | true => exact ⟨rfl, hfirst.alike⟩
    | false =>
      obtain ⟨hcontrol, hlast⟩ :=
        execFinals_same hright rest hvrest hlrest hsrest (hprest hlost) (hon hlost)
      exact ⟨hcontrol, hlast.mono fun x => List.mem_append_right _⟩

end

end Statements

/-! ### Functions -/

section Functions

/-- What is seen of a run: how it ends and with which value, its effects and the turns of its
loops. -/
def Seen (r : State ε ν × Control ν) : Control ν × List ε × List ℕ :=
  (r.2, r.1.effects, r.1.turns)

/-- Calls report their first argument; a number is an iterator that gives so many items. -/
def counting : Meaning ℕ ℕ where
  call _ args _ := (args.take 1, some (0, args))
  next n _ := ([], some (if n = 0 then none else some (n, n - 1)))
  truth n := n ≠ 0

/-- The fifth is a constant; no variable else has an initializer. -/
def fiveConst (x : ℕ) : Variable ℕ where
  init := if x = 5 then some (.const 7 true true) else none
  zero := 0
  isFoldable := true
  zeroIsConst := true
  accessExtern := false

/-- Of two sources of a marked loop, one is unused, and it gives so many items. -/
def twoSources (given : ℕ) : Stmt ℕ :=
  .block [.let [5],
    .for 0 true [(0, .const 2 true true), (1, .const given true true)]
      (.expr (.call 0 [.var ⟨0, true, false⟩ true, .var ⟨5, true, false⟩ true] false)),
    .return (some (.var ⟨5, true, false⟩ true))] []

theorem twoSources_right (given : ℕ) : Right counting fiveConst (twoSources given) := by
  refine ⟨fun x init hinit _ s => ?_, fun _ _ _ _ _ _ => rfl⟩
  unfold fiveConst at hinit
  split at hinit
  next =>
    obtain rfl := Option.some.inj hinit
    exact ⟨7, rfl⟩
  next => cases hinit

theorem twoSources_scoped (given : ℕ) :
    Scoped fiveConst (twoSources given).loops [] (twoSources given) := by
  simp [Scoped, ScopedList, ScopedLet, ReadsIn, twoSources, Expr.vars, Expr.varsAll, fiveConst,
    Stmt.declared, Stmt.loops, stmtLoops]

theorem twoSources_promised :
    Promised counting fiveConst (trackVariableFlags fiveConst (twoSources 2)) 3 (twoSources 2)
      ⟨fun _ => 0, [], []⟩ := by
  -- The two sources are equally long, and end together.
  have hstep : ∀ n h, QuietStep counting [true, false] [n, n] h := by
    intro n h _
    refine ⟨fun it _ => ⟨_, rfl⟩, fun hkeep it hit => ?_⟩
    obtain rfl : it = n := by simpa using hit
    exact hkeep it List.mem_cons_self
  refine ⟨⟨trivial, fun _ => ⟨?_, fun _ => ⟨trivial, fun h => ?_⟩⟩⟩, fun _ => trivial⟩
  · refine ⟨⟨⟨_, rfl⟩, trivial⟩, hstep 2 _, ?_⟩
    refine ⟨trivial, hstep 1 _, trivial, hstep 0 _, trivial⟩
  · cases h

end Functions

end DaScript.UnusedLocals

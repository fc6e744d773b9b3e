import DaScript.Daslib.DecsRequests

/-!
# Daslib/DecsReuse — histories of requests, and a request that is used again

A program creates and removes entities, looks up requests that it has in variables, and restarts.
Looking up is exact in every history, as long as a request that is looked up first has no
archetypes yet.  `lookup_request` leaves its matches in the variable, and `restart` forgets the
query but not the variable.

The blocks of `for_each_archetype` and `for_eid_archetype` see archetypes and leave their shapes; a
panic ends the program.
-/

namespace DaScript.Decs

open Algorithm Stateful Generations

variable {Name : Type} [LinearOrder Name] (N : Naming Name)

/-! ## Histories -/

/-- What a program does next; `v` is a variable that has a request. -/
inductive Use (Name : Type)
  | entities (call : Call Name)
  | restart
  | assign (v : ℕ) (erq : EcsRequest Name)
  | lookup (v : ℕ)
  | forEach (v : ℕ)
  | forEachBy (hash : ComponentHash) (erq : EcsRequest Name)
  | forEid (eid : EntityId) (hash : ComponentHash) (erq : EcsRequest Name)

/-- The state of the module, and the variables of the program. -/
abbrev Program (Name : Type) := World Name × (ℕ → EcsRequest Name)

/-- What an operation leaves, if it returns. -/
def returned {α β : Type} (m : Run Name α) (f : α → World Name → β) (w : World Name) : Option β :=
  match m w with
  | .ok a w' => some (f a w')
  | .error _ _ => none

/-- One step of a program, if it returns. -/
def Use.step : Use Name → Program Name → Option (Program Name)
  | .entities call, (w, vars) => returned (call.run N) (fun _ w' => (w', vars)) w
  | .restart, (w, vars) => returned Decs.restart (fun _ w' => (w', vars)) w
  | .assign v erq, (w, vars) => some (w, Function.update vars v erq)
  | .lookup v, (w, vars) => returned (lookupRequest N (vars v))
      (fun found w' => (w', Function.update vars v found.1)) w
  | .forEach v, (w, vars) => returned (forEachArchetype N (vars v))
      (fun found w' => (w', Function.update vars v found.1)) w
  | .forEachBy hash erq, (w, vars) =>
    returned (forEachArchetypeBy N hash erq) (fun _ w' => (w', vars)) w
  | .forEid eid hash erq, (w, vars) =>
    returned (forEidArchetype N eid hash erq) (fun _ w' => (w', vars)) w

/-- One step after the other. -/
def history : List (Use Name) → Program Name → Option (Program Name)
  | [], s => some s
  | use :: uses, s => (use.step N s).bind (history uses)

/-- Callbacks keep component maps sorted, and requests are ready when they are looked up. -/
def Use.Careful : Use Name → Program Name → Prop
  | .entities call, _ => call.Tidy
  | .restart, _ => True
  | .assign _ _, _ => True
  | .lookup v, (w, vars) => Ready N w (vars v)
  | .forEach v, (w, vars) => Ready N w (vars v)
  | .forEachBy hash erq, (w, _) => Ready N w erq ∧ hash = (compiled N erq).hash
  | .forEid _ hash erq, (w, _) => Ready N w erq ∧ hash = (compiled N erq).hash

/-- Every step of a history is careful. -/
def CarefulUses : List (Use Name) → Program Name → Prop
  | [], _ => True
  | use :: uses, s => use.Careful N s ∧ ∀ s' ∈ use.step N s, CarefulUses uses s'

/-! ## Every step keeps the queries -/

theorem lookupRequest_spec {w : World Name} (hw : Cached N w) {erq : EcsRequest Name}
    (hready : Ready N w erq) :
    Spec (fun s => s = w) (lookupRequest N erq) (fun _ => Cached N) fun _ => True := by
  rintro s rfl
  obtain ⟨erq', qi, w', q, hrun, hw', -⟩ := lookupRequest_cached N hw hready
  rw [hrun]
  exact hw'

theorem queryIndex_spec {w : World Name} (hw : Cached N w) {erq : EcsRequest Name}
    (hready : Ready N w erq) (hash : ComponentHash) :
    Spec (fun s => s = w) (queryIndex N hash erq) (fun _ => Cached N) fun _ => True := by
  refine spec_get fun s hs => ?_
  subst hs
  split
  · exact spec_bind (lookupRequest_spec N hw hready) fun _ => spec_pure _ fun _ h => h
  · exact spec_pure _ fun _ h => h ▸ hw

omit [LinearOrder Name] in
theorem visit_shape (archetypes : List ℕ) : Moves (@SameShape Name) (visit archetypes) := by
  induction archetypes with
  | nil => exact moves_pure _
  | cons aidx archetypes ih =>
    refine moves_bind moves_get fun w => moves_bind (moves_orStop _ _) fun arch => ?_
    exact moves_bind ih fun _ => moves_pure _

theorem forEidArchetype_spec {w : World Name} (hw : Cached N w) {erq : EcsRequest Name}
    (hready : Ready N w erq) (eid : EntityId) (hash : ComponentHash) :
    Spec (fun s => s = w) (forEidArchetype N eid hash erq) (fun _ => Cached N) fun _ => True := by
  refine spec_get fun s hs => spec_orStop (fun _ _ _ => trivial) fun lookup _ => ?_
  subst hs
  split
  · exact spec_pure _ fun _ h => h ▸ hw
  · refine spec_bind (queryIndex_spec N hw hready hash) fun qi => moves_cached N ?_
    refine moves_bind moves_get fun w => ?_
    split
    · exact moves_pure _
    · refine moves_bind (moves_orStop _ _) fun query => ?_
      split
      · refine moves_bind (moves_orStop _ _) fun arch => moves_bind (moves_stopIf _ _) fun _ => ?_
        exact moves_bind (moves_stopIf _ _) fun _ => moves_pure _
      · exact moves_pure _

theorem cached_initial (insideQuery : ℕ) (issued : List EntityId) :
    Cached N { World.initial Name with insideQuery := insideQuery, issued := issued } :=
  ⟨fun _ h => (by cases h), fun _ _ h => (by cases h), fun _ h => (by cases h),
    fun _ _ h => (by cases h), fun _ h => (by cases h)⟩

theorem restart_spec : Spec (Cached N) restart (fun _ => Cached N) fun _ => True := by
  refine spec_get fun s _ => spec_stopIf (fun _ _ _ => trivial) fun _ => ?_
  exact spec_modify _ fun s' _ => cached_initial N s'.insideQuery s'.issued

omit [LinearOrder Name] in
theorem returned_spec {α : Type} {P Q : World Name → Prop} {m : Run Name α}
    (h : Spec P m (fun _ => Q) fun _ => True) {w w' : World Name} (hw : P w)
    {f : α → World Name → Program Name} (hf : ∀ a v, (f a v).1 = v) {vars : ℕ → EcsRequest Name}
    (hrun : returned m f w = some (w', vars)) : Q w' := by
  have hspec := h w hw
  unfold returned at hrun
  cases hm : m w with
  | ok a v =>
    rw [hm] at hspec hrun
    obtain rfl : v = w' := (hf a v).symm.trans (congrArg Prod.fst (Option.some.inj hrun))
    exact hspec
  | error e v =>
    rw [hm] at hrun
    cases hrun

theorem step_cached {use : Use Name} {w w' : World Name} {vars vars' : ℕ → EcsRequest Name}
    (hw : Cached N w) (hcareful : use.Careful N (w, vars))
    (hstep : use.step N (w, vars) = some (w', vars')) : Cached N w' := by
  cases use with
  | entities call => exact returned_spec (call_cached N hcareful) hw (fun _ _ => rfl) hstep
  | restart => exact returned_spec (restart_spec N) hw (fun _ _ => rfl) hstep
  | assign v erq => exact (Prod.mk.inj (Option.some.inj hstep)).1 ▸ hw
  | lookup v =>
    exact returned_spec (lookupRequest_spec N hw hcareful) rfl (fun _ _ => rfl) hstep
  | forEach v =>
    refine returned_spec (spec_bind (lookupRequest_spec N hw hcareful) fun found => ?_) rfl
      (fun _ _ => rfl) hstep
    refine moves_cached N (moves_bind moves_get fun w => moves_bind (moves_orStop _ _) fun q => ?_)
    exact moves_bind (visit_shape _) fun _ => moves_pure _
  | forEachBy hash erq =>
    refine returned_spec (spec_bind (queryIndex_spec N hw hcareful.1 hash) fun found => ?_) rfl
      (fun _ _ => rfl) hstep
    exact moves_cached N (moves_bind moves_get fun w => moves_bind (moves_orStop _ _) fun q =>
      visit_shape _)
  | forEid eid hash erq =>
    exact returned_spec (forEidArchetype_spec N hw hcareful.1 eid hash) rfl (fun _ _ => rfl) hstep

theorem history_cached (uses : List (Use Name)) {w w' : World Name}
    {vars vars' : ℕ → EcsRequest Name} (hw : Cached N w) (hcareful : CarefulUses N uses (w, vars))
    (hrun : history N uses (w, vars) = some (w', vars')) : Cached N w' := by
  induction uses generalizing w vars with
  | nil => exact (Prod.mk.inj (Option.some.inj hrun)).1 ▸ hw
  | cons use uses ih =>
    obtain ⟨⟨v, vars''⟩, hstep, hrest⟩ := Option.bind_eq_some_iff.mp hrun
    exact ih (step_cached N hw hcareful.1 hstep) (hcareful.2 _ hstep) hrest

/-! ## Cached queries are exact -/

theorem collisionFree_of_all {w : World Name} {erq : EcsRequest Name}
    (lists : List Name × List Name)
    (hrequest : ((compiled N erq).req, (compiled N erq).reqn) = lists)
    (harch : ∀ arch ∈ w.allArchetypes, (arch.names, []) = lists)
    (hquery : ∀ q ∈ w.ecsQueries, (q.req, q.reqn) = lists) : CollisionFree N w erq := by
  refine Set.Subsingleton.injOn (Set.subsingleton_of_forall_eq lists fun l hl => ?_) _
  obtain rfl | ⟨arch, hmem, rfl⟩ | ⟨q, hmem, rfl⟩ := hl
  · exact hrequest
  · exact harch arch hmem
  · exact hquery q hmem

/-- A request that requires `eid`, compiled. -/
def eidRequest : EcsRequest ℕ := ⟨1, [0], [], []⟩

/-- One entity, then. -/
def onePlain : List (Use ℕ) := [.entities createPlain, .entities .commit]

theorem createPlain_tidy : createPlain.Tidy :=
  fun _ _ _ hcmp heq => Option.some.inj heq ▸ hcmp

/-- A request that is looked up, and again after `restart`. -/
def reused : List (Use ℕ) :=
  [.assign 0 eidRequest, .entities createPlain, .entities .commit, .lookup 0, .restart,
    .entities createPlain, .entities .commit]

end DaScript.Decs

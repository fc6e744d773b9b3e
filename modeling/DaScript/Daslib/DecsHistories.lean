import DaScript.Daslib.DecsEntities

/-!
# Daslib/DecsHistories — every history of calls

What is carried out for `commit`, and then any list of calls one after the other: whether a call
returns or panics, the slots take steps.  The steps keep what is buried buried, as long as no id of
generation 0 is deleted whose slot is dead (`Hollow`).
-/

namespace DaScript.Decs

open Stateful Generations

variable {Name : Type}

/-! ## What goes wrong -/

/-- An id of generation 0 whose slot is dead. -/
def Hollow (w : World Name) (e : EntityId) : Prop :=
  e.generation = 0 ∧ w.generation e.id = some 0

instance (w : World Name) (e : EntityId) : Decidable (Hollow w e) :=
  inferInstanceAs (Decidable (_ ∧ _))

/-- What is carried out does not delete such an id. -/
def Action.Careful (w : World Name) : Action Name → Prop
  | .delete e => ¬Hollow w e
  | _ => True

variable [LinearOrder Name] (N : Naming Name)

/-- Nor does what is carried out after it. -/
def CarefulAll : List (Action Name) → World Name → Prop
  | [], _ => True
  | action :: rest, w => action.Careful w ∧
    match carryOut N action w with
    | .ok _ w' => CarefulAll rest w'
    | .error _ _ => True

/-- A call does not delete such an id, nor do the actions that it carries out. -/
def Call.Careful (w : World Name) : Call Name → Prop
  | .deleteEntity e => ¬Hollow w e
  | .commit => w.insideQuery = 0 → CarefulAll N w.deferActions { w with deferActions := [] }
  | _ => True

/-- One call after the other, whether they return or panic. -/
def runs : List (Call Name) → World Name → World Name
  | [], w => w
  | call :: calls, w => runs calls (left (call.run N) w)

/-- Every call of a history is careful. -/
def CarefulRun : List (Call Name) → World Name → Prop
  | [], _ => True
  | call :: calls, w => call.Careful N w ∧ CarefulRun calls (left (call.run N) w)

instance (w : World Name) : (action : Action Name) → Decidable (action.Careful w)
  | .delete e => inferInstanceAs (Decidable (¬Hollow w e))
  | .create _ _ => isTrue trivial
  | .update _ _ => isTrue trivial

instance decidableCarefulAll : (actions : List (Action Name)) → (w : World Name) →
    Decidable (CarefulAll N actions w)
  | [], _ => isTrue trivial
  | action :: rest, w =>
    @instDecidableAnd _ _ _ (match carryOut N action w with
      | .ok _ w' => decidableCarefulAll rest w'
      | .error _ _ => isTrue trivial)

instance (w : World Name) : (call : Call Name) → Decidable (call.Careful N w)
  | .deleteEntity e => inferInstanceAs (Decidable (¬Hollow w e))
  | .commit => inferInstanceAs (Decidable (w.insideQuery = 0 → CarefulAll N _ _))
  | .createEntity _ => isTrue trivial
  | .createEntities _ _ => isTrue trivial
  | .createEntitiesFromCmp _ _ _ => isTrue trivial
  | .updateEntity _ _ => isTrue trivial

instance decidableCarefulRun : (calls : List (Call Name)) → (w : World Name) →
    Decidable (CarefulRun N calls w)
  | [], _ => isTrue trivial
  | _ :: calls, _ => @instDecidableAnd _ _ _ (decidableCarefulRun calls _)

theorem runs_append (calls calls' : List (Call Name)) (w : World Name) :
    runs N (calls ++ calls') w = runs N calls' (runs N calls w) := by
  induction calls generalizing w with
  | nil => rfl
  | cons call calls ih => exact ih _

theorem carefulRun_append {calls calls' : List (Call Name)} {w : World Name}
    (h : CarefulRun N (calls ++ calls') w) :
    CarefulRun N calls w ∧ CarefulRun N calls' (runs N calls w) := by
  induction calls generalizing w with
  | nil => exact ⟨trivial, h⟩
  | cons call calls ih => exact ⟨⟨h.1, (ih h.2).1⟩, (ih h.2).2⟩

/-! ## What is carried out -/

theorem carryOut_careful {A B E : World Name → Prop} {action : Action Name}
    {rest : List (Action Name)}
    (h : Spec (fun w => A w ∧ action.Careful w) (carryOut N action) (fun _ => B) E) :
    Spec (fun w => A w ∧ CarefulAll N (action :: rest) w) (carryOut N action)
      (fun _ w => B w ∧ CarefulAll N rest w) E := by
  intro w hw
  have hrun := h w ⟨hw.1, hw.2.1⟩
  have hcareful := hw.2.2
  cases hout : carryOut N action w with
  | ok a w' =>
    rw [hout] at hrun hcareful
    exact ⟨hrun, hcareful⟩
  | error err w' =>
    rw [hout] at hrun
    exact hrun

section Closed

variable {P : Slots 32 → Prop} (hP : Closed P)
include hP

omit [LinearOrder Name] in
theorem deleteEntityImm_closed {pending : List EntityId} {put : List (Action Name)}
    (e : EntityId) :
    Spec (fun w => At P pending put w ∧ ¬Hollow w e) (deleteEntityImm e : Run Name Unit)
      (fun _ => At P pending put) (At P pending put) :=
  deleteEntityImm_spec e (fun s hs halive => hP.step hs (Step.bury s e halive.2 halive.1))
    fun _ hs _ => hs

theorem carryOut_spec (action : Action Name) (rest : List (Action Name)) :
    Spec (fun w => At P (creates (action :: rest)) [] w ∧ action.Careful w) (carryOut N action)
      (fun _ => At P (creates rest) []) (At P (creates rest) []) := by
  cases action with
  | create e blk => exact (createEntityImm_spec N hP e blk).pre fun s hs => hs.1
  | update e blk =>
    exact ((updateEntityImm_same N e blk).spec fun s s' hs hsame =>
      ⟨at_stable _ _ _ s s' hs hsame, at_stable _ _ _ s s' hs hsame⟩).pre fun s hs => hs.1
  | delete e => exact deleteEntityImm_closed hP e

theorem carryOutAll_spec (actions : List (Action Name)) :
    Spec (fun w => At P (creates actions) [] w ∧ CarefulAll N actions w)
      (actions.forM (carryOut N)) (fun _ => At P [] []) (At P [] []) := by
  induction actions with
  | nil => exact spec_pure _ fun s hs => hs.1
  | cons action rest ih =>
    refine spec_bind ((carryOut_careful N (carryOut_spec N hP action rest)).stops fun w hw => ?_)
      fun _ => ih
    exact ⟨hP.step hw.1 (Step.drop _ [] (List.nil_sublist _).subperm), hw.2⟩

/-! ## Calls -/

/-- What holds of a state, with the creations that are put off yet to settle. -/
def Keeps (P : Slots 32 → Prop) (w : World Name) : Prop :=
  At P (creates w.deferActions) w.deferActions w

/-- What is put off is only added to. -/
def KeepsAfter (P : Slots 32 → Prop) (put : List (Action Name)) (w : World Name) : Prop :=
  Keeps P w ∧ put <+: w.deferActions

omit [LinearOrder Name] hP in
theorem keeps_of_at {put : List (Action Name)} {w : World Name} (h : At P (creates put) put w) :
    KeepsAfter P put w := by
  obtain ⟨hw, rfl⟩ := h
  exact ⟨⟨hw, rfl⟩, List.prefix_refl _⟩

omit [LinearOrder Name] hP in
theorem keeps_nil {w : World Name} (h : At P [] [] w) : KeepsAfter P [] w :=
  keeps_of_at (show At P (creates []) [] w from h)

omit [LinearOrder Name] in
theorem defer_spec {pending : List EntityId} {put : List (Action Name)} (action : Action Name)
    (h : (creates (put ++ [action])).Subperm pending) {E : World Name → Prop} :
    Spec (At P pending put) (defer action) (fun _ => KeepsAfter P put) E := by
  refine spec_modify _ fun w hw => ⟨?_, ?_⟩
  · change At P (creates (w.deferActions ++ [action])) (w.deferActions ++ [action]) _
    rw [hw.2]
    exact ⟨hP.step hw.1 (Step.drop _ _ h), rfl⟩
  · rw [← hw.2]
    exact List.prefix_append _ _

/-- `commit`, which carries out what was put off. -/
def Call.isCommit : Call Name → Bool
  | .commit => true
  | _ => false

theorem call_spec (call : Call Name) (hcall : call.isCommit = false) (put : List (Action Name)) :
    Spec (At P (creates put) put) (call.run N) (fun _ => KeepsAfter P put) (KeepsAfter P put) := by
  have hnone : ∀ action : Action Name, (∀ e blk, action ≠ .create e blk) →
      creates (put ++ [action]) = creates put := by
    intro action haction
    rw [creates, List.filterMap_append]
    cases action with
    | create e blk => exact absurd rfl (haction e blk)
    | update e blk => exact List.append_nil _
    | delete e => exact List.append_nil _
  cases call with
  | createEntity blk =>
    refine spec_bind ((newEntityId_spec hP).stops fun w => keeps_of_at) fun eid => ?_
    refine defer_spec hP _ ?_
    rw [creates, List.filterMap_append]
    exact (List.perm_append_singleton eid _).subperm
  | createEntities count blk =>
    exact ((createEntities_spec N hP count blk).returns fun _ w => keeps_of_at).stops
      fun w => keeps_of_at
  | createEntitiesFromCmp count cmp fillBlk =>
    exact ((createEntitiesFromCmp_spec N hP count cmp fillBlk).returns fun _ w => keeps_of_at).stops
      fun w => keeps_of_at
  | updateEntity e blk =>
    exact defer_spec hP _ (by rw [hnone _ fun _ _ h => by cases h])
  | deleteEntity e =>
    exact defer_spec hP _ (by rw [hnone _ fun _ _ h => by cases h])
  | commit => cases hcall

theorem call_left (call : Call Name) (hcall : call.isCommit = false) {w : World Name}
    (hw : Keeps P w) : KeepsAfter P w.deferActions (left (call.run N) w) :=
  (call_spec N hP call hcall w.deferActions).left hw

theorem commit_spec :
    Spec (fun w => Keeps P w ∧ (w.insideQuery = 0 →
        CarefulAll N w.deferActions { w with deferActions := [] }))
      (commit N) (fun _ => At P [] []) (Keeps P) := by
  refine spec_get fun w ⟨hw, hcareful⟩ => spec_stopIf (fun _ s hs => hs ▸ hw) fun hquery => ?_
  refine spec_bind (spec_modify (Q := fun _ w' => At P (creates w.deferActions) [] w' ∧
    CarefulAll N w.deferActions w') _ fun s hs => ?_) fun _ => ?_
  · rw [hs]
    exact ⟨⟨hw.1, rfl⟩, hcareful (not_not.mp hquery)⟩
  · exact (carryOutAll_spec N hP w.deferActions).stops fun s hs => (keeps_nil hs).1

theorem runs_keeps (calls : List (Call Name)) {w : World Name} (hw : Keeps P w)
    (hcareful : CarefulRun N calls w) : Keeps P (runs N calls w) := by
  induction calls generalizing w with
  | nil => exact hw
  | cons call calls ih =>
    refine ih ?_ hcareful.2
    by_cases hcall : call.isCommit = false
    · exact (call_left N hP call hcall hw).1
    · cases call with
      | commit =>
        refine Spec.left ((commit_spec N hP).returns fun _ s hs => ?_) ⟨hw, hcareful.1⟩
        exact (keeps_nil hs).1
      | _ => exact absurd rfl hcall

theorem runs_put (calls : List (Call Name)) (hcalls : ∀ call ∈ calls, call.isCommit = false)
    {w : World Name} (hw : Keeps P w) : KeepsAfter P w.deferActions (runs N calls w) := by
  induction calls generalizing w with
  | nil => exact ⟨hw, List.prefix_refl _⟩
  | cons call calls ih =>
    obtain ⟨hcall, hcalls⟩ := List.forall_mem_cons.mp hcalls
    obtain ⟨hstep, hput⟩ := call_left N hP call hcall hw
    obtain ⟨hrest, hput'⟩ := ih hcalls hstep
    exact ⟨hrest, hput.trans hput'⟩

end Closed

/-! ## A deleted entity stays dead -/

theorem carryOutAll_buries (e : EntityId) (actions : List (Action Name))
    (he : Action.delete e ∈ actions) :
    Spec (fun w => At (fun s => s.Sound ∧ (s.Alive e ∨ s.Buried e)) (creates actions) [] w ∧
        CarefulAll N actions w) (actions.forM (carryOut N))
      (fun _ => At (fun s => s.Sound ∧ s.Buried e) [] []) fun _ => True := by
  induction actions with
  | nil => cases he
  | cons action rest ih =>
    obtain rfl | he := List.mem_cons.mp he
    · have hdelete : Spec (fun w => At (fun s => s.Sound ∧ (s.Alive e ∨ s.Buried e))
          (creates (Action.delete e :: rest)) [] w ∧ ¬Hollow w e)
          (carryOut N (.delete e)) (fun _ => At (fun s => s.Sound ∧ s.Buried e) (creates rest) [])
          (At (fun s => s.Sound ∧ s.Buried e) (creates rest) []) := by
        refine deleteEntityImm_spec e (fun s hs halive => ?_) fun s hs hdead => ?_
        · exact ⟨(Step.bury s e halive.2 halive.1).sound hs.1, halive.buried hs.1⟩
        · exact ⟨hs.1, hs.2.resolve_left hdead⟩
      refine spec_bind ((carryOut_careful N hdelete).stops fun _ _ => trivial) fun _ => ?_
      exact (carryOutAll_spec N (closed_buried e) rest).stops fun _ _ => trivial
    · refine spec_bind ((carryOut_careful N (carryOut_spec N (closed_alive e) action rest)).stops
        fun _ _ => trivial) fun _ => ih he

theorem commit_buries {e : EntityId} {w : World Name}
    (hw : Keeps (fun s => s.Sound ∧ (s.Alive e ∨ s.Buried e)) w)
    (he : Action.delete e ∈ w.deferActions) (hcareful : Call.Careful N w .commit)
    {w' : World Name} (hrun : commit N w = .ok () w') :
    Keeps (fun s => s.Sound ∧ s.Buried e) w' := by
  have hspec : Spec (fun s => s = w) (commit N)
      (fun _ => At (fun s => s.Sound ∧ s.Buried e) [] []) fun _ => True := by
    refine spec_get fun s hs => ?_
    subst hs
    refine spec_stopIf (fun _ _ _ => trivial) fun hquery => ?_
    refine spec_bind (spec_modify (Q := fun _ w' =>
      At (fun s => s.Sound ∧ (s.Alive e ∨ s.Buried e)) (creates s.deferActions) [] w' ∧
        CarefulAll N s.deferActions w') _ fun s' hs' => ?_) fun _ =>
      carryOutAll_buries N e s.deferActions he
    rw [hs']
    exact ⟨⟨hw.1, rfl⟩, hcareful (not_not.mp hquery)⟩
  have h := hspec w rfl
  rw [hrun] at h
  exact (keeps_nil h).1

omit [LinearOrder Name] in
theorem isAlive_iff {w : World Name} {e : EntityId} :
    isAlive w e = true ↔ e ≠ invalidEntityId ∧ w.generation e.id = some e.generation := by
  unfold isAlive World.generation
  rw [decide_eq_true_iff, Option.any_eq_true, Option.map_eq_some_iff]
  simp only [decide_eq_true_eq]

omit [LinearOrder Name] in
theorem initial_keeps : Keeps Slots.Sound (World.initial Name) := by
  refine ⟨⟨trivial, fun e he => (by cases he), fun id g hg => (by cases hg),
    fun e he => (by cases he), List.nodup_nil⟩, rfl⟩

/-- Names that are numbers; `eid` is 0. -/
def plainNaming : Naming ℕ := ⟨0, fun name => BitVec.ofNat 64 (name + 1), 1⟩

/-- Creating an entity that has nothing but its id. -/
def createPlain : Call ℕ := .createEntity fun _ cmp => some cmp

/-- The history that deletes `INVALID_ENTITY_ID` once the slot of id 0 is dead. -/
def hollowHistory : List (Call ℕ) :=
  [createPlain, createPlain, .commit, .deleteEntity ⟨0, 1⟩, .commit,
    .deleteEntity invalidEntityId, .commit, createPlain, .commit]

end DaScript.Decs

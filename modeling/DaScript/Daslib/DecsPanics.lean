import DaScript.Daslib.DecsTyped

/-!
# Daslib/DecsPanics — what a panic leaves

`with_archetype` counts the block it invokes among the queries that run, and a panic in the block
does not take it back.
-/

namespace DaScript.Decs

open Stateful

variable {Name : Type}

/-! ## How deep -/

/-- As many queries run. -/
def SameDepth (w w' : World Name) : Prop := w'.insideQuery = w.insideQuery

instance : Std.Refl (@SameDepth Name) := ⟨fun _ => rfl⟩

instance : IsTrans (World Name) SameDepth := ⟨fun _ _ _ h h' => h'.trans h⟩

section Depth

theorem changeArchetype_depth (idx : ℕ) (f : Archetype Name → Archetype Name) :
    Moves SameDepth (changeArchetype idx f) :=
  moves_modify _ fun _ => rfl

theorem changeLookup_depth (id : ℕ) (f : Lookup → Lookup) :
    Moves (@SameDepth Name) (changeLookup id f) := by
  refine moves_bind moves_get fun w => moves_bind (moves_stopIf _ _) fun _ => ?_
  exact moves_modify _ fun _ => rfl

theorem writeRow_depth (idx : ℕ) (eidx : ℤ) (cmp : ComponentMap Name)
    (grow : Component Name → Component Name) : Moves SameDepth (writeRow idx eidx cmp grow) := by
  refine moves_bind moves_get fun w => moves_bind (moves_orStop _ _) fun arch => ?_
  exact moves_bind (changeArchetype_depth _ _) fun _ => moves_stopIf _ _

theorem createRow_depth (idx : ℕ) (cmp : ComponentMap Name) :
    Moves SameDepth (createRow idx cmp) := by
  refine moves_bind moves_get fun w => moves_bind (moves_orStop _ _) fun arch => ?_
  refine moves_bind (changeArchetype_depth _ _) fun _ => ?_
  exact moves_bind (writeRow_depth _ _ _ _) fun _ => moves_pure _

theorem removeRow_depth (idx : ℕ) (di : ℤ) : Moves (@SameDepth Name) (removeRow idx di) := by
  refine moves_bind (changeArchetype_depth _ _) fun _ => moves_bind moves_get fun w => ?_
  refine moves_bind (moves_orStop _ _) fun arch => moves_bind (moves_onlyIf _ ?_) fun _ => ?_
  · refine moves_bind (moves_orStop _ _) fun eidLastId => ?_
    refine moves_bind (changeLookup_depth _ _) fun _ => ?_
    exact moves_bind (changeArchetype_depth _ _) fun _ => moves_stopIf _ _
  · exact moves_bind (moves_stopIf _ _) fun _ => changeArchetype_depth _ _

theorem newEntityId_depth : Moves (@SameDepth Name) newEntityId := by
  refine moves_bind moves_get fun w => ?_
  split
  · refine moves_bind (moves_modify _ fun _ => rfl) fun _ => ?_
    exact moves_bind (moves_modify _ fun _ => rfl) fun _ => moves_pure _
  · refine moves_bind (moves_stopIf _ _) fun _ => ?_
    refine moves_bind (moves_modify _ fun _ => rfl) fun _ => ?_
    exact moves_bind (moves_modify _ fun _ => rfl) fun _ => moves_pure _

theorem fillRow_depth (idx : ℕ) (ahash : ComponentHash) (eid : EntityId) (eidx : ℤ)
    (cmp : ComponentMap Name) : Moves SameDepth (fillRow idx ahash eid eidx cmp) :=
  moves_bind (writeRow_depth idx eidx cmp id) fun _ => changeLookup_depth _ _

theorem fillDirect_depth (idx : ℕ) (ahash : ComponentHash) (base : ℤ) (idBase : ℕ)
    (fillBlk : FillBlk Name) (more i : ℕ) :
    Moves SameDepth (fillDirect idx ahash base idBase fillBlk more i) := by
  induction more generalizing i with
  | zero => exact moves_pure _
  | succ more ih =>
    refine moves_bind moves_get fun w => moves_bind (moves_orStop _ _) fun arch => ?_
    refine moves_bind (moves_orStop _ _) fun arch' => moves_bind (changeArchetype_depth _ _)
      fun _ => ?_
    exact moves_bind (changeLookup_depth _ _) fun _ => ih _

variable [LinearOrder Name] (N : Naming Name)

theorem createComponent_depth (idx : ℕ) (kv : ComponentValue Name × ℕ) :
    Moves SameDepth (createComponent N idx kv) := by
  refine moves_bind moves_get fun w => moves_bind (moves_stopIf _ _) fun _ => ?_
  refine moves_bind (moves_onlyIf _ (moves_modify _ fun _ => rfl)) fun _ => ?_
  refine moves_bind (changeArchetype_depth _ _) fun _ => moves_onlyIf _ ?_
  refine moves_bind (moves_orStop _ _) fun arch => moves_bind (moves_stopIf _ _) fun _ => ?_
  exact changeArchetype_depth _ _

theorem createArchetype_depth (idx : ℕ) (cmp : ComponentMap Name) :
    Moves SameDepth (createArchetype N idx cmp) := by
  refine moves_bind (changeArchetype_depth _ _) fun _ => ?_
  refine moves_bind (moves_forM (createComponent_depth N idx) _) fun _ => ?_
  refine moves_bind moves_get fun w => moves_bind (moves_orStop _ _) fun arch => ?_
  exact moves_bind (moves_stopIf _ _) fun _ => moves_modify _ fun _ => rfl

theorem fillRows_depth (idx : ℕ) (ahash : ComponentHash) (base : ℤ) (blk : ℕ → Fill Name)
    (more i : ℕ) (cmp : ComponentMap Name) :
    Moves SameDepth (fillRows N idx ahash base blk more i cmp) := by
  induction more generalizing i cmp with
  | zero => exact moves_pure _
  | succ more ih =>
    refine moves_bind newEntityId_depth fun eid => moves_bind (moves_orStop _ _) fun _ => ?_
    refine moves_bind (moves_orStop _ _) fun _ => moves_bind (moves_orStop _ _) fun _ => ?_
    refine moves_bind (moves_stopIf _ _) fun _ => ?_
    exact moves_bind (fillRow_depth _ _ _ _ _) fun _ => ih _ _

end Depth

/-! ## In a block -/

theorem withArchetype_depth {hash : ComponentHash} {blk : ℕ → Bool → Run Name Unit}
    (hblk : ∀ idx isNew, Moves SameDepth (blk idx isNew)) (n : ℕ) :
    Spec (fun w => w.insideQuery = n) (withArchetype hash blk) (fun _ w => w.insideQuery = n)
      fun w => w.insideQuery = n + 1 := by
  refine spec_get fun w hw => ?_
  refine spec_bind (Q := fun _ s => s.insideQuery = n) ?_ fun _ => ?_
  · exact spec_onlyIf (fun _ => spec_modify _ fun s hs => hs ▸ hw) fun _ s hs => hs ▸ hw
  refine spec_get fun s hs => ?_
  refine spec_bind (Q := fun _ s' => s'.insideQuery = n + 1)
    (spec_modify _ fun s' hs' => by rw [hs', hs]) fun _ => ?_
  refine spec_bind (Q := fun _ s' => s'.insideQuery = n + 1)
    ((hblk _ _).spec fun s' s'' hs' hsame => ⟨hsame.trans hs', hsame.trans hs'⟩) fun _ => ?_
  exact spec_modify _ fun s' hs' => by rw [hs', Nat.add_sub_cancel]


/-! ## Before a block -/

theorem changeArchetype_stops {E : Panic → Prop} (idx : ℕ)
    (f : Archetype Name → Archetype Name) : Stops E (changeArchetype idx f) := stops_modify _

theorem writeRow_stops (idx : ℕ) (eidx : ℤ) (cmp : ComponentMap Name)
    (grow : Component Name → Component Name) :
    Stops (Panic.outOfRange = ·) (writeRow idx eidx cmp grow) := by
  refine stops_bind stops_get fun w => stops_bind (stops_orStop rfl _) fun arch => ?_
  exact stops_bind (changeArchetype_stops _ _) fun _ => stops_stopIf rfl _

theorem removeRow_stops (idx : ℕ) (di : ℤ) :
    Stops (Panic.outOfRange = ·) (removeRow idx di : Run Name Unit) := by
  refine stops_bind (changeArchetype_stops _ _) fun _ => stops_bind stops_get fun w => ?_
  refine stops_bind (stops_orStop rfl _) fun arch => stops_bind (stops_onlyIf _ ?_) fun _ => ?_
  · refine stops_bind (stops_orStop rfl _) fun eidLastId => stops_bind ?_ fun _ => ?_
    · refine stops_bind stops_get fun s => stops_bind (stops_stopIf rfl _) fun _ => ?_
      exact stops_modify _
    · exact stops_bind (changeArchetype_stops _ _) fun _ => stops_stopIf rfl _
  · exact stops_bind (stops_stopIf rfl _) fun _ => changeArchetype_stops _ _

theorem deleteEntityImm_stops (eid : EntityId) :
    Stops (Panic.outOfRange = ·) (deleteEntityImm eid : Run Name Unit) := by
  refine stops_bind stops_get fun w => stops_bind (stops_orStop rfl _) fun lookup => ?_
  refine stops_onlyIf _ (stops_bind (stops_modify _) fun _ => ?_)
  exact stops_bind (stops_orStop rfl _) fun idx => removeRow_stops idx _

theorem newEntityId_error {w w' : World Name} {p : Panic} (h : newEntityId w = .error p w') :
    p = .tooMany ∧ w' = w ∧ w.entityFreeList = [] ∧ maxEntityId < w.entityLookup.length := by
  rcases bind_error h with h | ⟨s, t, hget, h⟩
  · cases h
  obtain ⟨rfl, rfl⟩ := EStateM.Result.ok.inj hget
  cases hfree : w.entityFreeList with
  | cons eid rest =>
    rw [hfree] at h
    cases h
  | nil =>
    rw [hfree] at h
    rcases stopIf_error h with ⟨hmany, rfl, rfl⟩ | ⟨-, h⟩
    · exact ⟨rfl, rfl, rfl, hmany⟩
    · cases h

theorem newEntityId_few {w : World Name} (hfree : w.entityFreeList = [])
    (hmany : maxEntityId < w.entityLookup.length) : newEntityId w = .error .tooMany w := by
  have hget : (get : Run Name (World Name)) w = .ok w w := rfl
  simp only [newEntityId, bind, EStateM.bind, hget, hfree, stopIf, if_pos hmany]
  rfl

/-! ## Where an action panics -/

/-- A panic that comes before a block, of a callback or for an index, or one query more runs. -/
def Astray (w : World Name) (p : Panic) (w' : World Name) : Prop :=
  p = .callback ∨ p = .outOfRange ∨ p = .insideQuery ∨ w'.insideQuery = w.insideQuery + 1

theorem astray_of_stops {m : Run Name Unit} (hm : Stops (Panic.outOfRange = ·) m)
    {w s w' : World Name} {p : Panic} (h : m s = .error p w') : Astray w p w' :=
  .inr (.inl (hm s p w' h).symm)

section Actions

variable [LinearOrder Name] (N : Naming Name)

theorem place_depth (eid : EntityId) (cmp : ComponentMap Name) (hash : ComponentHash) (n : ℕ) :
    Spec (fun w => w.insideQuery = n) (place N eid cmp hash) (fun _ w => w.insideQuery = n)
      fun w => w.insideQuery = n + 1 := by
  refine withArchetype_depth (fun idx isNew => ?_) n
  refine moves_bind (moves_onlyIf _ (createArchetype_depth N idx cmp)) fun _ => ?_
  exact moves_bind (createRow_depth idx cmp) fun _ => changeLookup_depth _ _

theorem place_error {eid : EntityId} {cmp : ComponentMap Name} {hash : ComponentHash}
    {w w' : World Name} {p : Panic} (h : place N eid cmp hash w = .error p w') :
    w'.insideQuery = w.insideQuery + 1 := Spec.error (place_depth N eid cmp hash _) rfl h

theorem carryOut_error {action : Action Name} {w w' : World Name} {p : Panic}
    (h : carryOut N action w = .error p w') :
    Astray w p w' ∨ p = .typeMismatch ∧ action.supplied N w = none := by
  cases action with
  | create eid blk =>
    rcases orStop_error h with ⟨-, rfl, -⟩ | ⟨given, hgiven, h⟩
    · exact .inl (.inl rfl)
    rcases orStop_error h with ⟨hset, rfl, -⟩ | ⟨cmp, -, h⟩
    · exact .inr ⟨rfl, Option.bind_eq_none_iff.mpr fun cmp hcmp => by
        rwa [← Option.some.inj (hgiven.symm.trans hcmp)]⟩
    · exact .inl (.inr (.inr (.inr (place_error N h))))
  | update eid blk =>
    change (orStop Panic.outOfRange w.entityLookup[eid.id]? >>= _) w = _ at h
    rcases orStop_error h with ⟨-, rfl, -⟩ | ⟨lookup, hlookup, h⟩
    · exact .inl (.inr (.inl rfl))
    obtain ⟨hgeneration, h⟩ := onlyIf_error h
    rcases orStop_error h with ⟨-, rfl, -⟩ | ⟨idx, hidx, h⟩
    · exact .inl (.inr (.inl rfl))
    rcases orStop_error h with ⟨-, rfl, -⟩ | ⟨arch, harch, h⟩
    · exact .inl (.inr (.inl rfl))
    rcases orStop_error h with ⟨-, rfl, -⟩ | ⟨old, hold, h⟩
    · exact .inl (.inr (.inl rfl))
    rcases orStop_error h with ⟨-, rfl, -⟩ | ⟨given, hgiven, h⟩
    · exact .inl (.inl rfl)
    rcases orStop_error h with ⟨hset, rfl, -⟩ | ⟨cmp, -, h⟩
    · refine .inr ⟨rfl, ?_⟩
      rw [Action.supplied, hlookup, Option.bind_some, if_pos hgeneration, hidx, Option.bind_some,
        harch, Option.bind_some, hold, Option.bind_some, filled, hgiven, Option.bind_some, hset]
    refine .inl ?_
    dsimp only at h
    split at h
    · exact astray_of_stops (writeRow_stops _ _ _ _) h
    · rcases bind_error h with h | ⟨_, s, hremove, h⟩
      · exact astray_of_stops (removeRow_stops _ _) h
      · have hdepth := removeRow_depth idx lookup.index w
        rw [left, hremove] at hdepth
        refine .inr (.inr (.inr ?_))
        rw [place_error N h, hdepth]
  | delete eid => exact .inl (astray_of_stops (deleteEntityImm_stops eid) h)

theorem carryOut_depth {action : Action Name} {w w' : World Name}
    (h : carryOut N action w = .ok () w') : w'.insideQuery = w.insideQuery := by
  have hspec : Spec (fun s => s.insideQuery = w.insideQuery) (carryOut N action)
      (fun _ s => s.insideQuery = w.insideQuery) fun _ => True := by
    have hplace : ∀ eid cmp hash, Spec (fun s => s.insideQuery = w.insideQuery)
        (place N eid cmp hash) (fun _ s => s.insideQuery = w.insideQuery) fun _ => True :=
      fun eid cmp hash => (place_depth N eid cmp hash _).stops fun _ _ => trivial
    have hmoves : ∀ {m : Run Name Unit}, Moves SameDepth m →
        Spec (fun s => s.insideQuery = w.insideQuery) m
          (fun _ s => s.insideQuery = w.insideQuery) fun _ => True := fun hm =>
      hm.spec fun s s' hs hsame => ⟨hsame.trans hs, trivial⟩
    cases action with
    | create eid blk =>
      refine spec_orStop (fun _ _ _ => trivial) fun left _ => ?_
      exact spec_orStop (fun _ _ _ => trivial) fun cmp _ => hplace _ _ _
    | update eid blk =>
      refine spec_get fun s hs => spec_orStop (fun _ _ _ => trivial) fun lookup _ => ?_
      refine Spec.pre ?_ fun s' hs' => (hs' ▸ hs : s'.insideQuery = w.insideQuery)
      refine spec_onlyIf (fun _ => ?_) fun _ _ hs' => hs'
      refine spec_orStop (fun _ _ _ => trivial) fun idx _ => ?_
      refine spec_orStop (fun _ _ _ => trivial) fun arch _ => ?_
      refine spec_orStop (fun _ _ _ => trivial) fun old _ => ?_
      refine spec_orStop (fun _ _ _ => trivial) fun left _ => ?_
      refine spec_orStop (fun _ _ _ => trivial) fun cmp _ => ?_
      dsimp only
      split
      · exact hmoves (writeRow_depth _ _ _ _)
      · exact spec_bind (hmoves (removeRow_depth _ _)) fun _ => hplace _ _ _
    | delete eid =>
      refine hmoves (moves_bind moves_get fun s => moves_bind (moves_orStop _ _) fun lookup => ?_)
      refine moves_onlyIf _ (moves_bind (moves_modify _ fun _ => rfl) fun _ => ?_)
      exact moves_bind (moves_orStop _ _) fun idx => removeRow_depth idx _
  have hrun := hspec w rfl
  rwa [h] at hrun


/-! ## Where a call panics -/

/-- The last action that is carried out supplies a map, if it panics. -/
def AcceptedAll : List (Action Name) → World Name → Prop
  | [], _ => True
  | action :: rest, w =>
    match carryOut N action w with
    | .ok _ w' => AcceptedAll rest w'
    | .error _ _ => action.supplied N w ≠ none

/-- The id of an entity goes into the map that a callback has left, or into the one that is given:
a mismatch of types is that of an archetype that is created. -/
def Call.Accepted (w : World Name) : Call Name → Prop
  | .createEntities count blk => suppliedBulk N w count blk ≠ []
  | .createEntitiesFromCmp _ cmp _ => set cmp (makeEid N invalidEntityId) ≠ none
  | .commit => AcceptedAll N w.deferActions { w with deferActions := [] }
  | _ => True

/-- **A bulk or a commit that panics for its components or its ids.** -/
structure Fails (call : Call Name) (w : World Name) (p : Panic) (w' : World Name) : Prop where
  bulk : (∃ count blk, call = .createEntities count blk) ∨
    (∃ count cmp fillBlk, call = .createEntitiesFromCmp count cmp fillBlk) ∨ call = .commit
  run : call.run N w = .error p w'
  panic : p = .differs ∨ p = .tooMany ∨ p = .typeMismatch ∧ call.Accepted N w

/-- `create_entities` has no id for its first entity. -/
def Call.OutOfIds (w : World Name) : Call Name → Prop
  | .createEntities _ _ => w.entityFreeList = [] ∧ maxEntityId < w.entityLookup.length
  | _ => False

theorem commit_error {actions : List (Action Name)} {w w' : World Name} {p : Panic}
    (h : actions.forM (carryOut N) w = .error p w') :
    Astray w p w' ∨ p = .typeMismatch ∧ ¬AcceptedAll N actions w := by
  induction actions generalizing w with
  | nil => cases h
  | cons action rest ih =>
    rcases bind_error h with h | ⟨_, s, hok, h⟩
    · refine (carryOut_error N h).imp_right fun hset => ⟨hset.1, fun haccepted => ?_⟩
      rw [AcceptedAll, h] at haccepted
      exact haccepted hset.2
    · have hdepth := carryOut_depth N hok
      refine (ih h).imp (fun hastray => ?_) fun hset => ⟨hset.1, fun haccepted => hset.2 ?_⟩
      · unfold Astray at hastray ⊢
        rwa [← hdepth]
      · rwa [AcceptedAll, hok] at haccepted

theorem createEntities_error {count : ℤ} {blk : ℕ → Fill Name} {w w' : World Name} {p : Panic}
    (h : createEntities N count blk w = .error p w') :
    Astray w p w' ∨ p = .typeMismatch ∧ suppliedBulk N w count blk = [] ∨
      p = .tooMany ∧ w.entityFreeList = [] ∧ maxEntityId < w.entityLookup.length := by
  obtain ⟨hcount, h⟩ := onlyIf_error h
  change (stopIf Panic.insideQuery (w.insideQuery ≠ 0) >>= _) w = _ at h
  rcases stopIf_error h with ⟨-, rfl, -⟩ | ⟨-, h⟩
  · exact .inl (.inr (.inr (.inl rfl)))
  rcases bind_error h with h | ⟨eid, s, hid, h⟩
  · obtain ⟨rfl, -, hfree, hmany⟩ := newEntityId_error h
    exact .inr (.inr ⟨rfl, hfree, hmany⟩)
  have hdepth := newEntityId_depth w
  rw [left, hid] at hdepth
  rcases orStop_error h with ⟨-, rfl, -⟩ | ⟨given, hgiven, h⟩
  · exact .inl (.inl rfl)
  rcases orStop_error h with ⟨hset, rfl, -⟩ | ⟨cmp, -, h⟩
  · obtain ⟨more, hmore⟩ : ∃ more, count.toNat = more + 1 :=
      Nat.exists_eq_succ_of_ne_zero (by omega)
    have hnext := newEntityId_next (K := ⟨fun _ => 0, fun _ _ => True, fun _ => trivial⟩) w more
      w rfl
    rw [hid] at hnext
    refine .inr (.inl ⟨rfl, ?_⟩)
    rw [suppliedBulk, hmore, hnext.2]
    dsimp only
    rw [filled, hgiven, Option.bind_some, hset]
  · refine .inl (.inr (.inr (.inr ?_)))
    rw [Spec.error (withArchetype_depth (fun idx isNew => ?_) s.insideQuery) rfl h, hdepth]
    refine moves_bind (moves_onlyIf _ (createArchetype_depth N idx cmp)) fun _ => ?_
    refine moves_bind moves_get fun s' => moves_bind (moves_orStop _ _) fun arch => ?_
    refine moves_bind (changeArchetype_depth _ _) fun _ => ?_
    refine moves_bind (fillRow_depth _ _ _ _ _) fun _ => ?_
    exact moves_bind (fillRows_depth N _ _ _ _ _ _ _) fun _ => changeArchetype_depth _ _

theorem createEntitiesFromCmp_error {count : ℤ} {cmp : ComponentMap Name} {fillBlk : FillBlk Name}
    {w w' : World Name} {p : Panic}
    (h : createEntitiesFromCmp N count cmp fillBlk w = .error p w') :
    Astray w p w' ∨ p = .typeMismatch ∧ set cmp (makeEid N invalidEntityId) = none := by
  obtain ⟨hcount, h⟩ := onlyIf_error h
  change (stopIf Panic.insideQuery (w.insideQuery ≠ 0) >>= _) w = _ at h
  rcases stopIf_error h with ⟨-, rfl, -⟩ | ⟨-, h⟩
  · exact .inl (.inr (.inr (.inl rfl)))
  rcases orStop_error h with ⟨hset, rfl, -⟩ | ⟨cmp', -, h⟩
  · exact .inr ⟨rfl, hset⟩
  refine .inl (.inr (.inr (.inr ?_)))
  refine Spec.error (withArchetype_depth (fun idx isNew => ?_) w.insideQuery) rfl h
  refine moves_bind (moves_onlyIf _ (createArchetype_depth N idx cmp')) fun _ => ?_
  refine moves_bind moves_get fun s' => moves_bind (moves_orStop _ _) fun arch => ?_
  refine moves_bind (changeArchetype_depth _ _) fun _ => moves_bind (moves_stopIf _ _) fun _ => ?_
  refine moves_bind (moves_modify _ fun _ => rfl) fun _ => moves_bind (moves_stopIf _ _) fun _ => ?_
  exact moves_bind (fillDirect_depth _ _ _ _ _ _ _) fun _ => changeArchetype_depth _ _

variable {N}

theorem Fails.deeper {call : Call Name} {w w' : World Name} {p : Panic} (h : Fails N call w p w') :
    w'.insideQuery = w.insideQuery + 1 ∨ call.OutOfIds w := by
  have hdeeper : Astray w p w' → w'.insideQuery = w.insideQuery + 1 := by
    have hpanic := h.panic
    rintro (rfl | rfl | rfl | hdeeper)
    · simp at hpanic
    · simp at hpanic
    · simp at hpanic
    · exact hdeeper
  have haccepted : p = .typeMismatch → call.Accepted N w := by
    rintro rfl
    simpa using h.panic
  have hrun := h.run
  rcases h.bulk with ⟨count, blk, rfl⟩ | ⟨count, cmp, fillBlk, rfl⟩ | rfl
  · rcases createEntities_error N hrun with hastray | ⟨hp, hnone⟩ | ⟨-, hfew⟩
    · exact .inl (hdeeper hastray)
    · exact absurd hnone (haccepted hp)
    · exact .inr hfew
  · rcases createEntitiesFromCmp_error N hrun with hastray | ⟨hp, hnone⟩
    · exact .inl (hdeeper hastray)
    · exact absurd hnone (haccepted hp)
  · change (stopIf Panic.insideQuery (w.insideQuery ≠ 0) >>= _) w = _ at hrun
    rcases stopIf_error hrun with ⟨-, rfl, -⟩ | ⟨-, hrun⟩
    · exact .inl (hdeeper (.inr (.inr (.inl rfl))))
    · rcases commit_error N (w := { w with deferActions := [] }) hrun with
        hastray | ⟨hp, hnone⟩
      · exact .inl (hdeeper hastray)
      · exact absurd (haccepted hp) hnone

theorem Fails.unchanged {call : Call Name} {w w' : World Name} {p : Panic}
    (h : Fails N call w p w') (hids : call.OutOfIds w) : w' = w := by
  have hrun := h.run
  rcases h.bulk with ⟨count, blk, rfl⟩ | ⟨count, cmp, fillBlk, rfl⟩ | rfl
  · obtain ⟨hcount, hrun⟩ := onlyIf_error hrun
    change (stopIf Panic.insideQuery (w.insideQuery ≠ 0) >>= _) w = _ at hrun
    rcases stopIf_error hrun with ⟨-, -, hsame⟩ | ⟨-, hrun⟩
    · exact hsame
    have hid := newEntityId_few hids.1 hids.2
    rcases bind_error hrun with hrun | ⟨eid, s, hok, -⟩
    · exact (newEntityId_error hrun).2.1
    · rw [hid] at hok
      cases hok
  · exact absurd hids id
  · exact absurd hids id

end Actions

/-! ## Usable states -/

section Usable

variable [LinearOrder Name] (N : Naming Name)

/-- **An archetype that is built**: all its components are there, with their rows, and one of them
is the id. -/
structure Archetype.Built (arch : Archetype Name) : Prop where
  hashed : arch.components.foldl (fun ahash c => ahash.rotateLeft 2 ^^^ N.hash c.name) 0 = arch.hash
  eid : ∃ c, at' arch.components arch.eidIndex = some c ∧ c.name = N.eid
  size : 0 ≤ arch.size
  whole : ∀ c ∈ arch.components, (c.data.length : ℤ) = arch.size * c.stride

/-- The id in a row of an archetype. -/
def Archetype.eidAt (arch : Archetype Name) (index : ℤ) : Option (List UInt8) :=
  (at' arch.components arch.eidIndex).bind fun ceid => copyOut ceid.data (index * ceid.stride) 8

/-- **A state that can be used**: what is looked up is built, and an id that is alive, and that was
given to an entity, is in its row. -/
structure Usable (w : World Name) : Prop where
  built : ∀ hash found, w.archetypeLookup hash = found + 1 →
    ∃ arch, w.allArchetypes[found]? = some arch ∧ arch.hash = hash ∧ arch.Built N
  alive : ∀ eid : EntityId, isAlive w eid = true → eid.generation ≠ 0 →
    ∃ lookup found arch, w.entityLookup[eid.id]? = some lookup ∧
      w.archetypeLookup lookup.archetype = found + 1 ∧ w.allArchetypes[found]? = some arch ∧
      0 ≤ lookup.index ∧ lookup.index < arch.size ∧
      arch.eidAt lookup.index = some ((eidBytes eid).take 8)

/-- **A bulk or a commit that panics for its components or its ids leaves a usable state, with as
many queries that run, exactly where `create_entities` has no id for its first entity.** -/
theorem panic_usable_iff {call : Call Name} {w w' : World Name} {p : Panic} (hw : Usable N w)
    (h : Fails N call w p w') :
    w'.insideQuery = w.insideQuery ∧ Usable N w' ↔ call.OutOfIds w := by
  refine ⟨fun hafter => h.deeper.resolve_left fun hdeeper => ?_, fun hids => ?_⟩
  · have hsame := hafter.1
    omega
  · rw [h.unchanged hids]
    exact ⟨rfl, hw⟩

end Usable

theorem initial_usable {Name : Type} [LinearOrder Name] (N : Naming Name) :
    Usable N (World.initial Name) := by
  refine ⟨fun _ _ h => absurd h.symm (Nat.succ_ne_zero _), fun eid halive _ => ?_⟩
  exact absurd (isAlive_iff.mp halive).2 (by rintro ⟨⟩)

/-- Two entities, the second of which has a component more. -/
def uneven : Call ℕ := .createEntities 2 fun i _ cmp =>
  if i = 0 then some cmp else set cmp ⟨1, ⟨5, 4⟩, List.replicate 4 1⟩

/-- With what a call panics. -/
def panicOf (m : Run ℕ Unit) (w : World ℕ) : Option Panic :=
  match m w with
  | .ok _ _ => none
  | .error p _ => some p

theorem error_of_panicOf {m : Run ℕ Unit} {w : World ℕ} {p : Panic} (h : panicOf m w = some p) :
    m w = .error p (left m w) := by
  unfold panicOf at h
  unfold left
  cases hm : m w with
  | ok a s =>
    rw [hm] at h
    cases h
  | error p' s =>
    rw [hm] at h
    exact congrArg (EStateM.Result.error · s) (Option.some.inj h)

theorem uneven_fails : Fails plainNaming uneven (.initial ℕ) .differs
    (left (uneven.run plainNaming) (.initial ℕ)) :=
  ⟨.inl ⟨2, _, rfl⟩, error_of_panicOf (by decide), .inl rfl⟩

theorem panic_usable_iff_uneven :
    (left (uneven.run plainNaming) (.initial ℕ)).insideQuery = 0 ∧
        Usable plainNaming (left (uneven.run plainNaming) (.initial ℕ)) ↔
      uneven.OutOfIds (.initial ℕ) :=
  panic_usable_iff plainNaming (initial_usable plainNaming) uneven_fails

theorem uneven_unusable :
    Usable plainNaming (.initial ℕ) ∧
    panicOf (uneven.run plainNaming) (.initial ℕ) = some .differs ∧
    (left (uneven.run plainNaming) (.initial ℕ)).insideQuery = 1 ∧
    (left (uneven.run plainNaming) (.initial ℕ)).allArchetypes.map
      (fun arch => (arch.size, arch.components.map fun c => c.data.length)) = [(0, [16])] ∧
    isAlive (left (uneven.run plainNaming) (.initial ℕ)) ⟨0, 1⟩ ∧
    ¬Usable plainNaming (left (uneven.run plainNaming) (.initial ℕ)) ∧
    panicOf (Call.run plainNaming .commit) (left (uneven.run plainNaming) (.initial ℕ)) =
      some .insideQuery := by
  refine ⟨initial_usable plainNaming, by decide, by decide, by decide, by decide, fun h => ?_,
    by decide⟩
  obtain ⟨lookup, found, arch, -, -, harch, hlow, hhigh, -⟩ :=
    h.alive ⟨0, 1⟩ (by decide) (by decide)
  have hsize : ∀ arch ∈ (left (uneven.run plainNaming) (.initial ℕ)).allArchetypes,
      arch.size = 0 := by decide
  rw [hsize arch (List.mem_of_getElem? harch)] at hhigh
  exact absurd hhigh (not_lt.mpr hlow)

end DaScript.Decs

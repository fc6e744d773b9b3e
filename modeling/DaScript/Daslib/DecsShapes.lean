import DaScript.Daslib.Decs

/-!
# Daslib/DecsShapes — what a query can see

A query sees the hash of an archetype and the names of its components (`shape`), in their order.
Rows come and go unseen: of all operations only `create_archetype` adds a shape, and none changes
one.
-/

namespace DaScript.Decs

open Stateful

variable {Name : Type}

/-! ## What a query can see -/

/-- The names of the components of an archetype. -/
def Archetype.names (arch : Archetype Name) : List Name := arch.components.map Component.name

/-- What a query can see of an archetype. -/
def Archetype.shape (arch : Archetype Name) : ComponentHash × List Name := (arch.hash, arch.names)

/-- Two states with the same archetypes to see, the same queries, and the same put off. -/
structure SameShape (w w' : World Name) : Prop where
  shapes : w'.allArchetypes.map Archetype.shape = w.allArchetypes.map Archetype.shape
  archetypeLookup : w'.archetypeLookup = w.archetypeLookup
  ecsQueries : w'.ecsQueries = w.ecsQueries
  queryLookup : w'.queryLookup = w.queryLookup
  deferActions : w'.deferActions = w.deferActions

instance : Std.Refl (@SameShape Name) := ⟨fun _ => ⟨rfl, rfl, rfl, rfl, rfl⟩⟩

instance : IsTrans (World Name) SameShape := ⟨fun _ _ _ h h' =>
  ⟨h'.shapes.trans h.shapes, h'.archetypeLookup.trans h.archetypeLookup,
    h'.ecsQueries.trans h.ecsQueries, h'.queryLookup.trans h.queryLookup,
    h'.deferActions.trans h.deferActions⟩⟩

theorem sameShape_of_eq {w w' : World Name} (harchetypes : w'.allArchetypes = w.allArchetypes)
    (hlookup : w'.archetypeLookup = w.archetypeLookup) (hqueries : w'.ecsQueries = w.ecsQueries)
    (hquery : w'.queryLookup = w.queryLookup) (hdefer : w'.deferActions = w.deferActions) :
    SameShape w w' :=
  ⟨by rw [harchetypes], hlookup, hqueries, hquery, hdefer⟩

/-! ## Rows are not seen -/

theorem map_modify_eq {α β : Type} (l : List α) (i : ℕ) (f : α → α) (g : α → β)
    (h : ∀ a, l[i]? = some a → g (f a) = g a) : (l.modify i f).map g = l.map g := by
  refine List.ext_getElem? fun j => ?_
  rw [List.getElem?_map, List.getElem?_map, List.getElem?_modify]
  by_cases hij : i = j
  · subst hij
    cases hi : l[i]? with
    | none => rfl
    | some a => simp [h a hi]
  · simp [hij]

theorem modify_shape (w : World Name) (idx : ℕ) (f : Archetype Name → Archetype Name)
    (hf : ∀ arch, w.allArchetypes[idx]? = some arch → (f arch).shape = arch.shape) :
    SameShape w { w with allArchetypes := w.allArchetypes.modify idx f } :=
  ⟨map_modify_eq w.allArchetypes idx f Archetype.shape hf, rfl, rfl, rfl, rfl⟩

theorem changeArchetype_shape (idx : ℕ) (f : Archetype Name → Archetype Name)
    (hf : ∀ arch, (f arch).shape = arch.shape) : Moves SameShape (changeArchetype idx f) :=
  moves_modify _ fun w => modify_shape w idx f fun arch _ => hf arch

theorem changeLookup_shape (id : ℕ) (f : Lookup → Lookup) :
    Moves (@SameShape Name) (changeLookup id f) := by
  unfold changeLookup
  refine moves_bind moves_get fun w => moves_bind (moves_stopIf _ _) fun _ => ?_
  exact moves_modify _ fun w => sameShape_of_eq rfl rfl rfl rfl rfl

theorem eachColumn_names {f : Component Name → ComponentValue Name → Component Name × Bool}
    (hf : ∀ c comp, (f c comp).1.name = c.name) (components : List (Component Name))
    (cmp : ComponentMap Name) :
    (eachColumn f components cmp).1.map Component.name = components.map Component.name := by
  induction components generalizing cmp with
  | nil => cases cmp <;> rfl
  | cons c components ih =>
    cases cmp with
    | nil => rfl
    | cons comp cmp =>
      rw [eachColumn]
      split
      · rw [List.map_cons, List.map_cons, ih, hf]
      · rw [List.map_cons, List.map_cons, hf]

theorem write_name (c : Component Name) (eidx : ℤ) (comp : ComponentValue Name) :
    (c.write eidx comp).1.name = c.name := by
  unfold Component.write
  split <;> rfl

theorem writeRow_shape (idx : ℕ) (eidx : ℤ) (cmp : ComponentMap Name)
    (grow : Component Name → Component Name) (hgrow : ∀ c, (grow c).name = c.name) :
    Moves SameShape (writeRow idx eidx cmp grow) := by
  refine moves_of_spec fun w => spec_get fun w' hw => ?_
  subst hw
  refine spec_orStop (fun _ s hs => hs ▸ refl_of _ _) fun arch harch => ?_
  refine spec_bind (spec_modify (Q := fun _ => SameShape w') _ fun s hs => ?_) fun _ =>
    (moves_stopIf _ _).after w'
  subst hs
  refine modify_shape s idx _ fun arch' harch' => ?_
  obtain rfl : arch = arch' := Option.some.inj (harch.symm.trans harch')
  refine congrArg (Prod.mk arch.hash) (eachColumn_names (fun c comp => ?_) arch.components cmp)
  rw [write_name, hgrow]

theorem createRow_shape (idx : ℕ) (cmp : ComponentMap Name) :
    Moves SameShape (createRow idx cmp) := by
  unfold createRow
  refine moves_bind moves_get fun w => moves_bind (moves_orStop _ _) fun arch => ?_
  refine moves_bind (changeArchetype_shape _ _ fun _ => rfl) fun _ => ?_
  exact moves_bind (writeRow_shape _ _ _ _ fun _ => rfl) fun _ => moves_pure _

theorem fillHoles_names (di last : ℤ) (components : List (Component Name)) :
    (fillHoles di last components).1.map Component.name = components.map Component.name := by
  induction components with
  | nil => rfl
  | cons c components ih =>
    rw [fillHoles]
    cases hfill : c.fillHole di last with
    | none => rfl
    | some c' =>
      have hname : c'.name = c.name := by
        obtain ⟨bytes, -, hbytes⟩ := Option.bind_eq_some_iff.mp hfill
        obtain ⟨data, -, rfl⟩ := Option.map_eq_some_iff.mp hbytes
        rfl
      simp only [List.map_cons, ih, hname]

theorem resize_shape (arch : Archetype Name) (length : Component Name → ℕ) :
    Archetype.shape { arch with
      components := arch.components.map fun c => c.resize (length c) } = arch.shape := by
  refine congrArg (Prod.mk arch.hash) ?_
  rw [Archetype.names, List.map_map]
  rfl

theorem removeRow_shape (idx : ℕ) (di : ℤ) : Moves (@SameShape Name) (removeRow idx di) := by
  refine moves_bind (changeArchetype_shape _ _ fun _ => rfl) fun _ => ?_
  refine moves_of_spec fun w => spec_get fun w' hw => ?_
  subst hw
  have hrefl : ∀ s, s = w' → SameShape w' s := fun s hs => hs ▸ refl_of SameShape w'
  refine spec_orStop (fun _ => hrefl) fun arch harch => ?_
  refine spec_bind (Q := fun _ => SameShape w') (spec_onlyIf (fun _ => ?_) fun _ => hrefl)
    fun _ => ?_
  · refine spec_orStop (fun _ => hrefl) fun eidLastId _ => ?_
    have hlookup : Spec (fun s => s = w') (changeLookup eidLastId fun lookup =>
        { lookup with index := di }) (fun _ s => SameShape w' s ∧
          s.allArchetypes = w'.allArchetypes) (SameShape w') := by
      refine spec_get fun s hs => spec_stopIf (fun _ s' hs' => hrefl s' (hs'.trans hs)) fun _ =>
        spec_modify _ fun s' hs' => ?_
      rw [hs', hs]
      exact ⟨sameShape_of_eq rfl rfl rfl rfl rfl, rfl⟩
    refine spec_bind hlookup fun _ => ?_
    refine spec_bind (spec_modify (Q := fun _ => SameShape w') _ fun s hs => ?_) fun _ =>
      (moves_stopIf _ _).after w'
    refine trans_of SameShape hs.1 (modify_shape s idx _ fun arch' harch' => ?_)
    rw [hs.2] at harch'
    obtain rfl : arch = arch' := Option.some.inj (harch.symm.trans harch')
    exact congrArg (Prod.mk arch.hash) (fillHoles_names di arch.size arch.components)
  · refine spec_stopIf (fun _ s hs => hs) fun _ => ?_
    exact (changeArchetype_shape _ _ fun arch => resize_shape arch _).after w'

theorem deleteEntityImm_shape (eid : EntityId) :
    Moves (@SameShape Name) (deleteEntityImm eid) := by
  unfold deleteEntityImm
  refine moves_bind moves_get fun w => moves_bind (moves_orStop _ _) fun lookup => ?_
  refine moves_onlyIf _ (moves_bind (moves_modify _ fun _ => sameShape_of_eq rfl rfl rfl rfl rfl)
    fun _ => ?_)
  exact moves_bind (moves_orStop _ _) fun idx => removeRow_shape idx _

theorem newEntityId_shape : Moves (@SameShape Name) newEntityId := by
  unfold newEntityId
  refine moves_bind moves_get fun w => ?_
  have hissue : ∀ eid, Moves (@SameShape Name) (issue eid) := fun eid =>
    moves_modify _ fun _ => sameShape_of_eq rfl rfl rfl rfl rfl
  cases w.entityFreeList with
  | cons eid rest =>
    refine moves_bind (moves_modify _ fun _ => sameShape_of_eq rfl rfl rfl rfl rfl) fun _ => ?_
    exact moves_bind (hissue _) fun _ => moves_pure _
  | nil =>
    refine moves_bind (moves_stopIf _ _) fun _ => ?_
    refine moves_bind (moves_modify _ fun _ => sameShape_of_eq rfl rfl rfl rfl rfl) fun _ => ?_
    exact moves_bind (hissue _) fun _ => moves_pure _

theorem fillRow_shape (idx : ℕ) (ahash : ComponentHash) (eid : EntityId) (eidx : ℤ)
    (cmp : ComponentMap Name) : Moves SameShape (fillRow idx ahash eid eidx cmp) :=
  moves_bind (writeRow_shape idx eidx cmp id fun _ => rfl) fun _ => changeLookup_shape _ _

/-- A block that fills rows keeps the hash and the names of the archetype. -/
def FillsRows (fillBlk : FillBlk Name) : Prop :=
  ∀ arch eidx eid i arch', fillBlk arch eidx eid i = some arch' → arch'.shape = arch.shape

theorem fillDirect_shape {fillBlk : FillBlk Name} (hfill : FillsRows fillBlk) (idx : ℕ)
    (ahash : ComponentHash) (base : ℤ) (idBase more i : ℕ) :
    Moves SameShape (fillDirect idx ahash base idBase fillBlk more i) := by
  induction more generalizing i with
  | zero => exact moves_pure _
  | succ more ih =>
    refine moves_of_spec fun w => spec_get fun w' hw => ?_
    subst hw
    refine spec_orStop (fun _ s hs => hs ▸ refl_of _ _) fun arch harch => ?_
    refine spec_orStop (fun _ s hs => hs ▸ refl_of _ _) fun arch' harch' => ?_
    refine spec_bind (spec_modify (Q := fun _ => SameShape w') _ fun s hs => ?_) fun _ => ?_
    · subst hs
      refine modify_shape s idx _ fun old hold => ?_
      obtain rfl : arch = old := Option.some.inj (harch.symm.trans hold)
      exact hfill _ _ _ _ _ harch'
    · exact (moves_bind (changeLookup_shape _ _) fun _ => ih (i + 1)).after w'

end DaScript.Decs

import DaScript.Daslib.Decs

/-!
# Daslib/DecsEntities — a deleted entity stays dead

The ids of entities are handles of slots (`slots`), and every call takes steps there and nowhere
else, with one exception.  0 is the generation of a slot that is dead, and of `INVALID_ENTITY_ID`:
deleting an id of generation 0 whose slot is dead buries it once more, and its id is taken twice.
-/

namespace DaScript.Decs

open Stateful Generations

variable {Name : Type}

/-! ## Slots -/

/-- The generation of a slot. -/
def World.generation (w : World Name) (id : ℕ) : Option (BitVec 32) :=
  (w.entityLookup[id]? : Option Lookup).map Lookup.generation

/-- The slots of a state, with the handles that are yet to settle. -/
def slots (pending : List EntityId) (w : World Name) : Slots 32 where
  generation := w.generation
  free := w.entityFreeList
  pending := pending
  issued := w.issued

/-- Two states with the same slots, and with the same put off. -/
structure Same (w w' : World Name) : Prop where
  generation : w'.generation = w.generation
  free : w'.entityFreeList = w.entityFreeList
  issued : w'.issued = w.issued
  deferActions : w'.deferActions = w.deferActions

instance : Std.Refl (@Same Name) := ⟨fun _ => ⟨rfl, rfl, rfl, rfl⟩⟩

instance : IsTrans (World Name) Same := ⟨fun _ _ _ h h' =>
  ⟨h'.generation.trans h.generation, h'.free.trans h.free,
    h'.issued.trans h.issued, h'.deferActions.trans h.deferActions⟩⟩

theorem Same.slots {w w' : World Name} (h : Same w w') (pending : List EntityId) :
    slots pending w' = slots pending w :=
  Slots.ext h.generation h.free rfl h.issued

/-! ## Rows and archetypes move nothing -/

theorem same_of_eq {w w' : World Name} (hlookup : w'.entityLookup = w.entityLookup)
    (hfree : w'.entityFreeList = w.entityFreeList) (hissued : w'.issued = w.issued)
    (hdefer : w'.deferActions = w.deferActions) : Same w w' :=
  ⟨funext fun id => by rw [World.generation, hlookup]; rfl, hfree, hissued, hdefer⟩

theorem changeArchetype_same (idx : ℕ) (f : Archetype Name → Archetype Name) :
    Moves Same (changeArchetype idx f) :=
  moves_modify _ fun _ => same_of_eq rfl rfl rfl rfl

theorem generation_modify {w : World Name} {id : ℕ} {lookup : Lookup}
    (h : w.entityLookup[id]? = some lookup) (f : Lookup → Lookup) :
    World.generation { w with entityLookup := w.entityLookup.modify id f } =
      Function.update w.generation id (some (f lookup).generation) := by
  funext id'
  unfold World.generation
  rw [List.getElem?_modify]
  by_cases hid : id = id'
  · subst hid
    rw [Function.update_self, h]
    simp
  · rw [Function.update_of_ne (Ne.symm hid)]
    simp [hid]

theorem slots_modify {w : World Name} {id : ℕ} {lookup : Lookup}
    (h : w.entityLookup[id]? = some lookup) (f : Lookup → Lookup) (free pending : List EntityId) :
    slots pending { w with
        entityLookup := w.entityLookup.modify id f, entityFreeList := free } =
      ⟨Function.update w.generation id (some (f lookup).generation), free, pending, w.issued⟩ :=
  Slots.ext (generation_modify h f) rfl rfl rfl

theorem same_modify (w : World Name) (id : ℕ) (f : Lookup → Lookup)
    (hf : ∀ lookup, w.entityLookup[id]? = some lookup →
      (f lookup).generation = lookup.generation) :
    Same w { w with entityLookup := w.entityLookup.modify id f } := by
  refine ⟨?_, rfl, rfl, rfl⟩
  cases hlookup : w.entityLookup[id]? with
  | none =>
    funext id'
    unfold World.generation
    rw [List.getElem?_modify]
    by_cases hid : id = id'
    · rw [← hid, hlookup]
      rfl
    · simp [hid]
  | some lookup =>
    rw [generation_modify hlookup, hf lookup hlookup]
    refine Function.update_eq_self_iff.mpr ?_
    rw [World.generation, hlookup]
    rfl

theorem changeLookup_same (id : ℕ) (f : Lookup → Lookup)
    (hf : ∀ lookup, (f lookup).generation = lookup.generation) :
    Moves (@Same Name) (changeLookup id f) := by
  unfold changeLookup
  refine moves_bind moves_get fun w => moves_bind (moves_stopIf _ _) fun _ => ?_
  exact moves_modify _ fun w => same_modify w id f fun lookup _ => hf lookup

theorem writeRow_same (idx : ℕ) (eidx : ℤ) (cmp : ComponentMap Name)
    (grow : Component Name → Component Name) : Moves Same (writeRow idx eidx cmp grow) := by
  unfold writeRow
  refine moves_bind moves_get fun w => moves_bind (moves_orStop _ _) fun arch => ?_
  exact moves_bind (changeArchetype_same _ _) fun _ => moves_stopIf _ _

theorem createRow_same (idx : ℕ) (cmp : ComponentMap Name) : Moves Same (createRow idx cmp) := by
  unfold createRow
  refine moves_bind moves_get fun w => moves_bind (moves_orStop _ _) fun arch => ?_
  refine moves_bind (changeArchetype_same _ _) fun _ => ?_
  exact moves_bind (writeRow_same _ _ _ _) fun _ => moves_pure _

theorem removeRow_same (idx : ℕ) (di : ℤ) : Moves (@Same Name) (removeRow idx di) := by
  unfold removeRow
  refine moves_bind (changeArchetype_same _ _) fun _ => moves_bind moves_get fun w => ?_
  refine moves_bind (moves_orStop _ _) fun arch => moves_bind (moves_onlyIf _ ?_) fun _ => ?_
  · refine moves_bind (moves_orStop _ _) fun eidLastId => ?_
    refine moves_bind (changeLookup_same _ _ fun _ => rfl) fun _ => ?_
    exact moves_bind (changeArchetype_same _ _) fun _ => moves_stopIf _ _
  · exact moves_bind (moves_stopIf _ _) fun _ => changeArchetype_same _ _

/-- A predicate of states that only their slots, and what is put off, have a say in. -/
def Stable (P : World Name → Prop) : Prop := ∀ w w', P w → Same w w' → P w'

theorem withArchetype_spec {P Q : World Name → Prop} (hP : Stable P) (hQ : Stable Q)
    {hash : ComponentHash} {blk : ℕ → Bool → Run Name Unit}
    (hblk : ∀ idx isNew, Spec P (blk idx isNew) (fun _ => Q) Q) :
    Spec P (withArchetype hash blk) (fun _ => Q) Q := by
  unfold withArchetype
  refine spec_get fun w hw => ?_
  have hstart : Spec (fun w' => w' = w) (onlyIf (decide (w.archetypeLookup hash = 0) = true)
      (modify fun w => { w with
        allArchetypes := w.allArchetypes ++ [⟨hash, [], 0, 0⟩]
        archetypeLookup := Function.update w.archetypeLookup hash (w.allArchetypes.length + 1) }) :
      Run Name Unit) (fun _ => P) Q := by
    refine spec_onlyIf (fun _ => spec_modify _ fun s hs => ?_) fun _ s hs => hs ▸ hw
    exact hP w _ hw (hs ▸ same_of_eq rfl rfl rfl rfl)
  refine spec_bind hstart fun _ => spec_get fun w' hw' => ?_
  refine spec_bind (spec_modify (Q := fun _ => P) _ fun s hs => ?_) fun _ => ?_
  · exact hP w' _ hw' (hs ▸ same_of_eq rfl rfl rfl rfl)
  · refine spec_bind (hblk _ _) fun _ => spec_modify _ fun s hs => ?_
    exact hQ s _ hs (same_of_eq rfl rfl rfl rfl)

/-! ## What every step keeps, every operation keeps -/

/-- What holds of the slots, with what is yet to settle and what is put off. -/
def At (P : Slots 32 → Prop) (pending : List EntityId) (put : List (Action Name))
    (w : World Name) : Prop :=
  P (slots pending w) ∧ w.deferActions = put

theorem at_stable (P : Slots 32 → Prop) (pending : List EntityId) (put : List (Action Name)) :
    Stable (At P pending put) := by
  intro w w' hw hsame
  refine ⟨?_, hsame.deferActions.trans hw.2⟩
  rw [hsame.slots]
  exact hw.1

/-- The creations among what is put off. -/
def creates (put : List (Action Name)) : List EntityId :=
  put.filterMap fun action => match action with
    | .create eid _ => some eid
    | _ => none

theorem generation_append (w : World Name) :
    World.generation { w with entityLookup := w.entityLookup ++ [⟨0, 0, 0⟩] } =
      Function.update w.generation w.entityLookup.length (some 0) := by
  funext id
  unfold World.generation
  obtain hid | rfl | hid := lt_trichotomy id w.entityLookup.length
  · rw [Function.update_of_ne hid.ne, List.getElem?_append_left hid]
  · rw [Function.update_self, List.getElem?_append_right le_rfl, Nat.sub_self]
    rfl
  · rw [Function.update_of_ne hid.ne', List.getElem?_eq_none (by simp; omega),
      List.getElem?_eq_none hid.le]

theorem slots_append (pending : List EntityId) (w : World Name) :
    slots pending { w with entityLookup := w.entityLookup ++ [⟨0, 0, 0⟩] } =
      { slots pending w with
        generation := Function.update w.generation w.entityLookup.length (some 0) } :=
  Slots.ext (generation_append w) rfl rfl rfl

theorem generation_none {w : World Name} {id : ℕ} (h : w.entityLookup.length ≤ id) :
    w.generation id = none := by
  rw [World.generation, List.getElem?_eq_none h]
  rfl

theorem direct_succ (idBase count : ℕ) :
    direct idBase (count + 1) = ⟨idBase, 1⟩ :: direct (idBase + 1) count := by
  rw [direct, List.range'_succ, List.map_cons]
  rfl

theorem uses_direct (idBase count : ℕ) (issued : List EntityId) {id : ℕ} (hid : id < idBase) :
    uses (direct idBase count ++ issued) id = uses issued id := by
  have hnone : uses (direct idBase count) id = 0 := by
    refine List.countP_eq_zero.mpr fun e he heq => ?_
    obtain ⟨id', hid', rfl⟩ := List.mem_map.mp he
    have hle := (List.mem_range'_1.mp hid').1
    have heq : id' = id := of_decide_eq_true heq
    omega
  rw [uses, List.countP_append]
  unfold uses at hnone
  rw [hnone, Nat.zero_add]
  rfl

section Closed

variable {P : Slots 32 → Prop} (hP : Closed P) {pending : List EntityId}
  {put : List (Action Name)}
include hP

theorem take_direct {s : Slots 32} (hs : P s) (idBase count : ℕ)
    (hdead : ∀ id, idBase ≤ id → id < idBase + count → s.generation id = some 0)
    (hnew : ∀ id, idBase ≤ id → uses s.issued id = 0) :
    P { s with
      pending := direct idBase count ++ s.pending, issued := direct idBase count ++ s.issued } := by
  induction count generalizing idBase with
  | zero => exact hs
  | succ count ih =>
    rw [direct_succ]
    have hrest := ih (idBase + 1) (fun id hlow hhigh => hdead id (by omega) (by omega))
      fun id hlow => hnew id (by omega)
    refine hP.step hrest (Step.first _ idBase (hdead idBase le_rfl (by omega)) ?_)
    rw [uses_direct _ _ _ (Nat.lt_succ_self idBase)]
    exact hnew idBase le_rfl

theorem grow_slots {w : World Name} (h : P (slots pending w)) (n : ℕ) :
    P (slots pending { w with
      entityLookup := w.entityLookup ++ List.replicate n ⟨0, 0, 0⟩ }) := by
  induction n generalizing w with
  | zero => simpa using h
  | succ n ih =>
    have hstep := hP.step h (Step.grow _ _ (generation_none (w := w) le_rfl))
    rw [List.replicate_succ, List.append_cons]
    exact ih ((congrArg P (slots_append pending w)).mpr hstep)

theorem take_slots {w : World Name} (h : P (slots pending w)) (n : ℕ) :
    P (slots (direct w.entityLookup.length n ++ pending) { w with
      entityLookup := w.entityLookup ++ List.replicate n ⟨0, 0, 0⟩
      issued := direct w.entityLookup.length n ++ w.issued }) := by
  refine take_direct hP (grow_slots hP h n) w.entityLookup.length n (fun id hlow hhigh => ?_)
    fun id hlow => (hP.sound h).unused (generation_none hlow)
  change ((w.entityLookup ++ List.replicate n ⟨0, 0, 0⟩)[id]?).map Lookup.generation = some 0
  rw [List.getElem?_append_right hlow, List.getElem?_replicate, if_pos (by omega)]
  rfl

theorem at_forget {e : EntityId} {w : World Name} (h : At P (e :: pending) put w) :
    At P pending put w :=
  ⟨hP.step h.1 (Step.drop _ pending (List.sublist_cons_self e pending).subperm), h.2⟩

theorem newEntityId_spec :
    Spec (At P pending put) (newEntityId : Run Name EntityId) (fun e => At P (e :: pending) put)
      (At P pending put) := by
  unfold newEntityId
  refine spec_get fun w hw => ?_
  cases hfree : w.entityFreeList with
  | cons eid rest =>
    refine spec_bind (spec_modify (Q := fun _ w' => w' = { w with entityFreeList := rest }) _
      fun s hs => hs ▸ rfl) fun _ => ?_
    refine spec_bind (spec_modify (Q := fun _ => At P (eid.next :: pending) put) _
      fun s hs => ?_) fun _ => spec_pure _ fun s hs => hs
    rw [hs]
    exact ⟨hP.step hw.1 (Step.reuse (slots pending w) eid rest hfree), hw.2⟩
  | nil =>
    refine spec_stopIf (fun _ s hs => hs ▸ hw) fun _ => ?_
    refine spec_bind (spec_modify (Q := fun _ w' => w' = { w with
      entityLookup := w.entityLookup ++ [⟨0, 0, 0⟩] }) _ fun s hs => hs ▸ rfl) fun _ => ?_
    refine spec_bind (spec_modify
      (Q := fun _ => At P (⟨w.entityLookup.length, 1⟩ :: pending) put) _ fun s hs => ?_)
      fun _ => spec_pure _ fun s hs => hs
    rw [hs]
    have hgrown : P (slots pending { w with entityLookup := w.entityLookup ++ [⟨0, 0, 0⟩] }) :=
      grow_slots hP hw.1 1
    refine ⟨hP.step hgrown (Step.first _ w.entityLookup.length ?_ ?_), hw.2⟩
    · change World.generation { w with entityLookup := w.entityLookup ++ [⟨0, 0, 0⟩] } _ = _
      rw [generation_append, Function.update_self]
    · exact (hP.sound hw.1).unused (generation_none le_rfl)

theorem settle_spec (e : EntityId) (archetype : ComponentHash) (index : ℤ) :
    Spec (At P (e :: pending) put) (changeLookup e.id fun _ => ⟨e.generation, archetype, index⟩ :
      Run Name Unit) (fun _ => At P pending put) (At P pending put) := by
  unfold changeLookup
  refine spec_get fun w hw => ?_
  refine spec_stopIf (fun _ s hs => hs ▸ at_forget hP hw) fun hlt => spec_modify _ fun s hs => ?_
  rw [hs]
  refine ⟨?_, hw.2⟩
  have hlookup := List.getElem?_eq_getElem (not_le.mp hlt)
  refine (congrArg P (slots_modify hlookup _ w.entityFreeList pending)).mpr ?_
  exact hP.step hw.1 (Step.settle (slots (e :: pending) w) e pending rfl)

theorem same_spec {m : Run Name Unit} (hm : Moves Same m) (e : EntityId) :
    Spec (At P (e :: pending) put) m (fun _ => At P (e :: pending) put) (At P pending put) := by
  refine hm.spec fun w w' hw hsame => ?_
  have h := at_stable _ _ _ w w' hw hsame
  exact ⟨h, at_forget hP h⟩

theorem fillRow_spec (idx : ℕ) (ahash : ComponentHash) (e : EntityId) (eidx : ℤ)
    (cmp : ComponentMap Name) :
    Spec (At P (e :: pending) put) (fillRow idx ahash e eidx cmp) (fun _ => At P pending put)
      (At P pending put) :=
  spec_bind (same_spec hP (writeRow_same idx eidx cmp id) e) fun _ => settle_spec hP e ahash eidx

theorem fillDirect_spec (idx : ℕ) (ahash : ComponentHash) (base : ℤ) (idBase : ℕ)
    (fillBlk : FillBlk Name) (more i : ℕ) :
    Spec (At P (direct (idBase + i) more ++ pending) put)
      (fillDirect idx ahash base idBase fillBlk more i) (fun _ => At P pending put)
      (At P pending put) := by
  induction more generalizing i with
  | zero => exact spec_pure _ fun s hs => hs
  | succ more ih =>
    have hforget : ∀ s : World Name, At P (direct (idBase + i) (more + 1) ++ pending) put s →
        At P pending put s := fun s hs =>
      ⟨hP.step hs.1 (Step.drop _ pending (List.sublist_append_right _ pending).subperm), hs.2⟩
    refine spec_get fun w hw => spec_orStop (fun _ s hs => hforget s (hs ▸ hw)) fun arch _ => ?_
    refine spec_orStop (fun _ s hs => hforget s (hs ▸ hw)) fun arch' _ => ?_
    rw [direct_succ, List.cons_append] at hw
    refine spec_bind ((changeArchetype_same idx _).spec fun s s' hs hsame => ?_) fun _ =>
      spec_bind ((settle_spec hP ⟨idBase + i, 1⟩ ahash _).stops fun s hs => ?_) fun _ => ih (i + 1)
    · have h := at_stable _ _ _ s s' (hs ▸ hw) hsame
      refine ⟨h, hforget s' ?_⟩
      rw [direct_succ]
      exact h
    · exact ⟨hP.step hs.1 (Step.drop _ pending (List.sublist_append_right _ pending).subperm), hs.2⟩

end Closed

theorem deleteEntityImm_spec {P R : Slots 32 → Prop} {pending : List EntityId}
    {put : List (Action Name)} (e : EntityId)
    (hR : ∀ s, P s → s.Alive e → R { s with
      generation := Function.update s.generation e.id (some 0), free := e :: s.free })
    (hPR : ∀ s, P s → ¬s.Alive e → R s) :
    Spec (fun w => At P pending put w ∧ ¬(e.generation = 0 ∧ w.generation e.id = some 0))
      (deleteEntityImm e : Run Name Unit) (fun _ => At R pending put) (At R pending put) := by
  unfold deleteEntityImm
  refine spec_get fun w ⟨hw, hcareful⟩ => ?_
  refine spec_orStop (fun hnone s hs => ?_) fun lookup hlookup => ?_
  · rw [hs]
    refine ⟨hPR _ hw.1 fun halive => ?_, hw.2⟩
    have halive := halive.2
    change w.generation e.id = _ at halive
    rw [World.generation, hnone] at halive
    cases halive
  · have hfound : w.generation e.id = some lookup.generation := by
      rw [World.generation, hlookup]
      rfl
    refine spec_onlyIf (fun hgeneration => ?_) fun hgeneration s hs => ?_
    · have halive : (slots pending w).Alive e :=
        ⟨fun hzero => hcareful ⟨hzero, by rw [hfound, hgeneration, hzero]⟩,
          hfound.trans (congrArg some hgeneration)⟩
      refine spec_bind (spec_modify (Q := fun _ => At R pending put) _ fun s hs => ?_) fun _ => ?_
      · rw [hs]
        refine ⟨(congrArg R (slots_modify hlookup _ (e :: w.entityFreeList) pending)).mpr ?_, hw.2⟩
        exact hR _ hw.1 halive
      · refine spec_orStop (fun _ s hs => hs) fun idx _ => ?_
        exact (removeRow_same idx lookup.index).spec fun s s' hs hsame =>
          ⟨at_stable _ _ _ s s' hs hsame, at_stable _ _ _ s s' hs hsame⟩
    · rw [hs]
      refine ⟨hPR _ hw.1 fun halive => hgeneration ?_, hw.2⟩
      exact Option.some.inj (hfound.symm.trans halive.2)

/-! ## The operations -/

variable [LinearOrder Name] (N : Naming Name)

theorem createComponent_same (idx : ℕ) (kv : ComponentValue Name × ℕ) :
    Moves Same (createComponent N idx kv) := by
  unfold createComponent
  refine moves_bind moves_get fun w => moves_bind (moves_stopIf _ _) fun _ => ?_
  refine moves_bind (moves_onlyIf _ (moves_modify _ fun _ => same_of_eq rfl rfl rfl rfl))
    fun _ => ?_
  refine moves_bind (changeArchetype_same _ _) fun _ => moves_onlyIf _ ?_
  refine moves_bind (moves_orStop _ _) fun arch => moves_bind (moves_stopIf _ _) fun _ => ?_
  exact changeArchetype_same _ _

theorem createArchetype_same (idx : ℕ) (cmp : ComponentMap Name) :
    Moves Same (createArchetype N idx cmp) := by
  unfold createArchetype
  refine moves_bind (changeArchetype_same _ _) fun _ => ?_
  refine moves_bind (moves_forM (createComponent_same N idx) _) fun _ => ?_
  refine moves_bind moves_get fun w => moves_bind (moves_orStop _ _) fun arch => ?_
  exact moves_bind (moves_stopIf _ _) fun _ => moves_modify _ fun _ => same_of_eq rfl rfl rfl rfl

section Closed

variable {P : Slots 32 → Prop} (hP : Closed P) {pending : List EntityId}
  {put : List (Action Name)}
include hP

theorem place_spec (e : EntityId) (cmp : ComponentMap Name) (hash : ComponentHash) :
    Spec (At P (e :: pending) put) (place N e cmp hash) (fun _ => At P pending put)
      (At P pending put) := by
  refine withArchetype_spec (at_stable _ _ _) (at_stable _ _ _) fun idx isNew => ?_
  refine spec_bind (same_spec hP (moves_onlyIf _ (createArchetype_same N idx cmp)) e) fun _ => ?_
  refine spec_bind ((createRow_same idx cmp).spec fun w w' hw hsame => ?_) fun eidx =>
    settle_spec hP e hash eidx
  have h := at_stable _ _ _ w w' hw hsame
  exact ⟨h, at_forget hP h⟩

theorem createEntityImm_spec (e : EntityId) (blk : Fill Name) :
    Spec (At P (e :: pending) put) (createEntityImm N e blk) (fun _ => At P pending put)
      (At P pending put) := by
  unfold createEntityImm
  refine spec_orStop (fun _ s hs => at_forget hP hs) fun cmp _ => ?_
  refine spec_orStop (fun _ s hs => at_forget hP hs) fun cmp _ => ?_
  exact place_spec N hP e cmp _

omit hP in
theorem place_same {w : World Name} {e : EntityId} (he : w.generation e.id = some e.generation)
    (cmp : ComponentMap Name) (hash : ComponentHash) :
    Spec (Same w) (place N e cmp hash) (fun _ => Same w) (Same w) := by
  have hstable : Stable (Same w) := fun s s' hs hsame => trans_of Same hs hsame
  refine withArchetype_spec hstable hstable fun idx isNew => ?_
  refine spec_bind ((moves_onlyIf _ (createArchetype_same N idx cmp)).after w) fun _ => ?_
  refine spec_bind ((createRow_same idx cmp).after w) fun eidx => ?_
  unfold changeLookup
  refine spec_get fun s hs => ?_
  refine spec_stopIf (fun _ s' h => h ▸ hs) fun _ => spec_modify _ fun s' h => ?_
  rw [h]
  refine hstable s _ hs (same_modify s e.id _ fun lookup hlookup => ?_)
  have hgeneration := congrFun hs.generation e.id
  rw [he, World.generation, hlookup] at hgeneration
  exact (Option.some.inj hgeneration).symm

omit hP in
theorem updateEntityImm_same (e : EntityId) (blk : Fill Name) :
    Moves Same (updateEntityImm N e blk) := by
  refine moves_of_spec fun w => ?_
  have hrefl : ∀ s, s = w → Same w s := fun s hs => hs ▸ refl_of Same w
  unfold updateEntityImm
  refine spec_get fun w' hw => ?_
  subst hw
  refine spec_orStop (fun _ => hrefl) fun lookup hlookup =>
    spec_onlyIf (fun hgeneration => ?_) fun _ => hrefl
  refine spec_orStop (fun _ => hrefl) fun idx _ => spec_orStop (fun _ => hrefl) fun arch _ => ?_
  refine spec_orStop (fun _ => hrefl) fun cmp _ => spec_orStop (fun _ => hrefl) fun cmp' _ => ?_
  refine spec_orStop (fun _ => hrefl) fun cmp'' _ => ?_
  have he : w'.generation e.id = some e.generation := by
    rw [World.generation, hlookup, Option.map_some, hgeneration]
  dsimp only
  split
  · exact (writeRow_same _ _ _ _).start w'
  · refine spec_bind ((removeRow_same idx lookup.index).start w') fun _ => ?_
    exact place_same N he _ _

theorem fillRows_spec (idx : ℕ) (ahash : ComponentHash) (base : ℤ) (blk : ℕ → Fill Name)
    (more i : ℕ) (cmp : ComponentMap Name) :
    Spec (At P pending put) (fillRows N idx ahash base blk more i cmp) (fun _ => At P pending put)
      (At P pending put) := by
  induction more generalizing i cmp with
  | zero => exact spec_pure _ fun s hs => hs
  | succ more ih =>
    refine spec_bind (newEntityId_spec hP) fun eid => ?_
    have hforget : ∀ s : World Name, At P (eid :: pending) put s → At P pending put s :=
      fun s hs => at_forget hP hs
    refine spec_orStop (fun _ => hforget) fun _ _ => spec_orStop (fun _ => hforget) fun _ _ => ?_
    refine spec_orStop (fun _ => hforget) fun _ _ => spec_stopIf (fun _ => hforget) fun _ => ?_
    exact spec_bind (fillRow_spec hP idx ahash eid _ _) fun _ => ih _ _

theorem createEntities_spec (count : ℤ) (blk : ℕ → Fill Name) :
    Spec (At P pending put) (createEntities N count blk) (fun _ => At P pending put)
      (At P pending put) := by
  refine spec_onlyIf (fun _ => spec_get fun w hw => ?_) fun _ s hs => hs
  refine spec_stopIf (fun _ s hs => hs ▸ hw) fun _ => ?_
  refine spec_bind ((newEntityId_spec hP).pre fun s hs => hs ▸ hw) fun eid => ?_
  have hforget : ∀ s : World Name, At P (eid :: pending) put s → At P pending put s :=
    fun s hs => at_forget hP hs
  refine spec_orStop (fun _ => hforget) fun _ _ => spec_orStop (fun _ => hforget) fun cmp _ => ?_
  refine withArchetype_spec (at_stable _ _ _) (at_stable _ _ _) fun idx isNew => ?_
  refine spec_bind (same_spec hP (moves_onlyIf _ (createArchetype_same N idx cmp)) eid) fun _ => ?_
  refine spec_get fun w' hw' => spec_orStop (fun _ s hs => hforget s (hs ▸ hw')) fun arch _ => ?_
  refine spec_bind ((same_spec hP (changeArchetype_same idx _) eid).pre fun s hs => hs ▸ hw')
    fun _ => spec_bind (fillRow_spec hP idx _ eid _ _) fun _ => ?_
  refine spec_bind (fillRows_spec N hP idx _ _ blk _ _ _) fun _ => ?_
  exact (changeArchetype_same idx _).spec fun s s' hs hsame =>
    ⟨at_stable _ _ _ s s' hs hsame, at_stable _ _ _ s s' hs hsame⟩

theorem createEntitiesFromCmp_spec (count : ℤ) (cmp : ComponentMap Name)
    (fillBlk : FillBlk Name) :
    Spec (At P pending put) (createEntitiesFromCmp N count cmp fillBlk) (fun _ => At P pending put)
      (At P pending put) := by
  refine spec_onlyIf (fun _ => spec_get fun w hw => ?_) fun _ s hs => hs
  refine spec_stopIf (fun _ s hs => hs ▸ hw) fun _ => ?_
  refine spec_orStop (fun _ s hs => hs ▸ hw) fun cmp _ => Spec.pre ?_ fun s hs => hs ▸ hw
  refine withArchetype_spec (at_stable _ _ _) (at_stable _ _ _) fun idx isNew => ?_
  have hstay : ∀ s s' : World Name, At P pending put s → Same s s' →
      At P pending put s' ∧ At P pending put s' := fun s s' hs hsame =>
    ⟨at_stable _ _ _ s s' hs hsame, at_stable _ _ _ s s' hs hsame⟩
  refine spec_bind ((moves_onlyIf _ (createArchetype_same N idx cmp)).spec hstay) fun _ => ?_
  refine spec_get fun w' hw' => spec_orStop (fun _ s hs => hs ▸ hw') fun arch _ => ?_
  refine spec_bind (spec_modify (Q := fun _ s => At P pending put s ∧
    s.entityLookup = w'.entityLookup) _ fun s hs => ?_) fun _ => ?_
  · rw [hs]
    exact ⟨at_stable _ _ _ w' _ hw' (same_of_eq rfl rfl rfl rfl), rfl⟩
  refine spec_stopIf (fun _ s hs => hs.1) fun _ => ?_
  refine spec_bind (spec_modify (Q := fun _ =>
    At P (direct w'.entityLookup.length count.toNat ++ pending) put) _ fun s hs => ?_) fun _ => ?_
  · rw [← hs.2]
    exact ⟨take_slots hP hs.1.1 count.toNat, hs.1.2⟩
  have hforget : ∀ s : World Name,
      At P (direct w'.entityLookup.length count.toNat ++ pending) put s →
      At P pending put s := fun s hs =>
    ⟨hP.step hs.1 (Step.drop _ pending (List.sublist_append_right _ pending).subperm), hs.2⟩
  refine spec_stopIf (fun _ => hforget) fun _ => ?_
  refine spec_bind (fillDirect_spec hP idx _ _ _ fillBlk _ 0) fun _ => ?_
  exact (changeArchetype_same idx _).spec hstay

end Closed

end DaScript.Decs

import DaScript.Daslib.DecsColumns

/-!
# Daslib/DecsTyped — the types of the values in a column

Only a new archetype looks at the types of a map, and the `set` that overwrites.  A map whose names
hash to an archetype that is there is copied into its columns as it is.

Where all maps have the types of the columns they go to (`Fits`), the rows are of the types of their
columns (`columns_typed`).
-/

namespace DaScript.Decs

open Stateful

variable {Name : Type} (K : Kinds)

/-! ## Within an archetype -/

/-- What holds where an archetype has the columns `T`, from the state `w₀` before. -/
structure Done (w₀ : World Name) (T : List (Name × BitVec 64)) (w : World Name) : Prop where
  typed : Typed K w
  recorded : ∀ p ∈ T, p.2 ≠ 0 ∧ (w.componentTypeCheck p.1).hash = p.2
  since : ∀ name, (w₀.componentTypeCheck name).hash ≠ 0 →
    w.componentTypeCheck name = w₀.componentTypeCheck name
  deferred : w.deferActions = w₀.deferActions

/-- And where that archetype is known. -/
structure Within (w₀ : World Name) (idx : ℕ) (T : List (Name × BitVec 64)) (w : World Name) :
    Prop extends Done K w₀ T w where
  types : TypesAt idx T w

/-- What is left where a call panics. -/
def Out (w₀ w : World Name) : Prop := Typed K w ∧ w.deferActions = w₀.deferActions

section Within

variable {K} {w₀ w w' : World Name} {idx : ℕ} {T : List (Name × BitVec 64)}
  {cmp : ComponentMap Name}

theorem Done.out (h : Done K w₀ T w) : Out K w₀ w := ⟨h.typed, h.deferred⟩

theorem Done.rows (h : Done K w₀ T w) (hrows : Rows K w w') : Done K w₀ T w' :=
  ⟨hrows.typed h.typed, hrows.componentTypeCheck ▸ h.recorded,
    hrows.componentTypeCheck ▸ h.since, hrows.deferActions.trans h.deferred⟩

theorem Within.rows (h : Within K w₀ idx T w) (hrows : Rows K w w') : Within K w₀ idx T w' :=
  ⟨h.toDone.rows hrows, hrows.typesAt h.types⟩

theorem Within.moves {α : Type} {m : Run Name α} (hm : Moves (Rows K) m) :
    Spec (Within K w₀ idx T) m (fun _ => Within K w₀ idx T) (Out K w₀) :=
  hm.spec fun _ _ hs hrows => ⟨hs.rows hrows, (hs.rows hrows).out⟩

theorem Typed.recorded (hw : Typed K w) {arch : Archetype Name} (harch : arch ∈ w.allArchetypes)
    {p : Name × BitVec 64} (hp : p ∈ arch.types) :
    p.2 ≠ 0 ∧ (w.componentTypeCheck p.1).hash = p.2 := by
  obtain ⟨c, hc, rfl⟩ := List.mem_map.mp hp
  exact ⟨(hw.columns arch harch c hc).known, (hw.columns arch harch c hc).checked⟩

theorem Done.within (hw : Done K w₀ [] w) {arch : Archetype Name}
    (harch : w.allArchetypes[idx]? = some arch) (htypes : arch.types = T) :
    Within K w₀ idx T w := by
  refine ⟨⟨hw.typed, fun p hp => ?_, hw.since, hw.deferred⟩, fun arch' harch' => ?_⟩
  · exact hw.typed.recorded (List.mem_of_getElem? harch) (htypes ▸ hp)
  · rwa [← Option.some.inj (harch.symm.trans harch')]

theorem writeRow_within (hcmp : MapOf K cmp) (hT : types cmp = T) (eidx : ℤ)
    {grow : Component Name → Component Name}
    (hname : ∀ c, (grow c).name = c.name) (hinfo : ∀ c, (grow c).info = c.info)
    (hgrow : ∀ check (c : Component Name), c.Of K check → (grow c).Of K check) :
    Spec (Within K w₀ idx T) (writeRow idx eidx cmp grow) (fun _ => Within K w₀ idx T)
      (Out K w₀) := by
  refine spec_get fun w hw => spec_orStop (fun _ s hs => hs ▸ hw.out) fun arch harch => ?_
  refine spec_bind (spec_modify (Q := fun _ => Within K w₀ idx T) _ fun s hs => ?_) fun _ =>
    Within.moves (moves_stopIf _ _)
  subst hs
  refine hw.rows (rows_modify s idx _ (fun _ => rfl) (fun arch' harch' => ?_)
    fun arch' harch' hof => ?_)
  all_goals obtain rfl : arch = arch' := Option.some.inj (harch.symm.trans harch')
  · exact eachColumn_types (fun c cv => (write_name _ _ _).trans (hname c))
      (fun c cv => (write_info _ _ _).trans (hinfo c)) arch.components cmp
  · refine eachColumn_of (fun c cv hc hcv htype => ?_) arch.components cmp hof hcmp
      ((hw.types arch harch).trans hT.symm)
    exact (hgrow _ c hc).write hcv (by rw [hinfo, htype]) eidx

theorem createRow_within (hcmp : MapOf K cmp) (hT : types cmp = T) :
    Spec (Within K w₀ idx T) (createRow idx cmp) (fun _ => Within K w₀ idx T) (Out K w₀) := by
  refine spec_get fun w hw => spec_orStop (fun _ s hs => hs ▸ hw.out) fun arch _ => ?_
  refine spec_bind (Q := fun _ => Within K w₀ idx T) ((Within.moves (changeArchetype_rows _
    (fun arch => { arch with size := arch.size + 1 })
    (fun _ => rfl) (fun _ => rfl) fun _ _ h => h)).pre fun s hs => hs ▸ hw) fun _ => ?_
  refine spec_bind (writeRow_within hcmp hT _ (fun _ => rfl) (fun _ => rfl) fun check c hc => ?_)
    fun _ => spec_pure _ fun _ hs => hs
  exact hc.resize (Dvd.dvd.add hc.whole (dvd_refl _))

theorem fillRow_within (hcmp : MapOf K cmp) (hT : types cmp = T) (ahash : ComponentHash)
    (eid : EntityId) (eidx : ℤ) :
    Spec (Within K w₀ idx T) (fillRow idx ahash eid eidx cmp) (fun _ => Within K w₀ idx T)
      (Out K w₀) :=
  spec_bind (writeRow_within hcmp hT _ (fun _ => rfl) (fun _ => rfl) fun _ _ h => h) fun _ =>
    Within.moves (changeLookup_rows _ _)


/-- The same ids are taken next. -/
def SameIds (w w' : World Name) : Prop :=
  w'.entityFreeList = w.entityFreeList ∧ w'.entityLookup.length = w.entityLookup.length

instance : Std.Refl (@SameIds Name) := ⟨fun _ => ⟨rfl, rfl⟩⟩

instance : IsTrans (World Name) SameIds :=
  ⟨fun _ _ _ h h' => ⟨h'.1.trans h.1, h'.2.trans h.2⟩⟩

theorem Same.sameIds (h : Same w w') : SameIds w w' := by
  have hle : ∀ id, w'.entityLookup.length ≤ id ↔ w.entityLookup.length ≤ id := by
    intro id
    have hid := congrFun h.generation id
    unfold World.generation at hid
    rw [← List.getElem?_eq_none_iff, ← List.getElem?_eq_none_iff,
      ← Option.map_eq_none_iff (f := Lookup.generation), hid, Option.map_eq_none_iff]
  exact ⟨h.free, le_antisymm ((hle _).mpr le_rfl) ((hle _).mp le_rfl)⟩

theorem fillRow_sameIds (idx : ℕ) (ahash : ComponentHash) (eid : EntityId) (eidx : ℤ)
    (cmp : ComponentMap Name) : Moves SameIds (fillRow idx ahash eid eidx cmp) := by
  refine moves_bind (fun s => (writeRow_same idx eidx cmp id s).sameIds) fun _ => ?_
  refine moves_bind moves_get fun w => moves_bind (moves_stopIf _ _) fun _ => ?_
  exact moves_modify _ fun w => ⟨rfl, List.length_modify ..⟩

/-! ## Archetypes are created -/

theorem Component.Of.check {check check' : Name → CTypeInfo} {c : Component Name}
    (h : c.Of K check) (hsame : (check' c.name).hash = (check c.name).hash) : c.Of K check' :=
  ⟨h.known, h.stride, h.sized, hsame.trans h.checked, h.whole, h.rows⟩

theorem Within.record (hw : Within K w₀ idx T w) {name : Name} [DecidableEq Name]
    (hzero : (w.componentTypeCheck name).hash = 0) (info : CTypeInfo) :
    Within K w₀ idx T
      { w with componentTypeCheck := Function.update w.componentTypeCheck name info } := by
  have hother : ∀ name', (w.componentTypeCheck name').hash ≠ 0 →
      Function.update w.componentTypeCheck name info name' = w.componentTypeCheck name' := by
    refine fun name' hname' => Function.update_of_ne (fun heq => hname' ?_) _ _
    rw [heq, hzero]
  refine ⟨⟨⟨fun arch harch c hc => ?_, hw.typed.looked⟩, fun p hp => ?_, fun name' hname' => ?_,
    hw.deferred⟩, hw.types⟩
  · have hof := hw.typed.columns arch harch c hc
    exact hof.check (congrArg CTypeInfo.hash (hother _ (hof.checked ▸ hof.known)))
  · obtain ⟨hknown, hrecorded⟩ := hw.recorded p hp
    exact ⟨hknown, (congrArg CTypeInfo.hash (hother _ (hrecorded ▸ hknown))).trans hrecorded⟩
  · have hsince := hw.since name' hname'
    exact (hother _ (hsince ▸ hname')).trans hsince

theorem ComponentValue.Of.column {cv : ComponentValue Name} (h : cv.Of K)
    {check : Name → CTypeInfo} (hcheck : (check cv.name).hash = cv.info.hash)
    (hash : ComponentHash) : Component.Of K check ⟨cv.name, hash, cv.info.size, [], cv.info⟩ := by
  refine ⟨h.known, rfl, h.sized, hcheck, dvd_zero _, fun row hrow => ?_⟩
  have hsize : cv.info.size = 0 := by
    rcases Nat.mul_eq_zero.mp (Nat.le_zero.mp hrow) with hrow | hsize
    · exact absurd hrow (Nat.succ_ne_zero row)
    · exact hsize
  have hzeros := K.zeros cv.info.hash
  rw [← h.sized, hsize] at hzeros
  change K.holds cv.info.hash (rowOf [] cv.info.size row)
  rwa [hsize]

theorem Within.addColumn (hw : Within K w₀ idx T w) {cv : ComponentValue Name} (hcv : cv.Of K)
    (hcheck : (w.componentTypeCheck cv.name).hash = cv.info.hash) (hash : ComponentHash) :
    Within K w₀ idx (T ++ [(cv.name, cv.info.hash)]) { w with
      allArchetypes := w.allArchetypes.modify idx fun arch => { arch with
        components := arch.components ++ [⟨cv.name, hash, cv.info.size, [], cv.info⟩] } } := by
  refine ⟨⟨⟨?_, ?_⟩, fun p hp => ?_, hw.since, hw.deferred⟩, fun arch harch => ?_⟩
  · refine forall_mem_modify (fun arch _ hof c hc => ?_) hw.typed.columns
    rcases List.mem_append.mp hc with hc | hc
    · exact hof c hc
    · exact List.mem_singleton.mp hc ▸ hcv.column hcheck hash
  · exact looked_of_hashes (map_modify_eq _ _ _ _ fun _ _ => rfl) rfl hw.typed.looked
  · rcases List.mem_append.mp hp with hp | hp
    · exact hw.recorded p hp
    · exact List.mem_singleton.mp hp ▸ ⟨hcv.known, hcheck⟩
  · change (w.allArchetypes.modify idx _)[idx]? = some arch at harch
    rw [List.getElem?_modify] at harch
    obtain ⟨old, hold, rfl⟩ := Option.map_eq_some_iff.mp harch
    simp only [if_true]
    rw [Archetype.types, List.map_append, ← hw.types old hold]
    rfl

theorem Done.add (hw : Done K w₀ [] w) (hash : ComponentHash) :
    Within K w₀ w.allArchetypes.length [] { w with
      allArchetypes := w.allArchetypes ++ [⟨hash, [], 0, 0⟩]
      archetypeLookup := Function.update w.archetypeLookup hash (w.allArchetypes.length + 1) } := by
  refine ⟨⟨⟨fun arch harch => ?_, fun h found hfound => ?_⟩, fun p hp => absurd hp List.not_mem_nil,
    hw.since, hw.deferred⟩, fun arch harch => ?_⟩
  · rcases List.mem_append.mp harch with harch | harch
    · exact hw.typed.columns arch harch
    · rw [List.mem_singleton.mp harch]
      exact fun c hc => absurd hc List.not_mem_nil
  · change Function.update w.archetypeLookup hash _ h = _ at hfound
    change ∃ arch, (w.allArchetypes ++ _)[found]? = some arch ∧ _
    by_cases hnew : h = hash
    · rw [hnew, Function.update_self] at hfound
      obtain rfl := Nat.succ.inj hfound
      exact ⟨_, List.getElem?_concat_length, hnew.symm⟩
    · rw [Function.update_of_ne hnew] at hfound
      obtain ⟨arch, harch, hhash⟩ := hw.typed.looked h found hfound
      refine ⟨arch, ?_, hhash⟩
      rw [List.getElem?_append_left (List.getElem?_eq_some_iff.mp harch).1, harch]
  · change (w.allArchetypes ++ _)[w.allArchetypes.length]? = some arch at harch
    rw [List.getElem?_concat_length] at harch
    rw [← Option.some.inj harch]
    rfl

/-- A map has the types of the archetype it goes to, where there is one. -/
def Fits (N : Naming Name) (w : World Name) (cmp : ComponentMap Name) : Prop :=
  ∀ arch ∈ w.allArchetypes, arch.hash = cmpArchetypeHash N cmp → arch.types = types cmp


theorem Fits.rows {N : Naming Name} (h : Fits N w cmp) (hrows : Rows K w w') : Fits N w' cmp := by
  intro arch harch hhash
  obtain ⟨j, hj⟩ := List.mem_iff_getElem?.mp harch
  have hat : ∀ {α : Type} (f : Archetype Name → α),
      w'.allArchetypes.map f = w.allArchetypes.map f →
      (w.allArchetypes[j]?).map f = some (f arch) := by
    intro α f hmap
    rw [← List.getElem?_map, ← hmap, List.getElem?_map, hj, Option.map_some]
  obtain ⟨old, hold, hhash'⟩ := Option.map_eq_some_iff.mp (hat _ hrows.hashes)
  have htypes := hat _ hrows.types
  rw [hold, Option.map_some] at htypes
  rw [← Option.some.inj htypes]
  exact h old (List.mem_of_getElem? hold) (hhash'.trans hhash)

variable [LinearOrder Name] (N : Naming Name)

theorem createComponent_within (kv : ComponentValue Name × ℕ) (hkv : kv.1.Of K) :
    Spec (Within K w₀ idx T) (createComponent N idx kv)
      (fun _ => Within K w₀ idx (T ++ [(kv.1.name, kv.1.info.hash)])) (Out K w₀) := by
  refine spec_get fun w hw => spec_stopIf (fun _ s hs => hs ▸ hw.out) fun hmatch => ?_
  refine spec_bind (Q := fun _ s => Within K w₀ idx T s ∧
    (s.componentTypeCheck kv.1.name).hash = kv.1.info.hash)
    (spec_onlyIf (fun hzero => spec_modify _ fun s hs => ?_) fun hknown s hs => ?_) fun _ => ?_
  · subst hs
    exact ⟨hw.record hzero _, congrArg CTypeInfo.hash (Function.update_self _ _ _)⟩
  · subst hs
    exact ⟨hw, (not_not.mp fun hne => hmatch ⟨hknown, hne⟩).symm⟩
  refine spec_bind (Q := fun _ => Within K w₀ idx (T ++ [(kv.1.name, kv.1.info.hash)]))
    (spec_modify _ fun s hs => hs.1.addColumn hkv hs.2 _) fun _ => ?_
  refine spec_onlyIf (fun _ => ?_) fun _ _ hs => hs
  refine spec_orStop (fun _ _ hs => hs.out) fun arch _ => ?_
  refine spec_stopIf (fun _ _ hs => hs.out) fun _ => ?_
  exact Within.moves (changeArchetype_rows _ (fun arch => { arch with eidIndex := kv.2 })
    (fun _ => rfl) (fun _ => rfl) fun _ _ h => h)

theorem createComponents_within (kvs : List (ComponentValue Name × ℕ))
    (hkvs : ∀ kv ∈ kvs, kv.1.Of K) (T : List (Name × BitVec 64)) :
    Spec (Within K w₀ idx T) (kvs.forM (createComponent N idx))
      (fun _ => Within K w₀ idx (T ++ kvs.map fun kv => (kv.1.name, kv.1.info.hash)))
      (Out K w₀) := by
  induction kvs generalizing T with
  | nil =>
    rw [List.map_nil, List.append_nil]
    exact spec_pure _ fun _ hs => hs
  | cons kv kvs ih =>
    obtain ⟨hkv, hkvs⟩ := List.forall_mem_cons.mp hkvs
    refine spec_bind (createComponent_within N kv hkv) fun _ => ?_
    have hrest := ih hkvs (T ++ [(kv.1.name, kv.1.info.hash)])
    rwa [List.append_assoc] at hrest

theorem createArchetype_within (hcmp : MapOf K cmp) :
    Spec (Within K w₀ idx []) (createArchetype N idx cmp) (fun _ => Within K w₀ idx (types cmp))
      (Out K w₀) := by
  refine spec_bind (Within.moves (changeArchetype_rows _ (fun arch => { arch with eidIndex := -1 })
    (fun _ => rfl) (fun _ => rfl) fun _ _ h => h)) fun _ => ?_
  have hall : cmp.zipIdx.map (fun kv => (kv.1.name, kv.1.info.hash)) = types cmp := by
    have h := congrArg types (List.zipIdx_map_fst 0 cmp)
    rwa [types, List.map_map] at h
  have hloop : Spec (Within K w₀ idx []) (cmp.zipIdx.forM (createComponent N idx))
      (fun _ => Within K w₀ idx (types cmp)) (Out K w₀) := by
    simpa only [List.nil_append, hall] using createComponents_within N cmp.zipIdx
      (fun kv hkv => hcmp _ ((List.mem_zipIdx' hkv).2 ▸ List.getElem_mem _)) []
  refine spec_bind hloop fun _ => spec_get fun w hw => ?_
  refine spec_orStop (fun _ _ hs => hs ▸ hw.out) fun arch _ => ?_
  refine spec_stopIf (fun _ _ hs => hs ▸ hw.out) fun _ => ?_
  refine spec_modify _ fun s hs => ?_
  subst hs
  exact hw.rows (rows_of_eq rfl rfl rfl rfl)

theorem withArchetype_within (w₀ : World Name) (hcmp : MapOf K cmp) {I : World Name → Prop}
    (hI : ∀ s s', I s → SameIds s s' → I s') {J : Prop} (rest : ℕ → Run Name Unit)
    (hrest : ∀ idx, Spec (fun w => Within K w₀ idx (types cmp) w ∧ I w) (rest idx)
      (fun _ w => Within K w₀ idx (types cmp) w ∧ J) (Out K w₀)) :
    Spec (fun w => (Done K w₀ [] w ∧ I w) ∧ Fits N w cmp)
      (withArchetype (cmpArchetypeHash N cmp) fun idx isNew => do
        onlyIf isNew (createArchetype N idx cmp)
        rest idx)
      (fun _ w => Done K w₀ (types cmp) w ∧ J) (Out K w₀) := by
  have hbegin : ∀ idx T, Spec (fun s => Within K w₀ idx T s ∧ I s)
      (modify fun w => { w with insideQuery := w.insideQuery + 1 } : Run Name Unit)
      (fun _ s => Within K w₀ idx T s ∧ I s) (Out K w₀) := fun idx T =>
    spec_modify _ fun s hs => ⟨hs.1.rows (rows_of_eq rfl rfl rfl rfl), hI s _ hs.2 ⟨rfl, rfl⟩⟩
  have hend : ∀ idx, Spec (fun s => Within K w₀ idx (types cmp) s ∧ J)
      (modify fun w => { w with insideQuery := w.insideQuery - 1 } : Run Name Unit)
      (fun _ s => Done K w₀ (types cmp) s ∧ J) (Out K w₀) := fun idx =>
    spec_modify _ fun s hs => ⟨hs.1.toDone.rows (rows_of_eq rfl rfl rfl rfl), hs.2⟩
  refine spec_get fun w ⟨⟨hw, hIw⟩, hfits⟩ => ?_
  by_cases hnew : w.archetypeLookup (cmpArchetypeHash N cmp) = 0
  · refine spec_bind (Q := fun _ s => (Within K w₀ w.allArchetypes.length [] s ∧ I s) ∧
      s.archetypeLookup (cmpArchetypeHash N cmp) = w.allArchetypes.length + 1)
      (spec_onlyIf (fun _ => spec_modify _ fun s hs => ?_) fun h => absurd (by simpa using hnew) h)
      fun _ => spec_get fun s ⟨hs, hlookup⟩ => ?_
    · subst hs
      exact ⟨⟨hw.add _, hI _ _ hIw ⟨rfl, rfl⟩⟩, Function.update_self _ _ _⟩
    rw [hlookup, Nat.add_sub_cancel]
    refine spec_bind ((hbegin _ _).pre fun s' hs' => hs' ▸ hs) fun _ => ?_
    refine spec_bind (spec_bind (Q := fun _ s =>
      Within K w₀ w.allArchetypes.length (types cmp) s ∧ I s) (spec_onlyIf (fun _ => ?_)
        fun h => absurd (by simpa using hnew) h) fun _ => hrest _) fun _ => hend _
    exact Spec.frame (createArchetype_within N hcmp) (createArchetype_same N _ cmp)
      fun s s' hs hsame => hI s s' hs hsame.sameIds
  · obtain ⟨found, hfound⟩ := Nat.exists_eq_succ_of_ne_zero hnew
    obtain ⟨arch, harch, hhash⟩ := hw.typed.looked _ found hfound
    have hwithin := hw.within harch (hfits arch (List.mem_of_getElem? harch) hhash)
    refine spec_bind (Q := fun _ s => s = w)
      (spec_onlyIf (fun h => absurd (of_decide_eq_true h) hnew) fun _ _ hs => hs)
      fun _ => spec_get fun s hs => ?_
    subst hs
    rw [hfound, Nat.succ_sub_one]
    refine spec_bind ((hbegin found (types cmp)).pre fun s' hs' => ?_) fun _ => ?_
    · subst hs'
      exact ⟨hwithin, hIw⟩
    refine spec_bind (spec_bind (Q := fun _ s => Within K w₀ found (types cmp) s ∧ I s)
      (spec_onlyIf (fun h => absurd (of_decide_eq_true h) (Nat.succ_ne_zero found))
        fun _ _ hs => hs) fun _ => hrest _) fun _ => hend _

theorem place_within (hcmp : MapOf K cmp) (eid : EntityId) :
    Spec (fun w => Done K w₀ [] w ∧ Fits N w cmp) (place N eid cmp (cmpArchetypeHash N cmp))
      (fun _ => Done K w₀ (types cmp)) (Out K w₀) := by
  have hrest : ∀ idx, Spec (Within K w₀ idx (types cmp)) (do
      let eidx ← createRow idx cmp
      changeLookup eid.id fun _ => ⟨eid.generation, cmpArchetypeHash N cmp, eidx⟩)
      (fun _ => Within K w₀ idx (types cmp)) (Out K w₀) := fun idx =>
    spec_bind (createRow_within hcmp rfl) fun _ => Within.moves (changeLookup_rows _ _)
  refine ((withArchetype_within (I := fun _ => True) (J := True) N w₀ hcmp
    (fun _ _ _ _ => trivial) _ fun idx => ?_).returns fun _ s hs => hs.1).pre
    fun s hs => ⟨⟨hs.1, trivial⟩, hs.2⟩
  exact ((hrest idx).returns fun _ s hs => ⟨hs, trivial⟩).pre fun s hs => hs.1

/-! ## What is carried out -/

omit [LinearOrder Name] in
theorem exists_of_mem_mapM {f : Component Name → Option (ComponentValue Name)}
    {components : List (Component Name)} (h : components.mapM f = some cmp)
    {kv : ComponentValue Name} (hkv : kv ∈ cmp) : ∃ c ∈ components, f c = some kv := by
  induction components generalizing cmp with
  | nil =>
    obtain rfl : [] = cmp := Option.some.inj h
    exact absurd hkv List.not_mem_nil
  | cons c components ih =>
    rw [List.mapM_cons] at h
    obtain ⟨first, hfirst, hrest⟩ := Option.bind_eq_some_iff.mp h
    obtain ⟨rest, hmap, hcmp⟩ := Option.bind_eq_some_iff.mp hrest
    rw [← Option.some.inj hcmp] at hkv
    obtain rfl | hkv := List.mem_cons.mp hkv
    · exact ⟨c, List.mem_cons_self, hfirst⟩
    · obtain ⟨c', hc', hvalue⟩ := ih hmap hkv
      exact ⟨c', List.mem_cons_of_mem _ hc', hvalue⟩

theorem set_of {cmp' : ComponentMap Name} {cv : ComponentValue Name} (hcmp : MapOf K cmp)
    (hcv : cv.Of K) (h : set cmp cv = some cmp') : MapOf K cmp' := by
  have hinsert : ∀ idx, MapOf K (cmp.insertIdx idx cv) := by
    intro idx kv hkv
    obtain rfl | hkv := List.eq_or_mem_of_mem_insertIdx hkv
    · exact hcv
    · exact hcmp kv hkv
  unfold set at h
  dsimp only at h
  split at h
  · split_ifs at h with hname htype
    · obtain rfl := Option.some.inj h
      intro kv hkv
      obtain hkv | rfl := List.mem_or_eq_of_mem_set hkv
      · exact hcmp kv hkv
      · exact hcv
    · exact Option.some.inj h ▸ hinsert _
  · exact Option.some.inj h ▸ hinsert _

/-- The map that a callback leaves, with the id. -/
def filled (eid : EntityId) (blk : Fill Name) (cmp : ComponentMap Name) :
    Option (ComponentMap Name) :=
  (blk eid cmp).bind fun cmp => set cmp (makeEid N eid)

/-- The map whose values an action supplies. -/
def Action.supplied (w : World Name) : Action Name → Option (ComponentMap Name)
  | .create eid blk => filled N eid blk [makeEid N eid]
  | .update eid blk =>
    (w.entityLookup[eid.id]?).bind fun lookup =>
      if lookup.generation = eid.generation then
        (archetypeIndex w lookup.archetype).bind fun idx =>
          (w.allArchetypes[idx]?).bind fun arch =>
            (arch.components.mapM fun c : Component Name => c.value lookup.index).bind
              (filled N eid blk)
      else none
  | .delete _ => none

/-- The callback of an action leaves values that are of their types. -/
def Action.Of (K : Kinds) : Action Name → Prop
  | .create _ blk => FillOf K blk
  | .update _ blk => FillOf K blk
  | .delete _ => True

/-- What an action supplies fits. -/
def Action.Fits (w : World Name) (action : Action Name) : Prop :=
  ∀ cmp ∈ action.supplied N w, Decs.Fits N w cmp

/-- What an action, that is done, has supplied is of the types that are recorded. -/
def Supplied (K : Kinds) (w₀ : World Name) (maps : List (ComponentMap Name)) (w : World Name) :
    Prop :=
  Out K w₀ w ∧ ∀ cmp ∈ maps, ∀ kv ∈ cmp,
    (w.componentTypeCheck kv.name).hash = kv.info.hash ∧
    ((w₀.componentTypeCheck kv.name).hash ≠ 0 →
      (w₀.componentTypeCheck kv.name).hash = kv.info.hash)


variable {N}

omit [LinearOrder Name] in
theorem Typed.start (hw : Typed K w) : Done K w [] w :=
  ⟨hw, fun _ hp => absurd hp List.not_mem_nil, fun _ _ => rfl, rfl⟩

omit [LinearOrder Name] in
theorem Done.supplied (h : Done K w₀ T w) {maps : List (ComponentMap Name)}
    (hmaps : ∀ cmp ∈ maps, types cmp = T) : Supplied K w₀ maps w := by
  refine ⟨h.out, fun cmp hcmp kv hkv => ?_⟩
  have hrecorded := (h.recorded (kv.name, kv.info.hash)
    (hmaps cmp hcmp ▸ List.mem_map_of_mem hkv)).2
  exact ⟨hrecorded, fun hknown => h.since kv.name hknown ▸ hrecorded⟩

theorem filled_of {eid : EntityId} (heid : (makeEid N eid).Of K) {blk : Fill Name}
    (hblk : FillOf K blk) {cmp' : ComponentMap Name} (hcmp : MapOf K cmp)
    (h : filled N eid blk cmp = some cmp') : MapOf K cmp' := by
  obtain ⟨left, hleft, hset⟩ := Option.bind_eq_some_iff.mp h
  exact set_of (hblk eid cmp left hcmp hleft) heid hset

omit [LinearOrder Name] in
theorem values_of {arch : Archetype Name} {check : Name → CTypeInfo} {eidx : ℤ}
    (harch : ∀ c ∈ arch.components, c.Of K check)
    (h : (arch.components.mapM fun c => c.value eidx) = some cmp) : MapOf K cmp := by
  intro kv hkv
  obtain ⟨c, hc, hvalue⟩ := exists_of_mem_mapM h hkv
  exact (harch c hc).value hvalue

variable (N)

theorem createEntityImm_within (heid : ∀ eid, (makeEid N eid).Of K) (hw : Typed K w₀)
    (eid : EntityId) {blk : Fill Name} (hblk : FillOf K blk)
    (hfits : (Action.create eid blk).Fits N w₀) :
    Spec (fun s => s = w₀) (createEntityImm N eid blk)
      (fun _ => Supplied K w₀ ((Action.create eid blk).supplied N w₀).toList) (Out K w₀) := by
  have hout : ∀ s, s = w₀ → Out K w₀ s := fun s hs => hs ▸ hw.start.out
  refine spec_orStop (fun _ => hout) fun left hleft => ?_
  refine spec_orStop (fun _ => hout) fun cmp hset => ?_
  have hsupplied : (Action.create eid blk).supplied N w₀ = some cmp :=
    Option.bind_eq_some_iff.mpr ⟨left, hleft, hset⟩
  have hcmp : MapOf K cmp :=
    filled_of (heid eid) hblk (List.forall_mem_singleton.mpr (heid eid)) hsupplied
  rw [hsupplied]
  refine ((place_within N hcmp eid).returns fun _ s hs => hs.supplied ?_).pre fun s hs => ?_
  · exact List.forall_mem_singleton.mpr rfl
  · subst hs
    exact ⟨hw.start, hfits cmp hsupplied⟩

theorem updateEntityImm_within (heid : ∀ eid, (makeEid N eid).Of K) (hw : Typed K w₀)
    (eid : EntityId) {blk : Fill Name} (hblk : FillOf K blk)
    (hfits : (Action.update eid blk).Fits N w₀) :
    Spec (fun s => s = w₀) (updateEntityImm N eid blk)
      (fun _ => Supplied K w₀ ((Action.update eid blk).supplied N w₀).toList) (Out K w₀) := by
  have hout : ∀ s, s = w₀ → Out K w₀ s := fun s hs => hs ▸ hw.start.out
  refine spec_get fun w hw' => ?_
  subst hw'
  refine spec_orStop (fun _ => hout) fun lookup hlookup => ?_
  refine spec_onlyIf (fun hgeneration => ?_) fun hgeneration s hs => ?_
  · refine spec_orStop (fun _ => hout) fun idx hidx => ?_
    refine spec_orStop (fun _ => hout) fun arch harch => ?_
    refine spec_orStop (fun _ => hout) fun old hold => ?_
    refine spec_orStop (fun _ => hout) fun left hleft => ?_
    refine spec_orStop (fun _ => hout) fun cmp hset => ?_
    have hfilled : filled N eid blk old = some cmp :=
      Option.bind_eq_some_iff.mpr ⟨left, hleft, hset⟩
    have hsupplied : (Action.update eid blk).supplied N w = some cmp := by
      rw [Action.supplied, hlookup, Option.bind_some, if_pos hgeneration, hidx, Option.bind_some,
        harch, Option.bind_some, hold, Option.bind_some, hfilled]
    have hmem := List.mem_of_getElem? harch
    have hcmp : MapOf K cmp := filled_of (heid eid) hblk
      (values_of (hw.columns arch hmem) hold) hfilled
    have hdone : ∀ s, Done K w (types cmp) s → Supplied K w [cmp] s := fun s hs =>
      hs.supplied (List.forall_mem_singleton.mpr rfl)
    rw [hsupplied]
    dsimp only
    split
    next hsame =>
      have hwithin := hw.start.within harch (hfits cmp hsupplied arch hmem hsame)
      exact ((writeRow_within hcmp rfl _ (fun _ => rfl) (fun _ => rfl) fun _ _ h => h).returns
        fun _ s hs => hdone s hs.toDone).pre fun s hs => hs ▸ hwithin
    next hother =>
      refine spec_bind (Q := fun _ => Rows K w) (((removeRow_rows idx lookup.index).start w).stops
        fun s hs => (hw.start.rows hs).out) fun _ => ?_
      refine ((place_within N hcmp eid).returns fun _ s hs => hdone s hs).pre fun s hs => ?_
      exact ⟨hw.start.rows hs, (hfits cmp hsupplied).rows hs⟩
  · have hnone : (Action.update eid blk).supplied N w = none := by
      rw [Action.supplied, hlookup, Option.bind_some, if_neg hgeneration]
    rw [hnone]
    exact ⟨hout s hs, fun cmp hcmp => absurd hcmp List.not_mem_nil⟩


theorem carryOut_within (heid : ∀ eid, (makeEid N eid).Of K) (hw : Typed K w₀)
    {action : Action Name} (hof : action.Of K) (hfits : action.Fits N w₀) :
    Spec (fun s => s = w₀) (carryOut N action)
      (fun _ => Supplied K w₀ (action.supplied N w₀).toList) (Out K w₀) := by
  cases action with
  | create eid blk => exact createEntityImm_within N heid hw eid hof hfits
  | update eid blk => exact updateEntityImm_within N heid hw eid hof hfits
  | delete eid =>
    have hrows : Moves (@Rows Name K) (deleteEntityImm eid) := by
      refine moves_bind moves_get fun w => moves_bind (moves_orStop _ _) fun lookup => ?_
      refine moves_onlyIf _ (moves_bind (moves_modify _ fun _ => rows_of_eq rfl rfl rfl rfl)
        fun _ => ?_)
      exact moves_bind (moves_orStop _ _) fun idx => removeRow_rows idx _
    refine ((hrows.start w₀).returns fun _ s hs => ?_).stops fun s hs => (hw.start.rows hs).out
    exact ⟨(hw.start.rows hs).out, fun cmp hcmp => absurd hcmp List.not_mem_nil⟩

/-! ## Bulks -/

/-- The ids that are taken next. -/
def nextIds (w : World Name) (n : ℕ) : List EntityId :=
  (w.entityFreeList.map (fun eid : EntityId => { eid with generation := eid.generation + 1 }) ++
    direct w.entityLookup.length n).take n

/-- The maps of the rows of `create_entities` after the first, as far as they go to the
archetype. -/
def suppliedRows (ahash : ComponentHash) (blk : ℕ → Fill Name) :
    List EntityId → ℕ → ComponentMap Name → List (ComponentMap Name)
  | [], _, _ => []
  | eid :: eids, i, cmp =>
    match (set cmp (makeEid N eid)).bind (filled N eid (blk i)) with
    | some cmp =>
      cmp :: if cmpArchetypeHash N cmp = ahash then suppliedRows ahash blk eids (i + 1) cmp else []
    | none => []

/-- The maps whose values `create_entities` supplies. -/
def suppliedBulk (w : World Name) (count : ℤ) (blk : ℕ → Fill Name) : List (ComponentMap Name) :=
  match nextIds w count.toNat with
  | [] => []
  | eid :: eids =>
    match filled N eid (blk 0) [makeEid N eid] with
    | some cmp => cmp :: suppliedRows N (cmpArchetypeHash N cmp) blk eids 1 cmp
    | none => []

omit [LinearOrder Name] in
theorem nextIds_same {w w' : World Name} (h : SameIds w w') (n : ℕ) :
    nextIds w' n = nextIds w n := by
  rw [nextIds, nextIds, h.1, h.2]

omit [LinearOrder Name] in
theorem newEntityId_next (w : World Name) (n : ℕ) :
    Spec (fun s => s = w) newEntityId
      (fun eid s => Rows K w s ∧ nextIds w (n + 1) = eid :: nextIds s n) (Rows K w) := by
  refine spec_get fun s hs => ?_
  subst hs
  cases hfree : s.entityFreeList with
  | cons eid rest =>
    refine spec_bind (spec_modify (Q := fun _ s' =>
      s' = { s with entityFreeList := rest }) _ fun s' hs' => hs' ▸ rfl) fun _ => ?_
    refine spec_bind (spec_modify (Q := fun _ s' => Rows K s s' ∧ nextIds s (n + 1) =
      { eid with generation := eid.generation + 1 } :: nextIds s' n) _ fun s' hs' => ?_)
      fun _ => spec_pure _ fun s' hs' => hs'
    subst hs'
    refine ⟨rows_of_eq rfl rfl rfl rfl, ?_⟩
    rw [nextIds, hfree, List.map_cons, List.cons_append, List.take_succ_cons, direct,
      List.range'_concat, List.map_append, ← List.append_assoc, List.take_append_of_le_length]
    · rfl
    · rw [List.length_append, List.length_map, List.length_map, List.length_range']
      omega
  | nil =>
    refine spec_stopIf (fun _ s' hs' => hs' ▸ refl_of (Rows K) s) fun _ => ?_
    refine spec_bind (spec_modify (Q := fun _ s' =>
      s' = { s with entityLookup := s.entityLookup ++ [⟨0, 0, 0⟩] }) _ fun s' hs' => hs' ▸ rfl)
      fun _ => ?_
    refine spec_bind (spec_modify (Q := fun _ s' => Rows K s s' ∧ nextIds s (n + 1) =
      ⟨s.entityLookup.length, 1⟩ :: nextIds s' n) _ fun s' hs' => ?_)
      fun _ => spec_pure _ fun s' hs' => hs'
    subst hs'
    refine ⟨rows_of_eq rfl rfl rfl rfl, ?_⟩
    rw [nextIds, hfree, direct_succ, List.map_nil, List.nil_append, List.take_succ_cons]
    change _ = _ :: ([] ++ direct (s.entityLookup ++ [(⟨0, 0, 0⟩ : Lookup)]).length n).take n
    rw [List.length_append, List.nil_append]
    rfl


theorem fillRows_within (heid : ∀ eid, (makeEid N eid).Of K) {blk : ℕ → Fill Name}
    (hblk : ∀ i, FillOf K (blk i)) (ahash : ComponentHash) (base : ℤ) (more i : ℕ)
    (cmp : ComponentMap Name) (hcmp : MapOf K cmp) (eids : List EntityId)
    (hfits : ∀ cmp' ∈ suppliedRows N ahash blk eids i cmp,
      cmpArchetypeHash N cmp' = ahash → types cmp' = T) :
    Spec (fun w => Within K w₀ idx T w ∧ nextIds w more = eids)
      (fillRows N idx ahash base blk more i cmp)
      (fun _ w => Within K w₀ idx T w ∧ ∀ cmp' ∈ suppliedRows N ahash blk eids i cmp,
        types cmp' = T) (Out K w₀) := by
  induction more generalizing i cmp eids with
  | zero =>
    refine spec_pure _ fun w hw => ⟨hw.1, ?_⟩
    rw [← hw.2]
    exact fun cmp' hcmp' => absurd hcmp' List.not_mem_nil
  | succ more ih =>
    intro w ⟨hw, heids⟩
    refine spec_bind (((newEntityId_next (K := K) w more).returns fun eid s hs =>
      (⟨hw.rows hs.1, heids ▸ hs.2⟩ : Within K w₀ idx T s ∧ eids = eid :: nextIds s more)).stops
      fun s hs => (hw.rows hs).out) (fun eid s ⟨hs, heids⟩ => ?_) w rfl
    subst heids
    refine spec_orStop (P := fun s' => Within K w₀ idx T s' ∧ nextIds s' more = nextIds s more)
      (fun _ s' hs' => hs'.1.out) (fun first hfirst => ?_) s ⟨hs, rfl⟩
    refine spec_orStop (fun _ s' hs' => hs'.1.out) fun left hleft => ?_
    refine spec_orStop (fun _ s' hs' => hs'.1.out) fun last hlast => ?_
    have hfilled : filled N eid (blk i) first = some last :=
      Option.bind_eq_some_iff.mpr ⟨left, hleft, hlast⟩
    refine spec_stopIf (fun _ s' hs' => hs'.1.out) fun hhash => ?_
    have hrows : suppliedRows N ahash blk (eid :: nextIds s more) i cmp =
        last :: suppliedRows N ahash blk (nextIds s more) (i + 1) last := by
      rw [suppliedRows, hfirst, Option.bind_some, hfilled]
      dsimp only
      rw [if_pos (not_not.mp hhash)]
    rw [hrows] at hfits ⊢
    obtain ⟨hlasts, hrests⟩ := List.forall_mem_cons.mp hfits
    have htypes := hlasts (not_not.mp hhash)
    have hof : MapOf K last := filled_of (heid eid) (hblk i) (set_of hcmp (heid eid) hfirst) hfilled
    refine spec_bind (Spec.frame (fillRow_within hof htypes ahash eid _) (fillRow_sameIds _ _ _ _ _)
      fun s' s'' hs' hsame => (nextIds_same hsame more).trans hs') fun _ => ?_
    refine (ih (i + 1) last hof _ hrests).returns fun _ s' hs' => ⟨hs'.1, ?_⟩
    exact List.forall_mem_cons.mpr ⟨htypes, hs'.2⟩


/-- The maps of a bulk fit, and those that go to one archetype have the same types. -/
def FitAll (w : World Name) (maps : List (ComponentMap Name)) : Prop :=
  ∀ cmp ∈ maps, Fits N w cmp ∧ ∀ cmp' ∈ maps,
    cmpArchetypeHash N cmp' = cmpArchetypeHash N cmp → types cmp' = types cmp

theorem createEntities_within (heid : ∀ eid, (makeEid N eid).Of K) (hw : Typed K w₀) (count : ℤ)
    {blk : ℕ → Fill Name} (hblk : ∀ i, FillOf K (blk i))
    (hfits : w₀.insideQuery = 0 → FitAll N w₀ (suppliedBulk N w₀ count blk)) :
    Spec (fun s => s = w₀) (createEntities N count blk)
      (fun _ => Supplied K w₀ (suppliedBulk N w₀ count blk)) (Out K w₀) := by
  have hout : ∀ s, Rows K w₀ s → Out K w₀ s := fun s hs => (hw.start.rows hs).out
  refine spec_onlyIf (fun hcount => ?_) fun hcount s hs => ?_
  · refine spec_get fun w hw' => ?_
    subst hw'
    refine spec_stopIf (fun _ s hs => hs ▸ hout w (refl_of _ _)) fun hquery => ?_
    obtain ⟨more, hmore⟩ : ∃ more, count.toNat = more + 1 :=
      Nat.exists_eq_succ_of_ne_zero (by omega)
    refine spec_bind ((newEntityId_next w more).stops hout) fun eid s ⟨hs, heids⟩ => ?_
    refine spec_orStop (P := fun s' => s' = s) (fun _ s' hs' => hs' ▸ hout s hs)
      (fun left hleft => ?_) s rfl
    refine spec_orStop (fun _ s' hs' => hs' ▸ hout s hs) fun cmp hset => ?_
    have hfilled : filled N eid (blk 0) [makeEid N eid] = some cmp :=
      Option.bind_eq_some_iff.mpr ⟨left, hleft, hset⟩
    have hcmp : MapOf K cmp :=
      filled_of (heid eid) (hblk 0) (List.forall_mem_singleton.mpr (heid eid)) hfilled
    have hmaps : suppliedBulk N w count blk =
        cmp :: suppliedRows N (cmpArchetypeHash N cmp) blk (nextIds s more) 1 cmp := by
      rw [suppliedBulk, hmore, heids]
      dsimp only
      rw [hfilled]
    have hfit := hfits (not_not.mp hquery)
    rw [hmaps] at hfit ⊢
    obtain ⟨hfirst, halike⟩ := hfit cmp List.mem_cons_self
    have hblock := withArchetype_within (I := fun s' => nextIds s' more = nextIds s more)
      (J := ∀ cmp' ∈ suppliedRows N (cmpArchetypeHash N cmp) blk (nextIds s more) 1 cmp,
        types cmp' = types cmp) N w hcmp
      (fun s' s'' hs' hsame => (nextIds_same hsame more).trans hs')
      (fun idx => do
        let w ← get
        let arch ← orStop .outOfRange w.allArchetypes[idx]?
        changeArchetype idx fun arch => { arch with
          components := arch.components.map fun c =>
            c.resize (c.data.length + c.stride * count.toNat) }
        fillRow idx (cmpArchetypeHash N cmp) eid arch.size cmp
        fillRows N idx (cmpArchetypeHash N cmp) arch.size blk (count.toNat - 1) 1 cmp
        changeArchetype idx fun arch => { arch with size := arch.size + count }) fun idx => ?_
    · refine (hblock.returns fun _ s' hs' => ?_).pre fun s' hs' => ?_
      · exact hs'.1.supplied (List.forall_mem_cons.mpr ⟨rfl, hs'.2⟩)
      · subst hs'
        exact ⟨⟨hw.start.rows hs, rfl⟩, hfirst.rows hs⟩
    · refine spec_get fun s' hs' => spec_orStop (fun _ _ h => h ▸ hs'.1.out) fun arch _ => ?_
      refine Spec.pre (P := fun s'' => Within K w idx (types cmp) s'' ∧
        nextIds s'' more = nextIds s more) ?_ fun s'' h => ?_
      swap
      · subst h
        exact hs'
      refine spec_bind (Spec.frame (Within.moves (growRows_rows idx count.toNat)) (fun s'' =>
        (changeArchetype_same idx _ s'').sameIds) fun s' s'' hs' hsame =>
          (nextIds_same hsame more).trans hs') fun _ => ?_
      refine spec_bind (Spec.frame (fillRow_within hcmp rfl _ eid _) (fillRow_sameIds _ _ _ _ _)
        fun s' s'' hs' hsame => (nextIds_same hsame more).trans hs') fun _ => ?_
      rw [hmore, Nat.add_sub_cancel]
      refine spec_bind (fillRows_within N heid hblk _ _ more 1 cmp hcmp _ fun cmp' hcmp' hhash =>
        halike cmp' (List.mem_cons_of_mem _ hcmp') hhash) fun _ => ?_
      refine spec_modify _ fun s'' hs'' => ⟨?_, hs''.2⟩
      exact hs''.1.rows (rows_modify s'' idx _ (fun _ => rfl) (fun _ _ => rfl) fun _ _ h => h)
  · have hnone : suppliedBulk N w₀ count blk = [] := by
      rw [suppliedBulk, Int.toNat_eq_zero.mpr (not_lt.mp hcount)]
      rfl
    rw [hnone]
    exact ⟨hs ▸ hout w₀ (refl_of _ _), fun cmp hcmp => absurd hcmp List.not_mem_nil⟩

end Within

/-! ## Histories -/

section Histories

variable {K : Kinds} [LinearOrder Name] (N : Naming Name)

/-- What is carried out supplies what fits. -/
def FitsAll : List (Action Name) → World Name → Prop
  | [], _ => True
  | action :: rest, w => action.Fits N w ∧
    match carryOut N action w with
    | .ok _ w' => FitsAll rest w'
    | .error _ _ => True

/-- A call supplies what fits, as do the actions that it carries out. -/
def Call.Fits (w : World Name) : Call Name → Prop
  | .createEntities count blk => w.insideQuery = 0 → FitAll N w (suppliedBulk N w count blk)
  | .commit => w.insideQuery = 0 → FitsAll N w.deferActions { w with deferActions := [] }
  | _ => True

/-- Every call of a history does. -/
def FitsRun : List (Call Name) → World Name → Prop
  | [], _ => True
  | call :: calls, w => call.Fits N w ∧ FitsRun calls (left (call.run N) w)

/-- The callbacks of a call leave values that are of their types.  `create_entities_from_cmp` has a
callback that writes rows itself. -/
def Call.Of (K : Kinds) : Call Name → Prop
  | .createEntity blk => FillOf K blk
  | .createEntities _ blk => ∀ i, FillOf K (blk i)
  | .createEntitiesFromCmp _ _ _ => False
  | .updateEntity _ blk => FillOf K blk
  | .deleteEntity _ => True
  | .commit => True

/-- What is true of values is true of rows, and of what the actions put off will supply. -/
def Kept (K : Kinds) (w : World Name) : Prop :=
  Typed K w ∧ ∀ action ∈ w.deferActions, action.Of K

variable {N}

omit [LinearOrder Name] in
theorem Kept.out {w w' : World Name} (hw : Kept K w) (h : Out K w w') : Kept K w' :=
  ⟨h.1, h.2 ▸ hw.2⟩

omit [LinearOrder Name] in
theorem defer_kept (action : Action Name) (haction : action.Of K) :
    Spec (Kept K) (defer action) (fun _ => Kept K) (Kept K) := by
  refine spec_modify _ fun w hw => ⟨⟨hw.1.columns, hw.1.looked⟩, fun other hother => ?_⟩
  rcases List.mem_append.mp hother with hother | hother
  · exact hw.2 other hother
  · exact List.mem_singleton.mp hother ▸ haction

theorem carryOutAll_kept (heid : ∀ eid, (makeEid N eid).Of K) (actions : List (Action Name))
    (hof : ∀ action ∈ actions, action.Of K) :
    Spec (fun w => (Typed K w ∧ w.deferActions = []) ∧ FitsAll N actions w)
      (actions.forM (carryOut N)) (fun _ => Kept K) (Kept K) := by
  have hkept : ∀ w : World Name, Typed K w ∧ w.deferActions = [] → Kept K w := fun w hw =>
    ⟨hw.1, fun action haction => absurd (hw.2 ▸ haction) List.not_mem_nil⟩
  induction actions with
  | nil => exact spec_pure _ fun w hw => hkept w hw.1
  | cons action rest ih =>
    intro w ⟨⟨hw, hdefer⟩, hfits, hrest⟩
    obtain ⟨haction, hof⟩ := List.forall_mem_cons.mp hof
    have hout : ∀ s, Out K w s → Typed K s ∧ s.deferActions = [] := fun s hs =>
      ⟨hs.1, hs.2.trans hdefer⟩
    have hrun := carryOut_within N heid hw haction hfits w rfl
    refine spec_bind (P := fun s => s = w) (Q := fun _ s => (Typed K s ∧ s.deferActions = []) ∧
      FitsAll N rest s) (fun s hs => ?_) (fun _ => ih hof) w rfl
    subst hs
    cases hout' : carryOut N action s with
    | ok a s' =>
      rw [hout'] at hrun hrest
      exact ⟨hout s' hrun.1, hrest⟩
    | error e s' =>
      rw [hout'] at hrun
      exact hkept s' (hout s' hrun)

theorem call_kept (heid : ∀ eid, (makeEid N eid).Of K) {call : Call Name} (hof : call.Of K)
    {w : World Name} (hw : Kept K w) (hfits : call.Fits N w) :
    Kept K (left (call.run N) w) := by
  cases call with
  | createEntity blk =>
    have hrows : Spec (Kept K) (newEntityId : Run Name EntityId) (fun _ => Kept K) (Kept K) :=
      newEntityId_rows.spec fun s s' hs hrows =>
        ⟨hs.out (hs.1.start.rows hrows).out, hs.out (hs.1.start.rows hrows).out⟩
    exact (spec_bind hrows fun eid => defer_kept (.create eid blk) hof).left hw
  | createEntities count blk =>
    refine Spec.left (P := fun s => s = w) (E := Kept K) ?_ rfl
    exact ((createEntities_within N heid hw.1 count hof hfits).returns fun _ s hs =>
      hw.out hs.1).stops fun s hs => hw.out hs
  | createEntitiesFromCmp count cmp fillBlk => exact absurd hof id
  | updateEntity eid blk => exact (defer_kept (.update eid blk) hof).left hw
  | deleteEntity eid => exact (defer_kept (.delete eid) trivial).left hw
  | commit =>
    refine Spec.left (P := fun s => s = w) (E := Kept K) ?_ rfl
    refine spec_get fun s hs => spec_stopIf (fun _ s' hs' => hs'.trans hs ▸ hw) fun hquery => ?_
    subst hs
    refine spec_bind (Q := fun _ s' => (Typed K s' ∧ s'.deferActions = []) ∧
      FitsAll N s.deferActions s') (spec_modify _ fun s' hs' => ?_)
      fun _ => carryOutAll_kept heid _ hw.2
    subst hs'
    exact ⟨⟨⟨hw.1.columns, hw.1.looked⟩, rfl⟩, hfits (not_not.mp hquery)⟩

omit [LinearOrder Name] in
theorem initial_kept : Kept K (World.initial Name) :=
  ⟨⟨fun _ harch => absurd harch List.not_mem_nil, fun _ _ h => absurd h.symm (Nat.succ_ne_zero _)⟩,
    fun _ haction => absurd haction List.not_mem_nil⟩

theorem runs_kept (heid : ∀ eid, (makeEid N eid).Of K) (calls : List (Call Name))
    (hof : ∀ call ∈ calls, call.Of K) {w : World Name} (hw : Kept K w)
    (hfits : FitsRun N calls w) : Kept K (runs N calls w) := by
  induction calls generalizing w with
  | nil => exact hw
  | cons call calls ih =>
    obtain ⟨hcall, hcalls⟩ := List.forall_mem_cons.mp hof
    exact ih hcalls (call_kept heid hcall hw hfits.1) hfits.2

/-- A value of another type than the one that is recorded for its name is supplied. -/
def Differs (w : World Name) (maps : List (ComponentMap Name)) : Prop :=
  ∃ cmp ∈ maps, ∃ kv ∈ cmp, (w.componentTypeCheck kv.name).hash ≠ 0 ∧
    (w.componentTypeCheck kv.name).hash ≠ kv.info.hash

omit [LinearOrder Name] in
theorem Differs.panics {m : Run Name Unit} {w : World Name} {maps : List (ComponentMap Name)}
    (h : Differs w maps)
    (hm : Spec (fun s => s = w) m (fun _ => Supplied K w maps) (Out K w)) :
    ∃ p w', m w = .error p w' := by
  have hrun := hm w rfl
  cases hout : m w with
  | ok a w' =>
    rw [hout] at hrun
    obtain ⟨cmp, hcmp, kv, hkv, hknown, hne⟩ := h
    exact absurd ((hrun.2 cmp hcmp kv hkv).2 hknown) hne
  | error p w' => exact ⟨p, w', rfl⟩

end Histories

/-! ## Values are of the types of their columns -/

instance (w : World ℕ) (cmp : ComponentMap ℕ) : Decidable (Fits plainNaming w cmp) :=
  inferInstanceAs (Decidable (∀ arch ∈ w.allArchetypes, _ → _))

instance (w : World ℕ) (action : Action ℕ) : Decidable (action.Fits plainNaming w) :=
  inferInstanceAs (Decidable (∀ cmp ∈ action.supplied plainNaming w, _))

instance decidableFitsAll : (actions : List (Action ℕ)) → (w : World ℕ) →
    Decidable (FitsAll plainNaming actions w)
  | [], _ => isTrue trivial
  | action :: rest, w =>
    @instDecidableAnd _ _ _ (match carryOut plainNaming action w with
      | .ok _ w' => decidableFitsAll rest w'
      | .error _ _ => isTrue trivial)

/-- A type of 4 bytes, of which no more is known than that those of type 5 are 0 and 1. -/
def flagKinds : Kinds where
  size hash := if hash = 1 then 8 else 4
  holds hash bytes := hash = 5 → ∀ b ∈ bytes, b ≤ 1
  zeros _ _ b hb := List.eq_of_mem_replicate hb ▸ by decide

/-- A component of name 1. -/
def created (hash : BitVec 64) (byte : UInt8) : Call ℕ :=
  .createEntity fun _ cmp => set cmp ⟨1, ⟨hash, 4⟩, List.replicate 4 byte⟩

theorem created_of (hash : BitVec 64) (byte : UInt8) (h0 : hash ≠ 0) (h1 : hash ≠ 1)
    (hbyte : hash = 5 → byte ≤ 1) : (created hash byte).Of flagKinds := by
  refine fun eid cmp cmp' hcmp hset =>
    set_of hcmp ⟨h0, (if_neg h1).symm, le_rfl, fun h5 b hb => ?_⟩ hset
  exact List.eq_of_mem_replicate (List.mem_of_mem_take hb) ▸ hbyte h5

theorem makeEid_flag (eid : EntityId) : (makeEid plainNaming eid).Of flagKinds := by
  refine ⟨(by decide : (1 : BitVec 64) ≠ 0), rfl, ?_, fun h => ?_⟩
  swap
  · exact absurd h (by decide : (1 : BitVec 64) ≠ 5)
  change 8 ≤ (eidBytes eid).length
  rw [eidBytes, List.length_append, List.length_replicate]
  omega

/-- **What is true of values is true of rows.**  In a history whose maps have the types of the
columns they go to, every row of a column is of the type of the column, and that is the type
recorded for its name; and then what supplies a value of another type than the one recorded for its
name panics. -/
theorem columns_typed {K : Kinds} [LinearOrder Name] (N : Naming Name)
    (heid : ∀ eid, (makeEid N eid).Of K) :
    (∀ calls : List (Call Name), (∀ call ∈ calls, call.Of K) →
      FitsRun N calls (.initial Name) → Typed K (runs N calls (.initial Name))) ∧
    ∀ w, Typed K w →
      (∀ action : Action Name, action.Of K → action.Fits N w →
        Differs w (action.supplied N w).toList → ∃ p w', carryOut N action w = .error p w') ∧
      ∀ count (blk : ℕ → Fill Name), (∀ i, FillOf K (blk i)) →
        (w.insideQuery = 0 → FitAll N w (suppliedBulk N w count blk)) →
        Differs w (suppliedBulk N w count blk) →
        ∃ p w', createEntities N count blk w = .error p w' := by
  refine ⟨fun calls hof hfits => (runs_kept heid calls hof initial_kept hfits).1, fun w hw =>
    ⟨fun action hof hfits hdiffers => ?_, fun count blk hblk hfits hdiffers => ?_⟩⟩
  · exact hdiffers.panics (carryOut_within N heid hw hof hfits)
  · exact hdiffers.panics (createEntities_within N heid hw count hblk hfits)

/-- A callback that leaves the name of `created 5 1` with another type. -/
def retyped : Action ℕ := .create ⟨7, 1⟩ fun _ cmp =>
  (set cmp ⟨1, ⟨6, 4⟩, List.replicate 4 2⟩).bind fun cmp => set cmp ⟨2, ⟨7, 4⟩, List.replicate 4 2⟩

theorem columns_typed_flags :
    Typed flagKinds (runs plainNaming [created 5 1, .commit, created 5 0, .commit] (.initial ℕ)) ∧
    ∃ p w', carryOut plainNaming retyped (runs plainNaming
      [created 5 1, .commit, created 5 0, .commit] (.initial ℕ)) = .error p w' := by
  have h := columns_typed plainNaming makeEid_flag
  have hone := created_of 5 1 (by decide) (by decide) fun _ => by decide
  have hzero := created_of 5 0 (by decide) (by decide) fun _ => by decide
  have hcalls : ∀ call ∈ [created 5 1, .commit, created 5 0, .commit], call.Of flagKinds :=
    List.forall_mem_cons.mpr ⟨hone, List.forall_mem_cons.mpr ⟨trivial,
      List.forall_mem_cons.mpr ⟨hzero, List.forall_mem_singleton.mpr trivial⟩⟩⟩
  have htyped := h.1 _ hcalls ⟨trivial, fun _ => by decide, trivial, fun _ => by decide, trivial⟩
  have hvalue : ∀ (name : ℕ) (hash : BitVec 64), hash ≠ 0 → hash ≠ 1 → hash ≠ 5 →
      ComponentValue.Of flagKinds ⟨name, ⟨hash, 4⟩, List.replicate 4 2⟩ := fun name hash h0 h1 h5 =>
    ⟨h0, (if_neg h1).symm, le_rfl, fun heq => absurd heq h5⟩
  refine ⟨htyped, (h.2 _ htyped).1 retyped (fun eid cmp cmp' hcmp hleft => ?_) (by decide) ?_⟩
  · obtain ⟨first, hfirst, hsecond⟩ := Option.bind_eq_some_iff.mp hleft
    have hof := set_of hcmp (hvalue 1 6 (by decide) (by decide) (by decide)) hfirst
    exact set_of hof (hvalue 2 7 (by decide) (by decide) (by decide)) hsecond
  · unfold Differs
    decide

/-- Every call returns. -/
def completes : List (Call ℕ) → World ℕ → Bool
  | [], _ => true
  | call :: calls, w =>
    match call.run plainNaming w with
    | .ok _ w' => completes calls w'
    | .error _ _ => false

/-- Two entities with one component each, of one name and of two types. -/
def intFloat : List (Call ℕ) := [created 5 1, .commit, created 6 2, .commit]

theorem intFloat_mixed :
    (∀ call ∈ intFloat, call.Of flagKinds) ∧ completes intFloat (.initial ℕ) = true ∧
    (∃ arch ∈ (runs plainNaming intFloat (.initial ℕ)).allArchetypes, ∃ c ∈ arch.components,
      c.name = 1 ∧ c.info.hash = 5 ∧ c.data = [1, 1, 1, 1, 2, 2, 2, 2]) ∧
    ¬Typed flagKinds (runs plainNaming intFloat (.initial ℕ)) := by
  have hmixed : ∃ arch ∈ (runs plainNaming intFloat (.initial ℕ)).allArchetypes,
      ∃ c ∈ arch.components, c.name = 1 ∧ c.info.hash = 5 ∧ c.stride = 4 ∧
        c.data = [1, 1, 1, 1, 2, 2, 2, 2] := by decide
  obtain ⟨arch, harch, c, hc, hname, hhash, hstride, hdata⟩ := hmixed
  refine ⟨?_, by decide, ⟨arch, harch, c, hc, hname, hhash, hdata⟩, fun h => ?_⟩
  · have h5 := created_of 5 1 (by decide) (by decide) fun _ => by decide
    have h6 := created_of 6 2 (by decide) (by decide) fun h => absurd h (by decide)
    exact List.forall_mem_cons.mpr ⟨h5, List.forall_mem_cons.mpr ⟨trivial,
      List.forall_mem_cons.mpr ⟨h6, List.forall_mem_singleton.mpr trivial⟩⟩⟩
  · have hrow := (h.columns arch harch c hc).rows 1 (by rw [hstride, hdata]; decide) hhash
    rw [hstride, hdata] at hrow
    exact absurd (hrow 2 (by decide)) (by decide)

end DaScript.Decs

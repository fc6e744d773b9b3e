import DaScript.Daslib.DecsCached
import DaScript.Daslib.DecsHistories

/-!
# Daslib/DecsRequests — looking up is exact

Every call keeps the queries complete, and a request that is `Ready` finds, under its hash, a query
with its own lists: no hash of the lists that are involved collides (`CollisionFree`).  What a query
can process is then what matches, and `for_each_archetype` and `for_eid_archetype` go by the query.
-/

namespace DaScript.Decs

open Algorithm Stateful Generations

variable {Name : Type} [LinearOrder Name] (N : Naming Name)

/-! ## Every call keeps the queries -/

theorem place_cached (eid : EntityId) {cmp : ComponentMap Name} (hcmp : Tidy cmp) :
    Spec (Cached N) (place N eid cmp (cmpArchetypeHash N cmp)) (fun _ => Cached N)
      fun _ => True :=
  withArchetype_cached N hcmp fun idx =>
    moves_bind (createRow_shape idx cmp) fun _ => changeLookup_shape _ _

theorem createEntityImm_cached (eid : EntityId) {blk : Fill Name} (hblk : KeepsTidy blk) :
    Spec (Cached N) (createEntityImm N eid blk) (fun _ => Cached N) fun _ => True := by
  refine spec_orStop (fun _ _ _ => trivial) fun cmp hcmp => ?_
  refine spec_orStop (fun _ _ _ => trivial) fun cmp' hcmp' => ?_
  exact place_cached N eid (set_tidy (hblk _ _ _ (makeEid_tidy N eid) hcmp) hcmp')

omit [LinearOrder Name] in
theorem mapM_value_names {components : List (Component Name)} {eidx : ℤ} {cmp : ComponentMap Name}
    (h : components.mapM (fun c => c.value eidx) = some cmp) :
    cmp.map ComponentValue.name = components.map Component.name := by
  induction components generalizing cmp with
  | nil =>
    obtain rfl : [] = cmp := by simpa using h
    rfl
  | cons c components ih =>
    rw [List.mapM_cons] at h
    obtain ⟨v, hv, h⟩ := Option.bind_eq_some_iff.mp h
    obtain ⟨rest, hrest, h⟩ := Option.bind_eq_some_iff.mp h
    obtain rfl := Option.some.inj h
    obtain ⟨bytes, -, rfl⟩ := Option.map_eq_some_iff.mp hv
    rw [List.map_cons, List.map_cons, ih hrest]

theorem updateEntityImm_cached (eid : EntityId) {blk : Fill Name} (hblk : KeepsTidy blk) :
    Spec (Cached N) (updateEntityImm N eid blk) (fun _ => Cached N) fun _ => True := by
  refine spec_get fun w hw => spec_orStop (fun _ _ _ => trivial) fun lookup _ => ?_
  refine Spec.pre (P := Cached N) (spec_onlyIf (fun _ => ?_) fun _ _ hs => hs) fun s hs => hs ▸ hw
  refine spec_orStop (fun _ _ _ => trivial) fun idx _ => ?_
  refine spec_orStop (fun _ _ _ => trivial) fun arch harch => ?_
  refine spec_orStop (fun _ _ _ => trivial) fun cmp hcmp => ?_
  refine spec_orStop (fun _ _ _ => trivial) fun cmp' hcmp' => ?_
  refine spec_orStop (fun _ _ _ => trivial) fun cmp'' hcmp'' => ?_
  have htidy : Tidy cmp := by
    rw [Tidy, mapM_value_names hcmp]
    exact (hw.sorted arch (List.mem_of_getElem? harch)).1
  dsimp only
  split
  · exact moves_cached N (writeRow_shape _ _ _ _ fun _ => rfl)
  · refine spec_bind (moves_cached N (removeRow_shape idx lookup.index)) fun _ => ?_
    exact place_cached N eid (set_tidy (hblk _ _ _ htidy hcmp') hcmp'')

theorem carryOut_cached {action : Action Name} (haction : action.Tidy) :
    Spec (Cached N) (carryOut N action) (fun _ => Cached N) fun _ => True := by
  cases action with
  | create eid blk => exact createEntityImm_cached N eid haction
  | update eid blk => exact updateEntityImm_cached N eid haction
  | delete eid => exact moves_cached N (deleteEntityImm_shape eid)

theorem commit_cached : Spec (Cached N) (commit N) (fun _ => Cached N) fun _ => True := by
  refine spec_get fun w hw => spec_stopIf (fun _ _ _ => trivial) fun _ => ?_
  refine spec_bind (Q := fun _ => Cached N) (spec_modify _ fun s hs => ?_) fun _ => ?_
  · subst hs
    exact ⟨hw.sorted, hw.found, hw.queries, hw.looked, fun action haction => by cases haction⟩
  · have hforM : ∀ actions : List (Action Name), (∀ action ∈ actions, action.Tidy) →
        Spec (Cached N) (actions.forM (carryOut N)) (fun _ => Cached N) fun _ => True := by
      intro actions hactions
      induction actions with
      | nil => exact spec_pure _ fun s hs => hs
      | cons action rest ih =>
        obtain ⟨haction, hrest⟩ := List.forall_mem_cons.mp hactions
        exact spec_bind (carryOut_cached N haction) fun _ => ih hrest
    exact hforM w.deferActions hw.waiting

theorem defer_cached (action : Action Name) (haction : action.Tidy) :
    Spec (Cached N) (defer action) (fun _ => Cached N) fun _ => True := by
  refine spec_modify _ fun w hw => ⟨hw.sorted, hw.found, hw.queries, hw.looked, fun a ha => ?_⟩
  obtain ha | ha := List.mem_append.mp ha
  · exact hw.waiting a ha
  · exact List.mem_singleton.mp ha ▸ haction

theorem fillRows_shape (idx : ℕ) (ahash : ComponentHash) (base : ℤ) (blk : ℕ → Fill Name)
    (more i : ℕ) (cmp : ComponentMap Name) :
    Moves SameShape (fillRows N idx ahash base blk more i cmp) := by
  induction more generalizing i cmp with
  | zero => exact moves_pure _
  | succ more ih =>
    refine moves_bind newEntityId_shape fun eid => moves_bind (moves_orStop _ _) fun cmp => ?_
    refine moves_bind (moves_orStop _ _) fun cmp => moves_bind (moves_orStop _ _) fun cmp => ?_
    refine moves_bind (moves_stopIf _ _) fun _ => ?_
    exact moves_bind (fillRow_shape idx ahash eid _ _) fun _ => ih _ _

theorem createEntities_cached (count : ℤ) {blk : ℕ → Fill Name} (hblk : ∀ i, KeepsTidy (blk i)) :
    Spec (Cached N) (createEntities N count blk) (fun _ => Cached N) fun _ => True := by
  refine spec_onlyIf (fun _ => spec_get fun w hw => ?_) fun _ _ hs => hs
  refine Spec.pre (P := Cached N) (spec_stopIf (fun _ _ _ => trivial) fun _ => ?_)
    fun s hs => hs ▸ hw
  refine spec_bind (moves_cached N newEntityId_shape) fun eid => ?_
  refine spec_orStop (fun _ _ _ => trivial) fun cmp hcmp => ?_
  refine spec_orStop (fun _ _ _ => trivial) fun cmp' hcmp' => ?_
  have htidy := set_tidy (hblk 0 _ _ _ (makeEid_tidy N eid) hcmp) hcmp'
  refine withArchetype_cached N htidy fun idx => ?_
  refine moves_bind moves_get fun w => moves_bind (moves_orStop _ _) fun arch => ?_
  refine moves_bind (changeArchetype_shape _ _ fun arch => resize_shape arch _) fun _ => ?_
  refine moves_bind (fillRow_shape _ _ _ _ _) fun _ => ?_
  exact moves_bind (fillRows_shape N _ _ _ blk _ _ _) fun _ =>
    changeArchetype_shape _ _ fun _ => rfl

theorem createEntitiesFromCmp_cached (count : ℤ) {cmp : ComponentMap Name} (hcmp : Tidy cmp)
    {fillBlk : FillBlk Name} (hfill : FillsRows fillBlk) :
    Spec (Cached N) (createEntitiesFromCmp N count cmp fillBlk) (fun _ => Cached N)
      fun _ => True := by
  refine spec_onlyIf (fun _ => spec_get fun w hw => ?_) fun _ _ hs => hs
  refine Spec.pre (P := Cached N) (spec_stopIf (fun _ _ _ => trivial) fun _ => ?_)
    fun s hs => hs ▸ hw
  refine spec_orStop (fun _ _ _ => trivial) fun cmp' hcmp' => ?_
  refine withArchetype_cached N (set_tidy hcmp hcmp') fun idx => ?_
  refine moves_bind moves_get fun w => moves_bind (moves_orStop _ _) fun arch => ?_
  refine moves_bind (changeArchetype_shape _ _ fun arch => resize_shape arch _) fun _ => ?_
  refine moves_bind (moves_stopIf _ _) fun _ => ?_
  refine moves_bind (moves_modify _ fun _ => sameShape_of_eq rfl rfl rfl rfl rfl) fun _ => ?_
  refine moves_bind (moves_stopIf _ _) fun _ => ?_
  exact moves_bind (fillDirect_shape hfill _ _ _ _ _ _) fun _ =>
    changeArchetype_shape _ _ fun _ => rfl

/-- A call whose callbacks keep component maps sorted, and fill rows only. -/
def Call.Tidy : Call Name → Prop
  | .createEntity blk => KeepsTidy blk
  | .createEntities _ blk => ∀ i, KeepsTidy (blk i)
  | .createEntitiesFromCmp _ cmp fillBlk => Decs.Tidy cmp ∧ FillsRows fillBlk
  | .updateEntity _ blk => KeepsTidy blk
  | .deleteEntity _ => True
  | .commit => True

theorem call_cached {call : Call Name} (hcall : call.Tidy) :
    Spec (Cached N) (call.run N) (fun _ => Cached N) fun _ => True := by
  cases call with
  | createEntity blk =>
    exact spec_bind (moves_cached N newEntityId_shape) fun eid =>
      defer_cached N (.create eid blk) hcall
  | createEntities count blk => exact createEntities_cached N count hcall
  | createEntitiesFromCmp count cmp fillBlk =>
    exact createEntitiesFromCmp_cached N count hcall.1 hcall.2
  | updateEntity eid blk => exact defer_cached N (.update eid blk) hcall
  | deleteEntity eid => exact defer_cached N (.delete eid) trivial
  | commit => exact commit_cached N

/-! ## Looking up -/

/-- The archetype has every name that is required, and none that is required not to be there. -/
def Matches (erq : EcsRequest Name) (arch : Archetype Name) : Prop :=
  (∀ r ∈ erq.req, r ∈ arch.names) ∧ ∀ r ∈ erq.reqn, r ∉ arch.names

/-- The indices of the archetypes that match, once each and in order. -/
def Exactly (w : World Name) (erq : EcsRequest Name) (archetypes : List ℕ) : Prop :=
  archetypes.Pairwise (· < ·) ∧
    ∀ i, i ∈ archetypes ↔ ∃ arch, w.allArchetypes[i]? = some arch ∧ Matches erq arch

/-- A request that can be looked up: its hash is not there yet, or is that of its lists; and where
it is looked up first, it has no archetypes yet. -/
def Ready (w : World Name) (erq : EcsRequest Name) : Prop :=
  (erq.hash = 0 ∨ Compiled N erq) ∧
    (w.queryLookup (compiled N erq).hash = 0 → erq.archetypes = [])

/-- No two of the lists that are involved have one hash. -/
def CollisionFree (w : World Name) (erq : EcsRequest Name) : Prop :=
  Set.InjOn (fun lists : List Name × List Name => reqHash N lists.1 lists.2)
    {lists | lists = ((compiled N erq).req, (compiled N erq).reqn) ∨
      (∃ arch ∈ w.allArchetypes, lists = (arch.names, [])) ∨
      ∃ q ∈ w.ecsQueries, lists = (q.req, q.reqn)}

theorem compiled_compiled {erq : EcsRequest Name} (h : erq.hash = 0 ∨ Compiled N erq) :
    Compiled N (compiled N erq) := by
  unfold compiled
  split
  next => exact ⟨sortUnique_sorted _, sortUnique_sorted _, rfl⟩
  next hne => exact h.resolve_left hne

theorem compiled_archetypes (erq : EcsRequest Name) :
    (compiled N erq).archetypes = erq.archetypes := by
  unfold compiled
  split <;> rfl

theorem matches_compiled (erq : EcsRequest Name) (arch : Archetype Name) :
    Matches (compiled N erq) arch ↔ Matches erq arch := by
  unfold compiled
  split
  · unfold Matches compileRequest
    simp only [mem_sortUnique]
  · rfl

theorem canProcess_iff {q : EcsRequest Name} {arch : Archetype Name}
    (harch : arch.names.Pairwise (· < ·) ∧ arch.hash = reqHash N arch.names [])
    (hq : q.hash = reqHash N q.req q.reqn)
    (hfree : reqHash N q.req q.reqn = reqHash N arch.names [] →
      (q.req, q.reqn) = (arch.names, [])) :
    canProcessRequest q arch = true ↔ Matches q arch := by
  have hhas : ∀ r, arch.has r = true ↔ r ∈ arch.names := fun r =>
    binarySearch_iff Component.name harch.1 r
  rw [canProcessRequest, decide_eq_true_iff]
  simp only [hhas]
  refine ⟨fun h => h.elim (fun heq => ?_) id, Or.inr⟩
  obtain ⟨hreq, hreqn⟩ := Prod.mk.inj (hfree (hq.symm.trans (heq.trans harch.2)))
  rw [Matches, hreq, hreqn]
  exact ⟨fun r hr => hr, fun r hr => by cases hr⟩

theorem processable_exactly {w : World Name} (hw : Cached N w) {q erq : EcsRequest Name}
    (hq : q.hash = reqHash N q.req q.reqn) (hmatches : ∀ arch, Matches q arch ↔ Matches erq arch)
    (hfree : ∀ arch ∈ w.allArchetypes, reqHash N q.req q.reqn = reqHash N arch.names [] →
      (q.req, q.reqn) = (arch.names, [])) :
    Exactly w erq (processable q w.allArchetypes) := by
  refine ⟨List.pairwise_lt_range.filter _, fun i => ?_⟩
  rw [processable, List.mem_filter, List.mem_range]
  constructor
  · rintro ⟨hi, hany⟩
    rw [List.getElem?_eq_getElem hi] at hany
    have hmem := List.getElem_mem hi
    exact ⟨_, List.getElem?_eq_getElem hi, (hmatches _).mp
      ((canProcess_iff N (hw.sorted _ hmem) hq (hfree _ hmem)).mp hany)⟩
  · rintro ⟨arch, harch, h⟩
    have hmem := List.mem_of_getElem? harch
    refine ⟨(List.getElem?_eq_some_iff.mp harch).1, ?_⟩
    rw [harch]
    exact (canProcess_iff N (hw.sorted _ hmem) hq (hfree _ hmem)).mpr ((hmatches _).mpr h)

theorem lookupRequest_cached {w : World Name} (hw : Cached N w) {erq : EcsRequest Name}
    (hready : Ready N w erq) :
    ∃ erq' qi w' q, lookupRequest N erq w = .ok (erq', qi) w' ∧ Cached N w' ∧
      w' = { w with ecsQueries := w'.ecsQueries, queryLookup := w'.queryLookup } ∧
      (∀ k, w.queryLookup (compiled N erq).hash = k + 1 → w' = w ∧ k = qi) ∧
      w'.ecsQueries[qi]? = some q ∧ q.hash = (compiled N erq).hash ∧
      (q ∈ w.ecsQueries ∨ (q.req = (compiled N erq).req ∧ q.reqn = (compiled N erq).reqn)) := by
  have hcompiled := compiled_compiled N hready.1
  by_cases hnew : w.queryLookup (compiled N erq).hash = 0
  · have hempty : (compiled N erq).archetypes = [] :=
      (compiled_archetypes N erq).trans (hready.2 hnew)
    have hrun : lookupRequest N erq w =
        .ok (pushed (compiled N erq) w.allArchetypes, w.ecsQueries.length)
          (w.addQuery (pushed (compiled N erq) w.allArchetypes)) := by
      change (if w.queryLookup (compiled N erq).hash = 0 then _ else _ : Run Name _) w = _
      rw [if_pos hnew]
      rfl
    refine ⟨_, _, _, _, hrun, ⟨hw.sorted, hw.found, fun q hq => ?_, fun h k hk => ?_, hw.waiting⟩,
      rfl, fun k hk => absurd (hnew.symm.trans hk) (Nat.succ_ne_zero k).symm,
      List.getElem?_concat_length, rfl, Or.inr ⟨rfl, rfl⟩⟩
    · obtain hq | hq := List.mem_append.mp hq
      · exact hw.queries q hq
      · obtain rfl := List.mem_singleton.mp hq
        refine ⟨hcompiled, ?_⟩
        change (compiled N erq).archetypes ++ processable (compiled N erq) w.allArchetypes =
          processable (compiled N erq) w.allArchetypes
        rw [hempty]
        rfl
    · change Function.update w.queryLookup (compiled N erq).hash (w.ecsQueries.length + 1) h =
        k + 1 at hk
      by_cases hh : h = (compiled N erq).hash
      · subst hh
        rw [Function.update_self] at hk
        obtain rfl : w.ecsQueries.length = k := Nat.succ.inj hk
        exact ⟨_, List.getElem?_concat_length, rfl⟩
      · rw [Function.update_of_ne hh] at hk
        obtain ⟨q, hq, hhash⟩ := hw.looked h k hk
        refine ⟨q, ?_, hhash⟩
        exact (List.getElem?_append_left (List.getElem?_eq_some_iff.mp hq).1).trans hq
  · obtain ⟨qi, hqi⟩ := Nat.exists_eq_succ_of_ne_zero hnew
    obtain ⟨q, hq, hhash⟩ := hw.looked _ qi hqi
    have hrun : lookupRequest N erq w = .ok (compiled N erq, qi) w := by
      change (if w.queryLookup (compiled N erq).hash = 0 then _ else _ : Run Name _) w = _
      rw [if_neg hnew, hqi]
      rfl
    exact ⟨_, qi, w, q, hrun, hw, rfl, fun k hk => ⟨rfl, Nat.succ.inj (hk.symm.trans hqi)⟩, hq,
      hhash, Or.inl (List.mem_of_getElem? hq)⟩

/-- Only the queries differ, and the one at an index has exactly what matches a request. -/
structure Looked (w : World Name) (erq : EcsRequest Name) (qi : ℕ) (q : EcsRequest Name)
    (w' : World Name) : Prop where
  same : w' = { w with ecsQueries := w'.ecsQueries, queryLookup := w'.queryLookup }
  query : w'.ecsQueries[qi]? = some q
  exactly : Exactly w erq q.archetypes

theorem lookupRequest_exactly {w : World Name} (hw : Cached N w) {erq : EcsRequest Name}
    (hready : Ready N w erq) (hfree : CollisionFree N w erq) :
    ∃ erq' qi w' q, lookupRequest N erq w = .ok (erq', qi) w' ∧ Looked w erq qi q w' ∧
      ∀ k, w.queryLookup (compiled N erq).hash = k + 1 → w' = w ∧ k = qi := by
  obtain ⟨erq', qi, w', q, hrun, hw', hsame, hthere, hq, hhash, hold⟩ :=
    lookupRequest_cached N hw hready
  obtain ⟨hcompiled, harchetypes⟩ := hw'.queries q (List.mem_of_getElem? hq)
  have harchs : w'.allArchetypes = w.allArchetypes := by rw [hsame]
  -- the query has the lists of the request
  have hinvolved : (q.req, q.reqn) ∈ {lists : List Name × List Name |
      lists = ((compiled N erq).req, (compiled N erq).reqn) ∨
        (∃ arch ∈ w.allArchetypes, lists = (arch.names, [])) ∨
        ∃ q ∈ w.ecsQueries, lists = (q.req, q.reqn)} := by
    obtain hold | ⟨hreq, hreqn⟩ := hold
    · exact Or.inr (Or.inr ⟨q, hold, rfl⟩)
    · exact Or.inl (by rw [hreq, hreqn])
  have hlists : (q.req, q.reqn) = ((compiled N erq).req, (compiled N erq).reqn) := by
    refine hfree hinvolved (Or.inl rfl) ?_
    exact hcompiled.2.2.symm.trans (hhash.trans (compiled_compiled N hready.1).2.2)
  refine ⟨erq', qi, w', q, hrun, ⟨hsame, hq, ?_⟩, hthere⟩
  rw [harchetypes, harchs]
  refine processable_exactly N hw hcompiled.2.2 (fun arch => ?_) fun arch harch heq => ?_
  · rw [← matches_compiled N erq]
    unfold Matches
    rw [(Prod.mk.inj hlists).1, (Prod.mk.inj hlists).2]
  · exact hfree hinvolved (Or.inr (Or.inl ⟨arch, harch, rfl⟩)) heq

/-! ## For each archetype -/

omit [LinearOrder Name] in
theorem visit_eq {w : World Name} {archetypes : List ℕ}
    (h : ∀ i ∈ archetypes, i < w.allArchetypes.length) :
    visit archetypes w = .ok
      (archetypes.filter fun i => w.allArchetypes[i]?.any fun arch => 0 < arch.size) w := by
  induction archetypes with
  | nil => rfl
  | cons i archetypes ih =>
    obtain ⟨hi, h⟩ := List.forall_mem_cons.mp h
    have hget := List.getElem?_eq_getElem hi
    have hfound : (orStop Panic.outOfRange w.allArchetypes[i]? : Run Name _) w =
        .ok w.allArchetypes[i] w := by
      rw [hget]
      rfl
    change (orStop Panic.outOfRange w.allArchetypes[i]? >>= fun arch => _ : Run Name _) w = _
    rw [bind_ok hfound, bind_ok (ih h)]
    refine congrArg (EStateM.Result.ok · w) ?_
    by_cases hsize : 0 < w.allArchetypes[i].size
    · rw [List.filter_cons_of_pos (by rw [hget]; simpa using hsize), if_pos hsize]
    · rw [List.filter_cons_of_neg (by rw [hget]; simpa using hsize), if_neg hsize]

/-- The indices of the archetypes that match and are not empty, once each and in order. -/
def Visits (w : World Name) (erq : EcsRequest Name) (visited : List ℕ) : Prop :=
  visited.Pairwise (· < ·) ∧
    ∀ i, i ∈ visited ↔ ∃ arch, w.allArchetypes[i]? = some arch ∧ Matches erq arch ∧ 0 < arch.size

omit [LinearOrder Name] in
theorem Exactly.visits {w : World Name} {erq : EcsRequest Name} {archetypes : List ℕ}
    (h : Exactly w erq archetypes) : Visits w erq
      (archetypes.filter fun i => w.allArchetypes[i]?.any fun arch => 0 < arch.size) := by
  refine ⟨h.1.filter _, fun i => ?_⟩
  rw [List.mem_filter, h.2]
  constructor
  · rintro ⟨⟨arch, harch, hmatches⟩, hany⟩
    rw [harch] at hany
    exact ⟨arch, harch, hmatches, of_decide_eq_true hany⟩
  · rintro ⟨arch, harch, hmatches, hsize⟩
    refine ⟨⟨arch, harch, hmatches⟩, ?_⟩
    rw [harch]
    exact decide_eq_true hsize

omit [LinearOrder Name] in
theorem Exactly.lt {w : World Name} {erq : EcsRequest Name} {archetypes : List ℕ}
    (h : Exactly w erq archetypes) : ∀ i ∈ archetypes, i < w.allArchetypes.length := by
  intro i hi
  obtain ⟨arch, harch, -⟩ := (h.2 i).mp hi
  exact (List.getElem?_eq_some_iff.mp harch).1

theorem queryIndex_exactly {w : World Name} (hw : Cached N w) {erq : EcsRequest Name}
    (hready : Ready N w erq) (hfree : CollisionFree N w erq) :
    ∃ qi w' q, queryIndex N (compiled N erq).hash erq w = .ok qi w' ∧ Looked w erq qi q w' := by
  obtain ⟨erq', qi, w', q, hrun, hlooked, hthere⟩ := lookupRequest_exactly N hw hready hfree
  refine ⟨qi, w', q, ?_, hlooked⟩
  change (if w.queryLookup (compiled N erq).hash = 0 then _ else _ : Run Name _) w = _
  by_cases hnew : w.queryLookup (compiled N erq).hash = 0
  · rw [if_pos hnew, bind_ok hrun]
    rfl
  · obtain ⟨k, hk⟩ := Nat.exists_eq_succ_of_ne_zero hnew
    obtain ⟨rfl, rfl⟩ := hthere k hk
    rw [if_neg hnew, hk]
    rfl

omit [LinearOrder Name] in
theorem visit_looked {w w' : World Name} {erq q : EcsRequest Name} {qi : ℕ}
    (h : Looked w erq qi q w') : ∃ visited,
      (orStop Panic.outOfRange w'.ecsQueries[qi]? >>= fun query => visit query.archetypes :
        Run Name _) w' = .ok visited w' ∧ Visits w erq visited := by
  have harchs : w'.allArchetypes = w.allArchetypes := by rw [h.same]
  refine ⟨_, ?_, h.exactly.visits⟩
  rw [h.query, ← harchs]
  exact visit_eq fun i hi => harchs ▸ h.exactly.lt i hi

theorem forEachArchetype_visits {w : World Name} (hw : Cached N w) {erq : EcsRequest Name}
    (hready : Ready N w erq) (hfree : CollisionFree N w erq) :
    ∃ erq' visited w', forEachArchetype N erq w = .ok (erq', visited) w' ∧
      Visits w erq visited := by
  obtain ⟨erq', qi, w', q, hrun, hlooked, -⟩ := lookupRequest_exactly N hw hready hfree
  obtain ⟨visited, hvisit, hvisits⟩ := visit_looked hlooked
  refine ⟨erq', visited, w', ?_, hvisits⟩
  rw [hlooked.query] at hvisit
  rw [forEachArchetype, bind_ok hrun]
  change (orStop Panic.outOfRange w'.ecsQueries[qi]? >>= fun query => _ : Run Name _) w' = _
  rw [hlooked.query]
  exact (bind_ok hvisit _).trans rfl

theorem forEachArchetypeBy_visits {w : World Name} (hw : Cached N w) {erq : EcsRequest Name}
    (hready : Ready N w erq) (hfree : CollisionFree N w erq) :
    ∃ visited w', forEachArchetypeBy N (compiled N erq).hash erq w = .ok visited w' ∧
      Visits w erq visited := by
  obtain ⟨qi, w', q, hrun, hlooked⟩ := queryIndex_exactly N hw hready hfree
  obtain ⟨visited, hvisit, hvisits⟩ := visit_looked hlooked
  refine ⟨visited, w', ?_, hvisits⟩
  rw [forEachArchetypeBy, bind_ok hrun]
  exact hvisit

/-! ## For one entity -/

/-- The archetype that an entity's slot names. -/
def archetypeOf (w : World Name) (eid : EntityId) : Option (Archetype Name) :=
  (w.entityLookup[eid.id]? : Option Lookup).bind fun lookup =>
    (archetypeIndex w lookup.archetype).bind fun aidx => w.allArchetypes[aidx]?

/-- What `for_eid_archetype` asserts and checks of an entity that it finds: its archetype is not
empty, and its index is an `int`. -/
def Rowed (w : World Name) (eid : EntityId) : Prop :=
  ∀ lookup ∈ (w.entityLookup[eid.id]? : Option Lookup), lookup.generation = eid.generation →
    lookup.index ≤ 0x7FFFFFFF ∧ ∀ arch ∈ archetypeOf w eid, 0 < arch.size

omit [LinearOrder Name] in
theorem Looked.entity_iff {w w' : World Name} {erq : EcsRequest Name} {qi : ℕ}
    {q : EcsRequest Name} (hlooked : Looked w erq qi q w') {index : ℤ} (hint : index ≤ 0x7FFFFFFF)
    {aidx : ℕ} (hsize : ∀ arch ∈ w.allArchetypes[aidx]?, 0 < arch.size) :
    (∃ w'', (do
      let query ← orStop Panic.outOfRange w'.ecsQueries[qi]?
      if binarySearch query.archetypes (fun x => x < aidx) fun x => aidx < x then do
        let arch ← orStop .outOfRange w'.allArchetypes[aidx]?
        stopIf .assertion (arch.size ≤ 0)
        stopIf .tooMany (0x7FFFFFFF < index)
        pure true
      else pure false : Run Name Bool) w' = .ok true w'') ↔
      ∃ arch ∈ w.allArchetypes[aidx]?, Matches erq arch := by
  have harchs : w'.allArchetypes = w.allArchetypes := by rw [hlooked.same]
  have hfound : binarySearch q.archetypes (fun x => x < aidx) (fun x => aidx < x) = true ↔
      aidx ∈ q.archetypes := by
    have h := binarySearch_iff (id : ℕ → ℕ)
      (by rw [List.map_id]; exact hlooked.exactly.1) aidx
    rwa [List.map_id] at h
  rw [hlooked.query]
  change (∃ w'', (if binarySearch q.archetypes (fun x => x < aidx) (fun x => aidx < x) then _
    else pure false : Run Name Bool) w' = .ok true w'') ↔ _
  by_cases hmem : aidx ∈ q.archetypes
  · obtain ⟨arch, harch, hmatches⟩ := (hlooked.exactly.2 aidx).mp hmem
    have hpositive := hsize arch harch
    rw [if_pos (hfound.mpr hmem), harchs, harch]
    refine iff_of_true ⟨w', ?_⟩ ⟨arch, rfl, hmatches⟩
    change (stopIf Panic.assertion (arch.size ≤ 0) >>= fun _ =>
      (stopIf Panic.tooMany (0x7FFFFFFF < index) >>= fun _ => pure true) : Run Name Bool) w' = _
    unfold stopIf
    rw [if_neg (not_le.mpr hpositive), if_neg (not_lt.mpr hint)]
    rfl
  · rw [if_neg (hfound.not.mpr hmem)]
    refine iff_of_false ?_ ?_
    · rintro ⟨_, h⟩
      cases h
    · rintro ⟨arch, harch, hmatches⟩
      exact hmem ((hlooked.exactly.2 aidx).mpr ⟨arch, harch, hmatches⟩)

theorem forEidArchetype_iff {w : World Name} (hw : Cached N w) {erq : EcsRequest Name}
    (hready : Ready N w erq) (hfree : CollisionFree N w erq) {eid : EntityId}
    (hhollow : ¬Hollow w eid) (hrowed : Rowed w eid) :
    (∃ w', forEidArchetype N eid (compiled N erq).hash erq w = .ok true w') ↔
      isAlive w eid ∧ ∃ arch ∈ archetypeOf w eid, Matches erq arch := by
  obtain ⟨qi, w', q, hrun, hlooked⟩ := queryIndex_exactly N hw hready hfree
  have hindex : ∀ h, archetypeIndex w' h = archetypeIndex w h := fun h => by rw [hlooked.same]; rfl
  have halive : isAlive w eid = true ↔ w.generation eid.id = some eid.generation := by
    refine isAlive_iff.trans ⟨And.right, fun h => ⟨fun hinvalid => hhollow ?_, h⟩⟩
    rw [hinvalid] at h ⊢
    exact ⟨rfl, h⟩
  rw [halive]
  change (∃ w'', (orStop Panic.outOfRange w.entityLookup[eid.id]? >>= fun lookup => _ :
    Run Name Bool) w = .ok true w'') ↔ _
  unfold archetypeOf World.generation
  cases hlookup : w.entityLookup[eid.id]? with
  | none =>
    constructor
    · rintro ⟨_, h⟩
      cases h
    · rintro ⟨h, -⟩
      cases h
  | some lookup =>
    change (∃ w'', (if lookup.generation ≠ eid.generation then pure false else _ :
      Run Name Bool) w = .ok true w'') ↔ some lookup.generation = some eid.generation ∧
        ∃ arch ∈ (archetypeIndex w lookup.archetype).bind fun aidx => w.allArchetypes[aidx]?,
          Matches erq arch
    by_cases hgeneration : lookup.generation = eid.generation
    · obtain ⟨hint, hsize⟩ := hrowed lookup hlookup hgeneration
      rw [archetypeOf, hlookup, Option.bind_some] at hsize
      rw [if_neg (not_not.mpr hgeneration), bind_ok hrun]
      have hget : (get : Run Name (World Name)) w' = .ok w' w' := rfl
      rw [bind_ok hget, hindex]
      cases haidx : archetypeIndex w lookup.archetype with
      | none =>
        constructor
        · rintro ⟨_, h⟩
          cases h
        · rintro ⟨-, _, h, -⟩
          cases h
      | some aidx =>
        rw [haidx, Option.bind_some] at hsize
        rw [and_iff_right (congrArg some hgeneration)]
        exact hlooked.entity_iff hint hsize
    · rw [if_pos hgeneration]
      constructor
      · rintro ⟨_, h⟩
        cases h
      · rintro ⟨h, -⟩
        exact absurd (Option.some.inj h) hgeneration

end DaScript.Decs

import DaScript.Daslib.DecsQueries
import DaScript.Daslib.DecsShapes

/-!
# Daslib/DecsCached — the archetypes of a query are those that it can process

`create_archetype` adds the new index to the queries that can process it, so what a query was given
when it was first looked up stays complete (`Cached`), whatever is created and removed in between.

Component maps are sorted by name (`Tidy`), and `set` and `remove` keep them so.
-/

namespace DaScript.Decs

open Algorithm Stateful

variable {Name : Type} [LinearOrder Name] (N : Naming Name)

/-! ## Component maps are sorted -/

/-- Every name once, in order. -/
def Tidy (cmp : ComponentMap Name) : Prop := (cmp.map ComponentValue.name).Pairwise (· < ·)

/-- A callback that keeps component maps sorted. -/
def KeepsTidy (blk : Fill Name) : Prop :=
  ∀ eid cmp cmp', Tidy cmp → blk eid cmp = some cmp' → Tidy cmp'

theorem pairwise_insertIdx {a : List Name} (ha : a.Pairwise (· < ·)) {k : ℕ} {c : Name}
    (hk : ∀ i x, a[i]? = some x → (x < c ↔ i < k)) (hc : c ∉ a) (hle : k ≤ a.length) :
    (a.insertIdx k c).Pairwise (· < ·) := by
  induction a generalizing k with
  | nil =>
    obtain rfl : k = 0 := Nat.le_zero.mp hle
    exact List.pairwise_singleton _ c
  | cons y a ih =>
    obtain ⟨hy, ha'⟩ := List.pairwise_cons.mp ha
    rw [List.mem_cons, not_or] at hc
    cases k with
    | zero =>
      have hcy : c < y := lt_of_le_of_ne (not_lt.mp fun h => by
        simpa using (hk 0 y rfl).mp h) hc.1
      refine List.pairwise_cons.mpr ⟨fun x hx => ?_, ha⟩
      obtain rfl | hx := List.mem_cons.mp hx
      · exact hcy
      · exact hcy.trans (hy x hx)
    | succ k =>
      have hyc : y < c := (hk 0 y rfl).mpr (Nat.succ_pos k)
      rw [List.insertIdx_succ_cons]
      refine List.pairwise_cons.mpr ⟨fun x hx => ?_, ih ha' (fun i x h => ?_) hc.2
        (Nat.le_of_succ_le_succ hle)⟩
      · obtain rfl | hx := List.eq_or_mem_of_mem_insertIdx hx
        · exact hyc
        · exact hy x hx
      · rw [hk (i + 1) x h]
        omega

theorem get_bound {cmp : ComponentMap Name} (hcmp : Tidy cmp) {name : Name} {k : ℕ}
    (hk : ∀ i v, cmp[i]? = some v → (v.name < name ↔ i < k)) {v : ComponentValue Name}
    (hv : v ∈ cmp) (hname : v.name = name) : cmp[k]? = some v := by
  obtain ⟨i, hi⟩ := List.mem_iff_getElem?.mp hv
  have hki : k ≤ i := not_lt.mp fun hlt => ((hk i v hi).mpr hlt).ne hname
  obtain rfl | hlt := hki.eq_or_lt
  · exact hi
  · obtain ⟨hil, rfl⟩ := List.getElem?_eq_some_iff.mp hi
    have hkl : k < cmp.length := hlt.trans hil
    have hbelow : cmp[k].name < name :=
      hname ▸ List.pairwise_iff_getElem.mp (List.pairwise_map.mp hcmp) k i hkl hil hlt
    exact absurd ((hk k cmp[k] (List.getElem?_eq_getElem hkl)).mp hbelow) (lt_irrefl k)

theorem insertIdx_tidy {cmp : ComponentMap Name} (hcmp : Tidy cmp) {cv : ComponentValue Name}
    {k : ℕ} (hle : k ≤ cmp.length)
    (hk : ∀ i v, cmp[i]? = some v → (v.name < cv.name ↔ i < k))
    (hnot : cv.name ∉ cmp.map ComponentValue.name) : Tidy (cmp.insertIdx k cv) := by
  rw [Tidy, List.map_insertIdx]
  refine pairwise_insertIdx hcmp (fun i x hx => ?_) hnot (by simpa using hle)
  rw [List.getElem?_map] at hx
  obtain ⟨v, hv, rfl⟩ := Option.map_eq_some_iff.mp hx
  exact hk i v hv

theorem set_tidy {cmp cmp' : ComponentMap Name} {cv : ComponentValue Name} (hcmp : Tidy cmp)
    (h : set cmp cv = some cmp') : Tidy cmp' := by
  obtain ⟨k, hle, hbound⟩ := exists_bound ComponentValue.name hcmp cv.name
  rw [set, lowerBound_eq hbound hle] at h
  have hk : ∀ i v, cmp[i]? = some v → (v.name < cv.name ↔ i < k) := fun i v hv => by
    simpa using hbound i v hv
  have hthere : ∀ v ∈ cmp, v.name = cv.name → cmp[k]? = some v := fun _ => get_bound hcmp hk
  have hinsert := insertIdx_tidy hcmp hle hk
  cases hcase : cmp[k]? with
  | none =>
    rw [hcase] at h
    obtain rfl := Option.some.inj h
    refine hinsert fun hmem => ?_
    obtain ⟨v, hv, hname⟩ := List.mem_map.mp hmem
    rw [hthere v hv hname] at hcase
    cases hcase
  | some old =>
    rw [hcase] at h
    dsimp only at h
    split at h
    next hname =>
      split at h
      · cases h
      · obtain rfl := Option.some.inj h
        rw [Tidy, List.map_set, ← hname]
        have : (cmp.map ComponentValue.name)[k]? = some old.name := by
          rw [List.getElem?_map, hcase]
          rfl
        obtain ⟨hlt, hget⟩ := List.getElem?_eq_some_iff.mp this
        rw [← hget, List.set_getElem_self]
        exact hcmp
    next hname =>
      obtain rfl := Option.some.inj h
      refine hinsert fun hmem => ?_
      obtain ⟨v, hv, hname'⟩ := List.mem_map.mp hmem
      have := (hthere v hv hname').symm.trans hcase
      exact hname (Option.some.inj this ▸ hname')

theorem makeEid_tidy (eid : EntityId) : Tidy [makeEid N eid] := List.pairwise_singleton _ _

/-! ## What a request sees is a shape -/

/-- `can_process_request`, of what can be seen. -/
def canProcessShape (erq : EcsRequest Name) (shape : ComponentHash × List Name) : Bool :=
  erq.hash = shape.1 ∨
    (∀ r ∈ erq.req, binarySearch shape.2 (fun x => x < r) fun x => r < x) ∧
    ∀ r ∈ erq.reqn, ¬binarySearch shape.2 (fun x => x < r) fun x => r < x

theorem has_eq (arch : Archetype Name) (r : Name) :
    arch.has r = binarySearch arch.names (fun x => x < r) fun x => r < x :=
  (binarySearch_map Component.name arch.components (fun x => x < r) fun x => r < x).symm

theorem canProcess_eq (erq : EcsRequest Name) (arch : Archetype Name) :
    canProcessRequest erq arch = canProcessShape erq arch.shape := by
  unfold canProcessRequest canProcessShape
  simp only [has_eq]
  rfl

theorem processable_eq (erq : EcsRequest Name) (archetypes : List (Archetype Name)) :
    processable erq archetypes = (List.range (archetypes.map Archetype.shape).length).filter
      fun i => (archetypes.map Archetype.shape)[i]?.any (canProcessShape erq) := by
  unfold processable
  rw [List.length_map]
  refine List.filter_congr fun i _ => ?_
  rw [List.getElem?_map, Option.any_map]
  congr 1
  funext arch
  exact canProcess_eq erq arch

theorem processable_append (erq : EcsRequest Name) (archetypes : List (Archetype Name))
    (arch : Archetype Name) :
    processable erq (archetypes ++ [arch]) = processable erq archetypes ++
      if canProcessRequest erq arch then [archetypes.length] else [] := by
  unfold processable
  rw [List.length_append, List.length_singleton, List.range_succ, List.filter_append]
  congr 1
  · refine List.filter_congr fun i hi => ?_
    rw [List.getElem?_append_left (List.mem_range.mp hi)]
  · rw [List.filter_singleton, List.getElem?_append_right le_rfl, Nat.sub_self]
    exact Bool.cond_eq_ite _ _ _

/-! ## The queries that are kept -/

/-- A request whose lists are sorted, under their hash. -/
def Compiled (erq : EcsRequest Name) : Prop :=
  erq.req.Pairwise (· < ·) ∧ erq.reqn.Pairwise (· < ·) ∧ erq.hash = reqHash N erq.req erq.reqn

/-- An action whose callback keeps component maps sorted. -/
def Action.Tidy : Action Name → Prop
  | .create _ blk => KeepsTidy blk
  | .update _ blk => KeepsTidy blk
  | .delete _ => True

/-- Archetypes are sorted, under their hash; tables find what is there; every query has what it can
process. -/
structure Cached (w : World Name) : Prop where
  sorted : ∀ arch ∈ w.allArchetypes,
    arch.names.Pairwise (· < ·) ∧ arch.hash = reqHash N arch.names []
  found : ∀ h k, w.archetypeLookup h = k + 1 →
    ∃ arch, w.allArchetypes[k]? = some arch ∧ arch.hash = h
  queries : ∀ q ∈ w.ecsQueries, Compiled N q ∧ q.archetypes = processable q w.allArchetypes
  looked : ∀ h k, w.queryLookup h = k + 1 → ∃ q, w.ecsQueries[k]? = some q ∧ q.hash = h
  waiting : ∀ action ∈ w.deferActions, action.Tidy

theorem Cached.same {w w' : World Name} (hw : Cached N w) (h : SameShape w w') : Cached N w' := by
  refine ⟨fun arch harch => ?_, fun hash k hk => ?_, fun q hq => ?_, fun hash k hk => ?_,
    fun action haction => hw.waiting action (h.deferActions ▸ haction)⟩
  · have hshape : arch.shape ∈ w.allArchetypes.map Archetype.shape :=
      h.shapes ▸ List.mem_map_of_mem harch
    obtain ⟨old, hold, heq⟩ := List.mem_map.mp hshape
    obtain ⟨hhash, hnames⟩ := Prod.mk.inj heq
    rw [← hhash, ← hnames]
    exact hw.sorted old hold
  · rw [h.archetypeLookup] at hk
    obtain ⟨old, hold, hhash⟩ := hw.found hash k hk
    have hshape : (w'.allArchetypes.map Archetype.shape)[k]? = some old.shape := by
      rw [h.shapes, List.getElem?_map, hold]
      rfl
    rw [List.getElem?_map] at hshape
    obtain ⟨arch, harch, heq⟩ := Option.map_eq_some_iff.mp hshape
    exact ⟨arch, harch, (Prod.mk.inj heq).1.trans hhash⟩
  · rw [h.ecsQueries] at hq
    obtain ⟨hcompiled, harchetypes⟩ := hw.queries q hq
    refine ⟨hcompiled, ?_⟩
    rw [harchetypes, processable_eq, processable_eq, h.shapes]
  · rw [h.queryLookup] at hk
    rw [h.ecsQueries]
    exact hw.looked hash k hk

theorem moves_cached {m : Run Name α} (hm : Moves SameShape m) :
    Spec (Cached N) m (fun _ => Cached N) fun _ => True :=
  hm.spec fun _ _ hw hsame => ⟨hw.same N hsame, trivial⟩

/-! ## An archetype is created -/

/-- While `create_archetype` runs: one archetype more, with the components it has so far. -/
def Begun (w : World Name) (hash : ComponentHash) (names : List Name) (s : World Name) : Prop :=
  ∃ arch : Archetype Name, arch.hash = hash ∧ arch.names = names ∧
    s.allArchetypes = w.allArchetypes ++ [arch] ∧
    s.archetypeLookup = Function.update w.archetypeLookup hash (w.allArchetypes.length + 1) ∧
    s.ecsQueries = w.ecsQueries ∧ s.queryLookup = w.queryLookup ∧ s.deferActions = w.deferActions

theorem modify_length {α : Type} (l : List α) (a : α) (f : α → α) :
    (l ++ [a]).modify l.length f = l ++ [f a] := by
  induction l with
  | nil => rfl
  | cons b l ih => exact congrArg (List.cons b) ih

omit [LinearOrder Name] in
theorem changeLast_spec {w : World Name} {hash : ComponentHash} {names names' : List Name}
    (f : Archetype Name → Archetype Name) (hhash : ∀ arch, (f arch).hash = arch.hash)
    (hnames : ∀ arch : Archetype Name, arch.names = names → (f arch).names = names') :
    Spec (Begun w hash names) (changeArchetype w.allArchetypes.length f)
      (fun _ => Begun w hash names') fun _ => True := by
  refine spec_modify _ fun s hs => ?_
  obtain ⟨arch, harch, hold, hall, hrest⟩ := hs
  refine ⟨f arch, (hhash arch).trans harch, hnames arch hold, ?_, hrest⟩
  change s.allArchetypes.modify _ f = _
  rw [hall, modify_length]

theorem createComponent_begun {w : World Name} {hash : ComponentHash} {names : List Name}
    (kv : ComponentValue Name × ℕ) :
    Spec (Begun w hash names) (createComponent N w.allArchetypes.length kv)
      (fun _ => Begun w hash (names ++ [kv.1.name])) fun _ => True := by
  refine spec_get fun s hs => spec_stopIf (fun _ _ _ => trivial) fun _ => ?_
  have hcheck : Spec (fun s' => s' = s) (onlyIf ((s.componentTypeCheck kv.1.name).hash = 0)
      (modify fun w => { w with
        componentTypeCheck := Function.update w.componentTypeCheck kv.1.name kv.1.info }) :
      Run Name Unit)
      (fun _ => Begun w hash names) fun _ => True := by
    refine spec_onlyIf (fun _ => spec_modify _ fun s' hs' => ?_) fun _ s' hs' => hs' ▸ hs
    rw [hs']
    exact hs
  refine spec_bind hcheck fun _ => ?_
  refine spec_bind (Q := fun _ => Begun w hash (names ++ [kv.1.name]))
    (changeLast_spec _ (fun _ => rfl) fun arch harch => ?_) fun _ => ?_
  · rw [← harch]
    exact List.map_append
  · refine spec_onlyIf (fun _ => ?_) fun _ _ hs' => hs'
    refine spec_orStop (fun _ _ _ => trivial) fun arch _ => spec_stopIf (fun _ _ _ => trivial)
      fun _ => changeLast_spec _ (fun _ => rfl) fun arch harch => harch

theorem createComponents_begun {w : World Name} {hash : ComponentHash} (cmp : ComponentMap Name) :
    Spec (Begun w hash []) (cmp.zipIdx.forM (createComponent N w.allArchetypes.length))
      (fun _ => Begun w hash (cmp.map ComponentValue.name)) fun _ => True := by
  have hforM := spec_forM (E := fun _ => True) (f := createComponent N w.allArchetypes.length)
    (I := fun rest s => ∃ names, names ++ rest.map (fun kv => kv.1.name) =
      cmp.zipIdx.map (fun kv => kv.1.name) ∧ Begun w hash names s)
    (fun kv rest s ⟨names, hnames, hs⟩ => by
      have h := createComponent_begun N kv s hs
      cases hrun : createComponent N w.allArchetypes.length kv s with
      | ok a s' =>
        rw [hrun] at h
        refine ⟨names ++ [kv.1.name], ?_, h⟩
        rw [← hnames, List.map_cons, List.append_assoc]
        rfl
      | error e s' => trivial) cmp.zipIdx
  have hzip : cmp.zipIdx.map (fun kv => kv.1.name) = cmp.map ComponentValue.name := by
    have h := congrArg (List.map ComponentValue.name) (List.zipIdx_map_fst 0 cmp)
    rwa [List.map_map] at h
  refine (hforM.returns fun _ s hs => ?_).pre fun s hs => ⟨[], rfl, hs⟩
  obtain ⟨names, hnames, hs⟩ := hs
  rw [List.map_nil, List.append_nil, hzip] at hnames
  exact hnames ▸ hs

theorem found_added {w s : World Name} (hw : Cached N w) {arch : Archetype Name}
    (hall : s.allArchetypes = w.allArchetypes ++ [arch])
    (hlookup : s.archetypeLookup =
      Function.update w.archetypeLookup arch.hash (w.allArchetypes.length + 1))
    {h : ComponentHash} {k : ℕ} (hk : s.archetypeLookup h = k + 1) :
    ∃ other, s.allArchetypes[k]? = some other ∧ other.hash = h := by
  rw [hlookup] at hk
  rw [hall]
  by_cases hnew : h = arch.hash
  · rw [hnew, Function.update_self] at hk
    obtain rfl : w.allArchetypes.length = k := Nat.succ.inj hk
    refine ⟨arch, ?_, hnew.symm⟩
    rw [List.getElem?_append_right le_rfl, Nat.sub_self]
    rfl
  · rw [Function.update_of_ne hnew] at hk
    obtain ⟨other, hother, hhash⟩ := hw.found h k hk
    refine ⟨other, ?_, hhash⟩
    rw [List.getElem?_append_left (List.getElem?_eq_some_iff.mp hother).1]
    exact hother

theorem query_added (q : EcsRequest Name) (arch : Archetype Name) (idx : ℕ) :
    (if canProcessRequest q arch then { q with archetypes := q.archetypes ++ [idx] } else q) =
      { q with archetypes := q.archetypes ++ if canProcessRequest q arch then [idx] else [] } := by
  split
  · rfl
  · rw [List.append_nil]

theorem createArchetype_begun {w : World Name} (hw : Cached N w) {cmp : ComponentMap Name}
    (hcmp : Tidy cmp) :
    Spec (Begun w (cmpArchetypeHash N cmp) []) (createArchetype N w.allArchetypes.length cmp)
      (fun _ => Cached N) fun _ => True := by
  refine spec_bind (changeLast_spec _ (fun _ => rfl) fun arch harch => harch) fun _ => ?_
  refine spec_bind (createComponents_begun N cmp) fun _ => spec_get fun s hs => ?_
  obtain ⟨arch, hhash, hnames, hall, hlookup, hqueries, hquery, hdefer⟩ := hs
  refine spec_orStop (fun _ _ _ => trivial) fun arch' harch' => ?_
  refine spec_stopIf (fun _ _ _ => trivial) fun _ => spec_modify _ fun s' hs' => ?_
  subst hs'
  obtain rfl : arch = arch' := by
    rw [hall, List.getElem?_append_right le_rfl, Nat.sub_self] at harch'
    exact Option.some.inj harch'
  refine ⟨fun other hother => ?_, fun h k hk => ?_, fun q hq => ?_, fun h k hk => ?_,
    fun action haction => hw.waiting action (hdefer ▸ haction)⟩
  · change other ∈ s'.allArchetypes at hother
    rw [hall] at hother
    obtain hother | hother := List.mem_append.mp hother
    · exact hw.sorted other hother
    · obtain rfl := List.mem_singleton.mp hother
      rw [hnames, hhash]
      refine ⟨hcmp, ?_⟩
      rw [cmpArchetypeHash, reqHash, List.foldl_map]
      rfl
  · exact found_added N hw hall (hhash ▸ hlookup) hk
  · change q ∈ s'.ecsQueries.map _ at hq
    change _ ∧ _ = processable q s'.allArchetypes
    obtain ⟨old, hold, rfl⟩ := List.mem_map.mp hq
    rw [hqueries] at hold
    obtain ⟨hcompiled, harchetypes⟩ := hw.queries old hold
    rw [query_added, hall]
    refine ⟨hcompiled, ?_⟩
    change old.archetypes ++ _ = processable old (w.allArchetypes ++ [arch])
    rw [processable_append, harchetypes]
  · change s'.queryLookup h = k + 1 at hk
    rw [hquery] at hk
    obtain ⟨q, hq, hhash'⟩ := hw.looked h k hk
    refine ⟨{ q with archetypes := q.archetypes ++
      if canProcessRequest q arch then [w.allArchetypes.length] else [] }, ?_, hhash'⟩
    change (s'.ecsQueries.map _)[k]? = _
    rw [List.getElem?_map, hqueries, hq, Option.map_some, query_added]

theorem withArchetype_cached {cmp : ComponentMap Name} (hcmp : Tidy cmp)
    {rest : ℕ → Run Name Unit} (hrest : ∀ idx, Moves SameShape (rest idx)) :
    Spec (Cached N) (withArchetype (cmpArchetypeHash N cmp) fun idx isNew => do
        onlyIf isNew (createArchetype N idx cmp)
        rest idx)
      (fun _ => Cached N) fun _ => True := by
  refine spec_get fun w hw => ?_
  by_cases hnew : w.archetypeLookup (cmpArchetypeHash N cmp) = 0
  · have hstart : Spec (fun s => s = w) (onlyIf (decide
        (w.archetypeLookup (cmpArchetypeHash N cmp) = 0) = true) (modify fun w => { w with
          allArchetypes := w.allArchetypes ++ [⟨cmpArchetypeHash N cmp, [], 0, 0⟩]
          archetypeLookup := Function.update w.archetypeLookup (cmpArchetypeHash N cmp)
            (w.allArchetypes.length + 1) }) : Run Name Unit)
        (fun _ => Begun w (cmpArchetypeHash N cmp) []) fun _ => True := by
      refine spec_onlyIf (fun _ => spec_modify _ fun s hs => ?_)
        fun h => absurd (by simpa using hnew) h
      subst hs
      exact ⟨_, rfl, rfl, rfl, rfl, rfl, rfl, rfl⟩
    refine spec_bind hstart fun _ => spec_get fun s hs => ?_
    have hidx : s.archetypeLookup (cmpArchetypeHash N cmp) - 1 = w.allArchetypes.length := by
      obtain ⟨arch, -, -, -, hlookup, -⟩ := hs
      rw [hlookup, Function.update_self]
      rfl
    rw [hidx]
    refine spec_bind (Q := fun _ => Begun w (cmpArchetypeHash N cmp) [])
      (spec_modify _ fun s' hs' => hs' ▸ hs) fun _ => ?_
    refine spec_bind (spec_bind (spec_onlyIf (fun _ => createArchetype_begun N hw hcmp)
      fun h => absurd (by simpa using hnew) h) fun _ => moves_cached N (hrest _)) fun _ => ?_
    exact moves_cached N (moves_modify _ fun _ => sameShape_of_eq rfl rfl rfl rfl rfl)
  · have hskip : ∀ m : Run Name Unit,
        Spec (Cached N) (onlyIf (decide (w.archetypeLookup (cmpArchetypeHash N cmp) = 0) = true) m)
          (fun _ => Cached N) fun _ => True := fun m =>
      spec_onlyIf (fun h => absurd (of_decide_eq_true h) hnew) fun _ _ hs => hs
    refine spec_bind ((hskip _).pre fun s hs => hs ▸ hw) fun _ => spec_get fun s hs => ?_
    refine spec_bind (Q := fun _ => Cached N) (spec_modify _ fun s' hs' => ?_) fun _ => ?_
    · exact hs.same N (hs' ▸ sameShape_of_eq rfl rfl rfl rfl rfl)
    · refine spec_bind (spec_bind (hskip _) fun _ => moves_cached N (hrest _)) fun _ => ?_
      exact moves_cached N (moves_modify _ fun _ => sameShape_of_eq rfl rfl rfl rfl rfl)

end DaScript.Decs

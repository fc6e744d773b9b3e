import DaScript.Runtime.TableRuns

/-!
# Runtime/TableMap — a script table is a finite map

Against a `KeyMap` the table is read by its cells: `Refines` says that they hold the map, that no
key is in two of them, that every slot keeps the tag of its key, and — open-addressed — that every
key is chained to its home by its 64-bit hash.

A table of keys that store no hash is rebuilt by hashes recomputed from the keys, so it refines the
map along every run (`run_refines_nonstring`).  A large string table is rebuilt by the 32-bit keys
it stored, while it is searched by 64-bit hashes: **the two part where the remap moved the key**,
and the map is refined along the runs that rebuild no such table (`run_refines_string`).
-/

open Function

namespace DaScript

open Probing TableHash

variable {K V : Type*}

/-- **What a table asks of its keys**: a comparison that is an equivalence, and hashes past the
sentinels that respect it — and, of the strings `U` in use, that no two share a hash. -/
structure KeyLaws (T : KeyType K) (U : K → Prop) : Prop where
  equiv : KeyEquiv T.keyCompare
  past : ∀ k, 1 < T.hashFunction k
  respects : ∀ {a b}, T.keyCompare a b = true → T.hashFunction a = T.hashFunction b
  injective : T.storesHash = true → ∀ a b, U a → U b → T.hashFunction a = T.hashFunction b →
    T.keyCompare a b = true

/-- What a slot of a table of this capacity keeps for a hash. -/
def tagOf (T : KeyType K) (capacity : ℕ) (hash : UInt64) : UInt64 :=
  if packed T capacity then hash else ownControl T hash

/-- **The table is the finite map `m`.** -/
structure Refines (T : KeyType K) (U : K → Prop) (tab : Table K V)
    (m : KeyMap K V T.keyCompare) : Prop where
  wf : WellFormed T tab
  distinct : Distinct T.keyCompare tab.capacity (tab.cell T)
  chained : packed T tab.capacity = false →
    Chained (fun k => homeSlot tab.capacity (T.hashFunction k)) tab.capacity (tab.cell T)
  tagged : ∀ i < tab.capacity, (tab.cell T i).isLive = true →
    tab.hashes i = tagOf T tab.capacity (T.hashFunction (tab.keys i))
  used : ∀ i < tab.capacity, (tab.cell T i).isLive = true → U (tab.keys i)
  holds : Holds tab.capacity (tab.cell T) m
  size : tab.size = m.card

variable {T : KeyType K} {U : K → Prop} {tab : Table K V} {m : KeyMap K V T.keyCompare}

/-! ## Looking a key up -/

theorem Refines.see (laws : KeyLaws T U) (h : Refines T U tab m)
    (hp : packed T tab.capacity = false) (key : K) {i : ℕ} (hi : i < tab.capacity) :
    seeReserve T tab key (T.hashFunction key) i = (tab.cell T i).look T.keyCompare key := by
  cases hcell : tab.cell T i with
  | empty => exact (seeReserve_eq_empty hp).mpr hcell
  | killed => exact (seeReserve_eq_killed hp).mpr hcell
  | live k v =>
    have hlive : (tab.cell T i).isLive = true := by rw [hcell]; rfl
    obtain ⟨rfl, -⟩ := cell_live hcell
    have htag := h.tagged i hi hlive
    rw [tagOf, hp, if_neg (by simp)] at htag
    obtain ⟨h0, h1⟩ := one_lt_iff.mp (ownControl_lt T (T.hashFunction (tab.keys i)))
    rw [← htag] at h0 h1
    simp only [seeReserve]
    rw [if_neg h0, if_neg h1, Cell.look]
    by_cases hs : T.keyCompare (tab.keys i) key = true
    · have hown : T.storesHash = true → tab.hashes i = storedKey (T.hashFunction key) :=
        fun hst => by rw [htag, ownControl, if_pos hst, laws.respects hs]
      rw [if_pos ⟨hown, hs⟩, if_pos hs]
    · rw [if_neg fun hc => hs hc.2, if_neg hs]

theorem Refines.walk_pass (laws : KeyLaws T U) (h : Refines T U tab m)
    (hp : packed T tab.capacity = false) {key : K} {d : ℕ}
    (hw : Walk T tab key (T.hashFunction key) d) :
    ∀ e < d, ((tab.cell T (tab.probed (T.hashFunction key) e)).look T.keyCompare key).stops
      = false := by
  intro e he
  rw [← h.see laws hp key (hw.probed_lt e)]
  exact hw.pass e he

theorem Refines.absent_of_walk (laws : KeyLaws T U) (h : Refines T U tab m)
    (hp : packed T tab.capacity = false) {key : K} {d : ℕ}
    (hw : Walk T tab key (T.hashFunction key) d)
    (he : seeReserve T tab key (T.hashFunction key) (tab.probed (T.hashFunction key) d) = .empty) :
    Absent T.keyCompare tab.capacity (tab.cell T) key :=
  (h.chained hp).absent (fun {a b} hab => by rw [laws.respects hab]) hw.lt
    (h.walk_pass laws hp hw) ((seeReserve_eq_empty hp).mp he)

theorem Refines.absent (laws : KeyLaws T U) (h : Refines T U tab m) {key : K}
    (hl : Looked T tab key (T.hashFunction key) none) :
    Absent T.keyCompare tab.capacity (tab.cell T) key := by
  cases hl with
  | unallocated hc => exact fun i hi => by omega
  | dense hp hc hf =>
    intro i hi k' v hk
    have hlive : (tab.cell T i).isLive = true := by rw [hk]; rfl
    obtain ⟨rfl, -⟩ := cell_live hk
    have htag := h.tagged i hi hlive
    rw [tagOf, if_pos hp] at htag
    have hne := packedFind_eq_none hf i (by rw [← h.wf.capacity_of_packed hp hc]; exact hi)
    by_contra hs
    exact hne (by rw [htag, laws.respects (by simpa using hs)])
  | absent hp hw he => exact h.absent_of_walk laws hp hw he

theorem Refines.present (laws : KeyLaws T U) (h : Refines T U tab m) {key : K} (hU : U key)
    {i : ℕ} (hl : Looked T tab key (T.hashFunction key) (some i)) :
    i < tab.capacity ∧ (tab.cell T i).isLive = true ∧ T.keyCompare (tab.keys i) key = true := by
  obtain ⟨hi, hlive⟩ := hl.live h.wf (laws.past key)
  refine ⟨hi, hlive, ?_⟩
  cases hl with
  | dense hp hc hf =>
    have htag := h.tagged i hi hlive
    rw [tagOf, if_pos hp, (packedFind_eq_some hf).2] at htag
    exact laws.injective (packed_eq.mp hp).1 _ _ (h.used i hi hlive) hU htag.symm
  | present hp hw hhit =>
    rw [h.see laws hp key hi] at hhit
    obtain ⟨k', v, hk, hs⟩ := Cell.look_eq_hit.mp hhit
    obtain ⟨rfl, -⟩ := cell_live hk
    exact hs

theorem Refines.find (laws : KeyLaws T U) (h : Refines T U tab m) {key : K} (hU : U key) :
    ∃ r, find T tab key (T.hashFunction key) = some r ∧
      (r.isSome = true ↔ (m.lookup key).isSome = true) ∧
      ∀ i, r = some i → i < tab.capacity ∧ tableLiveSlot tab i = true ∧
        T.keyCompare (tab.keys i) key = true ∧ m.lookup key = some (tab.values i) := by
  obtain ⟨r, hr, hl⟩ := find_spec h.wf key (T.hashFunction key)
  refine ⟨r, hr, ?_⟩
  cases r with
  | none =>
    have hnone := h.holds.lookup_of_absent (h.absent laws hl)
    simp [hnone]
  | some i =>
    obtain ⟨hi, hlive, hs⟩ := h.present laws hU hl
    have hsome := h.holds.lookup_of_same hi (cell_of_isLive hlive) hs
    refine ⟨by simp [hsome], fun j hj => ?_⟩
    obtain rfl := Option.some.inj hj
    exact ⟨hi, by rw [tableLiveSlot_eq h.wf (by omega), hlive], hs, hsome⟩

theorem Refines.unique (h : Refines T U tab m) {i j : ℕ} (hi : i < tab.capacity)
    (hj : j < tab.capacity) (hli : tableLiveSlot tab i = true) (hlj : tableLiveSlot tab j = true)
    (hs : T.keyCompare (tab.keys i) (tab.keys j) = true) : i = j := by
  rw [tableLiveSlot_eq h.wf (by omega)] at hli hlj
  exact h.distinct i hi j hj _ _ _ _ (cell_of_isLive hli) (cell_of_isLive hlj) hs

/-! ## Putting a key -/

theorem Refines.putNew (laws : KeyLaws T U) (h : Refines T U tab m) {key : K} (hU : U key)
    {tab' : Table K V} (hwf : WellFormed T tab') (hcap : tab'.capacity = tab.capacity)
    (hsize : tab'.size = tab.size + 1) {i : ℕ} (hi : i < tab.capacity)
    (hfree : (tab.cell T i).isLive = false) {v : V}
    (hcell : tab'.cell T = update (tab.cell T) i (.live key v))
    (htag : tab'.hashes i = tagOf T tab.capacity (T.hashFunction key))
    (hkeep : ∀ j, j ≠ i → tab'.hashes j = tab.hashes j)
    (habs : Absent T.keyCompare tab.capacity (tab.cell T) key)
    (hown : packed T tab.capacity = false →
      ∃ d < tab.capacity, tab.probed (T.hashFunction key) d = i ∧
        ∀ e < d, tab.cell T (tab.probed (T.hashFunction key) e) ≠ .empty) :
    Refines T U tab' (m.insert laws.equiv key v) := by
  -- a live slot of the new table is the new key's or an old one
  have hold : ∀ j, (tab'.cell T j).isLive = true →
      (j = i ∧ tab'.keys j = key) ∨
        (j ≠ i ∧ (tab.cell T j).isLive = true ∧ tab'.keys j = tab.keys j) := by
    intro j hj
    rcases eq_or_ne j i with rfl | hji
    · exact Or.inl ⟨rfl, (cell_live (by rw [hcell, update_self])).1⟩
    · have hsame : tab'.cell T j = tab.cell T j := by rw [hcell, update_of_ne hji]
      rw [hsame] at hj
      exact Or.inr ⟨hji, hj, (cell_live (hsame.trans (cell_of_isLive hj))).1⟩
  refine ⟨hwf, ?_, fun hp => ?_, fun j hj hl => ?_, fun j hj hl => ?_, ?_, ?_⟩
  · rw [hcap, hcell]
    exact h.distinct.insert laws.equiv habs
  · rw [hcap] at hp ⊢
    rw [hcell]
    refine (h.chained hp).update (by simp) fun k' v' hk' => ?_
    obtain ⟨rfl, -⟩ := Cell.live.inj hk'
    exact hown hp
  · rw [hcap] at hj ⊢
    rcases hold j hl with ⟨rfl, hk⟩ | ⟨hji, hl', hk⟩
    · rw [hk, htag]
    · rw [hk, hkeep j hji, h.tagged j hj hl']
  · rw [hcap] at hj
    rcases hold j hl with ⟨rfl, hk⟩ | ⟨hji, hl', hk⟩
    · rwa [hk]
    · rw [hk]
      exact h.used j hj hl'
  · rw [hcap, hcell]
    exact h.holds.insert laws.equiv hi hfree habs
  · have hc := KeyMap.card_insert laws.equiv m key v
    rw [h.holds.lookup_of_absent habs] at hc
    simp only [Option.isSome_none, Bool.toNat_false] at hc
    rw [hsize, h.size]
    omega

theorem Refines.putOver (laws : KeyLaws T U) (h : Refines T U tab m) {key : K} {i : ℕ}
    (hi : i < tab.capacity) (hlive : (tab.cell T i).isLive = true)
    (hs : T.keyCompare (tab.keys i) key = true) (v : V) :
    Refines T U (tab.writeValue i v) (m.insert laws.equiv key v) := by
  have hcell := cell_writeValue tab (cell_of_isLive hlive) v
  have hold : ∀ j, ((tab.writeValue i v).cell T j).isLive = true →
      (tab.cell T j).isLive = true := by
    intro j hj
    rcases eq_or_ne j i with rfl | hji
    · exact hlive
    · rwa [hcell, update_of_ne hji] at hj
  refine ⟨h.wf.writeValue hlive v, ?_, fun hp => ?_, fun j hj hl => h.tagged j hj (hold j hl),
    fun j hj hl => h.used j hj (hold j hl), ?_, ?_⟩
  · rw [hcell]
    exact h.distinct.overwrite (cell_of_isLive hlive)
  · rw [hcell]
    exact (h.chained hp).overwrite hi (cell_of_isLive hlive)
  · rw [hcell]
    exact h.holds.overwrite laws.equiv h.distinct hi (cell_of_isLive hlive) hs
  · have hc := KeyMap.card_insert laws.equiv m key v
    rw [h.holds.lookup_of_same hi (cell_of_isLive hlive) hs] at hc
    simp only [Option.isSome_some, Bool.toNat_true] at hc
    change tab.size = _
    rw [h.size]
    omega

theorem Landed.refines (laws : KeyLaws T U) (h : Refines T U tab m) {key : K} (hU : U key)
    {i : ℕ} {tab' : Table K V} (hl : Landed T tab key (T.hashFunction key) i tab') (v : V) :
    Refines T U (tab'.writeValue i v) (m.insert laws.equiv key v) := by
  obtain ⟨hwf', hlive'⟩ := hl.wellFormed h.wf (laws.past key)
  have hwf := hwf'.writeValue hlive' v
  cases hl with
  | found hl =>
    obtain ⟨hi, hlive, hs⟩ := h.present laws hU hl
    exact h.putOver laws hi hlive hs v
  | appended hp hc hroom hl =>
    refine h.putNew laws hU hwf rfl rfl hroom ?_ ?_ ?_ (fun j hj => ?_) (h.absent laws hl)
      fun hp' => ?_
    · rw [cell_packed hp, if_neg (lt_irrefl _)]
      rfl
    · rw [cell_writeValue _ (cell_of_isLive hlive'), cell_append tab hp, update_idem]
      exact congrArg (update (tab.cell T) tab.size) (congrArg (Cell.live · v) (update_self ..))
    · rw [tagOf, if_pos hp]
      exact update_self ..
    · exact update_of_ne hj ..
    · rw [hp] at hp'
      simp at hp'
  | fresh hp hroom hw he =>
    have hempty := (seeReserve_eq_empty hp).mp he
    refine h.putNew laws hU hwf rfl rfl (hw.probed_lt _) (by rw [hempty]; rfl) ?_ ?_
      (fun j hj => update_of_ne hj ..) (h.absent_of_walk laws hp hw he) fun _ => ?_
    · rw [cell_writeValue _ (cell_of_isLive hlive'), cell_occupy tab hp (ownControl_lt T _),
        update_idem]
      exact congrArg (update (tab.cell T) _) (congrArg (Cell.live · v) (update_self ..))
    · rw [tagOf, hp, if_neg (by simp)]
      exact update_self ..
    · refine ⟨_, hw.lt, rfl, fun e he' hce => ?_⟩
      have := hw.pass e he'
      rw [(seeReserve_eq_empty hp).mpr hce] at this
      simp [Seen.stops] at this
  | @reused d e hp hroom hw he hed hk =>
    have hkilled := (seeReserve_eq_killed hp).mp hk
    refine h.putNew laws hU hwf rfl rfl (hw.probed_lt _) (by rw [hkilled]; rfl) ?_ ?_
      (fun j hj => update_of_ne hj ..) (h.absent_of_walk laws hp hw he) fun _ => ?_
    · have hcell := cell_occupy tab hp (ownControl_lt T (T.hashFunction key))
        (tab.probed (T.hashFunction key) e) key
      rw [cell_writeValue _ (cell_of_isLive hlive')]
      change update (Table.cell T (occupy tab _ key _)) _ _ = _
      rw [hcell, update_idem]
      exact congrArg (update (tab.cell T) _) (congrArg (Cell.live · v) (update_self ..))
    · rw [tagOf, hp, if_neg (by simp)]
      exact update_self ..
    · refine ⟨e, by have := hw.lt; omega, rfl, fun e' he' hce => ?_⟩
      have := hw.pass e' (by omega)
      rw [(seeReserve_eq_empty hp).mpr hce] at this
      simp [Seen.stops] at this

/-! ## Erasing a key, clearing, rebuilding -/

section Erase

variable [Zero V]

theorem Refines.swapRemove (laws : KeyLaws T U) (h : Refines T U tab m)
    (hp : packed T tab.capacity = true) {key : K} {i : ℕ} (hi : i < tab.capacity)
    (hlive : (tab.cell T i).isLive = true) (hs : T.keyCompare (tab.keys i) key = true) :
    Refines T U (swapRemove tab i) (m.erase key) := by
  have hc : tab.capacity ≠ 0 := by omega
  have hlow : ∀ {j}, (tab.cell T j).isLive = true → j < tab.size := by
    intro j hj
    by_contra hge
    rw [cell_packed hp, if_neg hge] at hj
    simp [Cell.isLive] at hj
  have hisz := hlow hlive
  have hsz := (h.wf.dense hp hc).1
  obtain ⟨hcap, -, -, -⟩ := swapRemove_fields tab i
  -- the hole is emptied, and the last cell moved into it
  have hstep : Table.cell T (TableHash.swapRemove tab i)
      = if i = tab.size - 1 then update (tab.cell T) i .empty
        else update (update (update (tab.cell T) i .empty) i
          (update (tab.cell T) i .empty (tab.size - 1))) (tab.size - 1) .empty := by
    rw [cell_swapRemove tab hp hisz]
    split_ifs with hil
    · rw [← hil, update_idem]
    · rw [update_idem, update_of_ne (Ne.symm hil)]
  have herase := h.holds.erase laws.equiv h.distinct hi (cell_of_isLive hlive) hs
    (c := .empty) rfl
  have hclear := h.distinct.clear (i := i) (c := .empty) rfl
  have hmoved : ∀ j, (Table.cell T (TableHash.swapRemove tab i) j).isLive = true →
      j < tab.size - 1 := by
    intro j hj
    by_contra hge
    rw [cell_packed (by rwa [hcap])] at hj
    change (if j < tab.size - 1 then _ else _ : Cell K V).isLive = true at hj
    rw [if_neg hge] at hj
    simp [Cell.isLive] at hj
  have hlast : (tab.cell T (tab.size - 1)).isLive = true := by
    rw [cell_packed hp, if_pos (by omega)]
    rfl
  -- what slot `j` keeps is what one live slot of the old table kept
  have hfrom : ∀ j, (Table.cell T (TableHash.swapRemove tab i) j).isLive = true →
      ∃ a < tab.capacity, (tab.cell T a).isLive = true ∧
        (TableHash.swapRemove tab i).keys j = tab.keys a ∧
        (TableHash.swapRemove tab i).hashes j = tab.hashes a := by
    intro j hj
    have hjs := hmoved j hj
    rw [swapRemove_keys tab i (j := j) (by omega), swapRemove_hashes tab i j,
      if_neg (show j ≠ tab.size - 1 by omega)]
    by_cases hji : j = i
    · rw [if_pos hji, if_pos hji]
      exact ⟨tab.size - 1, by omega, hlast, rfl, rfl⟩
    · rw [if_neg hji, if_neg hji]
      refine ⟨j, by omega, ?_, rfl, rfl⟩
      rw [cell_packed hp, if_pos (by omega)]
      rfl
  refine ⟨h.wf.swap hp hc hisz, ?_, fun hp' => ?_, fun j hj hl => ?_, fun j hj hl => ?_, ?_, ?_⟩
  · rw [hcap, hstep]
    split_ifs
    · exact hclear
    · exact hclear.move (by omega) rfl
  · rw [hcap, hp] at hp'
    simp at hp'
  · obtain ⟨a, ha, hla, hk, hh⟩ := hfrom j hl
    rw [hk, hh, hcap]
    exact h.tagged a ha hla
  · obtain ⟨a, ha, hla, hk, -⟩ := hfrom j hl
    rw [hk]
    exact h.used a ha hla
  · rw [hcap, hstep]
    split_ifs
    · exact herase
    · exact herase.congr (stored_move hi (by omega) (by rw [update_self]; rfl) rfl)
  · have hcard := KeyMap.card_erase laws.equiv m key
    rw [h.holds.lookup_of_same hi (cell_of_isLive hlive) hs] at hcard
    simp only [Option.isSome_some, Bool.toNat_true] at hcard
    change tab.size - 1 = _
    rw [h.size]
    omega

theorem Refines.killSlot (laws : KeyLaws T U) (h : Refines T U tab m)
    (hp : packed T tab.capacity = false) {key : K} {i : ℕ} (hi : i < tab.capacity)
    (hlive : (tab.cell T i).isLive = true) (hs : T.keyCompare (tab.keys i) key = true) :
    Refines T U (killSlot tab i) (m.erase key) := by
  have hcell := cell_kill tab hp i
  have hold : ∀ j, (Table.cell T (TableHash.killSlot tab i) j).isLive = true →
      j ≠ i ∧ (tab.cell T j).isLive = true := by
    intro j hj
    rcases eq_or_ne j i with rfl | hji
    · rw [hcell, update_self] at hj
      simp [Cell.isLive] at hj
    · rw [hcell, update_of_ne hji] at hj
      exact ⟨hji, hj⟩
  refine ⟨h.wf.kill hp hi hlive, ?_, fun _ => ?_, fun j hj hl => ?_,
    fun j hj hl => h.used j hj (hold j hl).2, ?_, ?_⟩
  · rw [hcell]
    exact h.distinct.clear rfl
  · rw [hcell]
    exact (h.chained hp).kill
  · obtain ⟨hji, hl'⟩ := hold j hl
    change update tab.hashes i hashKilled j = _
    rw [update_of_ne hji]
    exact h.tagged j hj hl'
  · rw [hcell]
    exact h.holds.erase laws.equiv h.distinct hi (cell_of_isLive hlive) hs rfl
  · have hc := KeyMap.card_erase laws.equiv m key
    rw [h.holds.lookup_of_same hi (cell_of_isLive hlive) hs] at hc
    simp only [Option.isSome_some, Bool.toNat_true] at hc
    change tab.size - 1 = _
    rw [h.size]
    omega

theorem Refines.removeSlot (laws : KeyLaws T U) (h : Refines T U tab m) {key : K} (hU : U key)
    {r : Option ℕ} (hl : Looked T tab key (T.hashFunction key) r) :
    Refines T U (removeSlot T tab r) (m.erase key) := by
  cases r with
  | none =>
    have habs := h.absent laws hl
    refine ⟨h.wf, h.distinct, h.chained, h.tagged, h.used,
      h.holds.erase_absent laws.equiv habs, ?_⟩
    have hc := KeyMap.card_erase laws.equiv m key
    rw [h.holds.lookup_of_absent habs] at hc
    simp only [Option.isSome_none, Bool.toNat_false] at hc
    exact h.size.trans hc.symm
  | some i =>
    obtain ⟨hi, hlive, hs⟩ := h.present laws hU hl
    rw [DaScript.removeSlot]
    cases hp : packed T tab.capacity with
    | true =>
      rw [if_pos rfl]
      exact h.swapRemove laws hp hi hlive hs
    | false =>
      rw [if_neg (by simp)]
      exact h.killSlot laws hp hi hlive hs

end Erase

theorem refines_clear {tab' : Table K V} (hwf : WellFormed T tab') (hsize : tab'.size = 0)
    (hcell : ∀ i < tab'.capacity, tab'.cell T i = .empty) :
    Refines T U tab' (.empty : KeyMap K V T.keyCompare) := by
  have hdead : ∀ i < tab'.capacity, ∀ k v, tab'.cell T i ≠ .live k v := fun i hi k v hk => by
    rw [hcell i hi] at hk
    simp at hk
  have hno : ∀ i < tab'.capacity, ¬ (tab'.cell T i).isLive = true := fun i hi hl => by
    rw [hcell i hi] at hl
    simp [Cell.isLive] at hl
  refine ⟨hwf, fun i hi _ _ k v _ _ hk => absurd hk (hdead i hi k v),
    fun _ i hi k v hk => absurd hk (hdead i hi k v), fun i hi hl => absurd hl (hno i hi),
    fun i hi hl => absurd hl (hno i hi), fun k v => ?_, hsize⟩
  rw [KeyMap.lookup_empty]
  constructor
  · intro h
    simp at h
  · rintro ⟨k', ⟨i, hi, hk⟩, -⟩
    exact absurd hk (hdead i hi k' v)

/-- Every live slot is rebuilt from the home its key is searched from. -/
def Rehomed (T : KeyType K) (tab : Table K V) (N : ℕ) : Prop :=
  ∀ i < tab.capacity, tableLiveSlot tab i = true →
    homeSlot N (T.hashFunction (tab.keys i)) = homeSlot N (rebucket T tab i).1

theorem Refines.rebucket_tag (h : Refines T U tab m) {a : ℕ} (ha : a < tab.capacity)
    (hla : (tab.cell T a).isLive = true) :
    (rebucket T tab a).2 = ownControl T (T.hashFunction (tab.keys a)) := by
  have htag := h.tagged a ha hla
  rw [rebucket, ownControl]
  cases hst : T.storesHash with
  | false => rfl
  | true =>
    rw [tagOf, packed, ownControl, hst, Bool.true_and, if_pos rfl] at htag
    by_cases hc : tab.capacity ≤ tableMaxLinearCapacity
    · rw [if_pos (by simpa using hc)] at htag
      rw [if_pos rfl, if_pos hc, if_pos rfl, htag]
    · rw [if_neg (by simpa using hc)] at htag
      rw [if_pos rfl, if_neg hc, if_pos rfl, htag]

theorem Refines.rebuilt (laws : KeyLaws T U) (h : Refines T U tab m) {N : ℕ} {tab' : Table K V}
    (H : Rebuilt T tab N tab') (hhome : Rehomed T tab N) : Refines T U tab' m := by
  refine ⟨H.wf, ?_, fun hp => ?_, fun j hj hl => ?_, fun j hj hl => ?_, ?_, ?_⟩
  · rw [H.capacity]
    exact H.distinct _ laws.equiv h.distinct
  · rw [H.capacity] at hp ⊢
    refine H.chained hp _ fun j hj k v hk => ?_
    obtain ⟨rfl, -⟩ := cell_live hk
    exact hhome j hj (by rw [tableLiveSlot_eq h.wf (by omega), hk]; rfl)
  · rw [H.capacity] at hj
    obtain ⟨a, ha, hla, hka, hha⟩ := H.tagged j hj hl
    have hpN : packed T N = false := by
      rw [Bool.eq_false_iff]
      intro hp
      have hpos := tally_pos ha hla
      rw [← h.wf.size, H.vacant hp] at hpos
      omega
    rw [hka, hha, H.capacity, tagOf, hpN, if_neg (by simp)]
    exact h.rebucket_tag ha hla
  · rw [H.capacity] at hj
    obtain ⟨a, ha, hla, hka, -⟩ := H.tagged j hj hl
    rw [hka]
    exact h.used a ha hla
  · rw [H.capacity]
    exact h.holds.congr H.stored
  · exact H.size.trans h.size

/-! ## Where the homes part -/

theorem Refines.rehomed (h : Refines T U tab m)
    (hreg : T.storesHash = false ∨ packed T tab.capacity = true) (N : ℕ) : Rehomed T tab N := by
  intro i hi hl
  rw [tableLiveSlot_eq h.wf (by omega)] at hl
  have htag := h.tagged i hi hl
  rw [rebucket]
  rcases hreg with hst | hp
  · rw [hst]
    rfl
  · obtain ⟨hst, hc⟩ := packed_eq.mp hp
    rw [tagOf, if_pos hp] at htag
    rw [if_pos hst, if_pos (show tab.capacity ≤ tableMaxLinearCapacity from hc), htag]

/-- The capacity an operation reallocates its table to, if it does. -/
def TableOp.reallocates (T : KeyType K) : TableOp K V → Table K V → Option ℕ
  | .put _ _, tab => growTo T tab
  | .erase _, _ => none
  | .clear, _ => none
  | .reserve size, tab => sizeCapacity tab size

/-- The keys of the operation are among those in use. -/
def TableOp.KeyIn (U : K → Prop) : TableOp K V → Prop
  | .put key _ => U key
  | .erase key => U key
  | .clear => True
  | .reserve _ => True

/-- **What the operation means** for the finite map. -/
def TableOp.apply {same : K → K → Bool} (heq : KeyEquiv same) :
    TableOp K V → KeyMap K V same → KeyMap K V same
  | .put key value, m => m.insert heq key value
  | .erase key, m => m.erase key
  | .clear, _ => .empty
  | .reserve _, m => m

variable [Inhabited K] [Zero V] {z : ℕ}

/-- **A run**, and the map it leaves: an operation that returns acts on both, an operation that
raises an error leaves the map as it was.  `sound` says which steps the run may take. -/
inductive Run (T : KeyType K) (z : ℕ) (heq : KeyEquiv T.keyCompare) (U : K → Prop)
    (sound : Table K V → TableOp K V → Prop) : Table K V → KeyMap K V T.keyCompare → Prop
  | zero : Run T z heq U sound .zero .empty
  | done {tab tab' : Table K V} {m : KeyMap K V T.keyCompare} (h : Run T z heq U sound tab m)
      (op : TableOp K V) (hU : op.KeyIn U) (hs : sound tab op)
      (hok : op.exec T z tab = .ok () tab') : Run T z heq U sound tab' (op.apply heq m)
  | failed {tab tab' : Table K V} {m : KeyMap K V T.keyCompare} (h : Run T z heq U sound tab m)
      (op : TableOp K V) {e : Fault} (herr : op.exec T z tab = .error e tab') :
      Run T z heq U sound tab' m

theorem refines_zero (T : KeyType K) (U : K → Prop) :
    Refines T U (Table.zero : Table K V) .empty :=
  refines_clear (wellFormed_zero T) rfl fun i hi => absurd hi (Nat.not_lt_zero i)

theorem Refines.step (laws : KeyLaws T U) (h : Refines T U tab m) {op : TableOp K V}
    (hU : op.KeyIn U) (hhome : ∀ N, op.reallocates T tab = some N → Rehomed T tab N)
    {tab' : Table K V} (hok : op.exec T z tab = .ok () tab') :
    Refines T U tab' (op.apply laws.equiv m) := by
  cases op with
  | put key value =>
    rw [TableOp.exec] at hok
    rcases reserve_spec (z := z) h.wf key (T.hashFunction key) with
      ⟨msg, herr⟩ | ⟨base, i, tab'', hres, -, hprep, hland⟩
    · rw [herr] at hok
      simp at hok
    · rw [hres] at hok
      obtain ⟨-, rfl⟩ := Outcome.ok.inj hok
      have hbase : Refines T U base m := by
        rcases hprep with rfl | ⟨N, hN, H⟩
        · exact h
        · exact h.rebuilt laws H (hhome N hN)
      exact hland.refines laws hbase hU value
  | erase key =>
    obtain ⟨r, hl, hr⟩ := erase_spec h.wf key (T.hashFunction key)
    rw [TableOp.exec, hr] at hok
    obtain ⟨-, rfl⟩ := Outcome.ok.inj hok
    exact h.removeSlot laws hU hl
  | clear =>
    rw [TableOp.exec] at hok
    rcases clear_spec h.wf with ⟨-, msg, herr⟩ | ⟨tab'', hres, hwf, hsize, hcap, hcell⟩
    · rw [herr] at hok
      simp at hok
    · rw [hres] at hok
      obtain ⟨-, rfl⟩ := Outcome.ok.inj hok
      exact refines_clear hwf hsize (by rwa [hcap])
  | reserve size =>
    rw [TableOp.exec] at hok
    rcases reserveSize_spec (z := z) h.wf size with
      ⟨msg, herr⟩ | hres | ⟨N, tab'', hres, hN, H⟩
    · rw [herr] at hok
      simp at hok
    · rw [hres] at hok
      obtain ⟨-, rfl⟩ := Outcome.ok.inj hok
      exact h
    · rw [hres] at hok
      obtain ⟨-, rfl⟩ := Outcome.ok.inj hok
      exact h.rebuilt laws H (hhome N hN)

theorem Run.refines (laws : KeyLaws T U) {sound : Table K V → TableOp K V → Prop}
    (hsound : ∀ {tab : Table K V} {m : KeyMap K V T.keyCompare} {op : TableOp K V},
      Refines T U tab m → sound tab op → ∀ N, op.reallocates T tab = some N → Rehomed T tab N)
    (h : Run T z laws.equiv U sound tab m) : Refines T U tab m := by
  induction h with
  | zero => exact refines_zero T U
  | done h op hU hs hok ih => exact ih.step laws hU (hsound ih hs) hok
  | failed h op herr ih =>
    rcases op.exec_spec (z := z) laws.past ih.wf with ⟨msg, hthrow⟩ | ⟨tab'', hok, -⟩
    · rw [hthrow] at herr
      obtain ⟨-, rfl⟩ := Outcome.error.inj herr
      exact ih
    · rw [hok] at herr
      simp at herr

/-- **A string table is a finite map** along every run that reallocates it only when each live key
is bucketed from the home slot its lookups start at. -/
theorem run_refines_string (laws : KeyLaws T U)
    (h : Run T z laws.equiv U
      (fun tab op => ∀ N, op.reallocates T tab = some N → Rehomed T tab N) tab m) :
    (∀ key, U key → ∃ r, find T tab key (T.hashFunction key) = some r ∧
      (r.isSome = true ↔ (m.lookup key).isSome = true) ∧
      ∀ i, r = some i → i < tab.capacity ∧ tableLiveSlot tab i = true ∧
        T.keyCompare (tab.keys i) key = true ∧ m.lookup key = some (tab.values i)) ∧
    (∀ i < tab.capacity, ∀ j < tab.capacity, tableLiveSlot tab i = true →
      tableLiveSlot tab j = true → T.keyCompare (tab.keys i) (tab.keys j) = true → i = j) ∧
    tab.size = m.card := by
  have href := h.refines laws fun _ hs => hs
  exact ⟨fun key hU => href.find laws hU,
    fun i hi j hj hli hlj hs => href.unique hi hj hli hlj hs, href.size⟩

/-- The bytes of `"key"`, whose hash keeps its home. -/
def plainKey : List UInt8 := [107, 101, 121]

/-- The bytes of `"aocwnyi"`, whose hash is `0xd5c50eb900000000`. -/
def remappedKey : List UInt8 := [97, 111, 99, 119, 110, 121, 105]

theorem keyLaws_string (k : List UInt8) : KeyLaws stringKey fun a => a = k where
  equiv := keyEquiv_beq
  past := stringKey_hash
  respects h := by
    rw [show _ = _ from eq_of_beq h]
  injective _ a b ha hb _ := by
    rw [ha, hb]
    exact keyEquiv_beq.refl k

theorem run_refines_string_key : ∃ tab : Table (List UInt8) ℕ, tab.capacity = 32 ∧
    ∃ r, find stringKey tab plainKey (stringKey.hashFunction plainKey) = some r ∧
      r.isSome = true := by
  have h₀ : Run stringKey 4 (keyLaws_string plainKey).equiv (fun a => a = plainKey)
      (fun (tab : Table (List UInt8) ℕ) op =>
        ∀ N, op.reallocates stringKey tab = some N → Rehomed stringKey tab N)
      Table.zero .empty := .zero
  have h₁ := h₀.done (.put plainKey 7) rfl
    (fun N _ i hi => absurd hi (Nat.not_lt_zero i)) rfl
  have h₂ := h₁.done (.reserve 16) trivial (fun N hN => by
    obtain rfl : 16 = N := Option.some.inj hN
    unfold Rehomed
    decide) rfl
  have h₃ := h₂.done (.reserve 32) trivial (fun N hN => by
    obtain rfl : 32 = N := Option.some.inj hN
    unfold Rehomed
    decide) rfl
  obtain ⟨r, hr, hiff, -⟩ := (run_refines_string (keyLaws_string plainKey) h₃).1 plainKey rfl
  exact ⟨_, rfl, r, hr, hiff.mpr rfl⟩

theorem string_key_lost : (∀ k, 1 < stringKey.hashFunction k) ∧
    ∃ tab₁ tab₂ tab₃ : Table (List UInt8) ℕ,
    (TableOp.put remappedKey 7).exec stringKey 4 .zero = .ok () tab₁ ∧
    (TableOp.reserve 16).exec stringKey 4 tab₁ = .ok () tab₂ ∧
    (TableOp.reserve 32).exec stringKey 4 tab₂ = .ok () tab₃ ∧
    tab₃.size = 1 ∧
    find stringKey tab₃ remappedKey (stringKey.hashFunction remappedKey) = some none :=
  ⟨stringKey_hash, _, _, _, rfl, rfl, rfl, rfl, by decide⟩

/-- **A table of keys that store no hash is a finite map** along every run. -/
theorem run_refines_nonstring (hst : T.storesHash = false) (heq : KeyEquiv T.keyCompare)
    (hpast : ∀ k, 1 < T.hashFunction k)
    (hresp : ∀ a b, T.keyCompare a b = true → T.hashFunction a = T.hashFunction b)
    (h : Run T z heq (fun _ => True) (fun _ _ => True) tab m) :
    (∀ key, ∃ r, find T tab key (T.hashFunction key) = some r ∧
      (r.isSome = true ↔ (m.lookup key).isSome = true) ∧
      ∀ i, r = some i → i < tab.capacity ∧ tableLiveSlot tab i = true ∧
        T.keyCompare (tab.keys i) key = true ∧ m.lookup key = some (tab.values i)) ∧
    (∀ i < tab.capacity, ∀ j < tab.capacity, tableLiveSlot tab i = true →
      tableLiveSlot tab j = true → T.keyCompare (tab.keys i) (tab.keys j) = true → i = j) ∧
    tab.size = m.card := by
  have laws : KeyLaws T fun _ => True :=
    ⟨heq, hpast, fun {a b} hab => hresp a b hab, fun h' => by rw [hst] at h'; simp at h'⟩
  have href := h.refines laws fun hr _ N _ => hr.rehomed (Or.inl hst) N
  exact ⟨fun key => href.find laws trivial,
    fun i hi j hj hli hlj hs => href.unique hi hj hli hlj hs, href.size⟩

theorem run_refines_nonstring_uint64 : ∃ tab : Table UInt64 ℕ, tab.tombstones = 1 ∧
    ∃ r, find uint64Key tab 2 (uint64Key.hashFunction 2) = some r ∧ r.isSome = true := by
  have h₀ : Run (V := ℕ) uint64Key 4 keyEquiv_beq (fun _ => True) (fun _ _ => True)
      Table.zero .empty := .zero
  have h₁ := (h₀.done (.put 1 5) trivial trivial rfl).done (.put 2 6) trivial trivial rfl
  have h₂ := (h₁.done (.erase 1) trivial trivial rfl).done (.put 2 7) trivial trivial rfl
  obtain ⟨r, hr, hiff, -⟩ := (run_refines_nonstring rfl keyEquiv_beq uint64Key_hash
    (fun a b hab => by rw [show a = b from eq_of_beq hab]) h₂).1 2
  exact ⟨_, by decide, r, hr, hiff.mpr (by decide)⟩

end DaScript

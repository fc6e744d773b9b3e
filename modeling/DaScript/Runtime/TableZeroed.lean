import DaScript.Runtime.TableRuns

/-!
# Runtime/TableZeroed — a new key's value is zero

Nothing zeroes the value of a slot when a key gets it: it is zero before.  A block is zeroed when it
is allocated, an erased slot by `erase`, the slots of a cleared table by `table_clear`, so the
values of slots that are not live are zeros in every table of a run (`Clean`).

A packed table tells strings by their hashes, so there a new string with the hash of another gets
the slot of that one (`reserve_collision`).
-/

open Function

namespace DaScript

open Probing TableHash

variable {K V : Type*} [Zero V] {T : KeyType K} {z : ℕ} {tab : Table K V} {key : K}
  {hash : UInt64}

/-- **The value of a slot that is not live is zero**; and an allocated table has the slots of
one. -/
structure Clean (T : KeyType K) (tab : Table K V) : Prop where
  unallocated : tab.capacity = 0 → tab.size = 0
  allocated : tab.capacity ≠ 0 → minCapacity ≤ tab.capacity
  values : ∀ i, (tab.cell T i).isLive = false → tab.values i = 0

theorem Clean.occupy (h : Clean T tab) {i : ℕ} {control : UInt64} (hc : tab.capacity ≠ 0)
    (hcell : Table.cell T (occupy tab i key control)
      = update (tab.cell T) i (.live key (tab.values i))) (tombstones : ℕ) :
    Clean T { occupy tab i key control with tombstones := tombstones } where
  unallocated := fun h => absurd h hc
  allocated := h.allocated
  values := by
    intro j hj
    change (Table.cell T (TableHash.occupy tab i key control) j).isLive = false at hj
    rw [hcell] at hj
    rcases eq_or_ne j i with rfl | hne
    · rw [update_self] at hj
      cases hj
    · rw [update_of_ne hne] at hj
      exact h.values j hj

theorem copyEntries_values {n : ℕ} {newTab t : Table K V} (h : copyEntries T tab newTab n = some t)
    (hnew : ∀ i, ¬ hashKilled < newTab.hashes i → newTab.values i = 0) :
    (∀ i, ¬ hashKilled < t.hashes i → t.values i = 0) ∧ t.size = newTab.size ∧
      t.capacity = newTab.capacity := by
  induction n generalizing t with
  | zero =>
    cases h
    exact ⟨hnew, rfl, rfl⟩
  | succ n ih =>
    obtain ⟨s, hs, h⟩ := Option.bind_eq_some_iff.mp h
    obtain ⟨hvalues, hsize, hcapacity⟩ := ih hs
    split_ifs at h with hcopies
    · obtain ⟨index, -, rfl⟩ := Option.map_eq_some_iff.mp h
      refine ⟨fun i hi => ?_, hsize, hcapacity⟩
      change ¬ hashKilled < update s.hashes index _ i at hi
      change update s.values index _ i = 0
      rcases eq_or_ne i index with rfl | hne
      · rw [update_self] at hi
        exact absurd (rebucket_control hcopies) hi
      · rw [update_of_ne hne] at hi
        rw [update_of_ne hne]
        exact hvalues i hi
    · cases h
      exact ⟨hvalues, hsize, hcapacity⟩

/-- Where a walk for a free slot may end. -/
def Free (see : ℕ → Seen) : Probing.Place → Prop
  | .empty i => see i = .empty
  | .killed i => see i = .killed
  | .found _ => True

theorem place_free {see : ℕ → Seen} {next : ℕ → ℕ} {fuel i : ℕ} {spare : Option ℕ}
    {p : Probing.Place} (h : place see next fuel i spare = some p)
    (hspare : ∀ s ∈ spare, see s = .killed) : Free see p := by
  induction fuel generalizing i spare with
  | zero => cases h
  | succ fuel ih =>
    rw [place] at h
    split at h
    · rename_i hsee
      cases h
      cases spare with
      | none => exact hsee
      | some s => exact hspare s rfl
    · cases h
      trivial
    · rename_i hsee
      refine ih h ?_
      rintro s ⟨⟩
      cases spare with
      | none => exact hsee
      | some s => exact hspare s rfl
    · exact ih h hspare

/-! ## Inserting -/

/-- **What an insertion leaves**: a clean table, and where it inserts the key a zero. -/
def Lands (T : KeyType K) (tab : Table K V) (out : Outcome (Table K V) ℕ) : Prop :=
  Clean T out.state ∧ ∀ i t, out = .ok i t → t.size = tab.size ∨ t.values i = 0

theorem Clean.takes (h : Clean T tab) {i : ℕ} {control : UInt64} (hc : tab.capacity ≠ 0)
    (hfree : (tab.cell T i).isLive = false)
    (hcell : Table.cell T (TableHash.occupy tab i key control)
      = update (tab.cell T) i (.live key (tab.values i))) (tombstones : ℕ) :
    Lands T tab (.ok i { TableHash.occupy tab i key control with tombstones := tombstones }) := by
  refine ⟨h.occupy hc hcell tombstones, fun j t hok => ?_⟩
  cases hok
  exact Or.inr (h.values i hfree)

theorem Clean.insertOpen (h : Clean T tab) (hp : packed T tab.capacity = false)
    (hc : tab.capacity ≠ 0) :
    Lands T tab (TableHash.insertOpen T tab key hash) := by
  have hcell := fun i => cell_occupy tab hp (ownControl_lt T hash) i key
  rw [TableHash.insertOpen]
  split
  · exact ⟨h, fun _ _ hok => by cases hok⟩
  · exact ⟨h, fun i t hok => by cases hok; exact Or.inl rfl⟩
  · rename_i index hplace
    have hfree := place_free hplace (fun _ hs => by cases hs)
    split
    · exact ⟨h, fun _ _ hok => by cases hok⟩
    · exact h.takes hc (by rw [(seeReserve_eq_empty hp).mp hfree]; rfl) (hcell index) _
  · rename_i index hplace
    have hfree := place_free hplace (fun _ hs => by cases hs)
    split
    · exact ⟨h, fun _ _ hok => by cases hok⟩
    · exact h.takes hc (by rw [(seeReserve_eq_killed hp).mp hfree]; rfl) (hcell index) _

theorem packed_mono {n m : ℕ} (hp : packed T n = false) (hm : n ≤ m) : packed T m = false := by
  rw [Bool.eq_false_iff, Ne, packed_eq] at hp ⊢
  exact fun h => hp ⟨h.1, hm.trans h.2⟩

variable [Inhabited K]

theorem clean_zero (T : KeyType K) : Clean T (Table.zero : Table K V) where
  unallocated := fun _ => rfl
  allocated := fun h => absurd rfl h
  values := fun _ _ => rfl

/-! ## Reallocating -/

theorem reserveInternal_cases (T : KeyType K) (z : ℕ) (tab : Table K V) (N : ℕ) :
    (∃ e, reserveInternal T z tab N = .error e tab) ∨
    (tab.size = 0 ∧ reserveInternal T z tab N = .ok () (freshTable T tab N)) ∨
    (tab.size ≠ 0 ∧ ∃ n t, copyEntries T tab (freshTable T tab N) n = some t ∧
      reserveInternal T z tab N = .ok () t) := by
  rw [reserveInternal]
  split
  · exact Or.inl ⟨_, rfl⟩
  split
  · exact Or.inl ⟨_, rfl⟩
  split
  · exact Or.inl ⟨_, rfl⟩
  split
  · rename_i hsize
    exact Or.inr (Or.inl ⟨hsize, rfl⟩)
  · rename_i hsize
    split
    · exact Or.inl ⟨_, rfl⟩
    · rename_i t hcopy
      exact Or.inr (Or.inr ⟨hsize, _, t, hcopy, rfl⟩)

theorem reserveInternal_clean {N : ℕ} (hN : minCapacity ≤ N)
    (hp : packed T N = true → tab.size = 0) :
    (∃ e, reserveInternal T z tab N = .error e tab) ∨
    ∃ t, reserveInternal T z tab N = .ok () t ∧ Clean T t ∧ t.size = tab.size ∧
      t.capacity = N := by
  have hpos : N ≠ 0 := (Nat.lt_of_lt_of_le (by decide) hN).ne'
  rcases reserveInternal_cases T z tab N with herr | ⟨hsize, hok⟩ | ⟨hsize, n, t, hcopy, hok⟩
  · exact Or.inl herr
  · exact Or.inr ⟨_, hok, ⟨fun h => absurd h hpos, fun _ => hN, fun _ _ => rfl⟩, rfl, rfl⟩
  · obtain ⟨hvalues, hsize', hcapacity⟩ := copyEntries_values hcopy fun _ _ => rfl
    have hopen : packed T t.capacity = false := by
      rw [hcapacity]
      exact Bool.eq_false_iff.mpr fun h => hsize (hp h)
    refine Or.inr ⟨t, hok, ⟨fun h => absurd (hcapacity.symm.trans h) hpos, fun _ => ?_,
      fun i hi => ?_⟩, hsize', hcapacity⟩
    · rw [hcapacity]
      exact hN
    · rw [cell_open hopen] at hi
      exact hvalues i fun hlive => by
        rw [openCell_isLive.mpr hlive] at hi
        cases hi

theorem Clean.makeRoom (h : Clean T tab) (hp : packed T tab.capacity = false)
    (hc : tab.capacity ≠ 0) :
    (∃ e, TableHash.makeRoom T z tab = .error e tab) ∨
    ∃ t, TableHash.makeRoom T z tab = .ok () t ∧ Clean T t ∧ t.size = tab.size ∧
      packed T t.capacity = false ∧ t.capacity ≠ 0 := by
  have hdouble : packed T (max minCapacity (tab.capacity * 2)) = false :=
    packed_mono hp (by omega)
  rw [TableHash.makeRoom]
  split
  · rw [grow]
    split
    · exact Or.inl ⟨_, rfl⟩
    · rcases reserveInternal_clean (V := V) (z := z) (Nat.le_max_left _ _)
        (fun hp' => absurd hp' (Bool.eq_false_iff.mp hdouble)) with herr | ⟨t, hok, ht, hs, hN⟩
      · exact Or.inl herr
      · exact Or.inr ⟨t, hok, ht, hs, by rw [hN]; exact hdouble, by rw [hN, minCapacity]; omega⟩
  · split
    · rw [rehash]
      rcases reserveInternal_clean (V := V) (z := z) (h.allocated hc)
        (fun hp' => absurd hp' (Bool.eq_false_iff.mp hp)) with herr | ⟨t, hok, ht, hs, hN⟩
      · exact Or.inl herr
      · exact Or.inr ⟨t, hok, ht, hs, by rw [hN]; exact hp, by rw [hN]; exact hc⟩
    · exact Or.inr ⟨tab, rfl, h, rfl, hp, hc⟩

theorem Clean.reserveOpen (h : Clean T tab) (hp : packed T tab.capacity = false)
    (hc : tab.capacity ≠ 0) : Lands T tab (TableHash.reserveOpen T z tab key hash) := by
  rw [TableHash.reserveOpen]
  rcases h.makeRoom (z := z) hp hc with ⟨e, herr⟩ | ⟨t, hok, ht, hsize, hpt, hct⟩
  · rw [herr]
    exact ⟨h, fun _ _ hok => by cases hok⟩
  · rw [hok]
    have hlands : Lands T t (TableHash.insertOpen T t key hash) := ht.insertOpen hpt hct
    unfold Lands at hlands
    rwa [hsize] at hlands

theorem Clean.retry {N retries : ℕ} (h : Clean T tab) (hN : minCapacity ≤ N)
    (hp : packed T N = true → tab.size = 0)
    (hlands : ∀ {t : Table K V}, Clean T t →
      Lands T t (TableHash.reserveRetry T z retries t key hash)) :
    Lands T tab (match reserveInternal T z tab N with
      | .error e tab => .error e tab
      | .ok _ tab => TableHash.reserveRetry T z retries tab key hash) := by
  rcases reserveInternal_clean (z := z) hN hp with ⟨e, herr⟩ | ⟨t, hok, ht, hsize, -⟩
  · rw [herr]
    exact ⟨h, fun _ _ hok => by cases hok⟩
  · rw [hok]
    have hlands := hlands ht
    unfold Lands at hlands
    rwa [hsize] at hlands

theorem Clean.reserveRetry (retries : ℕ) (h : Clean T tab) :
    Lands T tab (TableHash.reserveRetry T z retries tab key hash) := by
  induction retries generalizing tab with
  | zero => exact ⟨h, fun _ _ hok => by cases hok⟩
  | succ retries ih =>
    rw [TableHash.reserveRetry]
    split
    · rename_i hp
      split
      · exact ⟨h, fun _ _ hok => by cases hok; exact Or.inl rfl⟩
      split
      · exact ⟨h, fun _ _ hok => by cases hok⟩
      split
      · -- a full packed table, or none yet
        by_cases hc : tab.capacity = 0
        · rw [if_pos hc]
          exact h.retry le_rfl (fun _ => h.unallocated hc) ih
        · rw [if_neg hc]
          have h8 := h.allocated hc
          refine h.retry (by omega) (fun hp' => ?_) ih
          have hle := (packed_eq.mp hp').2
          rw [minCapacity] at h8
          omega
      · -- a slot of a packed table behind its last
        rename_i hroom
        have hc : tab.capacity ≠ 0 := by omega
        refine h.takes hc ?_ (cell_append tab hp key hash) tab.tombstones
        rw [cell_packed hp, if_neg (Nat.lt_irrefl _)]
        rfl
    split
    · rename_i hfirst
      split
      · exact ⟨h, fun _ _ hok => by cases hok⟩
      · exact h.retry le_rfl (fun _ => h.unallocated hfirst.2) ih
    · rename_i hp hfirst
      have hp : packed T tab.capacity = false := Bool.eq_false_iff.mpr hp
      refine h.reserveOpen hp fun hc => hfirst ⟨?_, hc⟩
      rw [hc, Bool.eq_false_iff, Ne, packed_eq] at hp
      exact (Bool.not_eq_true' _).mpr (Bool.eq_false_iff.mpr fun hs => hp ⟨hs, Nat.zero_le _⟩)

/-! ## The other operations -/

omit [Inhabited K] in
theorem swapRemove_values (tab : Table K V) (i j : ℕ) :
    (swapRemove tab i).values j
      = if j = tab.size - 1 then 0 else if j = i then tab.values (tab.size - 1)
        else tab.values j := by
  rw [swapRemove]
  by_cases hil : i = tab.size - 1
  · simp only [hil, ne_eq, not_true_eq_false, if_false, update_apply]
    split_ifs <;> rfl
  · simp only [hil, ne_eq, not_false_eq_true, if_true, update_apply]

omit [Inhabited K] in
theorem Clean.removeSlot (h : Clean T tab) (hwf : WellFormed T tab) (hh : hashKilled < hash)
    {r : Option ℕ} (hr : Looked T tab key hash r) : Clean T (removeSlot T tab r) := by
  cases r with
  | none => exact h
  | some i =>
    obtain ⟨hi, hlive⟩ := hr.live hwf hh
    have hc : tab.capacity ≠ 0 := by omega
    rw [DaScript.removeSlot]
    split
    · rename_i hp
      have hlt : i < tab.size := by
        by_contra hge
        rw [cell_packed hp, if_neg hge] at hlive
        cases hlive
      have hcell := cell_swapRemove tab hp hlt
      obtain ⟨hcapacity, -⟩ := swapRemove_fields tab i
      refine ⟨fun h0 => absurd (hcapacity.symm.trans h0) hc, fun _ => ?_, fun j hj => ?_⟩
      · rw [hcapacity]
        exact h.allocated hc
      · rw [hcell] at hj
        rw [swapRemove_values]
        split_ifs with hlast hji
        · rfl
        · subst hji
          rw [update_of_ne hlast, update_self, cell_packed hp, if_pos (by omega)] at hj
          cases hj
        · rw [update_of_ne hlast, update_of_ne hji] at hj
          exact h.values j hj
    · rename_i hp
      have hp : packed T tab.capacity = false := Bool.eq_false_iff.mpr hp
      have hcell := cell_kill tab hp i
      refine ⟨fun h0 => absurd h0 hc, h.allocated, fun j hj => ?_⟩
      rw [hcell] at hj
      change update tab.values i 0 j = 0
      rcases eq_or_ne j i with rfl | hne
      · rw [update_self]
      · rw [update_of_ne hne] at hj ⊢
        exact h.values j hj

omit [Inhabited K] in
theorem Clean.clear (h : Clean T tab) (hwf : WellFormed T tab) :
    Clean T (tableClear tab).state := by
  rw [tableClear]
  split
  · exact h
  split
  · exact ⟨fun _ => rfl, h.allocated, fun _ _ => rfl⟩
  · rename_i hdata
    -- there is no block, and nothing is live
    have hc : tab.capacity = 0 := hwf.null.mp (not_not.mp hdata)
    refine ⟨fun _ => rfl, h.allocated, fun i hi => h.values i ?_⟩
    rw [← hi]
    unfold Table.cell
    rw [h.unallocated hc]
    rfl

omit [Inhabited K] in
theorem Clean.writeValue (h : Clean T tab) {i : ℕ} (hl : (tab.cell T i).isLive = true) (v : V) :
    Clean T (tab.writeValue i v) := by
  have hcell := cell_writeValue tab (cell_of_isLive hl) v
  refine ⟨h.unallocated, h.allocated, fun j hj => ?_⟩
  rw [hcell] at hj
  change update tab.values i v j = 0
  rcases eq_or_ne j i with rfl | hne
  · rw [update_self] at hj
    cases hj
  · rw [update_of_ne hne] at hj ⊢
    exact h.values j hj

theorem le_doubleTo {size fuel n N : ℕ} (h : doubleTo size fuel n = some N) : n ≤ N := by
  induction fuel generalizing n with
  | zero => cases h
  | succ fuel ih =>
    rw [doubleTo] at h
    split_ifs at h
    · exact (Nat.le_mul_of_pos_right n Nat.two_pos).trans (ih h)
    · exact (Option.some.inj h).le

theorem Clean.reserveSize (h : Clean T tab) (size : ℕ) :
    Clean T (TableHash.reserveSize T z tab size).state := by
  rw [TableHash.reserveSize]
  split
  · exact h
  split
  · exact h
  split
  · exact h
  · rename_i newCapacity hdouble
    have hle := le_doubleTo hdouble
    have hpacked : packed T newCapacity = true → tab.size = 0 := by
      intro hp
      by_contra hsize
      have h8 := h.allocated fun hc => hsize (h.unallocated hc)
      have hle' := (packed_eq.mp hp).2
      rw [minCapacity] at h8
      omega
    rcases reserveInternal_clean (z := z) (by omega) hpacked with ⟨e, herr⟩ | ⟨t, hok, ht, -⟩
    · rw [herr]
      exact h
    · rw [hok]
      exact ht

/-! ## Runs -/

/-- **The tables of a run**: keys are reserved, live values written, keys erased, the table cleared
and capacity reserved, in any order, whether an operation raises an error or not. -/
inductive Reached (T : KeyType K) (z : ℕ) : Table K V → Prop
  | zero : Reached T z .zero
  | reserve {tab : Table K V} (h : Reached T z tab) (key : K) :
      Reached T z (TableHash.reserve T z tab key (T.hashFunction key)).state
  | write {tab : Table K V} (h : Reached T z tab) {i : ℕ} (hi : i < tab.capacity)
      (hlive : tableLiveSlot tab i = true) (v : V) : Reached T z (tab.writeValue i v)
  | erase {tab : Table K V} (h : Reached T z tab) (key : K) :
      Reached T z (TableHash.erase T tab key (T.hashFunction key)).state
  | clear {tab : Table K V} (h : Reached T z tab) : Reached T z (tableClear tab).state
  | reserveSize {tab : Table K V} (h : Reached T z tab) (size : ℕ) :
      Reached T z (TableHash.reserveSize T z tab size).state

theorem Reached.clean (hhash : ∀ k, 1 < T.hashFunction k) (h : Reached T z tab) :
    WellFormed T tab ∧ Clean T tab := by
  induction h with
  | zero => exact ⟨wellFormed_zero T, clean_zero T⟩
  | reserve h key ih =>
    obtain ⟨hwf, hclean⟩ := ih
    refine ⟨?_, (hclean.reserveRetry 3).1⟩
    rcases reserve_spec (z := z) hwf key (T.hashFunction key) with
      ⟨msg, herr⟩ | ⟨base, i, tab', hok, hbase, -, hland⟩
    · rw [herr]
      exact hwf
    · rw [hok]
      exact (hland.wellFormed hbase (hhash key)).1
  | write h hi hlive v ih =>
    obtain ⟨hwf, hclean⟩ := ih
    rw [tableLiveSlot_eq hwf (by omega)] at hlive
    exact ⟨hwf.writeValue hlive v, hclean.writeValue hlive v⟩
  | erase h key ih =>
    obtain ⟨hwf, hclean⟩ := ih
    obtain ⟨r, hlooked, hok⟩ := erase_spec hwf key (T.hashFunction key)
    rw [hok]
    exact ⟨hlooked.wellFormed hwf (hhash key), hclean.removeSlot hwf (hhash key) hlooked⟩
  | clear h ih =>
    obtain ⟨hwf, hclean⟩ := ih
    refine ⟨?_, hclean.clear hwf⟩
    rcases clear_spec hwf with ⟨-, msg, herr⟩ | ⟨tab', hok, hwf', -⟩
    · rw [herr]
      exact hwf
    · rw [hok]
      exact hwf'
  | reserveSize h size ih =>
    obtain ⟨hwf, hclean⟩ := ih
    refine ⟨?_, hclean.reserveSize size⟩
    rcases reserveSize_spec (z := z) hwf size with ⟨msg, herr⟩ | hok | ⟨N, tab', hok, -, H⟩
    · rw [herr]
      exact hwf
    · rw [hok]
      exact hwf
    · rw [hok]
      exact H.wf

/-- **A key the table does not have**: no live slot holds it, nor in a packed table its hash. -/
def Absent (T : KeyType K) (tab : Table K V) (key : K) : Prop :=
  ∀ i < tab.capacity, tableLiveSlot tab i = true → T.keyCompare (tab.keys i) key = false ∧
    (packed T tab.capacity = true → tab.hashes i ≠ T.hashFunction key)

omit [Zero V] [Inhabited K] in
theorem Looked.matches {i : ℕ} (h : Looked T tab key hash (some i)) :
    (packed T tab.capacity = true ∧ tab.hashes i = hash) ∨
    (packed T tab.capacity = false ∧ T.keyCompare (tab.keys i) key = true) := by
  cases h with
  | dense hp hc h => exact Or.inl ⟨hp, (packedFind_eq_some h).2⟩
  | present hp hw h =>
    refine Or.inr ⟨hp, ?_⟩
    unfold seeReserve at h
    dsimp only at h
    split_ifs at h with h1 h2 h3
    exact h3.2

omit [Zero V] [Inhabited K] in
theorem Absent.not_looked (hhash : ∀ k, 1 < T.hashFunction k) (hwf : WellFormed T tab)
    (habsent : Absent T tab key) {base : Table K V} (hbase : WellFormed T base)
    (hprep : Prepared T tab base) {i : ℕ} (hl : Looked T base key (T.hashFunction key) (some i)) :
    False := by
  obtain ⟨hi, hlive⟩ := hl.live hbase (hhash key)
  have hseen : ∀ {a : ℕ}, a < tab.capacity → (tab.cell T a).isLive = true →
      T.keyCompare (tab.keys a) key = false ∧
        (packed T tab.capacity = true → tab.hashes a ≠ T.hashFunction key) := fun ha hla =>
    habsent _ ha (by rwa [tableLiveSlot_eq hwf (by omega)])
  rcases hl.matches with ⟨hp, hhashes⟩ | ⟨hp, hcompare⟩
  · rcases hprep with rfl | ⟨N, -, H⟩
    · exact (hseen hi hlive).2 hp hhashes
    · -- only an empty table is rebuilt packed
      rw [H.capacity] at hp
      rw [cell_packed (by rwa [H.capacity]), H.size, H.vacant hp, if_neg (Nat.not_lt_zero _)]
        at hlive
      cases hlive
  · rcases hprep with rfl | ⟨N, -, H⟩
    · rw [(hseen hi hlive).1] at hcompare
      cases hcompare
    · obtain ⟨a, ha, hla, hkeys, -⟩ := H.tagged i (by rwa [H.capacity] at hi) hlive
      rw [hkeys, (hseen ha hla).1] at hcompare
      cases hcompare

omit [Zero V] [Inhabited K] in
theorem Landed.size_of_absent {base tab' : Table K V} {i : ℕ} (h : Landed T base key hash i tab')
    (hl : ∀ i, ¬ Looked T base key hash (some i)) : tab'.size = base.size + 1 := by
  cases h with
  | found h => exact absurd h (hl _)
  | appended => rfl
  | fresh => rfl
  | reused => rfl

/-- **In every table of a run the values of slots that are not live are zeros, and a key that was
absent gets a zero**, whatever the slot held before. -/
theorem reached_zeroed (hhash : ∀ k, 1 < T.hashFunction k) (h : Reached T z tab) :
    (∀ i < tab.capacity, tableLiveSlot tab i = false → tab.values i = 0) ∧
      ∀ key, Absent T tab key → ∀ i tab',
        reserve T z tab key (T.hashFunction key) = .ok i tab' → tab'.values i = 0 := by
  obtain ⟨hwf, hclean⟩ := h.clean hhash
  refine ⟨fun i hi hlive => hclean.values i ?_, fun key habsent i tab' hok => ?_⟩
  · rwa [← tableLiveSlot_eq hwf (by omega)]
  · have hlands : Lands T tab (TableHash.reserveRetry T z 3 tab key (T.hashFunction key)) :=
      hclean.reserveRetry 3
    rcases hlands.2 i tab' hok with hsame | hzero
    · rcases reserve_spec (z := z) hwf key (T.hashFunction key) with
        ⟨msg, herr⟩ | ⟨base, j, t, hok', hbase, hprep, hland⟩
      · rw [hok] at herr
        cases herr
      · rw [hok] at hok'
        cases hok'
        have hsize := hland.size_of_absent fun i => habsent.not_looked hhash hwf hbase hprep
        have hbase' : base.size = tab.size := by
          rcases hprep with rfl | ⟨N, -, H⟩
          · rfl
          · exact H.size
        omega
    · exact hzero

theorem reached_zeroed_string :
    ∃ (tab : Table (List UInt8) ℕ) (i : ℕ) (tab' : Table (List UInt8) ℕ),
      Reached stringKey 4 tab ∧ reserve stringKey 4 tab [98] (stringKey.hashFunction [98])
        = .ok i tab' ∧ tab'.values i = 0 := by
  have hwritten :=
    Reached.write (V := ℕ) (Reached.reserve (z := 4) .zero [97] : Reached stringKey 4 _)
    (i := 0) (by decide) (by decide) 7
  have herased := hwritten.erase [97]
  exact ⟨_, 0, _, herased, rfl, (reached_zeroed stringKey_hash herased).2 [98]
    (by unfold Absent; decide) 0 _ rfl⟩

/-- Two strings of one hash. -/
def collidingKeys : List UInt8 × List UInt8 :=
  ([70, 50, 77, 80, 86, 97, 65, 98], [57, 89, 87, 83, 51, 82, 225, 121])

theorem reserve_collision : ¬ ∀ tab : Table (List UInt8) ℕ, Reached stringKey 4 tab →
    ∀ key, (∀ i < tab.capacity, tableLiveSlot tab i = true →
        stringKey.keyCompare (tab.keys i) key = false) →
      ∀ i tab', reserve stringKey 4 tab key (stringKey.hashFunction key) = .ok i tab' →
        tab'.values i = 0 := by
  intro h
  have hwritten := Reached.write (V := ℕ)
    (Reached.reserve (z := 4) .zero collidingKeys.1 : Reached stringKey 4 _)
    (i := 0) (by decide) (by decide) 7
  have hzero := h _ hwritten collidingKeys.2 (by decide) 0 _ rfl
  cases hzero

end DaScript

import DaScript.Runtime.TableSteps

/-!
# Runtime/TableOps — what a table operation can do, and what a run of them keeps

One lemma an operation says everything it can do to a well-formed table.  A lookup answers, and how
(`Looked`); an insertion raises an error and changes nothing, or reallocates at most once
(`Prepared`) and then lands (`Landed`); an erasure removes the slot its lookup found.

The counters survive all of it, so every table a run reaches is well-formed (`Reach.wellFormed`) and
no loop of the next operation goes round for ever.
-/

open Function

namespace DaScript

open Probing TableHash

variable {K V : Type*} {T : KeyType K} {z : ℕ} {tab : Table K V} {key : K} {hash : UInt64}

/-! ## Looking a key up -/

/-- The `d`-th slot a probe for the hash visits. -/
def Table.probed (tab : Table K V) (hash : UInt64) (d : ℕ) : ℕ :=
  slot tab.capacity (homeSlot tab.capacity hash) d

/-- A probe for the key comes as far as its `d`-th slot. -/
structure Walk (T : KeyType K) (tab : Table K V) (key : K) (hash : UInt64) (d : ℕ) : Prop where
  lt : d < tab.capacity
  pass : ∀ e < d, (seeReserve T tab key hash (tab.probed hash e)).stops = false

/-- **How a lookup answers.** -/
inductive Looked (T : KeyType K) (tab : Table K V) (key : K) (hash : UInt64) : Option ℕ → Prop
  | unallocated (hc : tab.capacity = 0) : Looked T tab key hash none
  | dense {r : Option ℕ} (hp : packed T tab.capacity = true) (hc : tab.capacity ≠ 0)
      (h : packedFind tab hash = r) : Looked T tab key hash r
  | absent {d : ℕ} (hp : packed T tab.capacity = false) (hw : Walk T tab key hash d)
      (h : seeReserve T tab key hash (tab.probed hash d) = .empty) : Looked T tab key hash none
  | present {d : ℕ} (hp : packed T tab.capacity = false) (hw : Walk T tab key hash d)
      (h : seeReserve T tab key hash (tab.probed hash d) = .hit) :
      Looked T tab key hash (some (tab.probed hash d))

theorem Walk.probed_lt {d : ℕ} (hw : Walk T tab key hash d) (e : ℕ) :
    tab.probed hash e < tab.capacity :=
  slot_lt (by have := hw.lt; omega) _ _

theorem packedFind_eq_some {i : ℕ} (h : packedFind tab hash = some i) :
    i < 8 ∧ tab.hashes i = hash := by
  have hm := List.mem_of_find?_eq_some h
  have hp := List.find?_some h
  exact ⟨List.mem_range.mp hm, by simpa using hp⟩

theorem packedFind_eq_none (h : packedFind tab hash = none) : ∀ i < 8, tab.hashes i ≠ hash := by
  intro i hi
  have := List.find?_eq_none.mp h i (List.mem_range.mpr hi)
  simpa using this

theorem WellFormed.exists_stop (hwf : WellFormed T tab) (hp : packed T tab.capacity = false)
    (hc : tab.capacity ≠ 0) (key : K) (hash : UInt64) :
    ∃ i < tab.capacity, (seeReserve T tab key hash i).stops = true := by
  obtain ⟨i, hi, he⟩ := hwf.exists_empty hp hc
  exact ⟨i, hi, by rw [(seeReserve_eq_empty hp).mpr he]; rfl⟩

theorem seeFind_eq (hwf : WellFormed T tab) :
    seeFind T tab key hash = seeReserve T tab key hash :=
  funext fun _ => seeFind_eq_seeReserve hwf

theorem scan_looked (hwf : WellFormed T tab) (hp : packed T tab.capacity = false)
    (hc : tab.capacity ≠ 0) (key : K) (hash : UInt64) :
    ∃ r, scan (seeFind T tab key hash) (nextSlot tab.capacity) tab.capacity
        (homeSlot tab.capacity hash) = some r ∧ Looked T tab key hash r := by
  rcases hwf.pow with h0 | ⟨e, -, hpow⟩
  · exact absurd h0 hc
  obtain ⟨r, hr, d, hd, hpass, hcase⟩ := scan_spec (isRing_nextSlot hpow)
    (homeSlot_lt hpow hash) (hwf.exists_stop hp hc key hash)
  refine ⟨r, by rw [seeFind_eq hwf, hr], ?_⟩
  rcases hcase with ⟨rfl, h⟩ | ⟨rfl, h⟩
  · exact .absent hp ⟨hd, hpass⟩ h
  · exact .present hp ⟨hd, hpass⟩ h

theorem find_spec (hwf : WellFormed T tab) (key : K) (hash : UInt64) :
    ∃ r, find T tab key hash = some r ∧ Looked T tab key hash r := by
  rw [find]
  by_cases hc : tab.capacity = 0
  · exact ⟨none, by rw [if_pos hc], .unallocated hc⟩
  rw [if_neg hc]
  cases hp : packed T tab.capacity with
  | true => exact ⟨_, by rw [if_pos rfl], .dense hp hc rfl⟩
  | false =>
    obtain ⟨r, hr, hl⟩ := scan_looked hwf hp hc key hash
    exact ⟨r, by rw [if_neg (by simp), hr], hl⟩

theorem Looked.live (hwf : WellFormed T tab) (hh : hashKilled < hash) {i : ℕ}
    (h : Looked T tab key hash (some i)) : i < tab.capacity ∧ (tab.cell T i).isLive = true := by
  cases h with
  | dense hp hc h =>
    obtain ⟨hi, hhash⟩ := packedFind_eq_some h
    have h8 := hwf.capacity_of_packed hp hc
    have hsize := ((hwf.dense hp hc).2 i (by omega)).mp (by rwa [hhash])
    exact ⟨by omega, by rw [cell_packed hp, if_pos hsize]; rfl⟩
  | present hp hw h =>
    rw [← seeFind_eq_seeReserve hwf] at h
    exact ⟨hw.probed_lt _, seeFind_hit_live hp h⟩

/-! ## Inserting a key -/

/-- The capacity `reserve` reallocates to for a key it does not find, if it does. -/
def growTo (T : KeyType K) (tab : Table K V) : Option ℕ :=
  if packed T tab.capacity then
    if tab.size ≥ tab.capacity then
      some (if tab.capacity = 0 then minCapacity else tab.capacity * 4)
    else none
  else if tab.capacity = 0 then some minCapacity
  else loadCapacity tab

/-- **Where an insertion lands**, in a table that needs no reallocation. -/
inductive Landed (T : KeyType K) (tab : Table K V) (key : K) (hash : UInt64) :
    ℕ → Table K V → Prop
  | found {i : ℕ} (h : Looked T tab key hash (some i)) : Landed T tab key hash i tab
  | appended (hp : packed T tab.capacity = true) (hc : tab.capacity ≠ 0)
      (hroom : tab.size < tab.capacity) (h : Looked T tab key hash none) :
      Landed T tab key hash tab.size (occupy tab tab.size key hash)
  | fresh {d : ℕ} (hp : packed T tab.capacity = false) (hroom : Roomy tab)
      (hw : Walk T tab key hash d)
      (h : seeReserve T tab key hash (tab.probed hash d) = .empty) :
      Landed T tab key hash (tab.probed hash d)
        (occupy tab (tab.probed hash d) key (ownControl T hash))
  | reused {d e : ℕ} (hp : packed T tab.capacity = false) (hroom : Roomy tab)
      (hw : Walk T tab key hash d)
      (h : seeReserve T tab key hash (tab.probed hash d) = .empty) (he : e < d)
      (hk : seeReserve T tab key hash (tab.probed hash e) = .killed) :
      Landed T tab key hash (tab.probed hash e)
        { occupy tab (tab.probed hash e) key (ownControl T hash) with
          tombstones := dec64 tab.tombstones }

theorem Landed.wellFormed (hwf : WellFormed T tab) (hh : hashKilled < hash) {i : ℕ}
    {tab' : Table K V} (h : Landed T tab key hash i tab') :
    WellFormed T tab' ∧ (tab'.cell T i).isLive = true := by
  have hctl : T.storesHash = false → ownControl T hash = ctrlOccupied := fun hs => by
    rw [ownControl, hs]
    rfl
  cases h with
  | found h => exact ⟨hwf, (h.live hwf hh).2⟩
  | appended hp hc hroom =>
    refine ⟨hwf.append hp hc hroom hh, ?_⟩
    rw [cell_append tab hp, update_self]
    rfl
  | fresh hp hroom hw h =>
    have hc : tab.capacity ≠ 0 := by have := hw.lt; omega
    refine ⟨hwf.occupy hp hc hroom (hw.probed_lt _) (ownControl_lt T hash) hctl
      (Or.inl ⟨(seeReserve_eq_empty hp).mp h, rfl⟩), ?_⟩
    rw [cell_occupy tab hp (ownControl_lt T hash), update_self]
    rfl
  | @reused d e hp hroom hw h he hk =>
    have hc : tab.capacity ≠ 0 := by have := hw.lt; omega
    refine ⟨hwf.occupy hp hc hroom (hw.probed_lt _) (ownControl_lt T hash) hctl
      (Or.inr ⟨(seeReserve_eq_killed hp).mp hk, rfl⟩), ?_⟩
    have hcell := congrFun
      (cell_occupy tab hp (ownControl_lt T hash) (tab.probed hash e) key) (tab.probed hash e)
    change (Table.cell T (occupy tab _ key _) _).isLive = true
    rw [hcell, update_self]
    rfl

/-- The table an insertion lands in: the same one, or a rebuilt one. -/
def Prepared (T : KeyType K) (tab base : Table K V) : Prop :=
  base = tab ∨ ∃ N, growTo T tab = some N ∧ Rebuilt T tab N base

section Insert

theorem insertOpen_spec (hwf : WellFormed T tab) (hp : packed T tab.capacity = false)
    (hc : tab.capacity ≠ 0) (hroom : Roomy tab) (key : K) (hash : UInt64) :
    (tab.lock ≠ 0 ∧ ∃ msg, insertOpen T tab key hash = .error (.throw msg) tab) ∨
    ∃ i tab', insertOpen T tab key hash = .ok i tab' ∧ Landed T tab key hash i tab' := by
  rcases hwf.pow with h0 | ⟨e, -, hpow⟩
  · exact absurd h0 hc
  obtain ⟨p, hplace, d, hd, hpass, hcase⟩ := place_spec (isRing_nextSlot hpow)
    (homeSlot_lt hpow hash) (hwf.exists_stop hp hc key hash)
  have hw : Walk T tab key hash d := ⟨hd, hpass⟩
  rw [insertOpen, hplace]
  by_cases hlock : tab.lock = 0
  · refine Or.inr ?_
    rcases hcase with ⟨rfl, h⟩ | ⟨rfl, h⟩ | ⟨h, e, he, rfl, hk⟩
    · exact ⟨_, _, rfl, .found (.present hp hw h)⟩
    · exact ⟨_, _, if_neg (by simpa using hlock), .fresh hp hroom hw h⟩
    · exact ⟨_, _, if_neg (by simpa using hlock), .reused hp hroom hw h he hk⟩
  · rcases hcase with ⟨rfl, h⟩ | ⟨rfl, h⟩ | ⟨h, e, he, rfl, hk⟩
    · exact Or.inr ⟨_, _, rfl, .found (.present hp hw h)⟩
    · exact Or.inl ⟨hlock, _, if_pos hlock⟩
    · exact Or.inl ⟨hlock, _, if_pos hlock⟩

variable [Inhabited K] [Zero V]

theorem reserveRetry_settled (hwf : WellFormed T tab) (hc : tab.capacity ≠ 0)
    (hlock : tab.lock = 0) (hfront : packed T tab.capacity = true → tab.size < tab.capacity)
    (hroom : packed T tab.capacity = false → Roomy tab) (key : K) (hash : UInt64)
    (retries : ℕ) :
    ∃ i tab', reserveRetry T z (retries + 1) tab key hash = .ok i tab' ∧
      Landed T tab key hash i tab' := by
  rw [reserveRetry]
  cases hp : packed T tab.capacity with
  | true =>
    rw [if_pos rfl, if_pos hc]
    cases hf : packedFind tab hash with
    | some i => exact ⟨_, _, rfl, .found (.dense hp hc hf)⟩
    | none =>
      refine ⟨_, _, ?_, .appended hp hc (hfront hp) (.dense hp hc hf)⟩
      have hsize : ¬ tab.size ≥ tab.capacity := by
        have := hfront hp
        omega
      change (if tab.lock ≠ 0 then _ else if tab.size ≥ tab.capacity then _ else _) = _
      rw [if_neg (by simpa using hlock), if_neg hsize]
  | false =>
    rw [if_neg (by simp), if_neg (fun h => hc h.2), reserveOpen, makeRoom]
    obtain ⟨h1, h2⟩ := hroom hp
    rw [if_neg (by omega), if_neg (by omega)]
    rcases insertOpen_spec hwf hp hc (hroom hp) key hash with ⟨hl, -⟩ | hok
    · exact absurd hlock hl
    · exact hok

theorem reserve_rebuilt (hwf : WellFormed T tab) {N e : ℕ} (he : 3 ≤ e) (hN : N = 2 ^ e)
    (hgrow : growTo T tab = some N) (hroom : tab.size < N / 2)
    (hp : packed T N = true → tab.size = 0) (key : K) (hash : UInt64) :
    (∃ msg, (match reserveInternal T z tab N with
        | .error e tab => .error e tab
        | .ok _ tab => reserveRetry T z 2 tab key hash) = Outcome.error (.throw msg) tab) ∨
    ∃ base i tab', (match reserveInternal T z tab N with
        | .error e tab => .error e tab
        | .ok _ tab => reserveRetry T z 2 tab key hash) = Outcome.ok i tab' ∧
      WellFormed T base ∧ Prepared T tab base ∧ Landed T base key hash i tab' := by
  rcases reserveInternal_spec (z := z) hwf he hN (by omega) hp with
    ⟨msg, herr⟩ | ⟨base, hok, -, H⟩
  · exact Or.inl ⟨msg, by rw [herr]⟩
  · refine Or.inr ?_
    have hsize : base.size < base.capacity / 2 := by rw [H.size, H.capacity]; exact hroom
    obtain ⟨i, tab', hres, hland⟩ := reserveRetry_settled (z := z) H.wf (by omega) H.lock
      (fun _ => by omega) (fun _ => ⟨hsize, by rw [H.tombstones]; omega⟩) key hash 1
    exact ⟨base, i, tab', by rw [hok]; exact hres, H.wf, Or.inr ⟨N, hgrow, H⟩, hland⟩

theorem reserve_spec (hwf : WellFormed T tab) (key : K) (hash : UInt64) :
    (∃ msg, reserve T z tab key hash = .error (.throw msg) tab) ∨
    ∃ base i tab', reserve T z tab key hash = .ok i tab' ∧ WellFormed T base ∧
      Prepared T tab base ∧ Landed T base key hash i tab' := by
  rw [reserve, reserveRetry]
  cases hp : packed T tab.capacity with
  | true =>
    rw [if_pos rfl]
    by_cases hc : tab.capacity = 0
    · -- the first allocation
      have hsize : tab.size = 0 := by rw [hwf.size, hc]; rfl
      have hgrow : growTo T tab = some minCapacity := by
        rw [growTo, if_pos hp, if_pos (by omega), if_pos hc]
      rw [if_neg (by simpa using hc)]
      change (∃ msg, (if tab.lock ≠ 0 then _ else if tab.size ≥ tab.capacity then _ else _) = _) ∨
        ∃ base i tab', (if tab.lock ≠ 0 then _ else if tab.size ≥ tab.capacity then _ else _) = _
          ∧ _
      by_cases hlock : tab.lock ≠ 0
      · exact Or.inl ⟨_, if_pos hlock⟩
      rw [if_neg hlock, if_pos (show tab.size ≥ tab.capacity by omega), if_pos hc]
      exact reserve_rebuilt hwf (e := 3) le_rfl rfl hgrow
        (by rw [hsize]; decide) (fun _ => hsize) key hash
    · rw [if_pos hc]
      cases hf : packedFind tab hash with
      | some i => exact Or.inr ⟨tab, _, _, rfl, hwf, Or.inl rfl, .found (.dense hp hc hf)⟩
      | none =>
        change (∃ msg, (if tab.lock ≠ 0 then _ else if tab.size ≥ tab.capacity then _ else _) = _) ∨
          ∃ base i tab', (if tab.lock ≠ 0 then _ else if tab.size ≥ tab.capacity then _ else _) = _
            ∧ _
        by_cases hlock : tab.lock ≠ 0
        · exact Or.inl ⟨_, if_pos hlock⟩
        rw [if_neg hlock]
        by_cases hfull : tab.size ≥ tab.capacity
        · -- the promotion to open addressing
          have h8 := hwf.capacity_of_packed hp hc
          have hle := (hwf.dense hp hc).1
          have hgrow : growTo T tab = some 32 := by
            rw [growTo, if_pos hp, if_pos hfull, if_neg hc, h8]
          rw [if_pos hfull, if_neg hc, h8]
          refine reserve_rebuilt hwf (e := 5) (by omega) rfl hgrow (by omega) (fun h => ?_) key hash
          rw [packed_open (by omega)] at h
          simp at h
        · rw [if_neg hfull]
          exact Or.inr ⟨tab, _, _, rfl, hwf, Or.inl rfl,
            .appended hp hc (by omega) (.dense hp hc hf)⟩
  | false =>
    rw [if_neg (by simp)]
    by_cases hc : tab.capacity = 0
    · -- the first allocation of a table that stores no hash
      have hst : T.storesHash = false := by
        rw [hc] at hp
        simpa [packed] using hp
      have hsize : tab.size = 0 := by rw [hwf.size, hc]; rfl
      have hgrow : growTo T tab = some minCapacity := by
        rw [growTo, hp, if_neg (by simp), if_pos hc]
      rw [if_pos (by simp [hst, hc])]
      by_cases hlock : tab.lock ≠ 0
      · exact Or.inl ⟨_, if_pos hlock⟩
      rw [if_neg hlock]
      exact reserve_rebuilt hwf (e := 3) le_rfl rfl hgrow
        (by rw [hsize]; decide) (fun _ => hsize) key hash
    · rw [if_neg fun h => hc h.2, reserveOpen]
      have hgrow : growTo T tab = loadCapacity tab := by
        rw [growTo, hp, if_neg (by simp), if_neg hc]
      rcases makeRoom_spec (z := z) hwf hp hc with
        ⟨msg, herr⟩ | ⟨hok, -, hroom⟩ | ⟨N, base, hok, hN, -, H, hpN, hN0, hroom⟩
      · exact Or.inl ⟨msg, by rw [herr]⟩
      · rw [hok]
        rcases insertOpen_spec hwf hp hc hroom key hash with ⟨-, msg, herr⟩ | ⟨i, tab', hi, hland⟩
        · exact Or.inl ⟨msg, herr⟩
        · exact Or.inr ⟨tab, i, tab', hi, hwf, Or.inl rfl, hland⟩
      · rw [hok]
        have hpb : packed T base.capacity = false := by rwa [H.capacity]
        have hcb : base.capacity ≠ 0 := by rwa [H.capacity]
        rcases insertOpen_spec H.wf hpb hcb hroom key hash with ⟨hl, -⟩ | ⟨i, tab', hi, hland⟩
        · exact absurd H.lock hl
        · exact Or.inr ⟨base, i, tab', hi, H.wf, Or.inr ⟨N, hgrow.trans hN, H⟩, hland⟩

end Insert

/-! ## Erasing, clearing, reserving a capacity -/

section Erase

variable [Zero V]

/-- The slot a lookup found is removed. -/
def removeSlot (T : KeyType K) (tab : Table K V) : Option ℕ → Table K V
  | none => tab
  | some i => if packed T tab.capacity then swapRemove tab i else killSlot tab i

theorem erase_spec (hwf : WellFormed T tab) (key : K) (hash : UInt64) :
    ∃ r, Looked T tab key hash r ∧ erase T tab key hash = .ok r (removeSlot T tab r) := by
  rw [erase]
  by_cases hc : tab.capacity = 0
  · exact ⟨none, .unallocated hc, by rw [if_pos hc]; rfl⟩
  rw [if_neg hc]
  cases hp : packed T tab.capacity with
  | true =>
    refine ⟨_, .dense hp hc rfl, ?_⟩
    rw [if_pos rfl]
    cases packedFind tab hash with
    | none => rfl
    | some i => simp [removeSlot, hp]
  | false =>
    obtain ⟨r, hr, hl⟩ := scan_looked hwf hp hc key hash
    refine ⟨r, hl, ?_⟩
    rw [if_neg (by simp), hr]
    cases r with
    | none => rfl
    | some i => simp [removeSlot, hp]

theorem Looked.wellFormed (hwf : WellFormed T tab) (hh : hashKilled < hash) {r : Option ℕ}
    (h : Looked T tab key hash r) : WellFormed T (removeSlot T tab r) := by
  cases r with
  | none => exact hwf
  | some i =>
    obtain ⟨hi, hl⟩ := h.live hwf hh
    have hc : tab.capacity ≠ 0 := by omega
    rw [removeSlot]
    cases hp : packed T tab.capacity with
    | true =>
      rw [if_pos rfl]
      refine hwf.swap hp hc ?_
      by_contra hge
      rw [cell_packed hp, if_neg hge] at hl
      simp [Cell.isLive] at hl
    | false =>
      rw [if_neg (by simp)]
      exact hwf.kill hp hi hl

theorem clear_spec (hwf : WellFormed T tab) :
    (tab.lock ≠ 0 ∧ ∃ msg, tableClear tab = .error (.throw msg) tab) ∨
    ∃ tab', tableClear tab = .ok () tab' ∧ WellFormed T tab' ∧ tab'.size = 0 ∧
      tab'.capacity = tab.capacity ∧ ∀ i < tab.capacity, tab'.cell T i = .empty := by
  rw [tableClear]
  by_cases hlock : tab.lock ≠ 0
  · exact Or.inl ⟨hlock, _, if_pos hlock⟩
  rw [if_neg hlock]
  refine Or.inr ?_
  by_cases hdata : tab.data ≠ 0
  · have hcell : Table.cell T ({ tab with
        hashes := fun _ => 0, values := fun _ => 0, size := 0, tombstones := 0 } : Table K V)
        = fun _ => .empty := by
      funext j
      cases hp : packed T tab.capacity with
      | true =>
        rw [cell_packed (by exact hp)]
        exact if_neg (Nat.not_lt_zero j)
      | false =>
        rw [cell_open (by exact hp)]
        exact openCell_empty _ _
    refine ⟨_, if_pos hdata, ⟨hwf.pow, hwf.null, hwf.noHash, ?_, ?_, ?_, ?_, ?_, ?_⟩, rfl, rfl,
      fun i _ => congrFun hcell i⟩
    · rw [hcell]
      exact (tally_eq_zero fun _ _ => rfl).symm
    · rw [hcell]
      exact (tally_eq_zero fun _ _ => rfl).symm
    · intro _ hc
      change 2 * 0 ≤ tab.capacity ∧ 0 + 0 < tab.capacity
      change tab.capacity ≠ 0 at hc
      omega
    · refine fun _ _ => ⟨Nat.zero_le _, fun i _ => ?_⟩
      change hashKilled < 0 ↔ i < 0
      exact ⟨fun h => absurd h (by decide), fun h => absurd h (Nat.not_lt_zero i)⟩
    · exact fun _ _ _ _ _ => rfl
    · exact fun _ i h => absurd h (by change ¬ hashKilled < 0; decide)
  · -- a null table has no slot to clear
    have hc : tab.capacity = 0 := hwf.null.mp (by simpa using hdata)
    refine ⟨_, if_neg hdata, ⟨hwf.pow, hwf.null, hwf.noHash, ?_, ?_, ?_, ?_, ?_, ?_⟩, rfl, rfl,
      fun i hi => by omega⟩
    · change 0 = tally _ _ tab.capacity
      rw [hc]
      rfl
    · change 0 = tally _ _ tab.capacity
      rw [hc]
      rfl
    · exact fun _ h => absurd hc h
    · exact fun _ h => absurd hc h
    · exact fun _ h => absurd hc h
    · exact hwf.control

end Erase

theorem doubleTo_spec {size fuel e : ℕ} (h : size ≤ 2 ^ (e + fuel)) :
    ∃ e', e ≤ e' ∧ doubleTo size (fuel + 1) (2 ^ e) = some (2 ^ e') ∧ size ≤ 2 ^ e' := by
  induction fuel generalizing e with
  | zero =>
    rw [doubleTo, if_neg (by simpa using h)]
    exact ⟨e, le_rfl, rfl, h⟩
  | succ fuel ih =>
    rw [doubleTo]
    by_cases hlt : 2 ^ e < size
    · rw [if_pos hlt, ← pow_succ]
      obtain ⟨e', he', hd, hs⟩ := ih (e := e + 1) (by rwa [Nat.add_right_comm, Nat.add_assoc])
      exact ⟨e', by omega, hd, hs⟩
    · rw [if_neg hlt]
      exact ⟨e, le_rfl, rfl, by omega⟩

/-- The capacity `reserve(size)` reallocates to, if it does. -/
def sizeCapacity (tab : Table K V) (size : ℕ) : Option ℕ :=
  if size ≤ tab.capacity ∨ size > 2 ^ 62 then none
  else doubleTo size 64 (max minCapacity (tab.capacity * 2))

theorem reserveSize_spec [Inhabited K] [Zero V] (hwf : WellFormed T tab) (size : ℕ) :
    (∃ msg, reserveSize T z tab size = .error (.throw msg) tab) ∨
    reserveSize T z tab size = .ok () tab ∨
    ∃ N tab', reserveSize T z tab size = .ok () tab' ∧ sizeCapacity tab size = some N ∧
      Rebuilt T tab N tab' := by
  rw [reserveSize, sizeCapacity]
  by_cases hle : size ≤ tab.capacity
  · exact Or.inr (Or.inl (if_pos hle))
  rw [if_neg hle]
  by_cases hbig : size > 2 ^ 62
  · exact Or.inl ⟨_, if_pos hbig⟩
  rw [if_neg hbig, if_neg (by omega)]
  obtain ⟨e, he, hpow⟩ := hwf.doubled
  have hfit : size ≤ 2 ^ (e + 63) := by
    have : 2 ^ 62 ≤ 2 ^ (e + 63) := Nat.pow_le_pow_right (by omega) (by omega)
    omega
  obtain ⟨e', he', hd, hs⟩ := doubleTo_spec hfit
  rw [hpow, hd]
  have hcap : tab.capacity ≠ 0 → 2 * tab.capacity ≤ 2 ^ e' := fun hc => by
    have h1 : 2 ^ e ≤ 2 ^ e' := Nat.pow_le_pow_right (by omega) he'
    have := Nat.le_max_right minCapacity (tab.capacity * 2)
    omega
  -- an allocated table more than doubles, so it is open and half empty afterwards
  have hsize : tab.size ≤ tab.capacity := by
    rw [hwf.size]
    exact tally_le _ _ _
  have hzero : tab.capacity = 0 → tab.size = 0 := by omega
  have hroom : 2 * tab.size ≤ 2 ^ e' := by
    by_cases hc : tab.capacity = 0
    · rw [hzero hc]
      omega
    · have := hcap hc
      omega
  have hp : packed T (2 ^ e') = true → tab.size = 0 := fun h => by
    by_contra hne
    have hc : tab.capacity ≠ 0 := fun h0 => hne (hzero h0)
    have h8 := hwf.eight_le hc
    have := (packed_eq.mp h).2
    have := hcap hc
    omega
  rcases reserveInternal_spec (z := z) hwf (by omega) rfl hroom hp with
    ⟨msg, herr⟩ | ⟨tab', hok, -, H⟩
  · exact Or.inl ⟨msg, herr⟩
  · exact Or.inr (Or.inr ⟨_, tab', hok, rfl, H⟩)

end DaScript

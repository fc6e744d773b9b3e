import DaScript.Runtime.TableLoad

/-!
# Runtime/TableSteps — what a table operation can do

One lemma an operation says everything it can do to a well-formed table: raise an error and change
nothing, or reallocate and then write one slot.  The counters survive each of these
(`WellFormed.occupy`, `WellFormed.append`, `WellFormed.kill`, `WellFormed.swap`), so every reachable
table is well-formed and no probe of it goes round for ever.
-/

open Function

namespace DaScript

open Probing TableHash

variable {K V : Type*} {T : KeyType K} {z : ℕ} {tab : Table K V}

/-! ## The load test -/

/-- The capacity an open-addressed table is reallocated to before an insertion, if it is. -/
def loadCapacity (tab : Table K V) : Option ℕ :=
  if tab.size ≥ tab.capacity / 2 then some (max minCapacity (tab.capacity * 2))
  else if (tab.capacity - tab.size) / 2 < tab.tombstones then some tab.capacity
  else none

/-- The load test lets one more entry in. -/
def Roomy (tab : Table K V) : Prop :=
  tab.size < tab.capacity / 2 ∧ tab.tombstones ≤ (tab.capacity - tab.size) / 2

theorem packed_open {N : ℕ} (h : 8 < N) : packed T N = false := by
  rw [Bool.eq_false_iff, Ne, packed_eq]
  omega

theorem WellFormed.eight_le (h : WellFormed T tab) (hc : tab.capacity ≠ 0) : 8 ≤ tab.capacity := by
  rcases h.pow with h0 | ⟨e, he, hpow⟩
  · exact absurd h0 hc
  · have : 2 ^ 3 ≤ 2 ^ e := Nat.pow_le_pow_right (by omega) he
    omega

theorem WellFormed.doubled (h : WellFormed T tab) :
    ∃ e, 3 ≤ e ∧ max minCapacity (tab.capacity * 2) = 2 ^ e := by
  rcases h.pow with h0 | ⟨e, he, hpow⟩
  · exact ⟨3, le_rfl, by rw [h0]; rfl⟩
  · have : 2 ^ 3 ≤ 2 ^ e := Nat.pow_le_pow_right (by omega) he
    exact ⟨e + 1, by omega, by rw [hpow, pow_succ, minCapacity]; omega⟩

section Room

variable [Inhabited K] [Zero V]

theorem makeRoom_spec (hwf : WellFormed T tab) (hp : packed T tab.capacity = false)
    (hc : tab.capacity ≠ 0) :
    (∃ msg, makeRoom T z tab = .error (.throw msg) tab) ∨
    (makeRoom T z tab = .ok () tab ∧ loadCapacity tab = none ∧ Roomy tab) ∨
    ∃ N tab', makeRoom T z tab = .ok () tab' ∧ loadCapacity tab = some N ∧ tab.lock = 0 ∧
      Rebuilt T tab N tab' ∧ packed T N = false ∧ N ≠ 0 ∧ Roomy tab' := by
  have h8 := hwf.eight_le hc
  have hload := hwf.load hp hc
  have hsize : packed T tab.capacity = true → tab.size = 0 := fun h => by simp [hp] at h
  rw [makeRoom, loadCapacity]
  by_cases hfull : tab.size ≥ tab.capacity / 2
  · rw [if_pos hfull, if_pos hfull, grow]
    by_cases hbig : tab.capacity > 2 ^ 62
    · exact Or.inl ⟨_, by rw [if_pos hbig]⟩
    rw [if_neg hbig]
    obtain ⟨e, he, hpow⟩ := hwf.doubled
    have hN : max minCapacity (tab.capacity * 2) = tab.capacity * 2 := by
      rw [minCapacity]
      omega
    have hpN : packed T (tab.capacity * 2) = false := packed_open (by omega)
    rw [hN] at hpow ⊢
    rcases reserveInternal_spec (z := z) hwf he hpow (by omega)
        (fun h => by rw [hpN] at h; simp at h) with herr | ⟨tab', hok, hlock, H⟩
    · exact Or.inl herr
    · refine Or.inr (Or.inr ⟨_, tab', hok, rfl, hlock, H, hpN, by omega, ?_, ?_⟩)
      · rw [H.size, H.capacity]
        omega
      · rw [H.tombstones]
        omega
  · rw [if_neg hfull, if_neg hfull]
    by_cases htomb : (tab.capacity - tab.size) / 2 < tab.tombstones
    · rw [if_pos htomb, if_pos htomb, rehash]
      rcases hwf.pow with h0 | ⟨e, he, hpow⟩
      · exact absurd h0 hc
      rcases reserveInternal_spec (z := z) hwf he hpow hload.1 hsize with
        herr | ⟨tab', hok, hlock, H⟩
      · exact Or.inl herr
      · refine Or.inr (Or.inr ⟨_, tab', hok, rfl, hlock, H, hp, hc, ?_, ?_⟩)
        · rw [H.size, H.capacity]
          omega
        · rw [H.tombstones]
          omega
    · rw [if_neg htomb, if_neg htomb]
      exact Or.inr (Or.inl ⟨rfl, rfl, by omega, by omega⟩)

end Room

/-! ## What a probe sees -/

section See

variable {key : K} {hash : UInt64} {i : ℕ}

theorem seeReserve_eq_empty (hp : packed T tab.capacity = false) :
    seeReserve T tab key hash i = .empty ↔ tab.cell T i = .empty := by
  rw [cell_open hp, openCell_eq_empty, seeReserve]
  split_ifs <;> simp_all

theorem seeReserve_eq_killed (hp : packed T tab.capacity = false) :
    seeReserve T tab key hash i = .killed ↔ tab.cell T i = .killed := by
  rw [cell_open hp, openCell_eq_killed, seeReserve]
  split_ifs with h0 <;> simp_all [hashEmpty, hashKilled]

theorem seeFind_hit_live (hp : packed T tab.capacity = false)
    (h : seeFind T tab key hash i = .hit) : (tab.cell T i).isLive = true := by
  rw [cell_open hp, openCell_isLive]
  simp only [seeFind] at h
  split_ifs at h with h0 h1
  rw [h1.1]
  exact ownControl_lt T hash

theorem seeFind_eq_seeReserve (hwf : WellFormed T tab) :
    seeFind T tab key hash i = seeReserve T tab key hash i := by
  simp only [seeFind, seeReserve]
  by_cases h0 : tab.hashes i = hashEmpty
  · rw [if_pos h0, if_pos h0]
  rw [if_neg h0, if_neg h0]
  by_cases h1 : tab.hashes i = hashKilled
  · have hown : hashKilled ≠ ownControl T hash := (one_lt_iff.mp (ownControl_lt T hash)).2.symm
    rw [h1, if_neg (fun h => hown h.1), if_pos rfl, if_pos rfl]
  · rw [if_neg h1, if_neg h1]
    cases hs : T.storesHash with
    | true => simp [ownControl, hs]
    | false => simp [ownControl, hs, hwf.control hs i (one_lt_iff.mpr ⟨h0, h1⟩)]

end See

/-! ## Writing a slot -/

theorem cell_occupy (tab : Table K V) (hp : packed T tab.capacity = false) {c : UInt64}
    (hc : hashKilled < c) (i : ℕ) (key : K) :
    Table.cell T (occupy tab i key c) = update (tab.cell T) i (.live key (tab.values i)) := by
  rw [← cell_write tab hp hc key (tab.values i), update_eq_self]
  funext j
  have hp' : packed T (occupy tab i key c).capacity = false := hp
  rw [cell_open hp', Table.cell, if_neg (by simp [hp])]
  rfl

theorem WellFormed.occupy (hwf : WellFormed T tab) (hp : packed T tab.capacity = false)
    (hc : tab.capacity ≠ 0) (hroom : Roomy tab) {i : ℕ} (hi : i < tab.capacity) {key : K}
    {c : UInt64} (hlt : hashKilled < c) (hctl : T.storesHash = false → c = ctrlOccupied) {n : ℕ}
    (hcase : (tab.cell T i = .empty ∧ n = tab.tombstones) ∨
      (tab.cell T i = .killed ∧ n = dec64 tab.tombstones)) :
    WellFormed T { TableHash.occupy tab i key c with tombstones := n } := by
  have h8 := hwf.eight_le hc
  have hcell : Table.cell T { TableHash.occupy tab i key c with tombstones := n }
      = update (tab.cell T) i (.live key (tab.values i)) := cell_occupy tab hp hlt i key
  have hlive := tally_update Cell.isLive (tab.cell T) hi (.live key (tab.values i))
  have hkill := tally_update Cell.isKilled (tab.cell T) hi (.live key (tab.values i))
  rw [← hwf.size] at hlive
  rw [← hwf.tombstones] at hkill
  have hn : n ≤ tab.tombstones ∧ n = tally Cell.isKilled
      (update (tab.cell T) i (.live key (tab.values i))) tab.capacity := by
    rcases hcase with ⟨he, rfl⟩ | ⟨hk, rfl⟩
    · simp only [he, Cell.isKilled, Bool.toNat_false] at hkill
      omega
    · have hpos : 0 < tab.tombstones := by
        rw [hwf.tombstones]
        exact tally_pos hi (by rw [hk]; rfl)
      simp only [hk, Cell.isKilled, Bool.toNat_false, Bool.toNat_true] at hkill
      rw [dec64_of_pos hpos]
      omega
  have hdead : (tab.cell T i).isLive = false := by
    rcases hcase with ⟨he, -⟩ | ⟨hk, -⟩
    · rw [he]; rfl
    · rw [hk]; rfl
  refine ⟨hwf.pow, hwf.null, hwf.noHash, ?_, ?_, ?_, ?_, ?_, ?_⟩
  · rw [hcell]
    change tab.size + 1 = tally Cell.isLive _ tab.capacity
    rw [hdead] at hlive
    exact hlive.symm
  · rw [hcell]
    exact hn.2
  · intro _ _
    change 2 * (tab.size + 1) ≤ tab.capacity ∧ tab.size + 1 + n < tab.capacity
    obtain ⟨h1, h2⟩ := hroom
    omega
  · exact fun h => absurd h (by change ¬ packed T tab.capacity = true; simp [hp])
  · exact fun h => absurd h (by change ¬ packed T tab.capacity = true; simp [hp])
  · intro hs j hj
    change update tab.hashes i c j = ctrlOccupied
    change hashKilled < update tab.hashes i c j at hj
    rcases eq_or_ne j i with rfl | hji
    · rw [update_self]
      exact hctl hs
    · rw [update_of_ne hji] at hj ⊢
      exact hwf.control hs j hj

theorem cell_append (tab : Table K V) (hp : packed T tab.capacity = true) (key : K)
    (hash : UInt64) :
    Table.cell T (occupy tab tab.size key hash)
      = update (tab.cell T) tab.size (.live key (tab.values tab.size)) := by
  have hp' : packed T (occupy tab tab.size key hash).capacity = true := hp
  funext j
  rw [cell_packed hp']
  change (if j < tab.size + 1 then Cell.live (update tab.keys tab.size key j) (tab.values j)
    else .empty) = _
  rcases eq_or_ne j tab.size with rfl | hne
  · rw [if_pos (by omega), update_self, update_self]
  · rw [update_of_ne hne, update_of_ne hne, cell_packed hp]
    by_cases hlt : j < tab.size
    · rw [if_pos (by omega), if_pos hlt]
    · rw [if_neg (by omega), if_neg hlt]

theorem WellFormed.front (hwf : WellFormed T tab) (hp : packed T tab.capacity = true)
    (hc : tab.capacity ≠ 0) :
    tab.capacity = 8 ∧ tab.data ≠ 0 ∧ tab.tableNoHash = (!T.storesHash) ∧ tab.size ≤ 8 ∧
      tab.tombstones = 0 ∧ ∀ i < tab.size, hashKilled < tab.hashes i := by
  have h8 := hwf.capacity_of_packed hp hc
  obtain ⟨hle, hdense⟩ := hwf.dense hp hc
  refine ⟨h8, fun h => hc (hwf.null.mp h), hwf.noHash hc, by omega, ?_, fun i hi =>
    (hdense i (by omega)).mpr hi⟩
  rw [hwf.tombstones]
  refine tally_eq_zero fun i _ => ?_
  rw [cell_packed hp]
  split_ifs <;> rfl

theorem WellFormed.append (hwf : WellFormed T tab) (hp : packed T tab.capacity = true)
    (hc : tab.capacity ≠ 0) (hroom : tab.size < tab.capacity) {key : K} {hash : UInt64}
    (hh : hashKilled < hash) : WellFormed T (TableHash.occupy tab tab.size key hash) := by
  obtain ⟨h8, hdata, hnh, -, htomb, hreal⟩ := hwf.front hp hc
  refine wellFormed_packed hp h8 hdata hnh ?_ htomb (fun i hi => ?_) fun i hi hle => ?_
  · change tab.size + 1 ≤ 8
    omega
  · change i < tab.size + 1 at hi
    change hashKilled < update tab.hashes tab.size hash i
    rcases eq_or_ne i tab.size with rfl | hne
    · rwa [update_self]
    · rw [update_of_ne hne]
      exact hreal i (by omega)
  · change tab.size + 1 ≤ i at hle
    change update tab.hashes tab.size hash i = hashEmpty
    rw [update_of_ne (by omega)]
    exact hwf.tail hp hc i (by omega) (by omega)

section Write

variable [Zero V]

theorem cell_swapRemove (tab : Table K V) (hp : packed T tab.capacity = true) {i : ℕ}
    (hi : i < tab.size) :
    Table.cell T (swapRemove tab i)
      = update (update (tab.cell T) i (tab.cell T (tab.size - 1))) (tab.size - 1) .empty := by
  have hp' : packed T (swapRemove tab i).capacity = true := by
    rw [swapRemove]
    split_ifs <;> exact hp
  funext j
  rw [cell_packed hp']
  change (if j < tab.size - 1 then _ else _) = _
  rcases eq_or_ne j (tab.size - 1) with rfl | hjl
  · rw [if_neg (by omega), update_self]
  rw [update_of_ne hjl]
  by_cases hil : i = tab.size - 1
  · subst hil
    rw [update_of_ne hjl, cell_packed hp, swapRemove]
    simp only [ne_eq, not_true_eq_false, if_false, update_of_ne hjl]
    by_cases hj : j < tab.size
    · rw [if_pos (by omega), if_pos hj]
    · rw [if_neg (by omega), if_neg hj]
  · rw [swapRemove]
    simp only [ne_eq, hil, not_false_eq_true, if_true, update_of_ne hjl]
    rcases eq_or_ne j i with rfl | hji
    · rw [update_self, update_self, update_self, cell_packed hp, if_pos (by omega),
        if_pos (by omega)]
    · rw [update_of_ne hji, update_of_ne hji, update_of_ne hji, cell_packed hp]
      by_cases hj : j < tab.size
      · rw [if_pos (by omega), if_pos hj]
      · rw [if_neg (by omega), if_neg hj]

theorem swapRemove_fields (tab : Table K V) (i : ℕ) :
    (swapRemove tab i).capacity = tab.capacity ∧ (swapRemove tab i).data = tab.data ∧
      (swapRemove tab i).tableNoHash = tab.tableNoHash ∧
      (swapRemove tab i).tombstones = tab.tombstones := by
  rw [swapRemove]
  split_ifs <;> exact ⟨rfl, rfl, rfl, rfl⟩

theorem swapRemove_hashes (tab : Table K V) (i j : ℕ) :
    (swapRemove tab i).hashes j
      = if j = tab.size - 1 then 0 else if j = i then tab.hashes (tab.size - 1)
        else tab.hashes j := by
  rw [swapRemove]
  by_cases hil : i = tab.size - 1
  · simp only [hil, ne_eq, not_true_eq_false, if_false, update_apply]
    split_ifs <;> rfl
  · simp only [hil, ne_eq, not_false_eq_true, if_true, update_apply]

theorem swapRemove_keys (tab : Table K V) (i : ℕ) {j : ℕ} (hj : j ≠ tab.size - 1) :
    (swapRemove tab i).keys j = if j = i then tab.keys (tab.size - 1) else tab.keys j := by
  rw [swapRemove]
  by_cases hil : i = tab.size - 1
  · simp only [hil, ne_eq, not_true_eq_false, if_false, if_neg hj]
  · simp only [hil, ne_eq, not_false_eq_true, if_true, update_apply]

theorem WellFormed.swap (hwf : WellFormed T tab) (hp : packed T tab.capacity = true)
    (hc : tab.capacity ≠ 0) {i : ℕ} (hi : i < tab.size) : WellFormed T (swapRemove tab i) := by
  obtain ⟨h8, hdata, hnh, hsize, htomb, hreal⟩ := hwf.front hp hc
  obtain ⟨hcap, hdat, hno, htmb⟩ := swapRemove_fields tab i
  have hsz : (swapRemove tab i).size = tab.size - 1 := rfl
  refine wellFormed_packed (by rwa [hcap]) (by rw [hcap, h8]) (by rwa [hdat]) (by rwa [hno])
    (by omega) (by rw [htmb, htomb]) (fun j hj => ?_) fun j hj hle => ?_
  · rw [hsz] at hj
    rw [swapRemove_hashes, if_neg (by omega)]
    split_ifs
    · exact hreal _ (by omega)
    · exact hreal j (by omega)
  · rw [hsz] at hle
    rw [swapRemove_hashes]
    split_ifs with h1 h2
    · rfl
    · omega
    · exact hwf.tail hp hc j (by omega) (by omega)

theorem cell_kill (tab : Table K V) (hp : packed T tab.capacity = false) (i : ℕ) :
    Table.cell T (killSlot tab i) = update (tab.cell T) i .killed := by
  have hp' : packed T (killSlot tab i).capacity = false := hp
  funext j
  rw [cell_open hp']
  change openCell (update tab.hashes i hashKilled j) (tab.keys j) (update tab.values i 0 j) = _
  rcases eq_or_ne j i with rfl | hji
  · rw [update_self, update_self, update_self, openCell_killed]
  · rw [update_of_ne hji, update_of_ne hji, update_of_ne hji, cell_open hp]

theorem WellFormed.kill (hwf : WellFormed T tab) (hp : packed T tab.capacity = false) {i : ℕ}
    (hi : i < tab.capacity) (hl : (tab.cell T i).isLive = true) :
    WellFormed T (killSlot tab i) := by
  have hlive := tally_update Cell.isLive (tab.cell T) hi .killed
  have hkill := tally_update Cell.isKilled (tab.cell T) hi .killed
  rw [← hwf.size, hl] at hlive
  rw [← hwf.tombstones, cell_of_isLive hl] at hkill
  simp only [Cell.isLive, Cell.isKilled, Bool.toNat_false, Bool.toNat_true] at hlive hkill
  refine ⟨hwf.pow, hwf.null, hwf.noHash, ?_, ?_, ?_, ?_, ?_, ?_⟩
  · rw [cell_kill tab hp]
    change tab.size - 1 = tally _ _ tab.capacity
    omega
  · rw [cell_kill tab hp]
    change tab.tombstones + 1 = tally _ _ tab.capacity
    omega
  · intro _ hc
    obtain ⟨h1, h2⟩ := hwf.load hp hc
    change 2 * (tab.size - 1) ≤ tab.capacity ∧ tab.size - 1 + (tab.tombstones + 1) < tab.capacity
    omega
  · exact fun h => absurd h (by change ¬ packed T tab.capacity = true; simp [hp])
  · exact fun h => absurd h (by change ¬ packed T tab.capacity = true; simp [hp])
  · intro hs j hj
    change update tab.hashes i hashKilled j = ctrlOccupied
    change hashKilled < update tab.hashes i hashKilled j at hj
    rcases eq_or_ne j i with rfl | hji
    · rw [update_self] at hj
      exact absurd hj (by decide)
    · rw [update_of_ne hji] at hj ⊢
      exact hwf.control hs j hj

end Write

/-- The write of a value through the slot `reserve` returned. -/
def Table.writeValue (tab : Table K V) (i : ℕ) (v : V) : Table K V :=
  { tab with values := update tab.values i v }

theorem cell_writeValue (tab : Table K V) {i : ℕ} {k : K} {w : V}
    (hl : tab.cell T i = .live k w) (v : V) :
    Table.cell T (tab.writeValue i v) = update (tab.cell T) i (.live k v) := by
  obtain ⟨rfl, rfl⟩ := cell_live hl
  funext j
  cases hp : packed T tab.capacity with
  | true =>
    have hp' : packed T (tab.writeValue i v).capacity = true := hp
    rw [cell_packed hp] at hl
    have hi : i < tab.size := by
      by_contra hge
      rw [if_neg hge] at hl
      simp at hl
    rw [cell_packed hp']
    change (if j < tab.size then Cell.live (tab.keys j) (update tab.values i v j) else .empty) = _
    rcases eq_or_ne j i with rfl | hji
    · rw [if_pos hi, update_self, update_self]
    · rw [update_of_ne hji, update_of_ne hji, cell_packed hp]
  | false =>
    have hp' : packed T (tab.writeValue i v).capacity = false := hp
    rw [cell_open hp] at hl
    rw [cell_open hp']
    change openCell (tab.hashes j) (tab.keys j) (update tab.values i v j) = _
    rcases eq_or_ne j i with rfl | hji
    · rw [update_self, update_self]
      exact openCell_of_lt (openCell_isLive.mp (by rw [hl]; rfl)) _ _
    · rw [update_of_ne hji, update_of_ne hji, cell_open hp]

theorem WellFormed.writeValue (hwf : WellFormed T tab) {i : ℕ}
    (hl : (tab.cell T i).isLive = true) (v : V) : WellFormed T (tab.writeValue i v) := by
  have hcell := cell_writeValue tab (cell_of_isLive hl) v
  have hsame : ∀ p : Cell K V → Bool, (∀ k v w, p (.live k v) = p (.live k w)) →
      tally p (Table.cell T (tab.writeValue i v)) tab.capacity
        = tally p (tab.cell T) tab.capacity := by
    intro p hpv
    refine tally_congr fun j _ => ?_
    rw [hcell]
    rcases eq_or_ne j i with rfl | hji
    · rw [update_self, cell_of_isLive hl]
      exact hpv _ _ _
    · rw [update_of_ne hji]
  exact ⟨hwf.pow, hwf.null, hwf.noHash, hwf.size.trans (hsame _ fun _ _ _ => rfl).symm,
    hwf.tombstones.trans (hsame _ fun _ _ _ => rfl).symm, hwf.load, hwf.dense, hwf.tail,
    hwf.control⟩

end DaScript

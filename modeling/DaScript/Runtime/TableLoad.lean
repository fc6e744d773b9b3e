import DaScript.Runtime.Table

/-!
# Runtime/TableLoad — every probe of a script table ends

A table is read as `Cell`s (`Table.cell`) and `WellFormed` says what its counters mean: `size` the
live slots, `tombstones` the killed ones, and in an open-addressed table the two together below the
capacity.  The integer tests of `reserve` keep it so: an empty slot is left for every walk to end
at.  Nothing here asks what the keys are or how they compare: the counting survives any hash
function and any comparison.
-/

open Function

namespace DaScript

open Probing TableHash

variable {K V : Type*}

/-! ## A table as cells -/

/-- **The contents of a slot**, in whichever regime the table is. -/
def Table.cell (T : KeyType K) (tab : Table K V) (i : ℕ) : Cell K V :=
  if packed T tab.capacity then
    if i < tab.size then .live (tab.keys i) (tab.values i) else .empty
  else openCell (tab.hashes i) (tab.keys i) (tab.values i)

section Cells

variable {T : KeyType K} {tab : Table K V} {i : ℕ}

theorem cell_packed (hp : packed T tab.capacity = true) :
    tab.cell T i = if i < tab.size then .live (tab.keys i) (tab.values i) else .empty := by
  rw [Table.cell, if_pos hp]

theorem cell_open (hp : packed T tab.capacity = false) :
    tab.cell T i = openCell (tab.hashes i) (tab.keys i) (tab.values i) := by
  rw [Table.cell, hp, if_neg (by simp)]

theorem cell_live {k : K} {v : V} (h : tab.cell T i = .live k v) :
    tab.keys i = k ∧ tab.values i = v := by
  rw [Table.cell, openCell] at h
  split_ifs at h
  · exact Cell.live.inj h
  · exact Cell.live.inj h

theorem cell_of_isLive (h : (tab.cell T i).isLive = true) :
    tab.cell T i = .live (tab.keys i) (tab.values i) := by
  obtain ⟨k, v, hk⟩ := Cell.isLive_iff.mp h
  obtain ⟨rfl, rfl⟩ := cell_live hk
  exact hk

theorem cell_write (tab : Table K V) (hp : packed T tab.capacity = false) {c : UInt64}
    (hc : hashKilled < c) (k : K) (v : V) :
    Table.cell T { tab with hashes := update tab.hashes i c, keys := update tab.keys i k
                            values := update tab.values i v }
      = update (tab.cell T) i (.live k v) := by
  funext j
  rcases eq_or_ne j i with rfl | hji
  · simp only [Table.cell, hp, Bool.false_eq_true, if_false, update_self]
    exact openCell_of_lt hc k v
  · simp only [Table.cell, hp, Bool.false_eq_true, if_false, update_of_ne hji]

theorem copies_iff : copies T tab i = true ↔ (tab.cell T i).isLive = true := by
  rw [copies]
  cases hp : packed T tab.capacity with
  | true =>
    rw [cell_packed hp]
    by_cases hi : i < tab.size <;> simp [hi, Cell.isLive]
  | false =>
    rw [cell_open hp, openCell_isLive]
    simp

end Cells

/-! ## Well-formed tables -/

/-- **What the counters of a table mean.** -/
structure WellFormed (T : KeyType K) (tab : Table K V) : Prop where
  pow : tab.capacity = 0 ∨ ∃ e, 3 ≤ e ∧ tab.capacity = 2 ^ e
  null : tab.data = 0 ↔ tab.capacity = 0
  noHash : tab.capacity ≠ 0 → tab.tableNoHash = !T.storesHash
  size : tab.size = tally Cell.isLive (tab.cell T) tab.capacity
  tombstones : tab.tombstones = tally Cell.isKilled (tab.cell T) tab.capacity
  /-- an open-addressed table is at most half full and never full of live and killed slots -/
  load : packed T tab.capacity = false → tab.capacity ≠ 0 →
    2 * tab.size ≤ tab.capacity ∧ tab.size + tab.tombstones < tab.capacity
  /-- a packed table keeps a real hash in each live slot and zero in every other -/
  dense : packed T tab.capacity = true → tab.capacity ≠ 0 →
    tab.size ≤ tab.capacity ∧ ∀ i < tab.capacity, hashKilled < tab.hashes i ↔ i < tab.size
  tail : packed T tab.capacity = true → tab.capacity ≠ 0 →
    ∀ i < tab.capacity, tab.size ≤ i → tab.hashes i = hashEmpty
  /-- a control of a table that stores no hash is one of the three -/
  control : T.storesHash = false → ∀ i, hashKilled < tab.hashes i → tab.hashes i = ctrlOccupied

theorem packed_eq {T : KeyType K} {n : ℕ} :
    packed T n = true ↔ T.storesHash = true ∧ n ≤ 8 := by
  rw [packed, Bool.and_eq_true, decide_eq_true_eq]
  rfl

theorem WellFormed.capacity_of_packed {T : KeyType K} {tab : Table K V} (h : WellFormed T tab)
    (hp : packed T tab.capacity = true) (hc : tab.capacity ≠ 0) : tab.capacity = 8 := by
  have hle := (packed_eq.mp hp).2
  rcases h.pow with h0 | ⟨e, he, hpow⟩
  · exact absurd h0 hc
  · have : 2 ^ 3 ≤ 2 ^ e := Nat.pow_le_pow_right (by omega) he
    omega

theorem tableLiveSlot_eq {T : KeyType K} {tab : Table K V} (h : WellFormed T tab)
    (hc : tab.capacity ≠ 0) (i : ℕ) : tableLiveSlot tab i = (tab.cell T i).isLive := by
  have hn := h.noHash hc
  rw [Bool.eq_iff_iff, ← copies_iff, tableLiveSlot, copies, packed, hn]
  cases T.storesHash <;> simp

theorem WellFormed.exists_empty {T : KeyType K} {tab : Table K V} (h : WellFormed T tab)
    (hp : packed T tab.capacity = false) (hc : tab.capacity ≠ 0) :
    ∃ i < tab.capacity, tab.cell T i = .empty := by
  apply Probing.exists_empty
  rw [← h.size, ← h.tombstones]
  exact (h.load hp hc).2

theorem homeSlot_lt {n e : ℕ} (hn : n = 2 ^ e) (hash : UInt64) : homeSlot n hash < n := by
  rw [homeSlot, hn, Nat.and_two_pow_sub_one_eq_mod]
  exact Nat.mod_lt _ (by positivity)

theorem isRing_nextSlot {n e : ℕ} (hn : n = 2 ^ e) : IsRing (nextSlot n) n := by
  rw [hn]
  exact isRing_mask e

theorem wellFormed_packed {T : KeyType K} {tab : Table K V}
    (hp : packed T tab.capacity = true) (hc : tab.capacity = 8) (hdata : tab.data ≠ 0)
    (hnh : tab.tableNoHash = !T.storesHash) (hsize : tab.size ≤ 8) (htomb : tab.tombstones = 0)
    (hreal : ∀ i < tab.size, hashKilled < tab.hashes i)
    (htail : ∀ i < 8, tab.size ≤ i → tab.hashes i = hashEmpty) : WellFormed T tab := by
  have hcell : ∀ i, (tab.cell T i).isLive = decide (i < tab.size) ∧
      (tab.cell T i).isKilled = false := by
    intro i
    rw [cell_packed hp]
    by_cases hi : i < tab.size
    · simp [hi, Cell.isLive, Cell.isKilled]
    · simp [hi, Cell.isLive, Cell.isKilled]
  have hdense : ∀ i < tab.capacity, hashKilled < tab.hashes i ↔ i < tab.size := by
    intro i hic
    refine ⟨fun h => ?_, hreal i⟩
    by_contra hi
    rw [htail i (by omega) (by omega)] at h
    exact absurd h (by decide)
  refine ⟨Or.inr ⟨3, le_rfl, hc⟩, ?_, fun _ => hnh, ?_, ?_, ?_, ?_, ?_, ?_⟩
  · omega
  · rw [tally_below fun i => (hcell i).1]
    omega
  · rw [htomb, tally_eq_zero fun i _ => (hcell i).2]
  · intro h
    rw [hp] at h
    simp at h
  · exact fun _ _ => ⟨by omega, hdense⟩
  · exact fun _ _ i hi => htail i (by omega)
  · intro h
    rw [(packed_eq.mp hp).1] at h
    simp at h

/-! ## What a slot is rebuilt with -/

theorem storedKey_lt (hash : UInt64) : hashKilled < storedKey hash := by
  rw [storedKey, hashToHashKey, hashKilled, UInt64.lt_iff_toNat_lt, UInt32.toNat_toUInt64]
  split_ifs with h
  · decide
  · rw [UInt32.le_iff_toNat_le] at h
    have h1 : (1 : UInt32).toNat = 1 := rfl
    have h1' : (1 : UInt64).toNat = 1 := rfl
    omega

theorem ownControl_lt (T : KeyType K) (hash : UInt64) : hashKilled < ownControl T hash := by
  rw [ownControl]
  cases T.storesHash with
  | true => exact storedKey_lt hash
  | false =>
    change hashKilled < ctrlOccupied
    decide

theorem rebucket_control {T : KeyType K} {tab : Table K V} {i : ℕ}
    (h : copies T tab i = true) :
    hashKilled < (rebucket T tab i).2 := by
  rw [rebucket]
  split_ifs with hs hc
  · exact storedKey_lt _
  · have hp : packed T tab.capacity = false := by
      rw [Bool.eq_false_iff, Ne, packed_eq]
      rw [tableMaxLinearCapacity] at hc
      omega
    simpa [copies, hp] using h
  · change hashKilled < ctrlOccupied
    decide

/-! ## The zero table -/

section Zero

variable [Inhabited K] [Zero V]

theorem wellFormed_zero (T : KeyType K) : WellFormed T (Table.zero : Table K V) where
  pow := Or.inl rfl
  null := Iff.rfl
  noHash := fun h => absurd rfl h
  size := rfl
  tombstones := rfl
  load := fun _ h => absurd rfl h
  dense := fun _ h => absurd rfl h
  tail := fun _ h => absurd rfl h
  control := fun _ i h => by
    change hashKilled < (0 : UInt64) at h
    exact absurd h (by decide)

/-! ## Rebuilding -/

variable {T : KeyType K} {z : ℕ} {tab : Table K V}

theorem copyEntries_of_relocate {N : ℕ} (hN : packed T N = false) {i : ℕ} {s : ℕ → Cell K V}
    (h : relocate (nextSlot N) N (fun a => homeSlot N (rebucket T tab a).1) (tab.cell T) i
      = some s) :
    ∃ hs ks vs, copyEntries T tab (freshTable T tab N) i
        = some { freshTable T tab N with hashes := hs, keys := ks, values := vs } ∧
      Table.cell T { freshTable T tab N with hashes := hs, keys := ks, values := vs } = s ∧
      ∀ j, hashKilled < hs j → ∃ a < i, copies T tab a = true ∧ ks j = tab.keys a ∧
        hs j = (rebucket T tab a).2 := by
  induction i generalizing s with
  | zero =>
    obtain rfl := Option.some.inj h
    refine ⟨fun _ => 0, fun _ => default, fun _ => 0, rfl, ?_, fun j hj => ?_⟩
    · funext j
      rw [cell_open hN]
      exact openCell_empty _ _
    · change hashKilled < 0 at hj
      exact absurd hj (by decide)
  | succ i ih =>
    rw [relocate] at h
    obtain ⟨s₀, hs₀, h⟩ := Option.bind_eq_some_iff.mp h
    obtain ⟨hs, ks, vs, hcopy, hcell, htag⟩ := ih hs₀
    cases hlive : (tab.cell T i).isLive with
    | false =>
      -- an empty or killed slot is not copied
      have hno : copies T tab i = false := by
        rw [Bool.eq_false_iff, Ne, copies_iff, hlive]
        simp
      have hskip : s = s₀ := by
        cases hc : tab.cell T i with
        | empty => rw [hc] at h; exact (Option.some.inj h).symm
        | killed => rw [hc] at h; exact (Option.some.inj h).symm
        | live k v => rw [hc] at hlive; simp [Cell.isLive] at hlive
      refine ⟨hs, ks, vs, ?_, hcell.trans hskip.symm, fun j hj => ?_⟩
      · rw [copyEntries, hcopy, Option.bind_some, hno, if_neg (by simp)]
      · obtain ⟨a, ha, hrest⟩ := htag j hj
        exact ⟨a, by omega, hrest⟩
    | true =>
      have hyes : copies T tab i = true := copies_iff.mpr hlive
      rw [cell_of_isLive hlive] at h
      obtain ⟨j₀, hj₀, h⟩ := Option.map_eq_some_iff.mp h
      -- the walk of `insertNew` is the walk for a vacancy
      have hnew : insertNew { freshTable T tab N with hashes := hs, keys := ks, values := vs }
          (rebucket T tab i).1 = some j₀ := by
        rw [← hj₀, insertNew]
        congr 1
        funext j
        rw [← hcell, cell_open hN, Bool.eq_iff_iff, beq_iff_eq, Cell.isEmpty_iff,
          openCell_eq_empty]
      refine ⟨update hs j₀ (rebucket T tab i).2, update ks j₀ (tab.keys i),
        update vs j₀ (tab.values i), ?_, ?_, fun j hj => ?_⟩
      · rw [copyEntries, hcopy, Option.bind_some, if_pos hyes, hnew]
        rfl
      · rw [← h, ← hcell]
        exact cell_write { freshTable T tab N with hashes := hs, keys := ks, values := vs } hN
          (rebucket_control hyes) _ _
      · rcases eq_or_ne j j₀ with rfl | hne
        · exact ⟨i, by omega, hyes, update_self .., update_self ..⟩
        · rw [update_of_ne hne] at hj
          obtain ⟨a, ha, hca, hka, hha⟩ := htag j hj
          exact ⟨a, by omega, hca, by rw [update_of_ne hne]; exact hka,
            by rw [update_of_ne hne]; exact hha⟩

/-- **What a reallocation leaves**: the same entries at the new capacity, and no tombstone. -/
structure Rebuilt (T : KeyType K) (tab : Table K V) (N : ℕ) (tab' : Table K V) : Prop where
  wf : WellFormed T tab'
  capacity : tab'.capacity = N
  size : tab'.size = tab.size
  lock : tab'.lock = 0
  tombstones : tab'.tombstones = 0
  /-- only an empty table is rebuilt packed -/
  vacant : packed T N = true → tab.size = 0
  stored : ∀ k v, Stored N (tab'.cell T) k v ↔ Stored tab.capacity (tab.cell T) k v
  distinct : ∀ same, KeyEquiv same → Distinct same tab.capacity (tab.cell T) →
    Distinct same N (tab'.cell T)
  /-- the new table is chained for any home its entries were bucketed by -/
  chained : packed T N = false → ∀ home : K → ℕ,
    (∀ j < tab.capacity, ∀ k v, tab.cell T j = .live k v →
      home k = homeSlot N (rebucket T tab j).1) →
    Chained home N (tab'.cell T)
  /-- what is stored for an entry comes from its old slot -/
  tagged : ∀ j < N, (tab'.cell T j).isLive = true → ∃ a < tab.capacity,
    (tab.cell T a).isLive = true ∧ tab'.keys j = tab.keys a ∧
      tab'.hashes j = (rebucket T tab a).2

theorem rebuilt_fresh (hwf : WellFormed T tab) {N e : ℕ} (he : 3 ≤ e) (hN : N = 2 ^ e)
    (hlock : tab.lock = 0) (hsize : tab.size = 0) : Rebuilt T tab N (freshTable T tab N) := by
  have hpos : 0 < N := by rw [hN]; positivity
  have hcell : Table.cell T (freshTable T tab N) = fun _ => .empty := by
    funext j
    cases hp : packed T N with
    | true =>
      rw [cell_packed hp]
      exact if_neg (by change ¬ j < tab.size; omega)
    | false =>
      rw [cell_open hp]
      exact openCell_empty _ _
  have hnone := stored_of_tally_zero (hwf.size.symm.trans hsize)
  refine ⟨⟨Or.inr ⟨e, he, hN⟩, ?_, fun _ => rfl, ?_, ?_, ?_, ?_, ?_, ?_⟩, rfl, rfl, hlock, rfl,
    fun _ => hsize, ?_, ?_, ?_, ?_⟩
  · change tab.data + 1 = 0 ↔ N = 0
    omega
  · rw [hcell]
    exact hsize.trans (tally_eq_zero fun _ _ => rfl).symm
  · rw [hcell]
    exact (tally_eq_zero fun _ _ => rfl).symm
  · intro _ _
    change 2 * tab.size ≤ N ∧ tab.size + 0 < N
    omega
  · intro _ _
    refine ⟨by change tab.size ≤ N; omega, fun i _ => ?_⟩
    change hashKilled < 0 ↔ i < tab.size
    exact ⟨fun h => absurd h (by decide), fun h => by omega⟩
  · exact fun _ _ _ _ _ => rfl
  · exact fun _ i h => absurd h (by change ¬ hashKilled < 0; decide)
  · intro k v
    rw [hcell]
    exact ⟨fun ⟨_, _, h⟩ => by simp at h, fun h => absurd h (hnone k v)⟩
  · intro same _ _
    rw [hcell]
    exact distinct_empty same N
  · intro _ home _
    rw [hcell]
    exact chained_empty home N
  · intro j _ h
    rw [hcell] at h
    simp [Cell.isLive] at h

theorem rebuilt_copy (hwf : WellFormed T tab) {N e : ℕ} (he : 3 ≤ e) (hN : N = 2 ^ e)
    (hlock : tab.lock = 0) (hroom : 2 * tab.size ≤ N) (hp : packed T N = false) :
    ∃ tab', copyEntries T tab (freshTable T tab N)
        (if packed T tab.capacity then tab.size else tab.capacity) = some tab' ∧
      Rebuilt T tab N tab' := by
  set b := if packed T tab.capacity then tab.size else tab.capacity with hb
  have hpos : 0 < N := by rw [hN]; positivity
  -- every live slot lies below the bound of the loop
  have hlow : ∀ j < tab.capacity, (tab.cell T j).isLive = true → j < b := by
    intro j hj hl
    rw [← copies_iff, copies] at hl
    cases hpk : packed T tab.capacity with
    | true => simpa [hb, hpk] using hl
    | false => simpa [hb, hpk] using hj
  have hbc : b ≤ tab.capacity := by
    cases hpk : packed T tab.capacity with
    | false => simp [hb, hpk]
    | true =>
      rcases eq_or_ne tab.capacity 0 with h0 | hc
      · have : tab.size = 0 := by rw [hwf.size, h0]; rfl
        simp [hb, hpk, this]
      · simpa [hb, hpk] using (hwf.dense hpk hc).1
  have hstored : ∀ k v, Stored b (tab.cell T) k v ↔ Stored tab.capacity (tab.cell T) k v := by
    intro k v
    constructor
    · rintro ⟨j, hj, hk⟩
      exact ⟨j, by omega, hk⟩
    · rintro ⟨j, hj, hk⟩
      exact ⟨j, hlow j hj (Cell.isLive_iff.mpr ⟨k, v, hk⟩), hk⟩
  have htally : tally Cell.isLive (tab.cell T) b = tab.size := by
    rw [hwf.size]
    refine (tally_eq_of_le hbc fun j hbj hj => ?_).symm
    by_contra hl
    have := hlow j hj (by simpa using hl)
    omega
  have hring := isRing_nextSlot hN
  have hstart : ∀ j < b, (tab.cell T j).isLive = true →
      (fun a => homeSlot N (rebucket T tab a).1) j < N := fun _ _ _ => homeSlot_lt hN _
  obtain ⟨s, hs, H⟩ := relocate_spec hring hstart (by rw [htally]; omega)
  obtain ⟨hss, ks, vs, hcopy, hcell, htag⟩ := copyEntries_of_relocate hp hs
  refine ⟨_, hcopy, ⟨Or.inr ⟨e, he, hN⟩, ?_, fun _ => rfl, ?_, ?_, ?_, ?_, ?_, ?_⟩, rfl, rfl, hlock,
    rfl, fun h => ?_, ?_, ?_, ?_, ?_⟩
  · change tab.data + 1 = 0 ↔ N = 0
    omega
  · rw [hcell]
    exact htally.symm.trans H.live.symm
  · rw [hcell]
    exact H.killed.symm
  · intro _ _
    change 2 * tab.size ≤ N ∧ tab.size + 0 < N
    omega
  · exact fun h => absurd h (by change ¬ packed T N = true; simp [hp])
  · exact fun h => absurd h (by change ¬ packed T N = true; simp [hp])
  · intro hst j hj
    obtain ⟨a, -, -, -, ha⟩ := htag j hj
    change hss j = ctrlOccupied
    rw [ha, rebucket, hst]
    rfl
  · rw [hp] at h
    simp at h
  · intro k v
    rw [hcell, H.stored, hstored]
  · intro same heq hd
    rw [hcell]
    exact H.distinct same heq fun i hi j hj => hd i (by omega) j (by omega)
  · intro _ home hhome
    rw [hcell]
    exact H.chained home fun j hj k v hk => hhome j (by omega) k v hk
  · intro j _ hl
    rw [cell_open hp, openCell_isLive] at hl
    obtain ⟨a, ha, hca, hka, hha⟩ := htag j hl
    exact ⟨a, by omega, copies_iff.mp hca, hka, hha⟩

theorem reserveInternal_spec (hwf : WellFormed T tab) {N e : ℕ} (he : 3 ≤ e) (hN : N = 2 ^ e)
    (hroom : 2 * tab.size ≤ N) (hp : packed T N = true → tab.size = 0) :
    (∃ msg, reserveInternal T z tab N = .error (.throw msg) tab) ∨
    ∃ tab', reserveInternal T z tab N = .ok () tab' ∧ tab.lock = 0 ∧ Rebuilt T tab N tab' := by
  have hpow : ¬ (N = 0 ∨ N &&& (N - 1) ≠ 0) := by
    rw [hN, two_pow_and_pred]
    have : 0 < 2 ^ e := by positivity
    omega
  rw [reserveInternal, if_neg hpow]
  by_cases hlk : tab.magic ≠ 0 ∨ tab.lock ≠ 0
  · exact Or.inl ⟨_, by rw [if_pos hlk]⟩
  rw [if_neg hlk]
  have hlock : tab.lock = 0 := by
    by_contra hne
    exact hlk (Or.inr hne)
  by_cases hov : perSlot T z N ≠ 0 ∧ N > (2 ^ 64 - 1) / perSlot T z N
  · exact Or.inl ⟨_, by rw [if_pos hov]⟩
  rw [if_neg hov]
  refine Or.inr ?_
  by_cases hsize : tab.size = 0
  · rw [if_pos hsize]
    exact ⟨_, rfl, hlock, rebuilt_fresh hwf he hN hlock hsize⟩
  · rw [if_neg hsize]
    have hpf : packed T N = false := by
      rw [Bool.eq_false_iff]
      exact fun h => hsize (hp h)
    obtain ⟨tab', hcopy, H⟩ := rebuilt_copy hwf he hN hlock hroom hpf
    exact ⟨tab', by rw [hcopy], hlock, H⟩

end Zero

end DaScript

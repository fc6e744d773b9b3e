import DaScript.Daslib.FlatHashTable
import DaScript.Machinery.OpenMap

/-!
# Daslib/FlatHashTableSteps — what an operation of the flat hash table does

`Good` is what every operation keeps: the cells are the finite map, the counters count, a live slot
keeps the hash of its key.  `operator []` leaves half the table empty or nearly so, which is room
for its own probe at any capacity, and for the next lookup from eight slots on; with fewer it can
fill the table (`Good.room`).
-/

open Function

namespace DaScript

open Probing

namespace FlatHashTable

variable {K V : Type*}

/-- What the table asks of its keys: an equality, and a hash past the sentinels that respects
it. -/
structure Laws (T : FlatKeys K) : Prop where
  equiv : KeyEquiv T.equal
  respects : ∀ {a b}, T.equal a b = true → T.hashFunction a = T.hashFunction b
  one_lt : ∀ k, hashKilled < T.hashFunction k

/-! ## A table as cells -/

/-- The contents of a slot. -/
def cell (t : FlatHashTable K V) (i : ℕ) : Cell K V :=
  openCell (t.hashes i) (t.keyData i) (t.valueData i)

theorem cell_live {t : FlatHashTable K V} {i : ℕ} {k : K} {v : V} (h : t.cell i = .live k v) :
    hashKilled < t.hashes i ∧ t.keyData i = k ∧ t.valueData i = v := by
  have hlt : hashKilled < t.hashes i := openCell_isLive.mp (by rw [← cell, h]; rfl)
  rw [cell, openCell_of_lt hlt] at h
  exact ⟨hlt, Cell.live.inj h⟩

theorem cell_of_lt {t : FlatHashTable K V} {i : ℕ} (h : hashKilled < t.hashes i) :
    t.cell i = .live (t.keyData i) (t.valueData i) := openCell_of_lt h _ _

theorem cell_of_not_lt {t : FlatHashTable K V} {i : ℕ} (h : ¬ hashKilled < t.hashes i) :
    (t.cell i).isLive = false := Bool.eq_false_iff.mpr fun hl => h (openCell_isLive.mp hl)

theorem cell_occupy (t : FlatHashTable K V) (i : ℕ) (key : K) {h : UInt64} (hh : hashKilled < h) :
    (occupy t i key h).cell = update t.cell i (.live key (t.valueData i)) := by
  funext j
  rcases eq_or_ne j i with rfl | hji
  · rw [update_self, cell, occupy]
    dsimp only
    rw [update_self, update_self, openCell_of_lt hh]
  · rw [update_of_ne hji, cell, occupy]
    dsimp only
    rw [update_of_ne hji, update_of_ne hji, cell]

theorem cell_setValue {t : FlatHashTable K V} {i : ℕ} {k : K} {w : V} (h : t.cell i = .live k w)
    (v : V) : (setValue t i v).cell = update t.cell i (.live k v) := by
  obtain ⟨hlt, rfl, -⟩ := cell_live h
  funext j
  rcases eq_or_ne j i with rfl | hji
  · rw [update_self, cell, setValue]
    dsimp only
    rw [update_self, openCell_of_lt hlt]
  · rw [update_of_ne hji, cell, setValue]
    dsimp only
    rw [update_of_ne hji, cell]

theorem cell_kill (t : FlatHashTable K V) (i n d : ℕ) :
    cell { t with hashes := update t.hashes i hashKilled, tombstones := n, dataLength := d }
      = update t.cell i .killed := by
  funext j
  rcases eq_or_ne j i with rfl | hji
  · rw [update_self, cell]
    dsimp only
    rw [update_self, openCell_killed]
  · rw [update_of_ne hji, cell]
    dsimp only
    rw [update_of_ne hji, cell]

/-! ## The ring -/

section Ring

variable {e : ℕ}

theorem homeIndex_eq (he : e ≤ 30) (hash : UInt64) :
    homeIndex (2 ^ e - 1) hash = hash.toNat % 2 ^ e := by
  rw [homeIndex, Nat.and_two_pow_sub_one_eq_mod, Nat.mod_mod_of_dvd]
  exact Nat.pow_dvd_pow 2 (by omega)

theorem homeIndex_lt (he : e ≤ 30) (hash : UInt64) : homeIndex (2 ^ e - 1) hash < 2 ^ e := by
  rw [homeIndex_eq he]
  exact Nat.mod_lt _ (by positivity)

theorem isRing_nextIndex (e : ℕ) : IsRing (nextIndex (2 ^ e - 1)) (2 ^ e) := isRing_mask e

end Ring

/-! ## Good tables -/

/-- **What a run keeps**: the table is the finite map `a`. -/
structure Good (T : FlatKeys K) (t : FlatHashTable K V) (a : KeyMap K V T.equal) : Prop where
  pow : ∃ e ≤ 30, t.capacity = 2 ^ e
  mask : t.mask = t.capacity - 1
  map : OpenMap T.equal (fun k => homeIndex t.mask (T.hashFunction k)) t.capacity t.cell a
  size : t.dataLength = a.card
  tombstones : t.tombstones = tally Cell.isKilled t.cell t.capacity
  load : t.dataLength ≤ t.capacity / 2 + 1
  /-- eight slots and more are never all taken -/
  room : 8 ≤ t.capacity → t.dataLength + t.tombstones < t.capacity
  /-- a live slot keeps the hash of its key -/
  tagged : ∀ i, hashKilled < t.hashes i → t.hashes i = T.hashFunction (t.keyData i)

/-- What the tests at the head of `operator []` leave. -/
structure Roomy (t : FlatHashTable K V) : Prop where
  load : t.dataLength ≤ t.capacity / 2
  tombstones : t.tombstones ≤ (t.capacity - t.dataLength) / 2

section Good

variable {T : FlatKeys K} {t : FlatHashTable K V} {a : KeyMap K V T.equal}

namespace Good

theorem capacity_pos (h : Good T t a) : 0 < t.capacity := by
  obtain ⟨e, -, hpow⟩ := h.pow
  rw [hpow]
  positivity

theorem live (h : Good T t a) : tally Cell.isLive t.cell t.capacity = t.dataLength :=
  h.map.card.trans h.size.symm

theorem taken (h : Good T t a) : t.dataLength + t.tombstones ≤ t.capacity := by
  have htotal := tally_total t.cell t.capacity
  rw [h.live, ← h.tombstones] at htotal
  omega

theorem ring (h : Good T t a) : IsRing (nextIndex t.mask) t.capacity := by
  obtain ⟨e, -, hpow⟩ := h.pow
  rw [h.mask, hpow]
  exact isRing_nextIndex e

theorem home_lt (h : Good T t a) (hash : UInt64) : homeIndex t.mask hash < t.capacity := by
  obtain ⟨e, he, hpow⟩ := h.pow
  rw [h.mask, hpow]
  exact homeIndex_lt he hash

theorem exists_empty (h : Good T t a) (hroom : t.dataLength + t.tombstones < t.capacity) :
    ∃ i < t.capacity, t.cell i = .empty := by
  refine Probing.exists_empty ?_
  rw [h.live, ← h.tombstones]
  exact hroom

theorem see (laws : Laws T) (h : Good T t a) (key : K) :
    see T t key (T.hashFunction key) = fun i => (t.cell i).look T.equal key := by
  funext i
  obtain ⟨hne0, hne1⟩ := one_lt_iff.mp (laws.one_lt key)
  rw [FlatHashTable.see]
  cases hcell : t.cell i with
  | empty =>
    have h0 := openCell_eq_empty.mp hcell
    rw [h0, if_neg hne0.symm, if_neg (by decide), if_pos rfl, Cell.look]
  | killed =>
    have h1 := openCell_eq_killed.mp hcell
    rw [h1, if_neg hne1.symm, if_pos rfl, Cell.look]
  | live k v =>
    obtain ⟨hlt, rfl, -⟩ := cell_live hcell
    obtain ⟨h0, h1⟩ := one_lt_iff.mp hlt
    rw [Cell.look]
    by_cases hs : T.equal (t.keyData i) key = true
    · rw [h.tagged i hlt, laws.respects hs, if_pos rfl, if_pos hs]
    · rw [if_neg hs]
      split_ifs <;> rfl

end Good

/-! ## Lookups -/

/-- **A lookup has where to stop**: an empty slot, or the key itself. -/
def Stops (t : FlatHashTable K V) (a : KeyMap K V T.equal) (key : K) : Prop :=
  (∃ i < t.capacity, t.hashes i = hashEmpty) ∨ (a.lookup key).isSome = true

theorem Good.exists_stop (h : Good T t a) (key : K) :
    Stops t a key ↔ ∃ i < t.capacity, ((t.cell i).look T.equal key).stops = true := by
  constructor
  · rintro (⟨i, hi, h0⟩ | hsome)
    · refine ⟨i, hi, ?_⟩
      rw [cell, h0, openCell_empty]
      rfl
    · obtain ⟨v, hv⟩ := Option.isSome_iff_exists.mp hsome
      obtain ⟨k', ⟨i, hi, hk⟩, hs⟩ := (h.map.holds key v).mp hv
      refine ⟨i, hi, ?_⟩
      rw [hk, Cell.look, if_pos hs]
      rfl
  · rintro ⟨i, hi, hstop⟩
    rcases Seen.stops_iff.mp hstop with he | hit
    · exact Or.inl ⟨i, hi, openCell_eq_empty.mp (Cell.look_eq_empty.mp he)⟩
    · obtain ⟨k', v, hk, hs⟩ := Cell.look_eq_hit.mp hit
      exact Or.inr (Option.isSome_iff_exists.mpr ⟨v, h.map.holds.lookup_of_same hi hk hs⟩)

theorem Good.keyIndex_stops (laws : Laws T) (h : Good T t a) {key : K} (hstop : Stops t a key) :
    ∃ r, keyIndex T t key = some r ∧
      ((r = none ∧ Absent T.equal t.capacity t.cell key) ∨
        ∃ i k' v, r = some i ∧ i < t.capacity ∧ t.cell i = .live k' v ∧
          T.equal k' key = true) := by
  rw [keyIndex, h.see laws key]
  obtain ⟨r, hr, d, hd, hpass, hcase⟩ := scan_spec h.ring (h.home_lt (T.hashFunction key))
    ((h.exists_stop key).mp hstop)
  refine ⟨r, hr, ?_⟩
  rcases hcase with ⟨hnone, he⟩ | ⟨hsome, hit⟩
  · exact Or.inl ⟨hnone, h.map.chained.absent (fun hab => by rw [laws.respects hab]) hd hpass
      (Cell.look_eq_empty.mp he)⟩
  · obtain ⟨k', v, hk, hs⟩ := Cell.look_eq_hit.mp hit
    exact Or.inr ⟨_, k', v, hsome, slot_lt h.capacity_pos _ _, hk, hs⟩

theorem Good.scan_eq_none (laws : Laws T) (h : Good T t a) {key : K} (hno : ¬ Stops t a key)
    (fuel : ℕ) : scan (FlatHashTable.see T t key (T.hashFunction key)) (nextIndex t.mask) fuel
      (homeIndex t.mask (T.hashFunction key)) = none := by
  rw [h.see laws key]
  refine Probing.scan_eq_none h.ring (fun i hi => ?_) fuel (h.home_lt _)
  by_contra hstop
  exact hno ((h.exists_stop key).mpr ⟨i, hi, by simpa using hstop⟩)

theorem Good.keyIndex_eq_none (laws : Laws T) (h : Good T t a) (key : K) :
    keyIndex T t key = none ↔ ¬ Stops t a key := by
  refine ⟨fun hnone hstop => ?_, fun hno => h.scan_eq_none laws hno _⟩
  obtain ⟨r, hr, -⟩ := h.keyIndex_stops laws hstop
  rw [hr] at hnone
  exact Option.some_ne_none r hnone

theorem Good.stops_of_eight (h : Good T t a) (height : 8 ≤ t.capacity) (key : K) :
    Stops t a key := by
  obtain ⟨i, hi, he⟩ := h.exists_empty (h.room height)
  exact Or.inl ⟨i, hi, openCell_eq_empty.mp he⟩

/-! ## Writing a slot -/

theorem Good.setValue (laws : Laws T) (h : Good T t a) {i : ℕ} {k' key : K} {w : V}
    (hi : i < t.capacity) (hk : t.cell i = .live k' w) (hs : T.equal k' key = true) (v : V) :
    Good T (setValue t i v) (a.insert laws.equiv key v) := by
  have hmap : OpenMap T.equal (fun k => homeIndex t.mask (T.hashFunction k)) t.capacity
      (FlatHashTable.setValue t i v).cell (a.insert laws.equiv key v) := by
    rw [cell_setValue hk]
    exact h.map.putOver laws.equiv hi hk hs
  refine ⟨h.pow, h.mask, hmap, ?_, ?_, h.load, h.room, h.tagged⟩
  · have hlive := hmap.card
    have hupd := tally_update Cell.isLive t.cell hi (.live k' v)
    rw [cell_setValue hk] at hlive
    rw [hk, h.live] at hupd
    exact (Nat.add_right_cancel hupd).symm.trans hlive
  · have hupd := tally_update Cell.isKilled t.cell hi (.live k' v)
    rw [hk, ← h.tombstones] at hupd
    rw [cell_setValue hk]
    exact (Nat.add_right_cancel hupd).symm

theorem Good.occupy (laws : Laws T) (h : Good T t a) (hroomy : Roomy t) {key : K} {i n : ℕ}
    (hi : i < t.capacity)
    (hcase : (t.cell i = .empty ∧ n = t.tombstones) ∨
      (t.cell i = .killed ∧ n = t.tombstones - 1))
    (habs : Absent T.equal t.capacity t.cell key)
    (hown : ∃ d < t.capacity, slot t.capacity (homeIndex t.mask (T.hashFunction key)) d = i ∧
      ∀ e < d, t.cell (slot t.capacity (homeIndex t.mask (T.hashFunction key)) e) ≠ .empty) :
    Good T { occupy t i key (T.hashFunction key) with tombstones := n }
      (a.insert laws.equiv key (t.valueData i)) := by
  have hcell : cell { FlatHashTable.occupy t i key (T.hashFunction key) with tombstones := n }
      = update t.cell i (.live key (t.valueData i)) := cell_occupy t i key (laws.one_lt key)
  have hfree : (t.cell i).isLive = false := by
    rcases hcase with ⟨he, -⟩ | ⟨hk, -⟩
    · rw [he]; rfl
    · rw [hk]; rfl
  have hmap : OpenMap T.equal (fun k => homeIndex t.mask (T.hashFunction k)) t.capacity
      (cell { FlatHashTable.occupy t i key (T.hashFunction key) with tombstones := n })
      (a.insert laws.equiv key (t.valueData i)) := by
    rw [hcell]
    exact h.map.putNew laws.equiv hi hfree habs hown
  have hcard : t.dataLength + 1 = (a.insert laws.equiv key (t.valueData i)).card := by
    have hlive := hmap.card
    have hupd := tally_update Cell.isLive t.cell hi (.live key (t.valueData i))
    rw [hcell] at hlive
    rw [hfree, h.live, hlive] at hupd
    exact hupd.symm
  have hkilled : n = tally Cell.isKilled
      (update t.cell i (.live key (t.valueData i))) t.capacity ∧ n ≤ t.tombstones := by
    have hupd := tally_update Cell.isKilled t.cell hi (.live key (t.valueData i))
    rw [← h.tombstones] at hupd
    rcases hcase with ⟨he, rfl⟩ | ⟨hk, rfl⟩
    · rw [he] at hupd
      exact ⟨(Nat.add_right_cancel hupd).symm, le_rfl⟩
    · rw [hk] at hupd
      simp only [Cell.isKilled, Bool.toNat_true, Bool.toNat_false] at hupd
      omega
  have hload := hroomy.load
  have htomb := hroomy.tombstones
  refine ⟨h.pow, h.mask, hmap, hcard, ?_, Nat.succ_le_succ hload, fun height => ?_,
    fun j hj => ?_⟩
  · rw [hcell]
    exact hkilled.1
  · change t.dataLength + 1 + n < t.capacity
    replace height : 8 ≤ t.capacity := height
    omega
  · rcases eq_or_ne j i with rfl | hji
    · change update t.hashes j (T.hashFunction key) j
        = T.hashFunction (update t.keyData j key j)
      rw [update_self, update_self]
    · replace hj : hashKilled < update t.hashes i (T.hashFunction key) j := hj
      change update t.hashes i (T.hashFunction key) j
        = T.hashFunction (update t.keyData i key j)
      rw [update_of_ne hji] at hj ⊢
      rw [update_of_ne hji]
      exact h.tagged j hj

theorem Good.kill (laws : Laws T) (h : Good T t a) {i : ℕ} {k' key : K} {w : V}
    (hi : i < t.capacity) (hk : t.cell i = .live k' w) (hs : T.equal k' key = true) :
    Good T { t with hashes := update t.hashes i hashKilled, tombstones := t.tombstones + 1
                    dataLength := t.dataLength - 1 } (a.erase key) := by
  have hcell := cell_kill t i (t.tombstones + 1) (t.dataLength - 1)
  have hmap : OpenMap T.equal (fun k => homeIndex t.mask (T.hashFunction k)) t.capacity
      (cell { t with hashes := update t.hashes i hashKilled, tombstones := t.tombstones + 1
                     dataLength := t.dataLength - 1 }) (a.erase key) := by
    rw [hcell]
    exact h.map.kill laws.equiv hi hk hs
  have hlive := hmap.card
  have hupd := tally_update Cell.isLive t.cell hi .killed
  have hupd' := tally_update Cell.isKilled t.cell hi .killed
  rw [hcell] at hlive
  rw [hk, h.live, hlive] at hupd
  rw [hk, ← h.tombstones] at hupd'
  simp only [Cell.isLive, Cell.isKilled, Bool.toNat_true, Bool.toNat_false] at hupd hupd'
  have hload := h.load
  refine ⟨h.pow, h.mask, hmap, ?_, ?_, ?_, fun height => ?_, fun j hj => ?_⟩
  · change t.dataLength - 1 = (a.erase key).card
    omega
  · rw [hcell]
    change t.tombstones + 1 = tally Cell.isKilled (update t.cell i .killed) t.capacity
    omega
  · change t.dataLength - 1 ≤ t.capacity / 2 + 1
    omega
  · have hroom := h.room height
    change t.dataLength - 1 + (t.tombstones + 1) < t.capacity
    omega
  · replace hj : hashKilled < update t.hashes i hashKilled j := hj
    change update t.hashes i hashKilled j = T.hashFunction (t.keyData j)
    rcases eq_or_ne j i with rfl | hji
    · rw [update_self] at hj
      exact absurd hj (by decide)
    · rw [update_of_ne hji] at hj ⊢
      exact h.tagged j hj

end Good

end FlatHashTable

end DaScript

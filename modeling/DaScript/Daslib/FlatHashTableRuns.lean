import DaScript.Daslib.FlatHashTableSteps

/-!
# Daslib/FlatHashTableRuns — the flat hash table is a finite map

`operator []` always returns: it reserves where it must, and two calls of itself are as deep as it
goes, since a table that grows has room for all it had.  A lookup returns where it has where to
stop; a table of one, two or four slots can be full, and then the lookup of an absent key has not.
-/

open Function

namespace DaScript

open Probing

namespace FlatHashTable

variable {K V : Type*} {T : FlatKeys K} {t : FlatHashTable K V} {a : KeyMap K V T.equal}

/-! ## Finding a slot -/

/-- **`operator []` refers to a slot of the key**, and what is assigned there is the key's value. -/
structure Refers (laws : Laws T) (a : KeyMap K V T.equal) (key : K) (i : ℕ)
    (t : FlatHashTable K V) (a' : KeyMap K V T.equal) : Prop where
  good : Good T t a'
  lt : i < t.capacity
  cell : ∃ k' w, t.cell i = .live k' w ∧ T.equal k' key = true
  assigned : ∀ v, a'.insert laws.equiv key v = a.insert laws.equiv key v

theorem Refers.setValue {laws : Laws T} {key : K} {i : ℕ} {a' : KeyMap K V T.equal}
    (h : Refers laws a key i t a') (v : V) :
    Good T (setValue t i v) (a.insert laws.equiv key v) := by
  obtain ⟨k', w, hk, hs⟩ := h.cell
  rw [← h.assigned v]
  exact h.good.setValue laws h.lt hk hs v

theorem Good.insertSlot (laws : Laws T) (h : Good T t a) (hroomy : Roomy t) (key : K) :
    ∃ i t' a', insertSlot T t key = .ok i t' ∧ Refers laws a key i t' a' ∧
      t'.capacity = t.capacity ∧ t'.tombstones ≤ t.tombstones ∧
      t'.dataLength ≤ t.dataLength + 1 := by
  have hload := hroomy.load
  have htomb := hroomy.tombstones
  have hpos := h.capacity_pos
  obtain ⟨p, hp, hcase⟩ := h.map.place (k := key) h.ring (h.home_lt (T.hashFunction key))
    (fun hab => by rw [laws.respects hab]) (h.exists_empty (by omega))
  rw [FlatHashTable.insertSlot]
  dsimp only
  rw [h.see laws key, hp]
  rcases hcase with ⟨i, k', v, rfl, hi, hk, hs⟩ | ⟨i, hi, hfree, habs, hown⟩
  · exact ⟨i, t, a, rfl, ⟨h, hi, ⟨k', v, hk, hs⟩, fun _ => rfl⟩, rfl, le_rfl, Nat.le_succ _⟩
  · have hcell : ∀ n, cell { FlatHashTable.occupy t i key (T.hashFunction key) with
        tombstones := n } i = .live key (t.valueData i) := fun n => by
      rw [show cell { FlatHashTable.occupy t i key (T.hashFunction key) with tombstones := n }
        = _ from cell_occupy t i key (laws.one_lt key), update_self]
    rcases hfree with ⟨rfl, he⟩ | ⟨rfl, hk⟩
    · refine ⟨i, _, _, rfl, ⟨h.occupy laws hroomy hi (.inl ⟨he, rfl⟩) habs hown, hi,
        ⟨key, _, hcell _, laws.equiv.refl key⟩, fun v => ?_⟩, rfl, le_rfl, le_rfl⟩
      exact KeyMap.insert_insert laws.equiv a key _ v
    · refine ⟨i, _, _, rfl, ⟨h.occupy laws hroomy hi (.inr ⟨hk, rfl⟩) habs hown, hi,
        ⟨key, _, hcell _, laws.equiv.refl key⟩, fun v => ?_⟩, rfl, Nat.sub_le _ _, le_rfl⟩
      exact KeyMap.insert_insert laws.equiv a key _ v

/-! ## Reserving -/

section Reserve

variable [Inhabited K] [Inhabited V]

theorem good_sized (T : FlatKeys K) {e : ℕ} (he : e ≤ 30) :
    Good T (sized (2 ^ e) : FlatHashTable K V) .empty where
  pow := ⟨e, he, rfl⟩
  mask := rfl
  map := by
    have hcell : (sized (2 ^ e) : FlatHashTable K V).cell = fun _ => .empty := by
      funext i
      exact openCell_empty _ _
    rw [hcell]
    exact OpenMap.empty _ _ _
  size := rfl
  tombstones := (tally_eq_zero fun _ _ => by
    rw [show (sized (2 ^ e) : FlatHashTable K V).cell = fun _ => .empty from by
      funext i
      exact openCell_empty _ _]
    rfl).symm
  load := Nat.zero_le _
  room := fun height => Nat.lt_of_lt_of_le (show 0 < 8 by decide) height
  tagged := fun i hi => absurd hi (by
    change ¬ hashKilled < hashEmpty
    decide)

omit [Inhabited K] [Inhabited V] in
theorem reinsert_spec (laws : Laws T)
    (index : FlatHashTable K V → K → Outcome (FlatHashTable K V) ℕ) (P : FlatHashTable K V → Prop)
    (limit : ℕ) (hP : ∀ t i v, P t → P (setValue t i v))
    (hindex : ∀ t a key, Good T t a → P t → t.dataLength < limit →
      ∃ i t' a', index t key = .ok i t' ∧ Refers laws a key i t' a' ∧ P t')
    {old t₀ : FlatHashTable K V} (hold : Good T old a) (h₀ : Good T t₀ .empty) (hP₀ : P t₀)
    {n : ℕ} (hn : n ≤ old.capacity) (hlimit : tally Cell.isLive old.cell n ≤ limit) :
    ∃ t m, reinsert index old n t₀ = .ok () t ∧ Good T t m ∧ P t ∧ Holds n old.cell m ∧
      m.card = tally Cell.isLive old.cell n := by
  induction n with
  | zero =>
    refine ⟨t₀, .empty, rfl, h₀, hP₀, fun k v => ?_, rfl⟩
    rw [KeyMap.lookup_empty]
    exact ⟨fun h => absurd h.symm (Option.some_ne_none v),
      fun ⟨_, ⟨_, hj, _⟩, _⟩ => absurd hj (Nat.not_lt_zero _)⟩
  | succ n ih =>
    rw [tally_succ] at hlimit
    obtain ⟨t, m, hrun, hgood, hPt, hholds, hcard⟩ := ih (by omega) (by omega)
    rw [reinsert, hrun, Outcome.bind_ok]
    by_cases hlive : hashKilled < old.hashes n
    · have hcell := cell_of_lt hlive
      have hlt : (old.cell n).isLive = true := by rw [hcell]; rfl
      rw [hlt, Bool.toNat_true, ← hcard, ← hgood.size] at hlimit
      -- the keys of the old table are apart, so none before slot `n` is the key of slot `n`
      have habs : Absent T.equal n old.cell (old.keyData n) := fun i hi k' v hk => by
        by_contra hs
        have hin := hold.map.distinct i (by omega) n (by omega) _ _ _ _ hk hcell (by simpa using hs)
        omega
      obtain ⟨i, t', a', hok, hrefers, hPt'⟩ := hindex t m (old.keyData n) hgood hPt (by omega)
      rw [if_pos hlive, hok]
      refine ⟨setValue t' i (old.valueData n), m.insert laws.equiv _ _, rfl, hrefers.setValue _,
        hP _ _ _ hPt', hholds.extend laws.equiv hcell habs, ?_⟩
      have hins := KeyMap.card_insert laws.equiv m (old.keyData n) (old.valueData n)
      rw [hholds.lookup_of_absent habs] at hins
      rw [tally_succ, hlt, ← hcard]
      exact hins
    · have hdead := cell_of_not_lt hlive
      rw [if_neg hlive]
      refine ⟨t, m, rfl, hgood, hPt, hholds.skip hdead, ?_⟩
      rw [tally_succ, hdead, hcard]
      rfl

theorem reserveBy_spec (laws : Laws T)
    (index : FlatHashTable K V → K → Outcome (FlatHashTable K V) ℕ) (P : FlatHashTable K V → Prop)
    (limit : ℕ) (hP : ∀ t i v, P t → P (setValue t i v))
    (hindex : ∀ t a key, Good T t a → P t → t.dataLength < limit →
      ∃ i t' a', index t key = .ok i t' ∧ Refers laws a key i t' a' ∧ P t')
    (h : Good T t a) {e : ℕ} (he : e ≤ 30) (hP₀ : P (sized (2 ^ e)))
    (hlimit : t.dataLength ≤ limit) :
    ∃ t', reserveBy index t (2 ^ e) = .ok () t' ∧ Good T t' a ∧ P t' ∧
      t'.dataLength = t.dataLength := by
  have hint : ¬ maxInt < 2 ^ e := by
    have := Nat.pow_le_pow_right (show 0 < 2 by decide) he
    have hmax : maxInt = 2 ^ 31 - 1 := rfl
    omega
  rw [reserveBy, if_neg hint]
  obtain ⟨t', m, hrun, hgood, hPt, hholds, hcard⟩ := reinsert_spec laws index P limit hP hindex h
    (good_sized T he) hP₀ le_rfl (by rw [h.live]; exact hlimit)
  rw [h.live] at hcard
  have hsame : ∀ k, a.lookup k = m.lookup k := fun k => h.map.holds.lookup_eq hholds k
  have hmap := hgood.map.congr hsame (by rw [hcard, h.size])
  refine ⟨t', hrun, ⟨hgood.pow, hgood.mask, hmap, ?_, hgood.tombstones, hgood.load, hgood.room,
    hgood.tagged⟩, hPt, ?_⟩
  · rw [hgood.size, hcard, h.size]
  · rw [hgood.size, hcard]

theorem makeRoom_roomy (index : FlatHashTable K V → K → Outcome (FlatHashTable K V) ℕ)
    (h : Roomy t) : makeRoom index t = .ok () t := by
  have hload := h.load
  have htomb := h.tombstones
  rw [makeRoom, if_neg (by omega), if_neg (by omega)]

theorem index_filled (laws : Laws T) (depth N : ℕ) (t : FlatHashTable K V)
    (a : KeyMap K V T.equal) (key : K) (h : Good T t a) (hP : t.capacity = N ∧ t.tombstones = 0)
    (hlimit : t.dataLength < N / 2 + 1) :
    ∃ i t' a', index T (depth + 1) t key = .ok i t' ∧ Refers laws a key i t' a' ∧
      t'.capacity = N ∧ t'.tombstones = 0 := by
  obtain ⟨rfl, htomb⟩ := hP
  have hroomy : Roomy t := ⟨by omega, by omega⟩
  obtain ⟨i, t', a', hok, hrefers, hcap, htomb', -⟩ := h.insertSlot laws hroomy key
  refine ⟨i, t', a', ?_, hrefers, hcap, by omega⟩
  rw [index, makeRoom_roomy _ hroomy]
  exact hok

theorem makeRoom_spec (laws : Laws T) (depth : ℕ) (h : Good T t a) :
    (∃ t', makeRoom (index T (depth + 1)) t = .ok () t' ∧ Good T t' a ∧ Roomy t') ∨
    (makeRoom (index T (depth + 1)) t = .error (.throw "resizing array to negative size") t ∧
      t.capacity = 2 ^ 30 ∧ t.capacity / 2 < t.dataLength) := by
  have hfilled : ∀ e, e ≤ 30 → t.dataLength ≤ 2 ^ e / 2 →
      ∃ t', reserveBy (index T (depth + 1)) t (2 ^ e) = .ok () t' ∧ Good T t' a ∧ Roomy t' := by
    intro e he hload
    obtain ⟨t', hok, hgood, ⟨hcap, htomb⟩, hlen⟩ := reserveBy_spec laws (index T (depth + 1))
      (fun t => t.capacity = 2 ^ e ∧ t.tombstones = 0) (2 ^ e / 2 + 1) (fun _ _ _ hP => hP)
      (fun t a key hgood hP hlim => index_filled laws depth _ t a key hgood hP hlim) h he
      ⟨rfl, rfl⟩ (by omega)
    exact ⟨t', hok, hgood, ⟨by rw [hlen, hcap]; exact hload, by omega⟩⟩
  obtain ⟨e, he, hpow⟩ := h.pow
  have htaken := h.taken
  by_cases hgrow : t.capacity / 2 < t.dataLength
  · rw [makeRoom, if_pos hgrow, hpow, ← pow_succ]
    rcases Nat.lt_or_ge e 30 with hlt | hge
    · exact .inl (hfilled (e + 1) hlt (by
        rw [hpow] at htaken
        rw [pow_succ]
        omega))
    · obtain rfl : e = 30 := le_antisymm he hge
      exact .inr ⟨by rw [reserveBy, if_pos (by decide)], rfl, by rw [← hpow]; exact hgrow⟩
  · by_cases htomb : (t.capacity - t.dataLength) / 2 < t.tombstones
    · rw [makeRoom, if_neg hgrow, if_pos htomb, hpow]
      exact .inl (hfilled e he (by rw [← hpow]; omega))
    · exact .inl ⟨t, makeRoom_roomy _ ⟨by omega, by omega⟩, h, ⟨by omega, by omega⟩⟩

theorem index_spec (laws : Laws T) (depth : ℕ) (h : Good T t a) (key : K) :
    (∃ i t' a', index T (depth + 2) t key = .ok i t' ∧ Refers laws a key i t' a') ∨
    (index T (depth + 2) t key = .error (.throw "resizing array to negative size") t ∧
      t.capacity = 2 ^ 30 ∧ t.capacity / 2 < t.dataLength) := by
  rw [index]
  rcases makeRoom_spec laws depth h with ⟨t', hok, hgood, hroomy⟩ | ⟨herr, hfull⟩
  · obtain ⟨i, t'', a', hslot, hrefers, -⟩ := hgood.insertSlot laws hroomy key
    exact .inl ⟨i, t'', a', by rw [hok]; exact hslot, hrefers⟩
  · exact .inr ⟨by rw [herr]; rfl, hfull⟩

theorem assign_spec (laws : Laws T) (depth : ℕ) (h : Good T t a) (key : K) (value : V) :
    (∃ t', assign T (depth + 2) t key value = .ok () t' ∧
      Good T t' (a.insert laws.equiv key value)) ∨
    assign T (depth + 2) t key value = .error (.throw "resizing array to negative size") t := by
  rw [assign]
  rcases index_spec laws depth h key with ⟨i, t', a', hok, hrefers⟩ | ⟨herr, -⟩
  · exact .inl ⟨setValue t' i value, by rw [hok]; rfl, hrefers.setValue value⟩
  · exact .inr (by rw [herr]; rfl)

theorem reserve_spec (laws : Laws T) (depth : ℕ) (h : Good T t a) {e : ℕ} (he : e ≤ 30) :
    ∃ t', reserve T (depth + 2) t (2 ^ e) = .ok () t' ∧ Good T t' a := by
  have hload := h.load
  have hcap : t.capacity ≤ 2 ^ 30 := by
    obtain ⟨e', he', hpow⟩ := h.pow
    rw [hpow]
    exact Nat.pow_le_pow_right (by decide) he'
  obtain ⟨t', hok, hgood, -⟩ := reserveBy_spec laws (index T (depth + 2)) (fun _ => True)
    (2 ^ 29 + 1) (fun _ _ _ _ => trivial)
    (fun t a key hgood _ hlim => by
      rcases index_spec laws depth hgood key with ⟨i, t', a', hok, hrefers⟩ | ⟨-, hfull, hgrow⟩
      · exact ⟨i, t', a', hok, hrefers, trivial⟩
      · rw [hfull] at hgrow
        omega)
    h he trivial (by omega)
  exact ⟨t', hok, hgood⟩

end Reserve

/-! ## Runs -/

/-- A call that changes a table. -/
inductive Op (K V : Type*)
  | assign (key : K) (value : V)
  | erase (key : K)
  | clear
  | reserve (newSize : ℕ)

/-- A size is a power of two, and an `int`. -/
def Op.Valid : Op K V → Prop
  | .assign _ _ => True
  | .erase _ => True
  | .clear => True
  | .reserve newSize => ∃ e ≤ 30, newSize = 2 ^ e

/-- **Where the table meets its contract**: a key is looked up to be erased where the lookup has
where to stop. -/
def Op.Meets (t : FlatHashTable K V) (a : KeyMap K V T.equal) : Op K V → Prop
  | .assign _ _ => True
  | .erase key => Stops t a key
  | .clear => True
  | .reserve _ => True

/-- What the call means on the finite map. -/
def Op.apply (heq : KeyEquiv T.equal) (a : KeyMap K V T.equal) : Op K V → KeyMap K V T.equal
  | .assign key value => a.insert heq key value
  | .erase key => a.erase key
  | .clear => .empty
  | .reserve _ => a

/-- The finite map of an array, later pairs over earlier ones. -/
def mapOf (heq : KeyEquiv T.equal) (a : KeyMap K V T.equal) : List (K × V) → KeyMap K V T.equal
  | [] => a
  | kv :: data => mapOf heq (a.insert heq kv.1 kv.2) data

variable [Inhabited K] [Inhabited V]

/-- What the call does to the table. -/
def Op.exec (T : FlatKeys K) (depth : ℕ) (t : FlatHashTable K V) :
    Op K V → Outcome (FlatHashTable K V) Unit
  | .assign key value => FlatHashTable.assign T depth t key value
  | .erase key => (FlatHashTable.erase T t key).bind fun _ t => .ok () t
  | .clear => .ok () (FlatHashTable.clear t)
  | .reserve newSize => FlatHashTable.reserve T depth t newSize

/-- **A run, and the finite map its calls mean**: from any constructor, by calls that meet the
contract.  A call that is an error leaves the finite map as it was. -/
inductive Run (T : FlatKeys K) (heq : KeyEquiv T.equal) (depth : ℕ) :
    FlatHashTable K V → KeyMap K V T.equal → Prop
  | sized (e : ℕ) (he : e ≤ 30) : Run T heq depth (sized (2 ^ e)) .empty
  | ofArray {t : FlatHashTable K V} (data : List (K × V)) (hlen : data.length < 2 ^ 31)
      (hok : ofArray T depth data = .ok () t) : Run T heq depth t (mapOf heq .empty data)
  | done {t t' : FlatHashTable K V} {a : KeyMap K V T.equal} (h : Run T heq depth t a) (op : Op K V)
      (hv : op.Valid) (hmeets : op.Meets t a) (hok : op.exec T depth t = .ok () t') :
      Run T heq depth t' (op.apply heq a)
  | failed {t t' : FlatHashTable K V} {a : KeyMap K V T.equal} (h : Run T heq depth t a)
      (op : Op K V) (hv : op.Valid) (hmeets : op.Meets t a) {e : Fault}
      (herr : op.exec T depth t = .error e t') : Run T heq depth t' a

theorem Good.step (laws : Laws T) (depth : ℕ) (h : Good T t a) {op : Op K V} (hv : op.Valid)
    (hmeets : op.Meets t a) :
    (∃ t', op.exec T (depth + 2) t = .ok () t' ∧ Good T t' (op.apply laws.equiv a)) ∨
    op.exec T (depth + 2) t = .error (.throw "resizing array to negative size") t := by
  cases op with
  | assign key value => exact assign_spec laws depth h key value
  | erase key =>
    refine .inl ?_
    obtain ⟨r, hr, hcase⟩ := h.keyIndex_stops laws hmeets
    rw [Op.exec, erase, hr]
    rcases hcase with ⟨rfl, habs⟩ | ⟨i, k', w, rfl, hi, hk, hs⟩
    · have hmap := h.map.erase_absent laws.equiv habs
      refine ⟨t, rfl, h.pow, h.mask, hmap, ?_, h.tombstones, h.load, h.room, h.tagged⟩
      exact h.live.symm.trans hmap.card
    · exact ⟨_, rfl, h.kill laws hi hk hs⟩
  | clear =>
    have hcell : (FlatHashTable.clear t).cell = fun _ => .empty := by
      funext i
      exact openCell_empty _ _
    refine .inl ⟨_, rfl, h.pow, h.mask, ?_, rfl, ?_, Nat.zero_le _, fun _ => h.capacity_pos,
      fun i hi => absurd hi (by
        change ¬ hashKilled < hashEmpty
        decide)⟩
    · rw [hcell]
      exact OpenMap.empty _ _ _
    · rw [hcell]
      exact (tally_eq_zero fun _ _ => rfl).symm
  | reserve newSize =>
    obtain ⟨e, he, rfl⟩ := hv
    exact .inl (reserve_spec laws depth h he)

theorem assignAll_spec (laws : Laws T) (depth : ℕ) (data : List (K × V)) (h : Good T t a) :
    (∃ t', assignAll T (depth + 2) data t = .ok () t' ∧ Good T t' (mapOf laws.equiv a data)) ∨
    ∃ t', assignAll T (depth + 2) data t
      = .error (.throw "resizing array to negative size") t' := by
  induction data generalizing t a with
  | nil => exact .inl ⟨t, rfl, h⟩
  | cons kv data ih =>
    rw [assignAll]
    rcases assign_spec laws depth h kv.1 kv.2 with ⟨t', hok, hgood⟩ | herr
    · rw [hok]
      exact ih hgood
    · exact .inr ⟨t, by rw [herr]; rfl⟩

theorem ofArray_spec (laws : Laws T) (depth : ℕ) (data : List (K × V))
    (hlen : data.length < 2 ^ 31) :
    (∃ t, ofArray T (depth + 2) data = .ok () t ∧ Good T t (mapOf laws.equiv .empty data)) ∨
    ∃ t, ofArray T (depth + 2) data = .error (.throw "resizing array to negative size") t := by
  have hsize : Nat.size data.length ≤ 31 := Nat.size_le.mpr hlen
  have hshift : 1 <<< (32 - clz data.length) = 2 ^ Nat.size data.length := by
    rw [clz, Nat.one_shiftLeft]
    congr 1
    omega
  rw [ofArray, hshift]
  rcases Nat.lt_or_ge (Nat.size data.length) 31 with hlt | hge
  · have hint : ¬ maxInt < 2 ^ Nat.size data.length := by
      have hpow := Nat.pow_le_pow_right (show 0 < 2 by decide) (Nat.le_of_lt_succ hlt)
      have hmax : maxInt = 2 ^ 31 - 1 := rfl
      omega
    rw [if_neg hint]
    exact assignAll_spec laws depth data (good_sized T (by omega))
  · rw [le_antisymm hsize hge]
    exact .inr ⟨_, by rw [if_pos (by decide)]⟩

theorem Run.good {depth : ℕ} (laws : Laws T) (h : Run T laws.equiv (depth + 2) t a) :
    Good T t a := by
  induction h with
  | sized e he => exact good_sized T he
  | ofArray data hlen hok =>
    rcases ofArray_spec laws depth data hlen with ⟨t, hok', hgood⟩ | ⟨t, herr⟩
    · rw [hok'] at hok
      obtain ⟨-, rfl⟩ := Outcome.ok.inj hok
      exact hgood
    · rw [herr] at hok
      exact nomatch hok
  | done h op hv hmeets hok ih =>
    rcases ih.step laws depth hv hmeets with ⟨t, hok', hgood⟩ | herr
    · rw [hok'] at hok
      obtain ⟨-, rfl⟩ := Outcome.ok.inj hok
      exact hgood
    · rw [herr] at hok
      exact nomatch hok
  | failed h op hv hmeets herr ih =>
    rcases ih.step laws depth hv hmeets with ⟨t, hok, -⟩ | herr'
    · rw [hok] at herr
      exact nomatch herr
    · rw [herr'] at herr
      obtain ⟨-, rfl⟩ := Outcome.error.inj herr
      exact ih

omit [Inhabited K] [Inhabited V] in
theorem Good.lookup (laws : Laws T) (h : Good T t a) {key : K} (hstop : Stops t a key) :
    (∃ r, keyIndex T t key = some r ∧
      (∀ i, r = some i → i < t.capacity ∧ hashKilled < t.hashes i ∧
        T.equal (t.keyData i) key = true ∧ a.lookup key = some (t.valueData i)) ∧
      (r = none → a.lookup key = none)) ∧
    keyExists T t key = some (a.lookup key).isSome ∧ get T t key = some (a.lookup key) := by
  obtain ⟨r, hr, hcase⟩ := h.keyIndex_stops laws hstop
  rw [keyExists, get, hr]
  rcases hcase with ⟨rfl, habs⟩ | ⟨i, k', w, rfl, hi, hk, hs⟩
  · have hnone := h.map.holds.lookup_of_absent habs
    exact ⟨⟨none, rfl, fun i hi => absurd hi.symm (Option.some_ne_none i), fun _ => hnone⟩,
      by rw [hnone]; rfl, by rw [hnone]; rfl⟩
  · have hsome := h.map.holds.lookup_of_same hi hk hs
    obtain ⟨hlt, rfl, rfl⟩ := cell_live hk
    refine ⟨⟨some i, rfl, fun j hj => ?_, fun hn => absurd hn (Option.some_ne_none i)⟩,
      by rw [hsome]; rfl, by rw [hsome]; rfl⟩
    obtain rfl := Option.some.inj hj
    exact ⟨hi, hlt, hs, hsome⟩

/-- **The flat hash table is a finite map** along every run that looks absent keys up only where the
table has an empty slot: lookups find a key exactly when it is there, with its last value, no key is
in two slots, `length` counts the keys, and every call returns.  Elsewhere the lookup never
returns. -/
theorem flatHashTable_runs {depth : ℕ} (laws : Laws T) (h : Run T laws.equiv (depth + 2) t a) :
    (∀ key, Stops t a key →
      (∃ r, keyIndex T t key = some r ∧
        (∀ i, r = some i → i < t.capacity ∧ hashKilled < t.hashes i ∧
          T.equal (t.keyData i) key = true ∧ a.lookup key = some (t.valueData i)) ∧
        (r = none → a.lookup key = none)) ∧
      keyExists T t key = some (a.lookup key).isSome ∧ get T t key = some (a.lookup key)) ∧
    (∀ key, ¬ Stops t a key → ∀ fuel, scan (see T t key (T.hashFunction key)) (nextIndex t.mask)
      fuel (homeIndex t.mask (T.hashFunction key)) = none) ∧
    (∀ i < t.capacity, ∀ j < t.capacity, hashKilled < t.hashes i → hashKilled < t.hashes j →
      T.equal (t.keyData i) (t.keyData j) = true → i = j) ∧
    t.dataLength = a.card ∧
    (∀ op : Op K V, op.Valid →
      ((∃ loop t', op.exec T (depth + 2) t = .error (.hang loop) t') ↔ ¬ op.Meets t a)) ∧
    (8 ≤ t.capacity → ∀ key, Stops t a key) ∧
    ∀ data : List (K × V), data.length < 2 ^ 31 →
      ∀ loop t', ofArray T (depth + 2) data ≠ .error (.hang loop) t' := by
  have hgood := h.good laws
  refine ⟨fun key => hgood.lookup laws, fun key => hgood.scan_eq_none laws,
    fun i hi j hj hli hlj hs => hgood.map.distinct i hi j hj _ _ _ _ (cell_of_lt hli)
      (cell_of_lt hlj) hs, hgood.size, fun op hv => ⟨?_, fun hno => ?_⟩,
    fun height key => hgood.stops_of_eight height key, fun data hlen loop t' hhang => ?_⟩
  · rintro ⟨loop, t', hhang⟩ hmeets
    rcases hgood.step laws depth hv hmeets with ⟨t'', hok, -⟩ | herr
    · rw [hok] at hhang
      exact nomatch hhang
    · rw [herr] at hhang
      exact nomatch (Outcome.error.inj hhang).1
  · cases op with
    | erase key =>
      refine ⟨"key_index", t, ?_⟩
      rw [Op.exec, erase, (hgood.keyIndex_eq_none laws key).mpr hno]
      rfl
    | assign key value => exact absurd trivial hno
    | clear => exact absurd trivial hno
    | reserve newSize => exact absurd trivial hno
  · rcases ofArray_spec laws depth data hlen with ⟨t'', hok, -⟩ | ⟨t'', herr⟩
    · rw [hok] at hhang
      exact nomatch hhang
    · rw [herr] at hhang
      exact nomatch (Outcome.error.inj hhang).1

/-- Numbers hashed to themselves past the sentinels. -/
def plainKeys : FlatKeys UInt64 where
  hashFunction x := if x ≤ hashKilled then 2 else x
  equal a b := a == b

theorem laws_plainKeys : Laws plainKeys where
  equiv := keyEquiv_beq
  respects := fun hab => by rw [show _ = _ from eq_of_beq hab]
  one_lt := fun k => by
    rw [plainKeys]
    dsimp only
    split_ifs with hk
    · decide
    · exact UInt64.not_le.mp hk

theorem flatHashTable_runs_plain : ∃ t : FlatHashTable UInt64 ℕ,
    keyExists plainKeys t 5 = some true ∧ t.dataLength = 1 := by
  have h : Run (V := ℕ) plainKeys laws_plainKeys.equiv (0 + 2) _ _ :=
    (Run.sized 3 (by decide)).done (.assign 5 7) trivial trivial rfl
  obtain ⟨hfind, -, -, hsize, -⟩ := flatHashTable_runs laws_plainKeys h
  exact ⟨_, (hfind 5 (.inr rfl)).2.1, hsize⟩

theorem lookup_hangs : ∃ (t : FlatHashTable UInt64 ℕ) (a : KeyMap UInt64 ℕ plainKeys.equal),
    Run plainKeys laws_plainKeys.equiv 2 t a ∧ t.dataLength = 1 ∧ keyExists plainKeys t 6 = none ∧
      ∀ fuel, scan (see plainKeys t 6 6) (nextIndex t.mask) fuel (homeIndex t.mask 6) = none := by
  have h : Run (V := ℕ) plainKeys laws_plainKeys.equiv 2 _ _ :=
    (Run.sized 0 (by decide)).done (.assign 5 7) trivial trivial rfl
  exact ⟨_, _, h, rfl, by decide, fun fuel => (h.good laws_plainKeys).scan_eq_none laws_plainKeys
    (((h.good laws_plainKeys).keyIndex_eq_none laws_plainKeys 6).mp (by decide)) fuel⟩

end FlatHashTable

end DaScript

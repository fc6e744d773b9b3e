import DaScript.Machinery.OpenMap
import DaScript.Misc.HashMap

/-!
# Misc/HashMapSteps — what an operation of the compiler's hash map does

`Good` is what every operation keeps: the cells are the finite map (`OpenMap`, every key chained to
its home by its raw hash), the counters count, a slot keeps the hash of its key and a slot that is
not live keeps the default value.

A rehash walks every entry from the hash its slot keeps, a lookup from the raw one.  The two part
exactly at the raw hashes `to_hash_key` remaps, so a rehash keeps the map where no live key has such
a hash (`Unmapped`).
-/

open Function

namespace DaScript

open Probing

namespace HashMap

variable {K V : Type*}

/-! ## A map as cells -/

/-- The contents of a slot. -/
def cell (m : HashMap K V) (i : ℕ) : Cell K V := openCell (m.hashes i) (m.keys i) (m.values i)

/-- What the map asks of its keys: an equality, and a hash that respects it. -/
structure Laws (T : Hasher K) : Prop where
  equiv : KeyEquiv T.keyEqual
  respects : ∀ {a b}, T.keyEqual a b = true → T.hash a = T.hash b

theorem cell_live {m : HashMap K V} {i : ℕ} {k : K} {v : V} (h : m.cell i = .live k v) :
    m.keys i = k ∧ m.values i = v := by
  rw [cell, openCell] at h
  split_ifs at h
  exact Cell.live.inj h

theorem cell_of_isLive {m : HashMap K V} {i : ℕ} (h : (m.cell i).isLive = true) :
    m.cell i = .live (m.keys i) (m.values i) := by
  obtain ⟨k, v, hk⟩ := Cell.isLive_iff.mp h
  obtain ⟨rfl, rfl⟩ := cell_live hk
  exact hk

theorem cell_write (m : HashMap K V) {h : UInt64} (hh : hashKilled < h) (i : ℕ) (k : K) (v : V) :
    cell { m with hashes := update m.hashes i h, keys := update m.keys i k
                  values := update m.values i v } = update m.cell i (.live k v) := by
  funext j
  rcases eq_or_ne j i with rfl | hji
  · rw [update_self]
    change openCell (update m.hashes j h j) (update m.keys j k j) (update m.values j v j) = _
    rw [update_self, update_self, update_self, openCell_of_lt hh]
  · simp only [cell, update_of_ne hji]

theorem toHashKey_lt (h : UInt64) : hashKilled < toHashKey h := by
  rw [toHashKey]
  split_ifs with hh
  · decide
  · rw [UInt64.lt_iff_toNat_lt]
    rw [UInt64.le_iff_toNat_le] at hh
    omega

theorem homeBucket_toHashKey {e : ℕ} (he : 3 ≤ e) (h : UInt64) :
    homeBucket (2 ^ e) (toHashKey h) = homeBucket (2 ^ e) h ↔ 1 < h := by
  rw [homeBucket, homeBucket, Nat.and_two_pow_sub_one_eq_mod, Nat.and_two_pow_sub_one_eq_mod,
    toHashKey, hashKilled, UInt64.lt_iff_toNat_lt]
  have h1 : (1 : UInt64).toNat = 1 := rfl
  by_cases hle : h ≤ 1
  · -- the remapped hash ends in the bits of 3, the hash in those of 0 or 1
    rw [if_pos hle]
    rw [UInt64.le_iff_toNat_le] at hle
    have hc : hashRemap.toNat = 1099511628211 := rfl
    rw [hc]
    refine ⟨fun heq => ?_, fun hlt => by omega⟩
    have hdvd : 2 ^ 3 ∣ 2 ^ e := Nat.pow_dvd_pow 2 he
    have h3 : 1099511628211 % 2 ^ e % 2 ^ 3 = 3 := by
      rw [Nat.mod_mod_of_dvd _ hdvd]
      rfl
    have hsmall : h.toNat % 2 ^ e % 2 ^ 3 ≤ 1 := by
      rw [Nat.mod_mod_of_dvd _ hdvd]
      omega
    omega
  · rw [if_neg hle]
    rw [UInt64.le_iff_toNat_le] at hle
    exact ⟨fun _ => by omega, fun _ => rfl⟩

theorem homeBucket_lt {n e : ℕ} (hn : n = 2 ^ e) (hash : UInt64) : homeBucket n hash < n := by
  rw [homeBucket, hn, Nat.and_two_pow_sub_one_eq_mod]
  exact Nat.mod_lt _ (by positivity)

theorem isRing_nextProbeSlot {n e : ℕ} (hn : n = 2 ^ e) : IsRing (nextProbeSlot n) n := by
  rw [hn]
  exact isRing_mask e

theorem seeFind_eq (T : Hasher K) (m : HashMap K V) (key : K) (hash : UInt64) :
    seeFind T m key hash = HashMap.seeReserve T m key hash := by
  funext i
  simp only [seeFind, HashMap.seeReserve]
  by_cases h1 : m.hashes i = hashKilled
  · have hne : hashKilled ≠ toHashKey hash := (one_lt_iff.mp (toHashKey_lt hash)).2.symm
    rw [h1, if_neg (show ¬ (hashKilled = toHashKey hash ∧ _) from fun h => hne h.1), if_pos rfl,
      if_pos rfl]
  · rw [if_neg h1, if_neg h1]

/-- **What a run keeps**: the map is the finite map `a`. -/
structure Good [Inhabited V] (T : Hasher K) (m : HashMap K V) (a : KeyMap K V T.keyEqual) :
    Prop where
  pow : m.bucketCount = 0 ∨ ∃ e, 3 ≤ e ∧ m.bucketCount = 2 ^ e
  map : OpenMap T.keyEqual (fun k => homeBucket m.bucketCount (T.hash k)) m.bucketCount m.cell a
  size : m.size = a.card
  tombstones : m.tombstones = tally Cell.isKilled m.cell m.bucketCount
  load : m.bucketCount ≠ 0 → 2 * m.size ≤ m.bucketCount ∧
    m.size + m.tombstones < m.bucketCount
  /-- a live slot keeps the hash of its key -/
  tagged : ∀ i, (m.cell i).isLive = true → m.hashes i = toHashKey (T.hash (m.keys i))
  /-- any other slot keeps the default value -/
  blank : ∀ i, (m.cell i).isLive = false → m.values i = default

section Good

variable [Inhabited V] {T : Hasher K} {m : HashMap K V} {a : KeyMap K V T.keyEqual}

theorem Good.eight_le (h : Good T m a) (hc : m.bucketCount ≠ 0) : 8 ≤ m.bucketCount := by
  rcases h.pow with h0 | ⟨e, he, hpow⟩
  · exact absurd h0 hc
  · have : 2 ^ 3 ≤ 2 ^ e := Nat.pow_le_pow_right (by omega) he
    omega

theorem Good.live (h : Good T m a) : tally Cell.isLive m.cell m.bucketCount = m.size :=
  h.map.card.trans h.size.symm

theorem Good.exists_empty (h : Good T m a) (hc : m.bucketCount ≠ 0) :
    ∃ i < m.bucketCount, m.cell i = .empty := by
  apply Probing.exists_empty
  rw [h.live, ← h.tombstones]
  exact (h.load hc).2

theorem Good.seeReserve (laws : Laws T) (h : Good T m a) (key : K) :
    seeReserve T m key (T.hash key) = fun i => (m.cell i).look T.keyEqual key := by
  funext i
  rw [HashMap.seeReserve]
  cases hcell : m.cell i with
  | empty => rw [if_pos (openCell_eq_empty.mp hcell), Cell.look]
  | killed =>
    have hk := openCell_eq_killed.mp hcell
    rw [if_neg (by rw [hk]; decide), if_pos hk, Cell.look]
  | live k v =>
    have hlive : (m.cell i).isLive = true := by rw [hcell]; rfl
    obtain ⟨rfl, -⟩ := cell_live hcell
    have htag := h.tagged i hlive
    obtain ⟨h0, h1⟩ := one_lt_iff.mp (openCell_isLive.mp hlive)
    rw [if_neg h0, if_neg h1, Cell.look]
    by_cases hs : T.keyEqual (m.keys i) key = true
    · rw [if_pos ⟨by rw [htag, laws.respects hs], hs⟩, if_pos hs]
    · rw [if_neg fun hc => hs hc.2, if_neg hs]

theorem Good.findIndex (laws : Laws T) (h : Good T m a) (key : K) :
    ∃ r, findIndex T m key (T.hash key) = some r ∧
      ((r = none ∧ Absent T.keyEqual m.bucketCount m.cell key) ∨
        ∃ i, r = some i ∧ i < m.bucketCount ∧ (m.cell i).isLive = true ∧
          T.keyEqual (m.keys i) key = true) := by
  rw [HashMap.findIndex]
  by_cases hc : m.bucketCount = 0
  · rw [if_pos hc]
    exact ⟨none, rfl, Or.inl ⟨rfl, fun i hi => by omega⟩⟩
  rcases h.pow with h0 | ⟨e, -, hpow⟩
  · exact absurd h0 hc
  rw [if_neg hc, seeFind_eq, h.seeReserve laws key]
  obtain ⟨r, hr, hcase⟩ := h.map.scan (k := key) (isRing_nextProbeSlot hpow)
    (homeBucket_lt hpow (T.hash key)) (fun hab => by simp only [laws.respects hab])
    (h.exists_empty hc)
  refine ⟨r, hr, ?_⟩
  rcases hcase with hnone | ⟨i, k', v, rfl, hi, hk, hs⟩
  · exact Or.inl hnone
  · obtain ⟨rfl, -⟩ := cell_live hk
    exact Or.inr ⟨i, rfl, hi, by rw [hk]; rfl, hs⟩

end Good

/-! ## Rehashing -/

section Rehash

variable [Inhabited K] [Inhabited V] {T : Hasher K} {m : HashMap K V} {a : KeyMap K V T.keyEqual}

theorem good_new (T : Hasher K) : Good T (new : HashMap K V) .empty where
  pow := Or.inl rfl
  map := OpenMap.empty _ _ 0
  size := rfl
  tombstones := rfl
  load := fun h => absurd rfl h
  tagged := fun i h => by
    rw [cell, new, openCell_empty] at h
    simp [Cell.isLive] at h
  blank := fun _ _ => rfl

theorem rehashEntries_of_relocate {N i : ℕ} {s : ℕ → Cell K V}
    (h : relocate (nextProbeSlot N) N (fun b => homeBucket N (m.hashes b)) m.cell i = some s) :
    ∃ hs ks vs, rehashEntries m (freshMap m N) i
        = some { freshMap m N with hashes := hs, keys := ks, values := vs } ∧
      cell { freshMap m N with hashes := hs, keys := ks, values := vs } = s ∧
      (∀ j, hashKilled < hs j → ∃ b < i, (m.cell b).isLive = true ∧ ks j = m.keys b ∧
        hs j = m.hashes b) ∧
      ∀ j, ¬ hashKilled < hs j → vs j = default := by
  induction i generalizing s with
  | zero =>
    obtain rfl := Option.some.inj h
    refine ⟨fun _ => hashEmpty, fun _ => default, fun _ => default, rfl, ?_, fun j hj => ?_,
      fun _ _ => rfl⟩
    · funext j
      exact openCell_empty _ _
    · change hashKilled < hashEmpty at hj
      exact absurd hj (by decide)
  | succ i ih =>
    rw [relocate] at h
    obtain ⟨s₀, hs₀, h⟩ := Option.bind_eq_some_iff.mp h
    obtain ⟨hs, ks, vs, hcopy, hcell, htag, hblank⟩ := ih hs₀
    by_cases hdead : m.hashes i ≤ hashKilled
    · -- an empty or killed slot is not copied
      have hnl : ¬ hashKilled < m.hashes i := by
        rw [UInt64.lt_iff_toNat_lt]
        rw [UInt64.le_iff_toNat_le] at hdead
        omega
      have hskip : s = s₀ := by
        cases hc : m.cell i with
        | empty => rw [hc] at h; exact (Option.some.inj h).symm
        | killed => rw [hc] at h; exact (Option.some.inj h).symm
        | live k v => exact absurd (openCell_isLive.mp (by rw [← cell, hc]; rfl)) hnl
      refine ⟨hs, ks, vs, ?_, hcell.trans hskip.symm, fun j hj => ?_, hblank⟩
      · rw [rehashEntries, hcopy, Option.bind_some, if_pos hdead]
      · obtain ⟨b, hb, hrest⟩ := htag j hj
        exact ⟨b, by omega, hrest⟩
    · have hlt : hashKilled < m.hashes i := by
        rw [UInt64.lt_iff_toNat_lt]
        rw [UInt64.le_iff_toNat_le] at hdead
        omega
      have hlive : (m.cell i).isLive = true := openCell_isLive.mpr hlt
      rw [cell_of_isLive hlive] at h
      obtain ⟨j₀, hj₀, h⟩ := Option.map_eq_some_iff.mp h
      -- the walk of the copy loop is the walk for a vacancy
      have hfree : (fun j => hs j == hashEmpty) = fun j => (s₀ j).isEmpty := by
        funext j
        rw [← hcell, cell, Bool.eq_iff_iff, beq_iff_eq, Cell.isEmpty_iff, openCell_eq_empty]
      have hnew : vacant (fun j => hs j == hashEmpty) (nextProbeSlot N) N
          (homeBucket N (m.hashes i)) = some j₀ := by
        rw [hfree]
        exact hj₀
      refine ⟨update hs j₀ (m.hashes i), update ks j₀ (m.keys i), update vs j₀ (m.values i), ?_,
        ?_, fun j hj => ?_, fun j hj => ?_⟩
      · rw [rehashEntries, hcopy, Option.bind_some, if_neg hdead]
        change Option.map _ (vacant (fun j => hs j == hashEmpty) (nextProbeSlot N) N
          (homeBucket N (m.hashes i))) = _
        rw [hnew]
        rfl
      · rw [← h, ← hcell]
        exact cell_write { freshMap m N with hashes := hs, keys := ks, values := vs } hlt j₀ _ _
      · rcases eq_or_ne j j₀ with rfl | hne
        · exact ⟨i, by omega, hlive, update_self .., update_self ..⟩
        · rw [update_of_ne hne] at hj
          obtain ⟨b, hb, hlb, hkb, hhb⟩ := htag j hj
          exact ⟨b, by omega, hlb, by rw [update_of_ne hne]; exact hkb,
            by rw [update_of_ne hne]; exact hhb⟩
      · rcases eq_or_ne j j₀ with rfl | hne
        · rw [update_self] at hj
          exact absurd hlt hj
        · rw [update_of_ne hne] at hj ⊢
          exact hblank j hj

/-- No live key hashes to a sentinel. -/
def Unmapped (T : Hasher K) (m : HashMap K V) : Prop :=
  ∀ i < m.bucketCount, hashKilled < m.hashes i → 1 < T.hash (m.keys i)

theorem rehashInto_spec (laws : Laws T) (h : Good T m a) {N e : ℕ} (he : 3 ≤ e) (hN : N = 2 ^ e)
    (hroom : 2 * m.size ≤ N) (hsafe : N ≤ maxSize → Unmapped T m) :
    (N > maxSize ∧ ∃ msg, rehashInto m N = .error (.throw msg) m) ∨
    ∃ m', rehashInto m N = .ok () m' ∧ Good T m' a ∧ m'.bucketCount = N ∧ m'.size = m.size ∧
      m'.tombstones = 0 := by
  rw [rehashInto]
  by_cases hmax : N > maxSize
  · exact Or.inl ⟨hmax, _, if_pos hmax⟩
  rw [if_neg hmax]
  refine Or.inr ?_
  have hpos : 0 < N := by rw [hN]; positivity
  have hlive := h.live
  have hstart : ∀ j < m.bucketCount, (m.cell j).isLive = true →
      (fun b => homeBucket N (m.hashes b)) j < N := fun _ _ _ => homeBucket_lt hN _
  obtain ⟨s, hs, H⟩ := relocate_spec (isRing_nextProbeSlot hN) hstart (by omega)
  obtain ⟨hss, ks, vs, hcopy, hcell, htag, hblank⟩ := rehashEntries_of_relocate hs
  refine ⟨{ freshMap m N with hashes := hss, keys := ks, values := vs }, by rw [hcopy],
    ⟨Or.inr ⟨e, he, hN⟩, ?_, h.size, ?_, fun _ => ?_, fun j hj => ?_, fun j hj => ?_⟩, rfl, rfl,
    rfl⟩
  · rw [hcell]
    refine h.map.relocated laws.equiv H fun j hj k v hk => ?_
    -- the hash a live slot keeps leads to the home of its key
    have hl : (m.cell j).isLive = true := by rw [hk]; rfl
    obtain ⟨rfl, -⟩ := cell_live hk
    have hsafe' := hsafe (by omega) j hj (openCell_isLive.mp hl)
    change homeBucket N (T.hash (m.keys j)) = homeBucket N (m.hashes j)
    rw [h.tagged j hl, hN]
    exact ((homeBucket_toHashKey he _).mpr hsafe').symm
  · rw [hcell]
    exact H.killed.symm
  · change 2 * m.size ≤ N ∧ m.size + 0 < N
    omega
  · obtain ⟨b, -, hlb, hkb, hhb⟩ := htag j (openCell_isLive.mp hj)
    change hss j = toHashKey (T.hash (ks j))
    rw [hkb, hhb, h.tagged b hlb]
  · refine hblank j fun hlt => ?_
    rw [cell, openCell_of_lt hlt] at hj
    simp [Cell.isLive] at hj

/-- The capacity `reserve_slot` rehashes into, if it does. -/
def loadCapacity (m : HashMap K V) : Option ℕ :=
  if m.size ≥ m.bucketCount / 2 then
    some (if m.bucketCount = 0 then leastCapacity else m.bucketCount * 2)
  else if (m.bucketCount - m.size) / 2 < m.tombstones then some m.bucketCount
  else none

theorem makeRoom_spec (laws : Laws T) (h : Good T m a)
    (hsafe : ∀ N, loadCapacity m = some N → N ≤ maxSize → Unmapped T m) :
    (∃ msg, makeRoom m = .error (.throw msg) m) ∨
    ∃ m', makeRoom m = .ok () m' ∧ Good T m' a ∧ m'.size < m'.bucketCount / 2 ∧
      m'.tombstones ≤ (m'.bucketCount - m'.size) / 2 := by
  rw [makeRoom]
  rw [loadCapacity] at hsafe
  by_cases hfull : m.size ≥ m.bucketCount / 2
  · rw [if_pos hfull] at hsafe
    rw [if_pos hfull, grow]
    have hpow : ∃ e, 3 ≤ e ∧
        (if m.bucketCount = 0 then leastCapacity else m.bucketCount * 2) = 2 ^ e := by
      rcases h.pow with h0 | ⟨e, he, hpow⟩
      · exact ⟨3, le_rfl, by rw [if_pos h0]; rfl⟩
      · have : 0 < 2 ^ e := by positivity
        exact ⟨e + 1, by omega, by rw [if_neg (by omega), hpow, pow_succ]⟩
    obtain ⟨e, he, hN⟩ := hpow
    have hroom : m.size < (if m.bucketCount = 0 then leastCapacity else m.bucketCount * 2) / 2 := by
      by_cases hc : m.bucketCount = 0
      · have hz : m.size = 0 := by rw [← h.live, hc]; rfl
        rw [if_pos hc, hz]
        decide
      · have := (h.load hc).1
        rw [if_neg hc]
        omega
    rcases rehashInto_spec laws h he hN (by omega) (hsafe _ rfl) with
      ⟨-, herr⟩ | ⟨m', hok, hgood, hcap, hsize, htomb⟩
    · exact Or.inl herr
    · exact Or.inr ⟨m', hok, hgood, by rw [hsize, hcap]; exact hroom, by rw [htomb]; omega⟩
  · rw [if_neg hfull] at hsafe ⊢
    have hc : m.bucketCount ≠ 0 := by omega
    by_cases htomb : (m.bucketCount - m.size) / 2 < m.tombstones
    · rw [if_pos htomb] at hsafe ⊢
      rcases h.pow with h0 | ⟨e, he, hpow⟩
      · exact absurd h0 hc
      rcases rehashInto_spec laws h he hpow (h.load hc).1 (hsafe _ rfl) with
        ⟨-, herr⟩ | ⟨m', hok, hgood, hcap, hsize, htomb'⟩
      · exact Or.inl herr
      · exact Or.inr ⟨m', hok, hgood, by rw [hsize, hcap]; omega, by rw [htomb']; omega⟩
    · rw [if_neg htomb]
      exact Or.inr ⟨m, rfl, h, by omega, by omega⟩

end Rehash

/-! ## Inserting, writing, erasing -/

theorem cell_occupy (m : HashMap K V) {h : UInt64} (hh : hashKilled < h) (i : ℕ) (key : K) :
    (occupy m i key h).cell = update m.cell i (.live key (m.values i)) := by
  rw [← cell_write m hh i key (m.values i), update_eq_self]
  rfl

theorem cell_setValue (m : HashMap K V) {i : ℕ} {k : K} {w : V} (hl : m.cell i = .live k w)
    (v : V) : (setValue m i v).cell = update m.cell i (.live k v) := by
  have hlt : hashKilled < m.hashes i := openCell_isLive.mp (by rw [← cell, hl]; rfl)
  obtain ⟨rfl, -⟩ := cell_live hl
  rw [← cell_write m hlt i (m.keys i) v, update_eq_self, update_eq_self]
  rfl

section Steps

variable [Inhabited V] {T : Hasher K} {m : HashMap K V} {a : KeyMap K V T.keyEqual}

theorem Good.occupy (laws : Laws T) (h : Good T m a) (hc : m.bucketCount ≠ 0)
    (hsize : m.size < m.bucketCount / 2) (htomb : m.tombstones ≤ (m.bucketCount - m.size) / 2)
    {key : K} {i : ℕ} (hi : i < m.bucketCount) {n : ℕ}
    (hcase : (m.cell i = .empty ∧ n = m.tombstones) ∨
      (m.cell i = .killed ∧ n = dec64 m.tombstones))
    (habs : Absent T.keyEqual m.bucketCount m.cell key)
    (hown : ∃ d < m.bucketCount, slot m.bucketCount (homeBucket m.bucketCount (T.hash key)) d = i ∧
      ∀ e < d, m.cell (slot m.bucketCount (homeBucket m.bucketCount (T.hash key)) e) ≠ .empty) :
    Good T { HashMap.occupy m i key (toHashKey (T.hash key)) with tombstones := n }
        (a.insert laws.equiv key default) ∧
      cell { HashMap.occupy m i key (toHashKey (T.hash key)) with tombstones := n } i
        = .live key default := by
  have hfree : (m.cell i).isLive = false := by
    rcases hcase with ⟨he, -⟩ | ⟨hk, -⟩
    · rw [he]; rfl
    · rw [hk]; rfl
  have hcell : cell { HashMap.occupy m i key (toHashKey (T.hash key)) with tombstones := n }
      = update m.cell i (.live key default) := by
    rw [← h.blank i hfree]
    exact cell_occupy m (toHashKey_lt _) i key
  have hkill := tally_update Cell.isKilled m.cell hi (.live key default)
  rw [← h.tombstones] at hkill
  have hn : n ≤ m.tombstones ∧
      n = tally Cell.isKilled (update m.cell i (.live key default)) m.bucketCount := by
    rcases hcase with ⟨he, rfl⟩ | ⟨hk, rfl⟩
    · simp only [he, Cell.isKilled, Bool.toNat_false] at hkill
      omega
    · have hpos : 0 < m.tombstones := by
        rw [h.tombstones]
        exact tally_pos hi (by rw [hk]; rfl)
      simp only [hk, Cell.isKilled, Bool.toNat_false, Bool.toNat_true] at hkill
      rw [dec64_of_pos hpos]
      omega
  have hmap := h.map.putNew (v := default) laws.equiv hi hfree habs hown
  have hcard := KeyMap.card_insert laws.equiv a key default
  rw [h.map.holds.lookup_of_absent habs] at hcard
  simp only [Option.isSome_none, Bool.toNat_false] at hcard
  refine ⟨⟨h.pow, ?_, ?_, ?_, fun _ => ?_, fun j hj => ?_, fun j hj => ?_⟩, ?_⟩
  · rw [hcell]
    exact hmap
  · change m.size + 1 = _
    rw [h.size]
    omega
  · rw [hcell]
    exact hn.2
  · have h8 := h.eight_le hc
    change 2 * (m.size + 1) ≤ m.bucketCount ∧ m.size + 1 + n < m.bucketCount
    omega
  · change update m.hashes i (toHashKey (T.hash key)) j
      = toHashKey (T.hash (update m.keys i key j))
    rcases eq_or_ne j i with rfl | hji
    · rw [update_self, update_self]
    · rw [hcell, update_of_ne hji] at hj
      rw [update_of_ne hji, update_of_ne hji]
      exact h.tagged j hj
  · rcases eq_or_ne j i with rfl | hji
    · exact h.blank j hfree
    · rw [hcell, update_of_ne hji] at hj
      exact h.blank j hj
  · rw [hcell, update_self]

theorem Good.setValue (laws : Laws T) (h : Good T m a) {key k : K} {w : V} {i : ℕ}
    (hi : i < m.bucketCount) (hl : m.cell i = .live k w) (hs : T.keyEqual k key = true) (v : V) :
    Good T (setValue m i v) (a.insert laws.equiv key v) := by
  have hcell := cell_setValue m hl v
  have hlive : (m.cell i).isLive = true := by rw [hl]; rfl
  have hcard := KeyMap.card_insert laws.equiv a key v
  rw [h.map.holds.lookup_of_same hi hl hs] at hcard
  simp only [Option.isSome_some, Bool.toNat_true] at hcard
  have hkill := tally_update Cell.isKilled m.cell hi (.live k v)
  rw [hl] at hkill
  simp only [Cell.isKilled, Bool.toNat_false] at hkill
  refine ⟨h.pow, ?_, ?_, ?_, h.load, fun j hj => ?_, fun j hj => ?_⟩
  · rw [hcell]
    exact h.map.putOver laws.equiv hi hl hs
  · change m.size = _
    rw [h.size]
    omega
  · rw [hcell]
    change m.tombstones = tally _ _ m.bucketCount
    rw [h.tombstones]
    omega
  · rcases eq_or_ne j i with rfl | hji
    · exact h.tagged j hlive
    · rw [hcell, update_of_ne hji] at hj
      exact h.tagged j hj
  · change update m.values i v j = default
    rcases eq_or_ne j i with rfl | hji
    · rw [hcell, update_self] at hj
      simp [Cell.isLive] at hj
    · rw [hcell, update_of_ne hji] at hj
      rw [update_of_ne hji]
      exact h.blank j hj

theorem Good.killSlot [Inhabited K] (laws : Laws T) (h : Good T m a) {key k : K} {w : V} {i : ℕ}
    (hi : i < m.bucketCount) (hl : m.cell i = .live k w) (hs : T.keyEqual k key = true) :
    Good T (killSlot m i) (a.erase key) := by
  have hcell : (HashMap.killSlot m i).cell = update m.cell i .killed := by
    funext j
    change openCell (update m.hashes i hashKilled j) (update m.keys i default j)
      (update m.values i default j) = _
    rcases eq_or_ne j i with rfl | hji
    · rw [update_self, update_self, update_self, update_self, openCell_killed]
    · rw [update_of_ne hji, update_of_ne hji, update_of_ne hji, update_of_ne hji]
      rfl
  have hpos : 0 < m.size := by
    rw [← h.live]
    exact tally_pos hi (by rw [hl]; rfl)
  have hcard := KeyMap.card_erase laws.equiv a key
  rw [h.map.holds.lookup_of_same hi hl hs] at hcard
  simp only [Option.isSome_some, Bool.toNat_true] at hcard
  have hkill := tally_update Cell.isKilled m.cell hi .killed
  rw [hl, ← h.tombstones] at hkill
  simp only [Cell.isKilled, Bool.toNat_false, Bool.toNat_true] at hkill
  refine ⟨h.pow, ?_, ?_, ?_, fun hc => ?_, fun j hj => ?_, fun j hj => ?_⟩
  · rw [hcell]
    exact h.map.kill laws.equiv hi hl hs
  · change m.size - 1 = _
    rw [h.size]
    omega
  · rw [hcell]
    change m.tombstones + 1 = tally _ _ m.bucketCount
    omega
  · have := h.load hc
    change 2 * (m.size - 1) ≤ m.bucketCount ∧ m.size - 1 + (m.tombstones + 1) < m.bucketCount
    omega
  · have hji : j ≠ i := by
      rintro rfl
      rw [hcell, update_self] at hj
      simp [Cell.isLive] at hj
    rw [hcell, update_of_ne hji] at hj
    change update m.hashes i hashKilled j = toHashKey (T.hash (update m.keys i default j))
    rw [update_of_ne hji, update_of_ne hji]
    exact h.tagged j hj
  · change update m.values i default j = default
    rcases eq_or_ne j i with rfl | hji
    · rw [update_self]
    · rw [hcell, update_of_ne hji] at hj
      rw [update_of_ne hji]
      exact h.blank j hj

/-- The map after a key has been made sure of: itself if the key is there, else the key under the
default value. -/
def ensured (heq : KeyEquiv T.keyEqual) (a : KeyMap K V T.keyEqual) (key : K) :
    KeyMap K V T.keyEqual :=
  if (a.lookup key).isSome then a else a.insert heq key default

theorem reserveSlot_spec [Inhabited K] (laws : Laws T) (h : Good T m a)
    (hsafe : ∀ N, loadCapacity m = some N → N ≤ maxSize → Unmapped T m) (key : K) :
    (∃ msg, reserveSlot T m key (T.hash key) = .error (.throw msg) m) ∨
    ∃ i b m' k w, reserveSlot T m key (T.hash key) = .ok (i, b) m' ∧
      Good T m' (ensured laws.equiv a key) ∧ i < m'.bucketCount ∧ m'.cell i = .live k w ∧
      T.keyEqual k key = true ∧ (b = true ↔ a.lookup key = none) := by
  rw [reserveSlot]
  rcases makeRoom_spec laws h hsafe with ⟨msg, herr⟩ | ⟨base, hok, hgood, hsize, htomb⟩
  · exact Or.inl ⟨msg, by rw [herr]⟩
  refine Or.inr ?_
  rw [hok]
  have hc : base.bucketCount ≠ 0 := by omega
  rcases hgood.pow with h0 | ⟨e, -, hpow⟩
  · exact absurd h0 hc
  change ∃ i b m' k w, insertSlot T base key (T.hash key) = .ok (i, b) m' ∧ _
  rw [insertSlot, hgood.seeReserve laws key]
  obtain ⟨p, hp, hcase⟩ := hgood.map.place (k := key) (isRing_nextProbeSlot hpow)
    (homeBucket_lt hpow (T.hash key)) (fun hab => by simp only [laws.respects hab])
    (hgood.exists_empty hc)
  rw [hp]
  rcases hcase with ⟨i, k, w, rfl, hi, hk, hs⟩ | ⟨i, hi, hplace, habs, hown⟩
  · have hsome := hgood.map.holds.lookup_of_same hi hk hs
    refine ⟨i, false, base, k, w, rfl, ?_, hi, hk, hs, by simp [hsome]⟩
    rw [ensured, hsome, Option.isSome_some, if_pos rfl]
    exact hgood
  · have hnone := hgood.map.holds.lookup_of_absent habs
    have hens : ensured laws.equiv a key = a.insert laws.equiv key default := by
      rw [ensured, hnone, Option.isSome_none, if_neg (by simp)]
    rw [hens]
    rcases hplace with ⟨rfl, he⟩ | ⟨rfl, hk⟩
    · obtain ⟨hg, hl⟩ := hgood.occupy laws hc hsize htomb hi (Or.inl ⟨he, rfl⟩) habs hown
      exact ⟨i, true, _, key, default, rfl, hg, hi, hl, laws.equiv.refl key, by simp [hnone]⟩
    · obtain ⟨hg, hl⟩ := hgood.occupy laws hc hsize htomb hi (Or.inr ⟨hk, rfl⟩) habs hown
      exact ⟨i, true, _, key, default, rfl, hg, hi, hl, laws.equiv.refl key, by simp [hnone]⟩

end Steps

end HashMap

end DaScript

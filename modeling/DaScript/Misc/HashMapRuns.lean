import DaScript.Misc.HashMapSteps

/-!
# Misc/HashMapRuns — the compiler's hash map is a finite map

A run takes any of the operations, an iterator erased being at a live element.  The finite map it
leaves is the one its operations mean, **as long as no rehash meets a live key whose hash is a
sentinel** (`hashMap_run_refines`); past one the map loses the key (`hashMap_key_lost`).
-/

open Function

namespace DaScript

open Probing

namespace HashMap

variable {K V : Type*}

/-! ## Iteration -/

section Iteration

variable {m : HashMap K V}

/-- Whether a slot is live, as an iterator tests it. -/
def liveAt (m : HashMap K V) (i : ℕ) : Bool := hashKilled < m.hashes i

theorem not_liveAt {i : ℕ} : m.hashes i ≤ hashKilled ↔ m.liveAt i = false := by
  rw [liveAt, decide_eq_false_iff_not, UInt64.lt_iff_toNat_lt, UInt64.le_iff_toNat_le]
  omega

theorem liveFrom_spec (m : HashMap K V) {fuel i : ℕ} (hi : i ≤ m.bucketCount)
    (hf : m.bucketCount ≤ i + fuel) :
    i ≤ m.liveFrom fuel i ∧ m.liveFrom fuel i ≤ m.bucketCount ∧
      (∀ j, i ≤ j → j < m.liveFrom fuel i → m.liveAt j = false) ∧
      (m.liveFrom fuel i < m.bucketCount → m.liveAt (m.liveFrom fuel i) = true) := by
  induction fuel generalizing i with
  | zero =>
    rw [liveFrom]
    exact ⟨le_rfl, hi, fun j h1 h2 => by omega, fun h => by omega⟩
  | succ fuel ih =>
    rw [liveFrom]
    by_cases hdead : i < m.bucketCount ∧ m.hashes i ≤ hashKilled
    · rw [if_pos hdead]
      obtain ⟨h1, h2, h3, h4⟩ := ih (show i + 1 ≤ m.bucketCount by omega) (by omega)
      refine ⟨by omega, h2, fun j hj hlt => ?_, h4⟩
      rcases eq_or_ne j i with rfl | hji
      · exact not_liveAt.mp hdead.2
      · exact h3 j (by omega) hlt
    · rw [if_neg hdead]
      refine ⟨le_rfl, hi, fun j h1 h2 => by omega, fun hlt => ?_⟩
      by_contra hno
      exact hdead ⟨hlt, not_liveAt.mpr (by simpa using hno)⟩

theorem filter_liveAt_skip {i r d : ℕ} (hir : i ≤ r) (hrd : r ≤ i + d)
    (hdead : ∀ j, i ≤ j → j < r → m.liveAt j = false) :
    (List.range' i d).filter m.liveAt = (List.range' r (i + d - r)).filter m.liveAt := by
  induction d generalizing i with
  | zero =>
    obtain rfl : r = i := by omega
    simp
  | succ d ih =>
    rcases Nat.eq_or_lt_of_le hir with rfl | hlt
    · rw [Nat.add_sub_cancel_left]
    · rw [List.range'_succ, List.filter_cons_of_neg (by simp [hdead i le_rfl hlt]),
        ih (by omega) (by omega) fun j hj => hdead j (by omega)]
      congr 2
      omega

theorem visitFrom_eq {fuel i : ℕ} (hi : i ≤ m.bucketCount)
    (hlive : i < m.bucketCount → m.liveAt i = true) (hf : m.bucketCount < i + fuel) :
    m.visitFrom fuel i = (List.range' i (m.bucketCount - i)).filter m.liveAt := by
  induction fuel generalizing i with
  | zero => omega
  | succ fuel ih =>
    rw [visitFrom]
    by_cases hend : i = m.bucketCount
    · rw [if_pos hend, hend, Nat.sub_self]
      rfl
    · rw [if_neg hend, nextLive]
      obtain ⟨h1, h2, h3, h4⟩ := liveFrom_spec m (show i + 1 ≤ m.bucketCount by omega)
        (show m.bucketCount ≤ i + 1 + m.bucketCount by omega)
      have hlen : m.bucketCount - i = (m.bucketCount - (i + 1)) + 1 := by omega
      rw [ih h2 h4 (by omega), hlen, List.range'_succ,
        List.filter_cons_of_pos (hlive (by omega)), filter_liveAt_skip h1 (by omega) h3]
      congr 4
      omega

theorem visited_eq (m : HashMap K V) :
    m.visited = (List.range m.bucketCount).filter m.liveAt := by
  obtain ⟨h1, h2, h3, h4⟩ := liveFrom_spec m (Nat.zero_le m.bucketCount)
    (show m.bucketCount ≤ 0 + m.bucketCount by omega)
  rw [visited, firstLiveIndex, visitFrom_eq h2 h4 (by omega), List.range_eq_range',
    filter_liveAt_skip h1 (by omega) h3]
  congr 3
  omega

end Iteration

/-! ## Operations -/

/-- **An operation on the map.** -/
inductive Op (K V : Type*)
  | insert (key : K) (value : V)
  | tryEmplace (key : K) (value : V)
  /-- `map[key]` -/
  | index (key : K)
  /-- `map[key] = value` -/
  | assign (key : K) (value : V)
  | erase (key : K)
  /-- `erase(it)`, the iterator at slot `idx` -/
  | eraseAt (idx : ℕ)
  | reserve (n : ℕ)
  | clear
  deriving DecidableEq, Repr

variable [Inhabited K] [Inhabited V] {T : Hasher K} {m : HashMap K V} {a : KeyMap K V T.keyEqual}

/-- What the outcome of an operation leaves, its result apart. -/
def done {σ α : Type*} : Outcome σ α → Outcome σ Unit
  | .ok _ s => .ok () s
  | .error e s => .error e s

/-- **One operation.** -/
def Op.exec (T : Hasher K) : Op K V → HashMap K V → Outcome (HashMap K V) Unit
  | .insert key value, m => done (HashMap.insert T m key value)
  | .tryEmplace key value, m => done (HashMap.tryEmplace T m key value)
  | .index key, m => done (HashMap.index T m key)
  | .assign key value, m =>
    match HashMap.index T m key with
    | .ok i m => .ok () (setValue m i value)
    | .error e m => .error e m
  | .erase key, m => done (HashMap.erase T m key)
  | .eraseAt idx, m => done (HashMap.eraseAt m idx)
  | .reserve n, m => HashMap.reserve m n
  | .clear, m => .ok () (HashMap.clear m)

/-- An iterator erased is at a live element. -/
def Op.Valid (m : HashMap K V) : Op K V → Prop
  | .eraseAt idx => idx < m.bucketCount ∧ m.liveAt idx = true
  | _ => True

/-- The capacity an operation rehashes into, if it does. -/
def Op.rehashes (m : HashMap K V) : Op K V → Option ℕ
  | .insert _ _ => loadCapacity m
  | .tryEmplace _ _ => loadCapacity m
  | .index _ => loadCapacity m
  | .assign _ _ => loadCapacity m
  | .erase _ => none
  | .eraseAt _ => none
  | .reserve n => if n = 0 then none else (neededFor n 63 leastCapacity).filter (m.bucketCount < ·)
  | .clear => none

/-- **An operation rehashes no key whose hash is a sentinel.** -/
def Op.Safe (T : Hasher K) (m : HashMap K V) (op : Op K V) : Prop :=
  ∀ N, op.rehashes m = some N → N ≤ maxSize → Unmapped T m

/-- **What the operation means** for the finite map. -/
def Op.apply (heq : KeyEquiv T.keyEqual) (m : HashMap K V) :
    Op K V → KeyMap K V T.keyEqual → KeyMap K V T.keyEqual
  | .insert key value, a => if (a.lookup key).isSome then a else a.insert heq key value
  | .tryEmplace key value, a => if (a.lookup key).isSome then a else a.insert heq key value
  | .index key, a => if (a.lookup key).isSome then a else a.insert heq key default
  | .assign key value, a => a.insert heq key value
  | .erase key, a => a.erase key
  | .eraseAt idx, a => a.erase (m.keys idx)
  | .reserve _, a => a
  | .clear, _ => .empty

omit [Inhabited K] in
theorem ensured_insert (heq : KeyEquiv T.keyEqual) (a : KeyMap K V T.keyEqual) (key : K)
    (value : V) : (ensured heq a key).insert heq key value = a.insert heq key value := by
  rw [ensured]
  split_ifs
  · rfl
  · exact KeyMap.insert_insert heq a key default value

theorem reserveSlot_write (laws : Laws T) (h : Good T m a)
    (hsafe : ∀ N, loadCapacity m = some N → N ≤ maxSize → Unmapped T m) (key : K) (value : V) :
    (∃ msg, done (HashMap.insert T m key value) = .error (.throw msg) m) ∨
    ∃ m', done (HashMap.insert T m key value) = .ok () m' ∧
      Good T m' (if (a.lookup key).isSome then a else a.insert laws.equiv key value) := by
  rw [HashMap.insert]
  rcases reserveSlot_spec laws h hsafe key with
    ⟨msg, herr⟩ | ⟨i, b, m', k, w, hok, hgood, hi, hk, hs, hb⟩
  · exact Or.inl ⟨msg, by rw [herr]; rfl⟩
  refine Or.inr ?_
  rw [hok]
  cases hl : a.lookup key with
  | none =>
    obtain rfl := hb.mpr hl
    refine ⟨setValue m' i value, rfl, ?_⟩
    rw [Option.isSome_none, if_neg (by simp), ← ensured_insert laws.equiv a key value]
    exact hgood.setValue laws hi hk hs value
  | some v =>
    have hbf : b = false := by
      cases b with
      | false => rfl
      | true => rw [hb.mp rfl] at hl; simp at hl
    subst hbf
    refine ⟨m', rfl, ?_⟩
    rw [ensured, hl, Option.isSome_some, if_pos rfl] at hgood
    rw [Option.isSome_some, if_pos rfl]
    exact hgood

theorem neededFor_spec {n fuel needed r : ℕ}
    (hpow : (∃ e, 3 ≤ e ∧ e ≤ 63 ∧ needed = 2 ^ e) ∨ (needed = 0 ∧ 0 < n * 2 % 2 ^ 64))
    (h : neededFor n fuel needed = some r) : ∃ e, 3 ≤ e ∧ r = 2 ^ e := by
  induction fuel generalizing needed with
  | zero => simp [neededFor] at h
  | succ fuel ih =>
    rw [neededFor] at h
    by_cases hlt : needed < n * 2 % 2 ^ 64
    · rw [if_pos hlt] at h
      refine ih ?_ h
      rcases hpow with ⟨e, he, he', rfl⟩ | ⟨rfl, hpos⟩
      · rcases Nat.eq_or_lt_of_le he' with rfl | hlt63
        · exact Or.inr ⟨rfl, by omega⟩
        · refine Or.inl ⟨e + 1, by omega, by omega, ?_⟩
          rw [← pow_succ, Nat.mod_eq_of_lt (Nat.pow_lt_pow_right (by omega) (by omega))]
      · exact Or.inr ⟨rfl, hpos⟩
    · rw [if_neg hlt] at h
      obtain rfl := Option.some.inj h
      rcases hpow with ⟨e, he, -, hr⟩ | ⟨h0, hpos⟩
      · exact ⟨e, he, hr⟩
      · omega

theorem reserve_spec (laws : Laws T) (h : Good T m a) {n : ℕ}
    (hsafe : (Op.reserve n : Op K V).Safe T m) :
    (∃ e, HashMap.reserve m n = .error e m ∧ e ≠ .hang "probe") ∨
    ∃ m', HashMap.reserve m n = .ok () m' ∧ Good T m' a := by
  rw [HashMap.reserve]
  by_cases hn : n = 0
  · exact Or.inr ⟨m, if_pos hn, h⟩
  rw [if_neg hn]
  cases hneed : neededFor n 63 leastCapacity with
  | none => exact Or.inl ⟨_, rfl, by simp⟩
  | some N =>
    change (∃ e, (if N > m.bucketCount then _ else _) = _ ∧ _) ∨
      ∃ m', (if N > m.bucketCount then _ else _) = _ ∧ _
    by_cases hgt : N > m.bucketCount
    · rw [if_pos hgt]
      obtain ⟨e, he, hpow⟩ := neededFor_spec (Or.inl ⟨3, le_rfl, by omega, rfl⟩) hneed
      have hroom : 2 * m.size ≤ N := by
        by_cases hc : m.bucketCount = 0
        · have hz : m.size = 0 := by rw [← h.live, hc]; rfl
          omega
        · have := (h.load hc).1
          omega
      have hreh : (Op.reserve n : Op K V).rehashes m = some N := by
        rw [Op.rehashes, if_neg hn, hneed]
        simp [Option.filter, hgt]
      rcases rehashInto_spec laws h he hpow hroom (hsafe N hreh) with
        ⟨-, msg, herr⟩ | ⟨m', hok, hgood, -⟩
      · exact Or.inl ⟨_, herr, by simp⟩
      · exact Or.inr ⟨m', hok, hgood⟩
    · rw [if_neg hgt]
      exact Or.inr ⟨m, rfl, h⟩

theorem Good.step (laws : Laws T) (h : Good T m a) {op : Op K V} (hv : op.Valid m)
    (hsafe : op.Safe T m) :
    (∃ e, op.exec T m = .error e m ∧ e ≠ .hang "probe") ∨
    ∃ m', op.exec T m = .ok () m' ∧ Good T m' (op.apply laws.equiv m a) := by
  cases op with
  | insert key value =>
    rcases reserveSlot_write laws h hsafe key value with ⟨msg, herr⟩ | hok
    · exact Or.inl ⟨_, herr, by simp⟩
    · exact Or.inr hok
  | tryEmplace key value =>
    rcases reserveSlot_write laws h hsafe key value with ⟨msg, herr⟩ | hok
    · exact Or.inl ⟨_, herr, by simp⟩
    · exact Or.inr hok
  | index key =>
    rw [Op.exec, HashMap.index]
    rcases reserveSlot_spec laws h hsafe key with
      ⟨msg, herr⟩ | ⟨i, b, m', k, w, hok, hgood, -⟩
    · exact Or.inl ⟨_, by rw [herr]; rfl, by simp⟩
    · exact Or.inr ⟨m', by rw [hok]; rfl, hgood⟩
  | assign key value =>
    rw [Op.exec, HashMap.index]
    rcases reserveSlot_spec laws h hsafe key with
      ⟨msg, herr⟩ | ⟨i, b, m', k, w, hok, hgood, hi, hk, hs, -⟩
    · exact Or.inl ⟨_, by rw [herr], by simp⟩
    · refine Or.inr ⟨HashMap.setValue m' i value, by rw [hok], ?_⟩
      rw [Op.apply, ← ensured_insert laws.equiv a key value]
      exact hgood.setValue laws hi hk hs value
  | erase key =>
    rw [Op.exec, HashMap.erase]
    obtain ⟨r, hr, hcase⟩ := h.findIndex laws key
    rw [hr]
    refine Or.inr ?_
    rcases hcase with ⟨rfl, habs⟩ | ⟨i, rfl, hi, hlive, hs⟩
    · refine ⟨m, rfl, h.pow, h.map.erase_absent laws.equiv habs, ?_, h.tombstones, h.load,
        h.tagged, h.blank⟩
      exact h.size.trans (h.map.card.symm.trans (h.map.erase_absent laws.equiv habs).card)
    · exact ⟨HashMap.killSlot m i, rfl, h.killSlot laws hi (cell_of_isLive hlive) hs⟩
  | eraseAt idx =>
    have hlive : (m.cell idx).isLive = true :=
      openCell_isLive.mpr (by simpa [liveAt] using hv.2)
    exact Or.inr ⟨HashMap.killSlot m idx, rfl,
      h.killSlot laws hv.1 (cell_of_isLive hlive) (laws.equiv.refl _)⟩
  | reserve n =>
    rcases reserve_spec laws h hsafe with herr | hok
    · exact Or.inl herr
    · exact Or.inr hok
  | clear => exact Or.inr ⟨new, rfl, good_new T⟩

/-! ## Runs -/

/-- **A run, and the finite map its operations mean.**  An operation that does not return leaves the
finite map as it was. -/
inductive Run (T : Hasher K) (heq : KeyEquiv T.keyEqual) :
    HashMap K V → KeyMap K V T.keyEqual → Prop
  | new : Run T heq new .empty
  | done {m m' : HashMap K V} {a : KeyMap K V T.keyEqual} (h : Run T heq m a) (op : Op K V)
      (hv : op.Valid m) (hsafe : op.Safe T m) (hok : op.exec T m = .ok () m') :
      Run T heq m' (op.apply heq m a)
  | failed {m m' : HashMap K V} {a : KeyMap K V T.keyEqual} (h : Run T heq m a) (op : Op K V)
      (hv : op.Valid m) (hsafe : op.Safe T m) {e : Fault} (herr : op.exec T m = .error e m') :
      Run T heq m' a

theorem Run.good (laws : Laws T) (h : Run T laws.equiv m a) : Good T m a := by
  induction h with
  | new => exact good_new T
  | done h op hv hsafe hok ih =>
    rcases ih.step laws hv hsafe with ⟨e, herr, -⟩ | ⟨m'', hok', hgood⟩
    · rw [herr] at hok
      simp at hok
    · rw [hok'] at hok
      obtain ⟨-, rfl⟩ := Outcome.ok.inj hok
      exact hgood
  | failed h op hv hsafe herr ih =>
    rcases ih.step laws hv hsafe with ⟨e, herr', -⟩ | ⟨m'', hok', -⟩
    · rw [herr'] at herr
      obtain ⟨-, rfl⟩ := Outcome.error.inj herr
      exact ih
    · rw [hok'] at herr
      simp at herr

omit [Inhabited K] in
theorem Good.lookup (laws : Laws T) (h : Good T m a) (key : K) :
    ∃ r, find T m key = some r ∧
      count T m key = some (if (a.lookup key).isSome then 1 else 0) ∧
      contains T m key = some (a.lookup key).isSome ∧
      (r ≠ m.bucketCount ↔ (a.lookup key).isSome = true) ∧
      (r ≠ m.bucketCount → r < m.bucketCount ∧ m.liveAt r = true ∧
        T.keyEqual (m.keys r) key = true ∧ a.lookup key = some (m.values r)) := by
  obtain ⟨r, hr, hcase⟩ := h.findIndex laws key
  rw [find, count, contains, hr]
  rcases hcase with ⟨rfl, habs⟩ | ⟨i, rfl, hi, hlive, hs⟩
  · have hnone := h.map.holds.lookup_of_absent habs
    exact ⟨m.bucketCount, rfl, by simp [hnone], by simp [hnone], by simp [hnone],
      fun hne => absurd rfl hne⟩
  · have hsome := h.map.holds.lookup_of_same hi (cell_of_isLive hlive) hs
    exact ⟨i, rfl, by simp [hsome], by simp [hsome], by simp [hsome]; omega,
      fun _ => ⟨hi, by simpa [liveAt] using openCell_isLive.mp hlive, hs, hsome⟩⟩

theorem Good.index_default (laws : Laws T) (h : Good T m a) {key : K}
    (hsafe : (Op.index key : Op K V).Safe T m) (hnone : a.lookup key = none) {i : ℕ}
    {m' : HashMap K V} (hok : index T m key = .ok i m') : m'.values i = default := by
  rw [index] at hok
  rcases reserveSlot_spec laws h hsafe key with
    ⟨msg, herr⟩ | ⟨j, b, m'', k, w, hres, hgood, hi, hk, hs, -⟩
  · rw [herr] at hok
    simp at hok
  · rw [hres] at hok
    obtain ⟨rfl, rfl⟩ := Outcome.ok.inj hok
    have hl := hgood.map.holds.lookup_of_same hi hk hs
    rw [ensured, hnone, Option.isSome_none, if_neg (by simp), KeyMap.lookup_insert,
      if_pos (laws.equiv.refl key)] at hl
    obtain ⟨-, rfl⟩ := cell_live hk
    exact (Option.some.inj hl).symm

/-- **The compiler's hash map is a finite map** along every run that rehashes no key whose hash is a
sentinel: `find`, `count` and `contains` report a key exactly when it is there, with its last value,
`operator[]` on an absent key yields the default value, no key is in two live slots, `size` counts
the keys, an iteration visits each live slot exactly once, and every probe ends. -/
theorem hashMap_run_refines (laws : Laws T) (h : Run T laws.equiv m a) :
    (∀ key, ∃ r, find T m key = some r ∧
      count T m key = some (if (a.lookup key).isSome then 1 else 0) ∧
      contains T m key = some (a.lookup key).isSome ∧
      (r ≠ m.bucketCount ↔ (a.lookup key).isSome = true) ∧
      (r ≠ m.bucketCount → r < m.bucketCount ∧ m.liveAt r = true ∧
        T.keyEqual (m.keys r) key = true ∧ a.lookup key = some (m.values r))) ∧
    (∀ key, (Op.index key : Op K V).Safe T m → a.lookup key = none →
      ∀ i m', index T m key = .ok i m' → m'.values i = default) ∧
    (∀ i < m.bucketCount, ∀ j < m.bucketCount, m.liveAt i = true → m.liveAt j = true →
      T.keyEqual (m.keys i) (m.keys j) = true → i = j) ∧
    m.size = a.card ∧
    m.visited = (List.range m.bucketCount).filter m.liveAt ∧
    ∀ op : Op K V, op.Valid m → op.Safe T m →
      ∀ m', op.exec T m ≠ .error (.hang "probe") m' := by
  have hgood := h.good laws
  have hlive : ∀ {i}, m.liveAt i = true → m.cell i = .live (m.keys i) (m.values i) := fun hi =>
    cell_of_isLive (openCell_isLive.mpr (by simpa [liveAt] using hi))
  refine ⟨hgood.lookup laws,
    fun key hsafe hnone i m' hok => hgood.index_default laws hsafe hnone hok,
    fun i hi j hj hli hlj hs => hgood.map.distinct i hi j hj _ _ _ _ (hlive hli) (hlive hlj) hs,
    hgood.size, visited_eq m, fun op hv hsafe m' hhang => ?_⟩
  rcases hgood.step laws hv hsafe with ⟨e, herr, hne⟩ | ⟨m'', hok, -⟩
  · rw [herr] at hhang
    exact hne (Outcome.error.inj hhang).1
  · rw [hok] at hhang
    simp at hhang

/-- `daslang_hash` of an integral key, and its equality. -/
def integralHasher : Hasher UInt64 where
  hash x := x + 2
  keyEqual a b := a == b

theorem laws_integral : Laws integralHasher :=
  ⟨keyEquiv_beq, fun {a b} hab => by rw [show a = b from eq_of_beq hab]⟩

theorem hashMap_run_refines_integral : ∃ m : HashMap UInt64 ℕ,
    contains integralHasher m 5 = some true ∧ m.size = 1 := by
  have h : Run (V := ℕ) integralHasher laws_integral.equiv _ _ :=
    Run.new.done (.insert 5 7) trivial (fun N _ _ i hi => absurd hi (Nat.not_lt_zero i)) rfl
  obtain ⟨hfind, -, -, hsize, -⟩ := hashMap_run_refines laws_integral h
  obtain ⟨r, -, -, hcont, -⟩ := hfind 5
  exact ⟨_, hcont, hsize⟩

/-- The map after a list of insertions. -/
def insertAll (T : Hasher K) (kvs : List (K × V)) : HashMap K V :=
  kvs.foldl (fun m kv => (HashMap.insert T m kv.1 kv.2).state) new

theorem hashMap_key_lost :
    contains integralHasher (insertAll integralHasher
      [(-2, 1), (10, 2), (11, 3), (12, 4)]) (-2) = some true ∧
    contains integralHasher (insertAll integralHasher
      [(-2, 1), (10, 2), (11, 3), (12, 4), (13, 5)]) (-2) = some false ∧
    (insertAll integralHasher [(-2, 1), (10, 2), (11, 3), (12, 4), (13, 5)]).size = 5 := by
  decide

end HashMap

end DaScript

import DaScript.Runtime.TableRuns

/-!
# Runtime/TableAot — tables in ahead-of-time compiled code

`TTable` of `simulate/aot.h` against the interpreter.  Its move copies the table field by field and
names neither side's `tombstones`, so both keep the count they had: the destination is well-formed
exactly when the two counts agree (`moveT_iff`).
-/

open Function

namespace DaScript

open Probing TableHash

variable {K V : Type*} [Inhabited K] [Zero V]

namespace TTable

/-- `TTable::moveT`: the destination and the source afterwards.  The contents of the block move with
`data`, `keys` and `hashes`; `tombstones` is not among the fields moved. -/
def moveT (tab arr : Table K V) : Table K V × Table K V :=
  ({ tab with
      data := arr.data
      size := arr.size
      capacity := arr.capacity
      lock := arr.lock
      magic := arr.magic
      shared := arr.shared
      hopeless := arr.hopeless
      foregoLockCheck := arr.foregoLockCheck
      tableNoHash := arr.tableNoHash
      keys := arr.keys
      hashes := arr.hashes
      values := arr.values },
   { arr with
      data := 0
      size := 0
      capacity := 0
      lock := 0
      magic := 0
      shared := false
      hopeless := false
      foregoLockCheck := false
      tableNoHash := false
      keys := fun _ => default
      hashes := fun _ => 0
      values := fun _ => 0 })

/-- `moveT` of the twin `TTable<TK,void>`, field by field the same. -/
def moveTVoid (tab arr : Table K PUnit) : Table K PUnit × Table K PUnit := moveT tab arr

/-- `TTable::operator()`: the slot indexed. -/
def index (T : KeyType K) (valueTypeSize : ℕ) (tab : Table K V) (key : K) (hash : UInt64) :
    Outcome (Table K V) ℕ :=
  TableHash.reserve T valueTypeSize tab key hash

end TTable

/-- `SimNode_TableIndex::compute`: the slot indexed. -/
def SimNodeTableIndex.compute (T : KeyType K) (valueTypeSize : ℕ) (tab : Table K V) (key : K)
    (hash : UInt64) : Outcome (Table K V) ℕ :=
  if tab.lock ≠ 0 then .error (.throw "can't insert to a locked table") tab
  else TableHash.reserve T valueTypeSize tab key hash

/-! ## Moving a table -/

variable {T : KeyType K} {z : ℕ} {tab arr : Table K V}

/-- **A move arrived**: `tab` is well-formed with the contents of `arr`, its `tombstones` counts its
killed slots, and whatever is done with it next leaves an empty slot and no probe going round. -/
structure Arrived (T : KeyType K) (z : ℕ) (arr tab : Table K V) : Prop where
  wf : WellFormed T tab
  contents : tab.capacity = arr.capacity ∧ tab.size = arr.size ∧ tab.cell T = arr.cell T
  tombstones : tab.tombstones = killedSlots tab
  later : ∀ tab', Reach T z tab tab' →
    (packed T tab'.capacity = false → tab'.capacity ≠ 0 →
      ∃ i < tab'.capacity, tab'.hashes i = hashEmpty) ∧
    ∀ op : TableOp K V, ∀ loop, ∀ tab'', op.exec T z tab' ≠ .error (.hang loop) tab''

theorem arrived_iff (hhash : ∀ k, 1 < T.hashFunction k) (hwf : WellFormed T arr)
    (tab : Table K V) :
    Arrived T z arr (TTable.moveT tab arr).1 ↔ tab.tombstones = arr.tombstones := by
  constructor
  · intro h
    exact h.wf.tombstones.trans hwf.tombstones.symm
  · intro heq
    have hwf' : WellFormed T (TTable.moveT tab arr).1 :=
      ⟨hwf.pow, hwf.null, hwf.noHash, hwf.size, heq.trans hwf.tombstones, fun hp hc => by
        change 2 * arr.size ≤ arr.capacity ∧ arr.size + tab.tombstones < arr.capacity
        rw [heq]
        exact hwf.load hp hc, hwf.dense, hwf.tail, hwf.control⟩
    refine ⟨hwf', ⟨rfl, rfl, rfl⟩, hwf'.tombstones_eq, fun tab' h => ⟨fun hp hc => ?_,
      fun op loop tab'' => ?_⟩⟩
    · obtain ⟨i, hi, he⟩ := (h.wellFormed hhash hwf').exists_empty hp hc
      rw [cell_open hp, openCell_eq_empty] at he
      exact ⟨i, hi, he⟩
    · rcases op.exec_spec (z := z) hhash (h.wellFormed hhash hwf') with
        ⟨msg, herr⟩ | ⟨tab₁, hok, -⟩
      · rw [herr]
        simp
      · rw [hok]
        simp

theorem source_wellFormed_iff (tab arr : Table K V) :
    WellFormed T (TTable.moveT tab arr).2 ↔ arr.tombstones = 0 := by
  constructor
  · intro h
    exact h.tombstones
  · intro h0
    refine ⟨Or.inl rfl, Iff.rfl, fun h => absurd rfl h, rfl, h0, fun _ h => absurd rfl h,
      fun _ h => absurd rfl h, fun _ h => absurd rfl h, fun _ i h => ?_⟩
    change hashKilled < (0 : UInt64) at h
    exact absurd h (by decide)

/-- The keys of a script: each its own home in a table of eight slots. -/
def churn : List (TableOp UInt64 ℕ) :=
  [.put 8 0, .erase 8, .put 7 0, .erase 7, .put 6 0, .erase 6, .put 5 0, .erase 5, .put 4 0,
    .erase 4]

/-- **The two tiers agree**: both raise an error and leave the table as it was, or both return the
same slot and the same table. -/
def Agree (tab : Table K V) (interpreted compiled : Outcome (Table K V) ℕ) : Prop :=
  (∃ msg msg', interpreted = .error (.throw msg) tab ∧ compiled = .error (.throw msg') tab) ∨
    ∃ i tab', interpreted = .ok i tab' ∧ compiled = .ok i tab'

theorem makeRoom_locked (hwf : WellFormed T tab) (hp : packed T tab.capacity = false)
    (hc : tab.capacity ≠ 0) (hlock : tab.lock ≠ 0) :
    (loadCapacity tab = none ∧ makeRoom T z tab = .ok () tab ∧ Roomy tab) ∨
    (loadCapacity tab ≠ none ∧ ∃ msg, makeRoom T z tab = .error (.throw msg) tab) := by
  rcases makeRoom_spec (z := z) hwf hp hc with
    ⟨msg, herr⟩ | ⟨hok, hnone, hroom⟩ | ⟨N, tab', hok, hN, hl, -⟩
  · refine Or.inr ⟨fun hnone => ?_, msg, herr⟩
    -- without a reallocation the load test raises nothing
    rw [makeRoom] at herr
    rw [loadCapacity] at hnone
    split_ifs at hnone herr
  · exact Or.inl ⟨hnone, hok, hroom⟩
  · exact absurd hl hlock

omit [Inhabited K] [Zero V] in
theorem insertOpen_locked (hwf : WellFormed T tab) (hp : packed T tab.capacity = false)
    (hc : tab.capacity ≠ 0) (hlock : tab.lock ≠ 0) (key : K) (hash : UInt64) :
    (find T tab key hash = some none ∧
      ∃ msg, insertOpen T tab key hash = .error (.throw msg) tab) ∨
    ∃ i, find T tab key hash = some (some i) ∧ insertOpen T tab key hash = .ok i tab := by
  rcases hwf.pow with h0 | ⟨e, -, hpow⟩
  · exact absurd h0 hc
  have hring := isRing_nextSlot hpow
  have hhome := homeSlot_lt hpow hash
  obtain ⟨d, hd, hstop, hpass⟩ :=
    exists_first_stop (hwf.exists_stop hp hc key hash) (homeSlot tab.capacity hash)
  rw [find, if_neg hc, hp, if_neg (by simp), seeFind_eq hwf,
    scan_of_stop hring hhome hstop hpass hd, insertOpen]
  rcases place_of_stop hring hhome hstop hpass hd none with
    ⟨hs, hpl⟩ | ⟨hs, ⟨-, hpl⟩ | ⟨j, hpl, -⟩⟩
  · rw [hpl, if_pos hs]
    exact Or.inr ⟨_, rfl, rfl⟩
  · rw [hpl, if_neg (by rw [hs]; simp)]
    exact Or.inl ⟨rfl, _, if_pos hlock⟩
  · rw [hpl, if_neg (by rw [hs]; simp)]
    exact Or.inl ⟨rfl, _, if_pos hlock⟩

theorem reserve_locked (hwf : WellFormed T tab) (hlock : tab.lock ≠ 0) (key : K) (hash : UInt64) :
    ((find T tab key hash = some none ∨
        (packed T tab.capacity = false ∧ tab.capacity ≠ 0 ∧ loadCapacity tab ≠ none)) ∧
      ∃ msg, reserve T z tab key hash = .error (.throw msg) tab) ∨
    (¬ (find T tab key hash = some none ∨
        (packed T tab.capacity = false ∧ tab.capacity ≠ 0 ∧ loadCapacity tab ≠ none)) ∧
      ∃ i, reserve T z tab key hash = .ok i tab) := by
  rw [reserve, reserveRetry]
  by_cases hc : tab.capacity = 0
  · -- nothing is found in an unallocated table, and both regimes ask for the lock first
    have hfind : find T tab key hash = some none := by rw [find, if_pos hc]
    refine Or.inl ⟨Or.inl hfind, ?_⟩
    cases hp : packed T tab.capacity with
    | true =>
      rw [if_pos rfl, if_neg (by simpa using hc)]
      exact ⟨_, if_pos hlock⟩
    | false =>
      have hst : T.storesHash = false := by
        rw [hc] at hp
        simpa [packed] using hp
      rw [if_neg (by simp), if_pos (by simp [hst, hc])]
      exact ⟨_, if_pos hlock⟩
  cases hp : packed T tab.capacity with
  | true =>
    have hfind : find T tab key hash = some (packedFind tab hash) := by
      rw [find, if_neg hc, hp, if_pos rfl]
    rw [if_pos rfl, if_pos hc, hfind]
    cases hf : packedFind tab hash with
    | none => exact Or.inl ⟨Or.inl rfl, _, if_pos hlock⟩
    | some i => exact Or.inr ⟨by simp, i, rfl⟩
  | false =>
    rw [if_neg (by simp), if_neg fun h => hc h.2, reserveOpen]
    rcases makeRoom_locked (z := z) hwf hp hc hlock with
      ⟨hnone, hok, -⟩ | ⟨hsome, msg, herr⟩
    · rw [hok]
      rcases insertOpen_locked hwf hp hc hlock key hash with ⟨hf, msg, herr⟩ | ⟨i, hf, hi⟩
      · exact Or.inl ⟨Or.inl hf, msg, herr⟩
      · exact Or.inr ⟨by simp [hf, hnone], i, hi⟩
    · rw [herr]
      exact Or.inl ⟨Or.inr ⟨rfl, hc, hsome⟩, msg, rfl⟩

/-- The table a script locks with one key in it. -/
def lockedTable : Table UInt64 ℕ := { runOps uint64Key 4 [.put 1 5] .zero with lock := 1 }

end DaScript

import DaScript.Runtime.TableOps
import DaScript.Runtime.TableKeys

/-!
# Runtime/TableRuns — runs of table operations

A run starts from the zero table and takes any sequence of insertions, erasures, clears and
capacity reservations; an operation that raises a script error leaves its table behind and the run
goes on from there.  `Reach.wellFormed` is the invariant of every run, and **every probe of a
reachable table ends** (`reach_probes_end`).
-/

open Function

namespace DaScript

open Probing TableHash

variable {K V : Type*}

/-- **A table operation of a script.** -/
inductive TableOp (K V : Type*)
  /-- `reserve(key)`, and the value written to the slot it returns -/
  | put (key : K) (value : V)
  /-- `erase(key)` -/
  | erase (key : K)
  /-- `table_clear` -/
  | clear
  /-- `reserve(size)` -/
  | reserve (size : ℕ)
  deriving DecidableEq, Repr

variable [Inhabited K] [Zero V] {T : KeyType K} {z : ℕ} {tab : Table K V}

/-- **One operation**, a key's hash being its `hash_function`. -/
def TableOp.exec (T : KeyType K) (z : ℕ) : TableOp K V → Table K V → Outcome (Table K V) Unit
  | .put key value, tab =>
    match TableHash.reserve T z tab key (T.hashFunction key) with
    | .ok index tab => .ok () (tab.writeValue index value)
    | .error e tab => .error e tab
  | .erase key, tab =>
    match TableHash.erase T tab key (T.hashFunction key) with
    | .ok _ tab => .ok () tab
    | .error e tab => .error e tab
  | .clear, tab => tableClear tab
  | .reserve size, tab => reserveSize T z tab size

/-- **The tables a run reaches** from a given one. -/
inductive Reach (T : KeyType K) (z : ℕ) (start : Table K V) : Table K V → Prop
  | start : Reach T z start start
  | step {tab : Table K V} (h : Reach T z start tab) (op : TableOp K V) :
      Reach T z start (op.exec T z tab).state

theorem TableOp.exec_spec (hhash : ∀ k, 1 < T.hashFunction k) (hwf : WellFormed T tab)
    (op : TableOp K V) :
    (∃ msg, op.exec T z tab = .error (.throw msg) tab) ∨
    ∃ tab', op.exec T z tab = .ok () tab' ∧ WellFormed T tab' := by
  cases op with
  | put key value =>
    rcases reserve_spec (z := z) hwf key (T.hashFunction key) with
      ⟨msg, herr⟩ | ⟨base, i, tab', hok, hbase, -, hland⟩
    · exact Or.inl ⟨msg, by rw [TableOp.exec, herr]⟩
    · obtain ⟨hwf', hl⟩ := hland.wellFormed hbase (hhash key)
      exact Or.inr ⟨_, by rw [TableOp.exec, hok], hwf'.writeValue hl value⟩
  | erase key =>
    obtain ⟨r, hl, hr⟩ := erase_spec hwf key (T.hashFunction key)
    exact Or.inr ⟨_, by rw [TableOp.exec, hr], hl.wellFormed hwf (hhash key)⟩
  | clear =>
    rcases clear_spec hwf with ⟨-, msg, herr⟩ | ⟨tab', hok, hwf', -⟩
    · exact Or.inl ⟨msg, herr⟩
    · exact Or.inr ⟨tab', hok, hwf'⟩
  | reserve size =>
    rcases reserveSize_spec (z := z) hwf size with
      ⟨msg, herr⟩ | hok | ⟨N, tab', hok, -, H⟩
    · exact Or.inl ⟨msg, herr⟩
    · exact Or.inr ⟨tab, hok, hwf⟩
    · exact Or.inr ⟨tab', hok, H.wf⟩

theorem Reach.wellFormed (hhash : ∀ k, 1 < T.hashFunction k) {start : Table K V}
    (hstart : WellFormed T start) (h : Reach T z start tab) : WellFormed T tab := by
  induction h with
  | start => exact hstart
  | step h op ih =>
    rcases op.exec_spec (z := z) hhash ih with ⟨msg, herr⟩ | ⟨tab', hok, hwf'⟩
    · rw [herr]
      exact ih
    · rw [hok]
      exact hwf'

/-- Running operations one after the other. -/
def runOps (T : KeyType K) (z : ℕ) (ops : List (TableOp K V)) (tab : Table K V) : Table K V :=
  ops.foldl (fun tab op => (op.exec T z tab).state) tab

theorem reach_runOps (start : Table K V) (ops : List (TableOp K V)) :
    Reach T z start (runOps T z ops start) := by
  suffices H : ∀ tab, Reach T z start tab → Reach T z start (runOps T z ops tab) from
    H start .start
  induction ops with
  | nil => exact fun _ h => h
  | cons op ops ih => exact fun tab h => ih _ (h.step op)

/-! ## Every probe ends -/

/-- How many slots of the table are killed. -/
def killedSlots (tab : Table K V) : ℕ :=
  Nat.count (fun i => tab.hashes i = hashKilled) tab.capacity

omit [Inhabited K] [Zero V] in
theorem WellFormed.tombstones_eq (hwf : WellFormed T tab) :
    tab.tombstones = killedSlots tab := by
  have hiff : ∀ i < tab.capacity,
      (tab.cell T i).isKilled = true ↔ tab.hashes i = hashKilled := by
    intro i hi
    cases hp : packed T tab.capacity with
    | true =>
      have hc : tab.capacity ≠ 0 := by omega
      rw [cell_packed hp]
      by_cases hlt : i < tab.size
      · have hne := (one_lt_iff.mp (((hwf.dense hp hc).2 i hi).mpr hlt)).2
        simp [hlt, hne, Cell.isKilled]
      · have hz := hwf.tail hp hc i hi (by omega)
        rw [if_neg hlt, hz]
        simp [Cell.isKilled, hashEmpty, hashKilled]
    | false =>
      rw [cell_open hp, ← openCell_eq_killed (k := tab.keys i) (v := tab.values i)]
      cases openCell (tab.hashes i) (tab.keys i) (tab.values i) <;> simp [Cell.isKilled]
  rw [hwf.tombstones]
  exact le_antisymm (Nat.count_mono_left fun i hi => (hiff i hi).mp)
    (Nat.count_mono_left fun i hi => (hiff i hi).mpr)

omit [Inhabited K] [Zero V] in
theorem WellFormed.tombstones_pos (hwf : WellFormed T tab) (hp : packed T tab.capacity = false)
    {key : K} {hash : UInt64} {i : ℕ}
    (h : place (seeReserve T tab key hash) (nextSlot tab.capacity) tab.capacity
      (homeSlot tab.capacity hash) none = some (.killed i)) : 0 < tab.tombstones := by
  by_cases hc : tab.capacity = 0
  · rw [hc] at h
    simp [place] at h
  rcases hwf.pow with h0 | ⟨e, -, hpow⟩
  · exact absurd h0 hc
  obtain ⟨p, hplace, d, hd, -, hcase⟩ := place_spec (isRing_nextSlot hpow)
    (homeSlot_lt hpow hash) (hwf.exists_stop hp hc key hash)
  obtain rfl := Option.some.inj (h.symm.trans hplace)
  rcases hcase with ⟨hi, -⟩ | ⟨hi, -⟩ | ⟨-, e', he', hi, hk⟩
  · simp at hi
  · simp at hi
  · rw [hwf.tombstones]
    refine tally_pos (slot_lt (by omega) (homeSlot tab.capacity hash) e') ?_
    rw [(seeReserve_eq_killed hp).mp hk]
    rfl

theorem WellFormed.makeRoom (hwf : WellFormed T tab) (hp : packed T tab.capacity = false)
    (hc : tab.capacity ≠ 0) : WellFormed T (TableHash.makeRoom T z tab).state ∧
      packed T (TableHash.makeRoom T z tab).state.capacity = false := by
  rcases makeRoom_spec (z := z) hwf hp hc with
    ⟨msg, herr⟩ | ⟨hok, -⟩ | ⟨N, tab', hok, -, -, H, hpN, -⟩
  · rw [herr]
    exact ⟨hwf, hp⟩
  · rw [hok]
    exact ⟨hwf, hp⟩
  · rw [hok]
    exact ⟨H.wf, by rw [Outcome.state_ok, H.capacity, hpN]⟩

/-- **Every probe of a reachable table ends.**  The capacity is a power of two, `tombstones` counts
the killed slots, and an open-addressed table keeps an empty one; so a lookup of any key under any
hash answers, no operation is left going round a loop, and the probe of an insertion, after the load
test, takes back a tombstone only when there is one. -/
theorem reach_probes_end (hhash : ∀ k, 1 < T.hashFunction k) (h : Reach T z .zero tab) :
    (tab.capacity = 0 ∨ ∃ e, tab.capacity = 2 ^ e) ∧
    tab.tombstones = killedSlots tab ∧
    (packed T tab.capacity = false → tab.capacity ≠ 0 →
      tab.size + tab.tombstones < tab.capacity ∧
      ∃ i < tab.capacity, tab.hashes i = hashEmpty) ∧
    (∀ key hash, find T tab key hash ≠ none) ∧
    (∀ op : TableOp K V, ∀ loop, ∀ tab', op.exec T z tab ≠ .error (.hang loop) tab') ∧
    (packed T tab.capacity = false → tab.capacity ≠ 0 →
      ∀ base, base = (makeRoom T z tab).state → ∀ key hash i,
        place (seeReserve T base key hash) (nextSlot base.capacity) base.capacity
          (homeSlot base.capacity hash) none = some (.killed i) → 0 < base.tombstones) := by
  have hwf := h.wellFormed hhash (wellFormed_zero T)
  refine ⟨?_, hwf.tombstones_eq, fun hp hc => ⟨(hwf.load hp hc).2, ?_⟩, fun key hash => ?_,
    fun op loop tab' => ?_, ?_⟩
  · rcases hwf.pow with h0 | ⟨e, -, he⟩
    · exact Or.inl h0
    · exact Or.inr ⟨e, he⟩
  · obtain ⟨i, hi, hempty⟩ := hwf.exists_empty hp hc
    rw [cell_open hp, openCell_eq_empty] at hempty
    exact ⟨i, hi, hempty⟩
  · obtain ⟨r, hr, -⟩ := find_spec hwf key hash
    rw [hr]
    simp
  · rcases op.exec_spec (z := z) hhash hwf with ⟨msg, herr⟩ | ⟨tab'', hok, -⟩
    · rw [herr]
      simp
    · rw [hok]
      simp
  · rintro hp hc base rfl key hash i hplace
    obtain ⟨hwf', hp'⟩ := hwf.makeRoom (z := z) hp hc
    exact hwf'.tombstones_pos hp' hplace

theorem reach_probes_end_uint64 :
    ∃ tab : Table UInt64 ℕ, Reach uint64Key 4 .zero tab ∧ tab.capacity = 8 ∧ tab.tombstones = 1 ∧
      tab.tombstones = killedSlots tab := by
  have h := reach_runOps (T := uint64Key) (z := 4) (V := ℕ) Table.zero [.put 1 5, .erase 1]
  refine ⟨_, h, ?_, ?_, (reach_probes_end uint64Key_hash h).2.1⟩
  · decide
  · decide

end DaScript

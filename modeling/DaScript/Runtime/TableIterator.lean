import DaScript.Runtime.TableRuns

/-!
# Runtime/TableIterator — a loop over the keys and the values of a table

`TableIterator`, `TableKeysIterator` and `TableValuesIterator` of `simulate/runtime_table.cpp`, with
`table_lock` and `table_unlock`.  An iterator is three addresses and a stride; which slot it is at
is recovered from them.

A loop over both visits the live slots, each once and in order, and leaves the table as it found it
(`forEach_entries`).
-/

open Function

namespace DaScript

open Probing TableHash

variable {K V : Type*}

/-- `DAS_ARRAY_MAGIC` -/
def arrayMagic : UInt32 := 0xA11B3DA7

def tableLock (arr : Table K V) : Outcome (Table K V) Unit :=
  if arr.shared ∨ arr.hopeless then .ok () arr
  else if arr.lock = 0 then
    if arr.magic ≠ 0 then
      .error (.throw "table magic mismatch on first lock, was it moved or overwritten?") arr
    else .ok () { arr with lock := 1, magic := arrayMagic }
  else if arr.magic ≠ arrayMagic then
    .error (.throw "table magic mismatch on lock, was it moved or overwritten?") arr
  else if arr.lock + 1 = 0 then
    .error (.throw "table lock overflow, was it moved or overwritten?")
      { arr with lock := arr.lock + 1 }
  else .ok () { arr with lock := arr.lock + 1 }

def tableUnlock (arr : Table K V) : Outcome (Table K V) Unit :=
  if arr.shared ∨ arr.hopeless then .ok () arr
  else if arr.magic ≠ arrayMagic then
    .error (.throw "table magic mismatch on unlock, was it moved or overwritten?") arr
  else if arr.lock = 0 then
    .error (.throw "table lock underflow, was it moved or overwritten?") arr
  else if arr.lock - 1 = 0 then .ok () { arr with lock := arr.lock - 1, magic := 0 }
  else .ok () { arr with lock := arr.lock - 1 }

/-- `TableIterator`, the table and the data it is asked for apart. -/
structure TableIterator where
  stride : ℕ
  data : ℕ
  originData : ℕ
  tableEnd : ℕ

namespace TableIterator

/-- The loop of `nextValid`, so many slots from the end. -/
def nextValidFrom (live : ℕ → Bool) : ℕ → ℕ → ℕ
  | 0, index => index
  | n + 1, index => if live index then index else nextValidFrom live n (index + 1)

def nextValid (table : Table K V) (index : ℕ) : ℕ :=
  nextValidFrom (tableLiveSlot table) (table.capacity - index) index

/-- An element of a region that starts at `base`, `none` outside the table's slots. -/
def readAt {α : Type*} (region : ℕ → α) (base stride capacity ptr : ℕ) : Option α :=
  if base ≤ ptr ∧ (ptr - base) % stride = 0 ∧ (ptr - base) / stride < capacity then
    some (region ((ptr - base) / stride))
  else none

/-- `first`, up to what it writes: the iterator at the first live slot of the locked table. -/
def start (base stride : ℕ) (table : Table K V) : TableIterator where
  stride := stride
  data := base + nextValid table 0 * stride
  originData := base
  tableEnd := base + table.capacity * stride

/-- `next`, up to what it writes. -/
def advance (it : TableIterator) (table : Table K V) : TableIterator :=
  let index := (it.data - it.originData) / it.stride
  { it with data := it.originData + nextValid table (index + 1) * it.stride }

/-- `close`, the iterator's data being at `base` now. -/
def close (base : ℕ) (it : TableIterator) (table : Table K V) : Outcome (Table K V) Unit :=
  if base ≠ it.originData then .error (.throw "table was modified during iteration") table
  else tableUnlock table

end TableIterator

namespace TableKeysIterator

open TableIterator

/-- The key under the iterator, unless it is past the last slot. -/
def key (it : TableIterator) (table : Table K V) : Outcome (Table K V) (Option K) :=
  if it.data ≠ it.tableEnd then
    match readAt table.keys it.originData it.stride table.capacity it.data with
    | some k => .ok (some k) table
    | none => .error (.undefined "a key outside the table") table
  else .ok none table

/-- `TableKeysIterator::first`: the iterator, the key it writes if it does, and what it returns. -/
def first (base stride : ℕ) (table : Table K V) :
    Outcome (Table K V) (TableIterator × Option K × Bool) :=
  (tableLock table).bind fun _ table =>
    let it := start base stride table
    (key it table).bind fun k table => .ok (it, k, table.size ≠ 0) table

/-- `TableKeysIterator::next`: it returns whether it writes a key. -/
def next (it : TableIterator) (table : Table K V) :
    Outcome (Table K V) (TableIterator × Option K) :=
  let it := it.advance table
  (key it table).bind fun k table => .ok (it, k) table

end TableKeysIterator

namespace TableValuesIterator

open TableIterator

/-- `TableIterator::first`, which writes `data`. -/
def first (base stride : ℕ) (table : Table K V) : Outcome (Table K V) (TableIterator × Bool) :=
  (tableLock table).bind fun _ table => .ok (start base stride table, table.size ≠ 0) table

def next (it : TableIterator) (table : Table K V) : Outcome (Table K V) (TableIterator × Bool) :=
  let it := it.advance table
  .ok (it, it.data ≠ it.tableEnd) table

end TableValuesIterator

open TableIterator

/-- The turns of a loop over keys and values from a slot on: what its body is given.  The body reads
the value through its pointer; the two iterators have to stop together. -/
def forEachFrom : ℕ → TableIterator × TableIterator → K → Table K V →
    Outcome (Table K V) (List (K × V) × TableIterator × TableIterator)
  | 0, _, _, table => .error (.hang "for") table
  | turns + 1, (keysIt, valuesIt), k, table =>
    match readAt table.values valuesIt.originData valuesIt.stride table.capacity valuesIt.data with
    | none => .error (.undefined "a value outside the table") table
    | some v =>
      (TableKeysIterator.next keysIt table).bind fun (keysIt, key) table =>
      (TableValuesIterator.next valuesIt table).bind fun (valuesIt, more) table =>
        match key, more with
        | some k', true =>
          (forEachFrom turns (keysIt, valuesIt) k' table).bind fun (entries, its) table =>
            .ok ((k, v) :: entries, its) table
        | none, false => .ok ([(k, v)], keysIt, valuesIt) table
        | _, _ => .error (.undefined "one of the iterators ends before the other") table

/-- **A loop over the keys and the values** of a table whose keys are at one address and values at
another. -/
def forEach (keys keyStride values valueStride : ℕ) (table : Table K V) :
    Outcome (Table K V) (List (K × V)) :=
  (TableKeysIterator.first keys keyStride table).bind fun (keysIt, key, moreKeys) table =>
  (TableValuesIterator.first values valueStride table).bind fun (valuesIt, moreValues) table =>
  (match key, moreKeys, moreValues with
    | some k, true, true => forEachFrom (table.capacity + 1) (keysIt, valuesIt) k table
    | none, false, false => .ok ([], keysIt, valuesIt) table
    | _, _, _ => .error (.undefined "one of the iterators ends before the other") table).bind
      fun (entries, keysIt, valuesIt) table =>
  (close keys keysIt table).bind fun _ table =>
  (close values valuesIt table).bind fun _ table => .ok entries table

/-! ## Locks -/

/-- **The lock of a table in one piece**, with room for so many more. -/
def Lockable (n : ℕ) (tab : Table K V) : Prop :=
  (tab.shared = true ∨ tab.hopeless = true) ∨
    ((tab.lock = 0 ∧ tab.magic = 0) ∨ (tab.lock ≠ 0 ∧ tab.magic = arrayMagic)) ∧
      tab.lock.toNat + n < 2 ^ 32

/-- The slots of a table, whatever its lock. -/
structure SameSlots (tab t : Table K V) : Prop where
  capacity : t.capacity = tab.capacity
  size : t.size = tab.size
  keys : t.keys = tab.keys
  values : t.values = tab.values
  live : tableLiveSlot t = tableLiveSlot tab

theorem tableLock_spec {n : ℕ} {tab : Table K V} (h : Lockable (n + 1) tab) :
    ∃ t, tableLock tab = .ok () t ∧ SameSlots tab t ∧ Lockable n t ∧
      tableUnlock t = .ok () tab := by
  obtain hfree | ⟨hlock, hroom⟩ := h
  · exact ⟨tab, if_pos hfree, ⟨rfl, rfl, rfl, rfl, rfl⟩, Or.inl hfree, if_pos hfree⟩
  by_cases hfree : tab.shared = true ∨ tab.hopeless = true
  · exact ⟨tab, if_pos hfree, ⟨rfl, rfl, rfl, rfl, rfl⟩, Or.inl hfree, if_pos hfree⟩
  obtain ⟨h0, hm⟩ | ⟨hne, hm⟩ := hlock
  · have hone : (1 : UInt32) ≠ 0 := by decide
    refine ⟨{ tab with lock := 1, magic := arrayMagic }, ?_, ⟨rfl, rfl, rfl, rfl, rfl⟩,
      Or.inr ⟨Or.inr ⟨hone, rfl⟩, ?_⟩, ?_⟩
    · rw [tableLock, if_neg hfree, if_pos h0, if_neg (not_not.mpr hm)]
    · rw [h0] at hroom
      change 0 + (n + 1) < 2 ^ 32 at hroom
      change 1 + n < 2 ^ 32
      omega
    · rw [tableUnlock, if_neg hfree, if_neg (not_not.mpr rfl), if_neg hone]
      dsimp only
      rw [if_pos (by decide)]
      congr 1
      rw [show (1 : UInt32) - 1 = tab.lock by rw [h0]; rfl, ← hm]
  · have hnat : (tab.lock + 1).toNat = tab.lock.toNat + 1 := by
      rw [UInt32.toNat_add]
      exact Nat.mod_eq_of_lt (by change tab.lock.toNat + 1 < 2 ^ 32; omega)
    have hne' : tab.lock + 1 ≠ 0 := fun h => by
      rw [h] at hnat
      exact absurd hnat (by simp)
    have hback : tab.lock + 1 - 1 = tab.lock := by rw [UInt32.add_sub_cancel]
    refine ⟨{ tab with lock := tab.lock + 1 }, ?_, ⟨rfl, rfl, rfl, rfl, rfl⟩,
      Or.inr ⟨Or.inr ⟨hne', hm⟩, ?_⟩, ?_⟩
    · rw [tableLock, if_neg hfree, if_neg hne, if_neg (not_not.mpr hm), if_neg hne']
    · rw [hnat]
      omega
    · rw [tableUnlock, if_neg hfree, if_neg (not_not.mpr hm), if_neg hne']
      dsimp only
      rw [hback, if_neg hne]

/-! ## The live slots -/

/-- The live slots from one on, in order. -/
def liveFrom (tab : Table K V) (i : ℕ) : List ℕ :=
  (List.range' i (tab.capacity - i)).filter (tableLiveSlot tab)

/-- The live slots of an allocated table. -/
def liveSlots (tab : Table K V) : List ℕ := (List.range tab.capacity).filter (tableLiveSlot tab)

theorem liveFrom_zero (tab : Table K V) : liveFrom tab 0 = liveSlots tab := by
  rw [liveFrom, liveSlots, List.range_eq_range', Nat.sub_zero]

theorem nextValidFrom_spec (live : ℕ → Bool) (n i : ℕ) :
    (nextValidFrom live n i = i + n ∧ (List.range' i n).filter live = []) ∨
    ∃ m, i ≤ m ∧ m < i + n ∧ nextValidFrom live n i = m ∧ live m = true ∧
      (List.range' i n).filter live = m :: (List.range' (m + 1) (i + n - (m + 1))).filter live := by
  induction n generalizing i with
  | zero => exact Or.inl ⟨rfl, rfl⟩
  | succ n ih =>
    rw [nextValidFrom, List.range'_succ, List.filter_cons]
    cases hlive : live i with
    | true =>
      refine Or.inr ⟨i, le_rfl, by omega, rfl, hlive, ?_⟩
      rw [if_pos rfl, show i + (n + 1) - (i + 1) = n by omega]
    | false =>
      rw [if_neg (by simp), if_neg (by simp)]
      obtain ⟨hend, hnone⟩ | ⟨m, him, hm, hnext, hlive', hfilter⟩ := ih (i + 1)
      · exact Or.inl ⟨by omega, hnone⟩
      · refine Or.inr ⟨m, by omega, by omega, hnext, hlive', ?_⟩
        rw [hfilter, show i + 1 + n - (m + 1) = i + (n + 1) - (m + 1) by omega]

theorem nextValid_spec {tab : Table K V} {i : ℕ} (hi : i ≤ tab.capacity) :
    (nextValid tab i = tab.capacity ∧ liveFrom tab i = []) ∨
    ∃ m, m < tab.capacity ∧ nextValid tab i = m ∧ tableLiveSlot tab m = true ∧
      liveFrom tab i = m :: liveFrom tab (m + 1) := by
  obtain ⟨hend, hnone⟩ | ⟨m, -, hm, hnext, hlive, hfilter⟩ :=
    nextValidFrom_spec (tableLiveSlot tab) (tab.capacity - i) i
  · exact Or.inl ⟨hend.trans (by omega), hnone⟩
  · refine Or.inr ⟨m, by omega, hnext, hlive, ?_⟩
    rw [liveFrom, hfilter, liveFrom, show i + (tab.capacity - i) = tab.capacity by omega]

section SameSlots

variable {tab t : Table K V}

theorem SameSlots.nextValid (h : SameSlots tab t) (i : ℕ) :
    nextValid t i = TableIterator.nextValid tab i := by
  rw [TableIterator.nextValid, h.live, h.capacity, TableIterator.nextValid]

theorem SameSlots.liveFrom (h : SameSlots tab t) (i : ℕ) :
    liveFrom t i = DaScript.liveFrom tab i := by
  rw [DaScript.liveFrom, h.live, h.capacity, DaScript.liveFrom]

end SameSlots

/-! ## The iterators -/

/-- The iterator of a region at a slot, or at the end. -/
def itAt (base stride : ℕ) (tab : Table K V) (i : ℕ) : TableIterator where
  stride := stride
  data := base + i * stride
  originData := base
  tableEnd := base + tab.capacity * stride

section Iterate

variable {tab : Table K V} {base stride i : ℕ}

theorem advance_itAt (hstride : 0 < stride) :
    (itAt base stride tab i).advance tab = itAt base stride tab (nextValid tab (i + 1)) := by
  rw [TableIterator.advance, itAt]
  dsimp only
  rw [Nat.add_sub_cancel_left, Nat.mul_div_cancel _ hstride, itAt]

theorem ne_tableEnd (hstride : 0 < stride) :
    (itAt base stride tab i).data ≠ (itAt base stride tab i).tableEnd ↔ i ≠ tab.capacity := by
  rw [itAt]
  dsimp only
  rw [Ne, Nat.add_left_cancel_iff, Nat.mul_left_inj (by omega)]

theorem readAt_itAt {α : Type*} (region : ℕ → α) (hstride : 0 < stride) (hi : i < tab.capacity) :
    readAt region (itAt base stride tab i).originData (itAt base stride tab i).stride tab.capacity
      (itAt base stride tab i).data = some (region i) := by
  rw [readAt, itAt]
  dsimp only
  rw [Nat.add_sub_cancel_left, Nat.mul_div_cancel _ hstride,
    if_pos ⟨Nat.le_add_right _ _, Nat.mul_mod_left _ _, hi⟩]

theorem key_itAt (hstride : 0 < stride) (hi : i < tab.capacity) :
    TableKeysIterator.key (itAt base stride tab i) tab = .ok (some (tab.keys i)) tab := by
  rw [TableKeysIterator.key, if_pos ((ne_tableEnd hstride).mpr hi.ne),
    readAt_itAt tab.keys hstride hi]

theorem key_end (hstride : 0 < stride) :
    TableKeysIterator.key (itAt base stride tab tab.capacity) tab = .ok none tab :=
  if_neg fun h => (ne_tableEnd hstride).mp h rfl

variable {keys keyStride values valueStride : ℕ}

theorem forEachFrom_spec (hk : 0 < keyStride) (hv : 0 < valueStride) {turns : ℕ}
    (hi : i < tab.capacity) (hturns : tab.capacity - i ≤ turns) :
    forEachFrom turns (itAt keys keyStride tab i, itAt values valueStride tab i) (tab.keys i) tab
      = .ok ((i :: liveFrom tab (i + 1)).map (fun i => (tab.keys i, tab.values i)),
          itAt keys keyStride tab tab.capacity, itAt values valueStride tab tab.capacity) tab := by
  induction turns generalizing i with
  | zero => omega
  | succ turns ih =>
    have hmore : TableValuesIterator.next (itAt values valueStride tab i) tab
        = .ok (itAt values valueStride tab (nextValid tab (i + 1)),
            decide (nextValid tab (i + 1) ≠ tab.capacity)) tab := by
      rw [TableValuesIterator.next, advance_itAt hv, decide_eq_decide.mpr (ne_tableEnd hv)]
    rw [forEachFrom, readAt_itAt tab.values hv hi]
    dsimp only
    rw [TableKeysIterator.next, advance_itAt hk]
    obtain ⟨hend, hnone⟩ | ⟨m, hm, hnext, -, hlive⟩ := nextValid_spec (Nat.succ_le_of_lt hi)
    · rw [hend, key_end hk, Outcome.bind_ok, Outcome.bind_ok, hmore, hend, hnone]
      simp only [Outcome.bind_ok, ne_eq, not_true_eq_false, decide_false]
      rfl
    · rw [hnext, key_itAt hk hm, Outcome.bind_ok, Outcome.bind_ok, hmore, hnext, hlive]
      simp only [Outcome.bind_ok, ne_eq, hm.ne, not_false_eq_true, decide_true]
      have hlt : i + 1 ≤ m := by
        have hmem : m ∈ liveFrom tab (i + 1) := hlive ▸ List.mem_cons_self
        exact (List.mem_range'_1.mp (List.mem_of_mem_filter hmem)).1
      rw [ih hm (by omega), Outcome.bind_ok]
      rfl

theorem close_itAt {t t' : Table K V} (h : tableUnlock t = .ok () t') :
    close base (itAt base stride tab i) t = .ok () t' :=
  (if_neg (not_not.mpr rfl)).trans h

theorem keysFirst_live {t : Table K V} (hlock : tableLock tab = .ok () t) (hstride : 0 < stride)
    (hnext : nextValid t 0 = i) (hi : i < t.capacity) :
    TableKeysIterator.first base stride tab
      = .ok (itAt base stride t i, some (t.keys i), decide (t.size ≠ 0)) t := by
  have hstart : start base stride t = itAt base stride t (nextValid t 0) := rfl
  rw [TableKeysIterator.first, hlock, Outcome.bind_ok]
  dsimp only
  rw [hstart, hnext, key_itAt hstride hi, Outcome.bind_ok]

theorem keysFirst_end {t : Table K V} (hlock : tableLock tab = .ok () t) (hstride : 0 < stride)
    (hnext : nextValid t 0 = t.capacity) :
    TableKeysIterator.first base stride tab
      = .ok (itAt base stride t t.capacity, none, decide (t.size ≠ 0)) t := by
  have hstart : start base stride t = itAt base stride t (nextValid t 0) := rfl
  rw [TableKeysIterator.first, hlock, Outcome.bind_ok]
  dsimp only
  rw [hstart, hnext, key_end hstride, Outcome.bind_ok]

theorem valuesFirst {t : Table K V} (hlock : tableLock tab = .ok () t) :
    TableValuesIterator.first base stride tab
      = .ok (itAt base stride t (nextValid t 0), decide (t.size ≠ 0)) t := by
  rw [TableValuesIterator.first, hlock]
  rfl

theorem SameSlots.itAt {t : Table K V} (h : SameSlots tab t) (base stride i : ℕ) :
    itAt base stride t i = DaScript.itAt base stride tab i := by
  rw [DaScript.itAt, h.capacity, DaScript.itAt]

variable (keys keyStride values valueStride) in
theorem forEach_liveSlots (hk : 0 < keyStride) (hv : 0 < valueStride)
    (hsize : tab.size = 0 ↔ liveSlots tab = []) (hlock : Lockable 2 tab) :
    forEach keys keyStride values valueStride tab
      = .ok ((liveSlots tab).map fun i => (tab.keys i, tab.values i)) tab := by
  obtain ⟨t₁, hlock₁, h₁, hroom, hunlock₁⟩ := tableLock_spec hlock
  obtain ⟨t₂, hlock₂, h₂, -, hunlock₂⟩ := tableLock_spec hroom
  rw [forEach]
  obtain ⟨hend, hnone⟩ | ⟨m, hm, hnext, -, hlive⟩ := nextValid_spec (Nat.zero_le t₂.capacity)
  · have hempty : liveSlots tab = [] := by
      rw [← liveFrom_zero, ← h₁.liveFrom, ← h₂.liveFrom, hnone]
    have hzero := hsize.mpr hempty
    rw [keysFirst_end hlock₁ hk (by rw [← h₂.nextValid, hend, h₂.capacity]), Outcome.bind_ok]
    dsimp only
    rw [valuesFirst hlock₂, Outcome.bind_ok, h₂.size, h₁.size, hzero]
    simp only [ne_eq, not_true_eq_false, decide_false, Outcome.bind_ok]
    rw [close_itAt hunlock₂, Outcome.bind_ok, close_itAt hunlock₁, Outcome.bind_ok, hempty]
    rfl
  · have hslots : m :: liveFrom t₂ (m + 1) = liveSlots tab := by
      rw [← hlive, h₂.liveFrom, h₁.liveFrom, liveFrom_zero]
    have hne : tab.size ≠ 0 := fun h0 => by
      rw [hsize.mp h0] at hslots
      cases hslots
    rw [keysFirst_live hlock₁ hk (by rw [← h₂.nextValid, hnext]) (by rwa [← h₂.capacity]),
      Outcome.bind_ok]
    dsimp only
    rw [valuesFirst hlock₂, Outcome.bind_ok, h₂.size, h₁.size, hnext, ← h₂.itAt, ← h₂.keys]
    simp only [ne_eq, hne, not_false_eq_true, decide_true]
    rw [forEachFrom_spec hk hv hm (by omega), Outcome.bind_ok]
    dsimp only
    rw [close_itAt hunlock₂, Outcome.bind_ok, close_itAt hunlock₁, Outcome.bind_ok, hslots,
      h₂.keys, h₁.keys, h₂.values, h₁.values]

end Iterate

/-- **A loop over the keys and the values of a well-formed table** gives each live entry exactly
once, in the order of the slots, key and value of one slot together; it reads no slot at or past the
capacity, ends, and leaves the table as it was, lock and magic included. -/
theorem forEach_entries {T : KeyType K} {tab : Table K V} (hwf : WellFormed T tab)
    (hlock : Lockable 2 tab) (keys values : ℕ) {keyStride valueStride : ℕ} (hk : 0 < keyStride)
    (hv : 0 < valueStride) :
    ∃ slots : List ℕ, slots.Nodup ∧
      (∀ i, i ∈ slots ↔ i < tab.capacity ∧ (tab.cell T i).isLive = true) ∧
      slots.length = tab.size ∧
      forEach keys keyStride values valueStride tab
        = .ok (slots.map fun i => (tab.keys i, tab.values i)) tab ∧
      ∀ i ∈ slots, tab.cell T i = .live (tab.keys i) (tab.values i) := by
  have hcells : liveSlots tab = (List.range tab.capacity).filter fun i => (tab.cell T i).isLive :=
    List.filter_congr fun i hi => tableLiveSlot_eq hwf
      (Nat.ne_zero_of_lt (List.mem_range.mp hi)) i
  have hlength : (liveSlots tab).length = tab.size := by
    rw [hcells, hwf.size, tally_eq_length]
  have hmem : ∀ i, i ∈ liveSlots tab ↔ i < tab.capacity ∧ (tab.cell T i).isLive = true := by
    intro i
    rw [hcells, List.mem_filter, List.mem_range]
  refine ⟨liveSlots tab, List.nodup_range.filter _, hmem, hlength,
    forEach_liveSlots keys keyStride values valueStride hk hv ?_ hlock,
    fun i hi => cell_of_isLive ((hmem i).mp hi).2⟩
  rw [← hlength, List.length_eq_zero_iff]

theorem forEach_entries_two : ∃ tab : Table UInt64 ℕ, ∃ entries : List (UInt64 × ℕ),
    Reach uint64Key 4 .zero tab ∧ tab.tombstones = 1 ∧ entries.length = 2 ∧
      forEach 64 8 128 4 tab = .ok entries tab := by
  have hreach : Reach uint64Key 4 .zero
      (runOps uint64Key 4 [.put 1 5, .put 2 6, .put 3 7, .erase 2] (.zero : Table UInt64 ℕ)) :=
    reach_runOps _ _
  obtain ⟨slots, -, -, hlength, hrun, -⟩ := forEach_entries
    (hreach.wellFormed uint64Key_hash (wellFormed_zero uint64Key))
    (Or.inr ⟨Or.inl ⟨by decide, by decide⟩, by decide⟩) 64 128 (by decide : 0 < 8)
    (by decide : 0 < 4)
  exact ⟨_, _, hreach, by decide, by rw [List.length_map, hlength]; decide, hrun⟩

end DaScript

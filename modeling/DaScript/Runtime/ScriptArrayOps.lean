import DaScript.Runtime.ScriptArray

/-!
# Runtime/ScriptArrayOps — a script's arrays are lists

What an operation on an array owes the script: to raise an error and leave the array as it was, or
to act as the list operation of its name (`ArrayOp.Acts`).  Growing and shrinking are settled first
(`arrayReserve_spec`, `arrayResize_spec`, `arrayGrow_spec`), then each operation.
-/

namespace DaScript

/-- The elements of an array, as their bytes. -/
def ArrayState.elements (s : ArrayState) (stride : ℕ) : List (List UInt8) :=
  (List.range s.array.size).map fun i => bytes s.mem (s.array.data + i * stride) stride

/-- **A well-formed array** — its elements are in its block. -/
structure ArrayState.WellFormed (s : ArrayState) (stride : ℕ) : Prop where
  size_le : s.array.size ≤ s.array.capacity
  inside : s.array.data + s.array.capacity * stride ≤ addressSpace
  nonnull : 0 < s.array.capacity → s.array.data ≠ 0

/-- The operations of a script on an array, with their arguments. -/
inductive ArrayOp
  | resize (newSize : Int32)
  | resizeI64 (newSize : Int64)
  | resizeNoInit (newSize : Int32)
  | resizeNoInitI64 (newSize : Int64)
  | reserve (newSize : Int32)
  | reserveI64 (newSize : Int64)
  | clear
  | push (index : Int64)
  | pushZero (index : Int64)
  | pushBack
  | pushBackZero
  | erase (index : Int32)
  | eraseI64 (index : Int64)
  | eraseRange (index count : Int32)
  | eraseRangeI64 (index count : Int64)

namespace ArrayOp

/-- The call. -/
def run {mem : Memory} {block : Block} (heap : ArrayHeap mem block) (stride : ℕ) (s : ArrayState) :
    ArrayOp → Outcome ArrayState Unit
  | resize n => builtinArrayResize heap n.toInt stride s
  | resizeI64 n => builtinArrayResize heap n.toInt stride s
  | resizeNoInit n => builtinArrayResizeNoInit heap n.toInt stride s
  | resizeNoInitI64 n => builtinArrayResizeNoInit heap n.toInt stride s
  | reserve n => builtinArrayReserve heap n.toInt stride s
  | reserveI64 n => builtinArrayReserve heap n.toInt stride s
  | clear => builtinArrayClear s
  | push i => builtinArrayPush heap i.toInt stride s
  | pushZero i => builtinArrayPushZero heap i.toInt stride s
  | pushBack => builtinArrayPushBack heap stride s
  | pushBackZero => builtinArrayPushBackZero heap stride s
  | erase i => builtinArrayErase heap i.toInt stride s
  | eraseI64 i => builtinArrayEraseI64 heap i.toInt stride s
  | eraseRange i n => builtinArrayEraseRange heap i.toInt n.toInt stride s
  | eraseRangeI64 i n => builtinArrayEraseRange heap i.toInt n.toInt stride s

/-- An element of zeros. -/
def zeros (stride : ℕ) : List UInt8 := List.replicate stride 0

/-- The list operation `resize` is. -/
def ActsResize (stride : ℕ) (n : ℤ) (before after : List (List UInt8)) : Prop :=
  after = before.take n.toNat ++ List.replicate (n.toNat - before.length) (zeros stride)

/-- The list operation `resize_no_init` is: new elements are anything. -/
def ActsNoInit (n : ℤ) (before after : List (List UInt8)) : Prop :=
  ∃ fresh, fresh.length = n.toNat - before.length ∧ after = before.take n.toNat ++ fresh

/-- The list operation `erase_range` is. -/
def ActsErase (i n : ℤ) (before after : List (List UInt8)) : Prop :=
  after = before.take i.toNat ++ before.drop (i.toNat + n.toNat)

/-- **The list operation each call is.**  A pushed element is anything but for the zeroing
versions. -/
def Acts (stride : ℕ) (before after : List (List UInt8)) : ArrayOp → Prop
  | resize n => ActsResize stride n.toInt before after
  | resizeI64 n => ActsResize stride n.toInt before after
  | resizeNoInit n => ActsNoInit n.toInt before after
  | resizeNoInitI64 n => ActsNoInit n.toInt before after
  | reserve _ => after = before
  | reserveI64 _ => after = before
  | clear => after = []
  | push i => ∃ e, after = before.insertIdx i.toInt.toNat e
  | pushZero i => after = before.insertIdx i.toInt.toNat (zeros stride)
  | pushBack => ∃ e, after = before ++ [e]
  | pushBackZero => after = before ++ [zeros stride]
  | erase i => after = before.eraseIdx i.toInt.toNat
  | eraseI64 i => after = before.eraseIdx i.toInt.toNat
  | eraseRange i n => ActsErase i.toInt n.toInt before after
  | eraseRangeI64 i n => ActsErase i.toInt n.toInt before after

end ArrayOp

/-- **What the script is promised** of a call made in `s` — a script error that leaves the array and
its elements as they were, or a well-formed array and the elements `acts` says. -/
def Outcome.Lawful (stride : ℕ) (s : ArrayState)
    (acts : List (List UInt8) → List (List UInt8) → Prop) : Outcome ArrayState Unit → Prop
  | .ok _ s' => s'.WellFormed stride ∧ acts (s.elements stride) (s'.elements stride)
  | .error (.throw _) s' => s'.array = s.array ∧ s'.elements stride = s.elements stride
  | .error _ _ => False

/-! ## Elements -/

namespace ArrayState

variable {s s' : ArrayState} {stride : ℕ}

@[simp] theorem length_elements : (s.elements stride).length = s.array.size := by
  simp [elements]

theorem getElem_elements {i : ℕ} (hi : i < (s.elements stride).length) :
    (s.elements stride)[i] = bytes s.mem (s.array.data + i * stride) stride := by
  simp [elements]

theorem index_lt {i j n : ℕ} (hi : i < n) (hj : j < stride) : i * stride + j < n * stride :=
  calc i * stride + j < i * stride + stride := by omega
    _ = (i + 1) * stride := by rw [Nat.add_mul, Nat.one_mul]
    _ ≤ n * stride := Nat.mul_le_mul_right _ hi

theorem elements_inj (hsize : s'.array.size = s.array.size)
    (h : s'.elements stride = s.elements stride) {i : ℕ} (hi : i < s.array.size * stride) :
    s'.mem (s'.array.data + i) = s.mem (s.array.data + i) := by
  have hpos : 0 < stride := Nat.pos_of_ne_zero fun h0 => by rw [h0, Nat.mul_zero] at hi; omega
  have hq : i / stride < s.array.size := Nat.div_lt_of_lt_mul (by rwa [Nat.mul_comm])
  have hin' : i / stride < (s'.elements stride).length := by rwa [length_elements, hsize]
  have hin : i / stride < (s.elements stride).length := by rwa [length_elements]
  have hget : (s'.elements stride)[i / stride] = (s.elements stride)[i / stride] := by
    simp only [h]
  rw [getElem_elements, getElem_elements, bytes_inj] at hget
  have hat := hget (i % stride) (Nat.mod_lt _ hpos)
  rwa [Nat.add_assoc, Nat.add_assoc, Nat.div_add_mod'] at hat

theorem elements_congr (hsize : s'.array.size = s.array.size)
    (h : ∀ i < s.array.size * stride, s'.mem (s'.array.data + i) = s.mem (s.array.data + i)) :
    s'.elements stride = s.elements stride := by
  refine List.ext_getElem (by simp [hsize]) fun i hi _ => ?_
  rw [length_elements, hsize] at hi
  rw [getElem_elements, getElem_elements]
  refine bytes_congr fun j hj => ?_
  rw [Nat.add_assoc, Nat.add_assoc]
  exact h _ (index_lt hi hj)

theorem bytes_zeros {mem : Memory} {p : ℕ} (h : ∀ i < stride, mem (p + i) = 0) :
    bytes mem p stride = ArrayOp.zeros stride := by
  refine List.ext_getElem (by rw [length_bytes, ArrayOp.zeros, List.length_replicate]) ?_
  intro i hi _
  rw [length_bytes] at hi
  rw [getElem_bytes, h i hi]
  simp [ArrayOp.zeros]

end ArrayState

theorem ArrayState.WellFormed.size_lt {s : ArrayState} {stride : ℕ} (h : s.WellFormed stride)
    (hstride : 0 < stride) : s.array.size < int64Max := by
  have hcap : s.array.capacity * 1 ≤ s.array.capacity * stride := Nat.mul_le_mul_left _ hstride
  have hsize := h.size_le
  have hin := h.inside
  unfold addressSpace at hin
  unfold int64Max
  omega

/-! ## Growing -/

section Growing

variable {s : ArrayState} {stride : ℕ} (heap : ArrayHeap s.mem (s.block stride))

/-- An array moved to a larger block, or one that stayed where it was. -/
structure Moved (s : ArrayState) (stride newCapacity : ℕ) (s' : ArrayState) : Prop where
  wf : s'.WellFormed stride
  capacity : newCapacity ≤ s'.array.capacity
  size : s'.array.size = s.array.size
  lock : s'.array.lock = s.array.lock
  elements : s'.elements stride = s.elements stride

/-- The heap has room for the array's new block. -/
def ArrayHeap.Gives {mem : Memory} {block : Block} (heap : ArrayHeap mem block) (size : ℕ) : Prop :=
  size < 2 ^ 64 ∧
    (if heap.verySafeContext then heap.allocate size else heap.reallocate size).isSome

/-- The array has room for one more element, or gets it. -/
def ArrayState.Grows {mem : Memory} {block : Block} (s : ArrayState) (heap : ArrayHeap mem block)
    (stride : ℕ) : Prop :=
  s.array.capacity = s.array.size → heap.Gives (arrayCapacity (s.array.size + 1) * stride)

theorem newData_isSome (arr : ScriptArray) (n : ℕ) :
    (newData heap arr stride n).isSome
      = (if heap.verySafeContext then heap.allocate n else heap.reallocate n).isSome := by
  unfold newData
  by_cases hsafe : heap.verySafeContext = true
  · rw [if_pos hsafe, if_pos hsafe, Option.isSome_map]
  · rw [if_neg hsafe, if_neg hsafe]

theorem newData_spec (h : s.WellFormed stride) {memSize p : ℕ} {mem' : Memory}
    (hmem : s.array.capacity * stride ≤ memSize)
    (hnew : newData heap s.array stride memSize = some (p, mem')) :
    p ≠ 0 ∧ p + memSize ≤ addressSpace ∧
      ∀ i < s.array.size * stride, mem' (p + i) = s.mem (s.array.data + i) := by
  have hsize : s.array.size * stride ≤ s.array.capacity * stride :=
    Nat.mul_le_mul_right _ h.size_le
  unfold newData at hnew
  by_cases hsafe : heap.verySafeContext = true
  · rw [if_pos hsafe] at hnew
    obtain ⟨⟨q, m⟩, hq, heq⟩ := Option.map_eq_some_iff.mp hnew
    obtain ⟨rfl, rfl⟩ := Prod.mk.inj heq
    obtain ⟨hp, hspace, hkeep⟩ := heap.allocate_keeps hq
    refine ⟨hp, hspace, fun i hi => ?_⟩
    have hdata : s.array.data ≠ 0 := by
      refine h.nonnull (Nat.pos_of_ne_zero fun h0 => ?_)
      rw [h0, Nat.zero_mul] at hsize
      omega
    rw [if_pos hdata, memcpy_of_mem _ hi]
    exact hkeep i (lt_of_lt_of_le hi hsize)
  · rw [if_neg hsafe] at hnew
    obtain ⟨hp, hspace, hmoves⟩ := heap.reallocate_moves hnew
    exact ⟨hp, hspace, fun i hi => hmoves i (lt_of_lt_of_le hi hsize) (by omega)⟩

theorem arrayReserve_spec (h : s.WellFormed stride) (hstride : 0 < stride) (newCapacity : ℕ) :
    (∃ s', arrayReserve heap newCapacity stride s = .ok () s' ∧ Moved s stride newCapacity s' ∧
        (s.array.capacity < newCapacity → heap.Gives (newCapacity * stride))) ∨
      ∃ msg, arrayReserve heap newCapacity stride s = throwAt msg s ∧
        (s.array.isLocked = true ∨
          s.array.capacity < newCapacity ∧ ¬ heap.Gives (newCapacity * stride)) := by
  unfold arrayReserve
  by_cases hlock : s.array.isLocked = true
  · exact Or.inr ⟨_, if_pos hlock, Or.inl hlock⟩
  rw [if_neg hlock]
  by_cases hcap : newCapacity ≤ s.array.capacity
  · exact Or.inl ⟨s, if_pos hcap, ⟨h, hcap, rfl, rfl, rfl⟩, by omega⟩
  rw [if_neg hcap]
  have hdiv : newCapacity > (2 ^ 64 - 1) / stride ↔ 2 ^ 64 - 1 < newCapacity * stride :=
    Nat.div_lt_iff_lt_mul hstride
  by_cases hover : stride ≠ 0 ∧ newCapacity > (2 ^ 64 - 1) / stride
  · refine Or.inr ⟨_, if_pos hover, Or.inr ⟨by omega, fun hgives => ?_⟩⟩
    have hlarge := hdiv.mp hover.2
    have := hgives.1
    omega
  rw [if_neg hover]
  have hfits : newCapacity * stride < 2 ^ 64 := by
    by_contra hno
    exact hover ⟨by omega, hdiv.mpr (by omega)⟩
  have hsome := newData_isSome heap s.array (newCapacity * stride)
  cases hnew : newData heap s.array stride (newCapacity * stride) with
  | none =>
    refine Or.inr ⟨_, rfl, Or.inr ⟨by omega, fun hgives => ?_⟩⟩
    rw [hnew, hgives.2] at hsome
    exact Bool.noConfusion hsome
  | some r =>
    obtain ⟨p, mem'⟩ := r
    obtain ⟨hp, hspace, hmoved⟩ :=
      newData_spec heap h (Nat.mul_le_mul_right _ (by omega)) hnew
    have hwf : ArrayState.WellFormed ⟨{ s.array with data := p, capacity := newCapacity }, mem'⟩
        stride :=
      ⟨h.size_le.trans (Nat.le_of_lt (Nat.lt_of_not_le hcap)), hspace, fun _ => hp⟩
    refine Or.inl ⟨_, rfl, ⟨hwf, le_rfl, rfl, rfl, ArrayState.elements_congr rfl hmoved⟩, ?_⟩
    rw [hnew] at hsome
    exact fun _ => ⟨hfits, hsome.symm⟩

theorem arrayRoom_spec (h : s.WellFormed stride) (hstride : 0 < stride) {newSize : ℕ}
    (hmax : newSize ≤ int64Max) (hlock : s.array.isLocked = false) :
    (∃ s', arrayRoom heap newSize stride s = .ok () s' ∧ Moved s stride newSize s' ∧
        (s.array.capacity < newSize → heap.Gives (arrayCapacity newSize * stride))) ∨
      ∃ msg, arrayRoom heap newSize stride s = throwAt msg s ∧
        s.array.capacity < newSize ∧ ¬ heap.Gives (arrayCapacity newSize * stride) := by
  unfold arrayRoom
  by_cases hcap : s.array.capacity < newSize
  · have hle := le_arrayCapacity hmax
    rw [if_pos hcap]
    rcases arrayReserve_spec heap h hstride (arrayCapacity newSize) with
      ⟨s', hrun, hmoved, hgives⟩ | ⟨msg, hrun, hwhy⟩
    · exact Or.inl ⟨s', hrun, { hmoved with capacity := hle.trans hmoved.capacity },
        fun _ => hgives (by omega)⟩
    · refine Or.inr ⟨msg, hrun, hcap, ?_⟩
      rcases hwhy with hl | ⟨-, hno⟩
      · rw [hlock] at hl
        exact Bool.noConfusion hl
      · exact hno
  · rw [if_neg hcap]
    exact Or.inl ⟨s, rfl, ⟨h, by omega, rfl, rfl, rfl⟩, by omega⟩

theorem arrayGrow_spec (h : s.WellFormed stride) (hstride : 0 < stride) :
    (∃ s', arrayGrow heap stride s
          = .ok () { s' with array := { s'.array with size := s.array.size + 1 } } ∧
        Moved s stride (s.array.size + 1) s' ∧ s.array.isLocked = false ∧ s.Grows heap stride) ∨
      ∃ msg, arrayGrow heap stride s = throwAt msg s ∧
        (s.array.isLocked = true ∨ ¬ s.Grows heap stride) := by
  unfold arrayGrow
  by_cases hlock : s.array.isLocked = true
  · exact Or.inr ⟨_, if_pos hlock, Or.inl hlock⟩
  have hunlocked : s.array.isLocked = false := Bool.eq_false_iff.mpr hlock
  have hmax : s.array.size + 1 ≤ int64Max := h.size_lt hstride
  rw [if_neg hlock, if_neg (by omega)]
  have hfull : s.array.capacity < s.array.size + 1 ↔ s.array.capacity = s.array.size := by
    have := h.size_le
    omega
  rcases arrayRoom_spec heap h hstride hmax hunlocked with
    ⟨s', hrun, hmoved, hgives⟩ | ⟨msg, hrun, hcap, hno⟩
  · refine Or.inl ⟨s', ?_, hmoved, hunlocked, fun hcap => hgives (hfull.mpr hcap)⟩
    rw [hrun, Outcome.bind_ok, hmoved.size]
  · refine Or.inr ⟨msg, ?_, Or.inr fun hgrows => hno (hgrows (hfull.mp hcap))⟩
    rw [hrun]
    rfl

end Growing

/-! ## Moving elements -/

section Moving

variable {s : ArrayState} {stride : ℕ}

@[simp] theorem closeGap_array (i n stride : ℕ) (s : ArrayState) :
    (closeGap i n stride s).array = s.array := rfl

theorem elements_closeGap {i n : ℕ} (hin : i + n ≤ s.array.size) :
    ArrayState.elements
        { closeGap i n stride s with array := { s.array with size := s.array.size - n } } stride
      = (s.elements stride).take i ++ (s.elements stride).drop (i + n) := by
  refine List.ext_getElem (by simp; omega) fun j hj _ => ?_
  have hj : j < s.array.size - n := by simpa using hj
  rw [ArrayState.getElem_elements]
  rcases Nat.lt_or_ge j i with hji | hij
  · rw [List.getElem_append_left (by simp; omega), List.getElem_take, ArrayState.getElem_elements]
    refine bytes_congr fun k hk => ?_
    have := ArrayState.index_lt hji hk
    exact memcpy_of_notMem _ (by change s.array.data + j * stride + k < _ ∨ _; omega)
  · obtain ⟨d, rfl⟩ := Nat.exists_eq_add_of_le hij
    rw [List.getElem_append_right (by simp), List.getElem_drop, ArrayState.getElem_elements]
    refine bytes_congr fun k hk => ?_
    have hlt : d * stride + k < (s.array.size - i - n) * stride :=
      ArrayState.index_lt (by omega) hk
    have hdst : s.array.data + (i + d) * stride + k
        = s.array.data + i * stride + (d * stride + k) := by ring
    have hlen : ((s.elements stride).take i).length = i := by simp; omega
    have hsrc : s.array.data + (i + n + (i + d - ((s.elements stride).take i).length)) * stride + k
        = s.array.data + (i + n) * stride + (d * stride + k) := by
      rw [hlen, Nat.add_sub_cancel_left]
      ring
    rw [hsrc]
    change memcpy _ _ _ _ (s.array.data + (i + d) * stride + k) = _
    rw [hdst, memcpy_of_mem _ hlt]

theorem elements_openGap {i : ℕ} (hi : i ≤ s.array.size) {mem : Memory}
    (hmem : ∀ a, a < s.array.data + i * stride ∨ s.array.data + (i + 1) * stride ≤ a →
      mem a = (openGap i s.array.size stride s).mem a) :
    ArrayState.elements ⟨{ s.array with size := s.array.size + 1 }, mem⟩ stride
      = (s.elements stride).insertIdx i (bytes mem (s.array.data + i * stride) stride) := by
  have hlen : i ≤ (s.elements stride).length := by rw [ArrayState.length_elements]; exact hi
  refine List.ext_getElem ?_ fun j hj hj' => ?_
  · rw [List.length_insertIdx_of_le_length hlen, ArrayState.length_elements,
      ArrayState.length_elements]
  have hj : j < s.array.size + 1 := by simpa using hj
  rw [ArrayState.getElem_elements]
  rcases Nat.lt_trichotomy j i with hji | rfl | hij
  · rw [List.getElem_insertIdx_of_lt hji, ArrayState.getElem_elements]
    refine bytes_congr fun k hk => ?_
    have hlt := ArrayState.index_lt hji hk
    have hnext : (i + 1) * stride = i * stride + stride := by ring
    change mem (s.array.data + j * stride + k) = _
    rw [hmem _ (Or.inl (by omega))]
    exact memcpy_of_notMem _ (Or.inl (by omega))
  · rw [List.getElem_insertIdx_self]
  · obtain ⟨d, rfl⟩ := Nat.exists_eq_add_of_lt hij
    rw [List.getElem_insertIdx_of_gt (by omega), ArrayState.getElem_elements]
    refine bytes_congr fun k hk => ?_
    have hlt : d * stride + k < (s.array.size - i) * stride := ArrayState.index_lt (by omega) hk
    have hdst : s.array.data + (i + d + 1) * stride + k
        = s.array.data + (i + 1) * stride + (d * stride + k) := by ring
    have hsrc : s.array.data + (i + d + 1 - 1) * stride + k
        = s.array.data + i * stride + (d * stride + k) := by
      rw [Nat.add_sub_cancel]
      ring
    rw [hsrc]
    change mem (s.array.data + (i + d + 1) * stride + k) = _
    rw [hdst, hmem _ (Or.inr (by omega))]
    exact memcpy_of_mem _ hlt

end Moving

/-! ## The operations -/

section Operations

variable {s : ArrayState} {stride : ℕ} (heap : ArrayHeap s.mem (s.block stride))

theorem Outcome.Lawful.imp {out : Outcome ArrayState Unit}
    {acts acts' : List (List UInt8) → List (List UInt8) → Prop}
    (himp : ∀ after, acts (s.elements stride) after → acts' (s.elements stride) after)
    (h : out.Lawful stride s acts) : out.Lawful stride s acts' := by
  cases out with
  | ok _ s' => exact ⟨h.1, himp _ h.2⟩
  | error e s' =>
    cases e with
    | throw msg => exact h
    | _ => exact h

theorem lawful_throw {msg : String} {acts : List (List UInt8) → List (List UInt8) → Prop} :
    (throwAt msg s).Lawful stride s acts := ⟨rfl, rfl⟩

theorem lawful_clear (h : s.WellFormed stride) :
    (arrayClear s).Lawful stride s fun _ after => after = [] := by
  unfold arrayClear
  split_ifs with hlock
  · exact lawful_throw
  · exact ⟨⟨Nat.zero_le _, h.inside, h.nonnull⟩, rfl⟩

theorem lawful_reserve (h : s.WellFormed stride) (hstride : 0 < stride) (n : ℤ) :
    (builtinArrayReserve heap n stride s).Lawful stride s fun before after => after = before := by
  unfold builtinArrayReserve
  split_ifs with hn
  · exact ⟨h, rfl⟩
  · rcases arrayReserve_spec heap h hstride n.toNat with ⟨s', hrun, hmoved, -⟩ | ⟨msg, hrun, -⟩
    · rw [hrun]
      exact ⟨hmoved.wf, hmoved.elements⟩
    · rw [hrun]
      exact lawful_throw

theorem elements_resize {s' : ArrayState} {n : ℕ} (hmoved : Moved s stride n s') {mem' : Memory}
    (hmem : ∀ i < s.array.size * stride, mem' (s'.array.data + i) = s'.mem (s'.array.data + i)) :
    ArrayState.elements ⟨{ s'.array with size := n }, mem'⟩ stride
      = (s.elements stride).take n
        ++ (List.range (n - s.array.size)).map fun i =>
          bytes mem' (s'.array.data + (s.array.size + i) * stride) stride := by
  refine List.ext_getElem (by simp; omega) fun i hi _ => ?_
  have hi : i < n := by simpa using hi
  rw [ArrayState.getElem_elements]
  rcases Nat.lt_or_ge i s.array.size with hlt | hge
  · have hold : i < (s'.elements stride).length := by simpa [hmoved.size] using hlt
    rw [List.getElem_append_left (by simp; omega), List.getElem_take]
    simp only [← hmoved.elements]
    rw [ArrayState.getElem_elements]
    refine bytes_congr fun k hk => ?_
    rw [Nat.add_assoc]
    exact hmem _ (ArrayState.index_lt hlt hk)
  · have hlen : ((s.elements stride).take n).length = s.array.size := by simp; omega
    rw [List.getElem_append_right (by rw [hlen]; exact hge), List.getElem_map, List.getElem_range,
      hlen, Nat.add_sub_cancel' hge]

theorem lawful_arrayResize (h : s.WellFormed stride) (hstride : 0 < stride) (n : ℕ) (zero : Bool) :
    (arrayResize heap n stride zero s).Lawful stride s fun before after =>
      ∃ fresh, fresh.length = n - before.length ∧
        (zero = true → fresh = List.replicate (n - before.length) (ArrayOp.zeros stride)) ∧
        after = before.take n ++ fresh := by
  unfold arrayResize
  by_cases hlock : s.array.isLocked = true
  · rw [if_pos hlock]
    exact lawful_throw
  by_cases hmax : int64Max < n
  · rw [if_neg hlock, if_pos hmax]
    exact lawful_throw
  rw [if_neg hlock, if_neg hmax]
  rcases arrayRoom_spec heap h hstride (Nat.le_of_not_lt hmax) (Bool.eq_false_iff.mpr hlock) with
    ⟨s', hrun, hmoved, -⟩ | ⟨msg, hrun, -⟩
  · rw [hrun, Outcome.bind_ok]
    refine ⟨⟨hmoved.capacity, hmoved.wf.inside, hmoved.wf.nonnull⟩,
      _, ?_, ?_, elements_resize hmoved ?_⟩
    · simp
    · intro hzero
      refine List.ext_getElem (by simp) fun i hi _ => ?_
      have hi : i < n - s.array.size := by simpa using hi
      rw [List.getElem_map, List.getElem_range, List.getElem_replicate]
      refine ArrayState.bytes_zeros fun k hk => ?_
      have hlt := ArrayState.index_lt hi hk
      have hpos : s'.array.data + (s.array.size + i) * stride + k
          = s'.array.data + s.array.size * stride + (i * stride + k) := by ring
      rw [hmoved.size, if_pos ⟨hzero, by omega⟩, hpos]
      exact memset_of_mem _ hlt
    · intro i hi
      split_ifs with hset
      · rw [hmoved.size]
        exact memset_of_notMem _ (Or.inl (by omega))
      · rfl
  · rw [hrun]
    exact lawful_throw

theorem lawful_resize (h : s.WellFormed stride) (hstride : 0 < stride) (n : ℤ) :
    (builtinArrayResize heap n stride s).Lawful stride s (ArrayOp.ActsResize stride n) := by
  unfold builtinArrayResize
  split_ifs with hn
  · exact lawful_throw
  · refine (lawful_arrayResize heap h hstride n.toNat true).imp ?_
    rintro after ⟨fresh, -, hzero, rfl⟩
    rw [hzero rfl]
    rfl

theorem lawful_resizeNoInit (h : s.WellFormed stride) (hstride : 0 < stride) (n : ℤ) :
    (builtinArrayResizeNoInit heap n stride s).Lawful stride s (ArrayOp.ActsNoInit n) := by
  unfold builtinArrayResizeNoInit
  split_ifs with hn
  · exact lawful_throw
  · refine (lawful_arrayResize heap h hstride n.toNat false).imp ?_
    rintro after ⟨fresh, hlen, -, hafter⟩
    exact ⟨fresh, hlen, hafter⟩

theorem elements_pushBack {s' : ArrayState} (hmoved : Moved s stride (s.array.size + 1) s')
    {mem' : Memory}
    (hmem : ∀ i < s.array.size * stride, mem' (s'.array.data + i) = s'.mem (s'.array.data + i)) :
    ArrayState.elements ⟨{ s'.array with size := s.array.size + 1 }, mem'⟩ stride
      = s.elements stride ++ [bytes mem' (s'.array.data + s.array.size * stride) stride] := by
  rw [elements_resize hmoved hmem, List.take_of_length_le (by simp), Nat.add_sub_cancel_left]
  rfl

theorem lawful_pushBack (h : s.WellFormed stride) (hstride : 0 < stride) :
    (builtinArrayPushBack heap stride s).Lawful stride s
      fun before after => ∃ e, after = before ++ [e] := by
  unfold builtinArrayPushBack
  rcases arrayGrow_spec heap h hstride with ⟨s', hrun, hmoved, -⟩ | ⟨msg, hrun, -⟩
  · rw [hrun]
    exact ⟨⟨hmoved.capacity, hmoved.wf.inside, hmoved.wf.nonnull⟩, _,
      elements_pushBack hmoved fun _ _ => rfl⟩
  · rw [hrun]
    exact lawful_throw

theorem lawful_pushBackZero (h : s.WellFormed stride) (hstride : 0 < stride) :
    (builtinArrayPushBackZero heap stride s).Lawful stride s
      fun before after => after = before ++ [ArrayOp.zeros stride] := by
  unfold builtinArrayPushBackZero
  rcases arrayGrow_spec heap h hstride with ⟨s', hrun, hmoved, -⟩ | ⟨msg, hrun, -⟩
  · rw [hrun, Outcome.bind_ok]
    refine ⟨⟨hmoved.capacity, hmoved.wf.inside, hmoved.wf.nonnull⟩, ?_⟩
    have hzero : bytes (memset s'.mem (s'.array.data + s.array.size * stride) stride)
        (s'.array.data + s.array.size * stride) stride = ArrayOp.zeros stride :=
      ArrayState.bytes_zeros fun i hi => memset_of_mem _ hi
    rw [← hzero]
    refine elements_pushBack hmoved fun i hi => ?_
    exact memset_of_notMem _ (Or.inl (Nat.add_lt_add_left hi _))
  · rw [hrun]
    exact lawful_throw

theorem asUInt64_eq {i : ℤ} (h0 : 0 ≤ i) (hi : i < 2 ^ 63) : asUInt64 i = i.toNat := by
  unfold asUInt64
  rw [Int.emod_eq_of_lt h0 (by omega)]

theorem asUInt64_of_neg {i : ℤ} (h0 : i < 0) (hi : -2 ^ 63 ≤ i) : 2 ^ 63 ≤ asUInt64 i := by
  unfold asUInt64
  omega

theorem lawful_push_iff (h : s.WellFormed stride) (hstride : 0 < stride) (i : Int64) (msg : String)
    {insert : ArrayState → ArrayState} {acts : List (List UInt8) → List (List UInt8) → Prop}
    (hinsert : ∀ s', Moved s stride (s.array.size + 1) s' → asUInt64 i.toInt = i.toInt.toNat →
      i.toInt.toNat ≤ s.array.size →
      (insert { s' with array := { s'.array with size := s.array.size + 1 } }).WellFormed stride ∧
        acts (s.elements stride)
          ((insert { s' with array := { s'.array with size := s.array.size + 1 } }).elements
            stride)) :
    (((arrayGrow heap stride s).bind fun _ s =>
        if s.array.size ≤ asUInt64 i.toInt then throwAt msg s else .ok () (insert s)).Lawful
          stride s acts) ↔
      (s.array.isLocked = false → s.Grows heap stride →
        0 ≤ i.toInt ∧ i.toInt ≤ s.array.size) := by
  have hsmall : s.array.size < 2 ^ 63 - 1 := h.size_lt hstride
  have hlo : -2 ^ 63 ≤ i.toInt := i.le_toInt
  have hhi : i.toInt < 2 ^ 63 := i.toInt_lt
  rcases arrayGrow_spec heap h hstride with ⟨s', hrun, hmoved, hfree, hgrows⟩ | ⟨msg', hrun, hwhy⟩
  · rw [hrun, Outcome.bind_ok]
    by_cases hrange : s.array.size + 1 ≤ asUInt64 i.toInt
    · rw [if_pos hrange]
      refine iff_of_false (fun hlaw => ?_) fun hfit => ?_
      · have hsize : s.array.size + 1 = s.array.size := congrArg ScriptArray.size hlaw.1
        omega
      · obtain ⟨h0, hle⟩ := hfit hfree hgrows
        rw [asUInt64_eq h0 hhi] at hrange
        omega
    · rw [if_neg hrange]
      have h0 : 0 ≤ i.toInt := by
        by_contra hneg
        have := asUInt64_of_neg (Int.not_le.mp hneg) hlo
        omega
      have heq := asUInt64_eq h0 hhi
      rw [heq] at hrange
      exact iff_of_true (hinsert s' hmoved heq (by omega)) fun _ _ => ⟨h0, by omega⟩
  · rw [hrun]
    refine iff_of_true lawful_throw fun hfree hgrows => ?_
    rcases hwhy with hlock | hno
    · rw [hfree] at hlock
      exact Bool.noConfusion hlock
    · exact absurd hgrows hno

/-- The elements behind the `n` at `i` have the bytes of those they are moved to. -/
def ArrayState.Still (s : ArrayState) (stride i n : ℕ) : Prop :=
  ∀ k < (s.array.size - i - n) * stride,
    s.mem (s.array.data + (i + n) * stride + k) = s.mem (s.array.data + i * stride + k)

theorem elements_closeGap_iff {i n : ℕ} (hin : i + n ≤ s.array.size) :
    (closeGap i n stride s).elements stride = s.elements stride ↔ s.Still stride i n := by
  have hend : i * stride + (s.array.size - i - n) * stride ≤ s.array.size * stride := by
    rw [← Nat.add_mul]
    exact Nat.mul_le_mul_right _ (by omega)
  refine ⟨fun heq k hk => ?_, fun hstill => ?_⟩
  · have hlt : i * stride + k < s.array.size * stride := by omega
    have hat := ArrayState.elements_inj (closeGap_array i n stride s ▸ rfl) heq hlt
    simp only [← Nat.add_assoc] at hat
    rw [← hat]
    exact (memcpy_of_mem _ hk).symm
  · refine ArrayState.elements_congr rfl fun j _ => ?_
    change memcpy _ _ _ _ (s.array.data + j) = _
    by_cases hmid : i * stride ≤ j ∧ j < i * stride + (s.array.size - i - n) * stride
    · obtain ⟨k, rfl⟩ := Nat.exists_eq_add_of_le hmid.1
      rw [← Nat.add_assoc, memcpy_of_mem _ (by omega)]
      exact hstill k (by omega)
    · exact memcpy_of_notMem _ (by omega)

theorem lawful_erase_iff (h : s.WellFormed stride) (hstride : 0 < stride) {i n : ℕ}
    (hin : i + n ≤ s.array.size) :
    ((arrayResize heap (s.array.size - n) stride false (closeGap i n stride s)).Lawful stride s
        fun before after => after = before.take i ++ before.drop (i + n)) ↔
      (s.array.isLocked = true → s.Still stride i n) := by
  unfold arrayResize
  by_cases hlock : s.array.isLocked = true
  · rw [if_pos (show (closeGap i n stride s).array.isLocked = true from hlock)]
    rw [forall_prop_of_true hlock, ← elements_closeGap_iff hin]
    exact and_iff_right rfl
  · have hmax := h.size_lt hstride
    have hcap : ¬ s.array.capacity < s.array.size - n := by have := h.size_le; omega
    rw [closeGap_array, if_neg hlock, if_neg (by omega), arrayRoom, closeGap_array, if_neg hcap]
    refine iff_of_true ⟨⟨?_, h.inside, h.nonnull⟩, elements_closeGap hin⟩ fun hl => absurd hl hlock
    exact (Nat.sub_le _ _).trans h.size_le

/-- **Where an operation keeps its promise** — everywhere, but for three kinds of calls. -/
def ArrayOp.Fits {mem : Memory} {block : Block} (heap : ArrayHeap mem block) (stride : ℕ)
    (s : ArrayState) : ArrayOp → Prop
  | push i => s.array.isLocked = false → s.Grows heap stride → 0 ≤ i.toInt ∧ i.toInt ≤ s.array.size
  | pushZero i =>
    s.array.isLocked = false → s.Grows heap stride → 0 ≤ i.toInt ∧ i.toInt ≤ s.array.size
  | erase i =>
    0 ≤ i.toInt → i.toInt < s.array.size →
      (i.toInt + 1) * stride < 2 ^ 31 ∧ (s.array.isLocked = true → s.Still stride i.toInt.toNat 1)
  | eraseI64 i =>
    0 ≤ i.toInt → i.toInt < s.array.size →
      s.array.isLocked = true → s.Still stride i.toInt.toNat 1
  | eraseRange i n =>
    0 ≤ i.toInt → 0 ≤ n.toInt → i.toInt + n.toInt ≤ s.array.size →
      s.array.isLocked = true → s.Still stride i.toInt.toNat n.toInt.toNat
  | eraseRangeI64 i n =>
    0 ≤ i.toInt → 0 ≤ n.toInt → i.toInt + n.toInt ≤ s.array.size →
      s.array.isLocked = true → s.Still stride i.toInt.toNat n.toInt.toNat
  | _ => True

theorem lawful_eraseI64_iff (h : s.WellFormed stride) (hstride : 0 < stride) (i : ℤ) :
    (builtinArrayEraseI64 heap i stride s).Lawful stride s
        (fun before after => after = before.eraseIdx i.toNat) ↔
      (0 ≤ i → i < s.array.size → s.array.isLocked = true → s.Still stride i.toNat 1) := by
  unfold builtinArrayEraseI64
  by_cases hrange : i < 0 ∨ (s.array.size : ℤ) ≤ i
  · rw [if_pos hrange]
    exact iff_of_true lawful_throw fun h0 hlt => absurd hrange (by omega)
  · rw [if_neg hrange, forall_prop_of_true (by omega), forall_prop_of_true (by omega),
      ← lawful_erase_iff heap h hstride (by omega)]
    simp only [List.eraseIdx_eq_take_drop_succ]
    rfl

theorem lawful_erase32_iff (h : s.WellFormed stride) (hstride : 0 < stride) (i : ℤ) :
    (builtinArrayErase heap i stride s).Lawful stride s
        (fun before after => after = before.eraseIdx i.toNat) ↔
      (0 ≤ i → i < s.array.size →
        (i + 1) * stride < 2 ^ 31 ∧ (s.array.isLocked = true → s.Still stride i.toNat 1)) := by
  have h64 := lawful_eraseI64_iff heap h hstride i
  unfold builtinArrayEraseI64 at h64
  unfold builtinArrayErase
  by_cases hrange : i < 0 ∨ (s.array.size : ℤ) ≤ i
  · rw [if_pos hrange]
    exact iff_of_true lawful_throw fun h0 hlt => absurd hrange (by omega)
  rw [if_neg hrange] at h64 ⊢
  rw [forall_prop_of_true (by omega), forall_prop_of_true (by omega)] at h64 ⊢
  have hmul : i + 1 ≤ (i + 1) * stride :=
    le_mul_of_one_le_right (by omega) (by exact_mod_cast hstride)
  by_cases hover : 2 ^ 31 ≤ i + 1 ∨ 2 ^ 31 ≤ (i + 1) * stride
  · rw [if_pos hover]
    exact iff_of_false (fun hlaw => hlaw) fun hfit => by omega
  · rw [if_neg hover]
    exact h64.trans (and_iff_right (by omega)).symm

theorem lawful_eraseRange_iff (h : s.WellFormed stride) (hstride : 0 < stride) (i n : ℤ) :
    (builtinArrayEraseRange heap i n stride s).Lawful stride s (ArrayOp.ActsErase i n) ↔
      (0 ≤ i → 0 ≤ n → i + n ≤ s.array.size →
        s.array.isLocked = true → s.Still stride i.toNat n.toNat) := by
  unfold builtinArrayEraseRange
  by_cases hrange : i < 0 ∨ n < 0 ∨ (s.array.size : ℤ) < i + n
  · rw [if_pos hrange]
    exact iff_of_true lawful_throw fun h0 h1 hle => absurd hrange (by omega)
  · rw [if_neg hrange, forall_prop_of_true (by omega), forall_prop_of_true (by omega),
      forall_prop_of_true (by omega), ← lawful_erase_iff heap h hstride (by omega)]
    rfl

theorem lawful_push (h : s.WellFormed stride) (hstride : 0 < stride) (i : Int64) :
    (builtinArrayPush heap i.toInt stride s).Lawful stride s
        (fun before after => ∃ e, after = before.insertIdx i.toInt.toNat e) ↔
      (s.array.isLocked = false → s.Grows heap stride → 0 ≤ i.toInt ∧ i.toInt ≤ s.array.size) := by
  refine lawful_push_iff heap h hstride i _ fun s' hmoved heq hi => ?_
  refine ⟨⟨hmoved.capacity, hmoved.wf.inside, hmoved.wf.nonnull⟩,
    bytes (openGap i.toInt.toNat s'.array.size stride s').mem
      (s'.array.data + i.toInt.toNat * stride) stride, ?_⟩
  rw [heq, ← hmoved.elements, ← hmoved.size]
  exact elements_openGap (by rw [hmoved.size]; exact hi) fun _ _ => rfl

theorem lawful_pushZero (h : s.WellFormed stride) (hstride : 0 < stride) (i : Int64) :
    (builtinArrayPushZero heap i.toInt stride s).Lawful stride s
        (fun before after =>
          after = before.insertIdx i.toInt.toNat (ArrayOp.zeros stride)) ↔
      (s.array.isLocked = false → s.Grows heap stride → 0 ≤ i.toInt ∧ i.toInt ≤ s.array.size) := by
  refine lawful_push_iff heap h hstride i _ fun s' hmoved heq hi => ?_
  refine ⟨⟨hmoved.capacity, hmoved.wf.inside, hmoved.wf.nonnull⟩, ?_⟩
  have hzero : ∀ mem : Memory, bytes (memset mem (s'.array.data + i.toInt.toNat * stride) stride)
      (s'.array.data + i.toInt.toNat * stride) stride = ArrayOp.zeros stride := fun mem =>
    ArrayState.bytes_zeros fun k hk => memset_of_mem _ hk
  rw [heq, ← hmoved.elements, ← hmoved.size,
    ← hzero (openGap i.toInt.toNat s'.array.size stride s').mem]
  refine elements_openGap (by rw [hmoved.size]; exact hi) fun a ha => ?_
  rw [Nat.add_mul, Nat.one_mul] at ha
  change memset _ (s'.array.data + i.toInt.toNat * stride) stride a = _
  exact memset_of_notMem _ (by omega)

/-- **Script arrays refine lists, and a failing operation changes nothing** — exactly where the call
is none of these: a push at an index out of range that the array grows for, an erase of a locked
array that moves bytes, a 32-bit erase whose `(index+1)*stride` is no `int`. -/
theorem array_op_iff (op : ArrayOp) (h : s.WellFormed stride) (hstride : 0 < stride) :
    (op.run heap stride s).Lawful stride s (fun before after => op.Acts stride before after) ↔
      op.Fits heap stride s := by
  cases op with
  | resize n => exact iff_of_true (lawful_resize heap h hstride _) trivial
  | resizeI64 n => exact iff_of_true (lawful_resize heap h hstride _) trivial
  | resizeNoInit n => exact iff_of_true (lawful_resizeNoInit heap h hstride _) trivial
  | resizeNoInitI64 n => exact iff_of_true (lawful_resizeNoInit heap h hstride _) trivial
  | reserve n => exact iff_of_true (lawful_reserve heap h hstride _) trivial
  | reserveI64 n => exact iff_of_true (lawful_reserve heap h hstride _) trivial
  | clear => exact iff_of_true (lawful_clear h) trivial
  | push i => exact lawful_push heap h hstride i
  | pushZero i => exact lawful_pushZero heap h hstride i
  | pushBack => exact iff_of_true (lawful_pushBack heap h hstride) trivial
  | pushBackZero => exact iff_of_true (lawful_pushBackZero heap h hstride) trivial
  | erase i => exact lawful_erase32_iff heap h hstride _
  | eraseI64 i => exact lawful_eraseI64_iff heap h hstride _
  | eraseRange i n => exact lawful_eraseRange_iff heap h hstride _ _
  | eraseRangeI64 i n => exact lawful_eraseRange_iff heap h hstride _ _

end Operations

/-- A heap that is full. -/
def fullHeap (s : ArrayState) : ArrayHeap s.mem (s.block 1) where
  verySafeContext := false
  reallocate := fun _ => none
  allocate := fun _ => none
  reallocate_moves := fun h => nomatch h
  allocate_keeps := fun h => nomatch h

/-- Two elements of a byte, 0 and 1, in a block of `capacity` bytes. -/
def twoBytes (capacity lock : ℕ) : ArrayState :=
  ⟨⟨4096, 2, capacity, lock⟩, fun a => if a = 4097 then 1 else 0⟩

theorem twoBytes_wf {capacity lock : ℕ} (h2 : 2 ≤ capacity) (hcap : capacity ≤ 16) :
    (twoBytes capacity lock).WellFormed 1 :=
  ⟨h2, by change 4096 + capacity * 1 ≤ 2 ^ 48; omega, fun _ => Nat.succ_ne_zero 4095⟩

theorem array_op_iff_push :
    ((ArrayOp.push 1).run (fullHeap (twoBytes 16 0)) 1 (twoBytes 16 0)).Lawful 1
      (twoBytes 16 0) (fun before after => (ArrayOp.push 1).Acts 1 before after) :=
  (array_op_iff (fullHeap _) (.push 1) (twoBytes_wf (by decide) (by decide)) Nat.one_pos).mpr
    fun _ _ => ⟨by decide, by decide⟩

theorem locked_erase_moves :
    (twoBytes 2 1).WellFormed 1 ∧
      ¬ ((ArrayOp.eraseI64 0).run (fullHeap (twoBytes 2 1)) 1 (twoBytes 2 1)).Lawful 1
        (twoBytes 2 1) (fun before after => (ArrayOp.eraseI64 0).Acts 1 before after) :=
  ⟨twoBytes_wf (by decide) (by decide), fun h => absurd h.2 (by decide)⟩

end DaScript

import DaScript.Daslib.DecsHistories
import DaScript.Daslib.DecsShapes

/-!
# Daslib/DecsColumns — the rows of a column

What is known of the types there are (`Kinds`) is what is true of zeros and of every value that is
supplied under a type.  A column is of its type where it is true of every row of it.

Writing, growing, cutting and copying keep it so, as does all that changes no names and no types
(`Rows`).
-/

namespace DaScript.Decs

open Stateful

variable {Name : Type}

/-! ## Rows of bytes -/

/-- A row. -/
def rowOf (data : List UInt8) (stride row : ℕ) : List UInt8 :=
  (data.drop (row * stride)).take stride

theorem rowOf_getElem? (data : List UInt8) (stride row j : ℕ) :
    (rowOf data stride row)[j]? = if j < stride then data[row * stride + j]? else none := by
  rw [rowOf, List.getElem?_take, List.getElem?_drop]

theorem rowOf_congr {data data' : List UInt8} {stride row : ℕ}
    (h : ∀ j < stride, data'[row * stride + j]? = data[row * stride + j]?) :
    rowOf data' stride row = rowOf data stride row := by
  refine List.ext_getElem? fun j => ?_
  rw [rowOf_getElem?, rowOf_getElem?]
  split_ifs with hj
  · exact h j hj
  · rfl

theorem row_lt {stride row row' j : ℕ} (h : row < row') (hj : j < stride) :
    row * stride + j < row' * stride := by
  have := Nat.mul_le_mul_right stride h
  rw [Nat.succ_mul] at this
  omega

theorem row_of_index {data : List UInt8} {stride : ℕ} {eidx : ℤ} (hwhole : stride ∣ data.length)
    (hnonneg : 0 ≤ eidx * stride) (hlt : eidx * stride < data.length) :
    ∃ row : ℕ, (eidx * stride).toNat = row * stride ∧ (row + 1) * stride ≤ data.length := by
  have hpos : 0 < stride := by
    rcases Nat.eq_zero_or_pos stride with rfl | hpos
    · have := Nat.eq_zero_of_zero_dvd hwhole
      omega
    · exact hpos
  have heidx : 0 ≤ eidx := by
    by_contra hneg
    have := mul_neg_of_neg_of_pos (not_le.mp hneg) (Int.natCast_pos.mpr hpos)
    omega
  obtain ⟨row, rfl⟩ := Int.eq_ofNat_of_zero_le heidx
  obtain ⟨rows, hrows⟩ := hwhole
  refine ⟨row, by norm_cast, ?_⟩
  have hrow : row < rows := by
    rw [hrows] at hlt
    have hlt' : row * stride < rows * stride := by
      rw [Nat.mul_comm rows]
      exact_mod_cast hlt
    exact Nat.lt_of_mul_lt_mul_right hlt'
  rw [hrows, Nat.mul_comm stride]
  exact Nat.mul_le_mul_right stride hrow

theorem copyIn_getElem? {data data' bytes : List UInt8} {i : ℤ}
    (h : copyIn data i bytes = some data') (hfits : i.toNat + bytes.length ≤ data.length) (k : ℕ) :
    data'[k]? = if i.toNat ≤ k ∧ k < i.toNat + bytes.length then bytes[k - i.toNat]?
      else data[k]? := by
  rw [copyIn] at h
  split_ifs at h with hin
  obtain rfl := Option.some.inj h
  rw [List.append_assoc, List.getElem?_append, List.length_take, List.getElem?_take,
    List.getElem?_append, List.getElem?_drop]
  split_ifs <;> first | rfl | omega | (congr 1; omega)

theorem copyIn_length {data data' bytes : List UInt8} {i : ℤ} (h : copyIn data i bytes = some data')
    (hfits : i.toNat + bytes.length ≤ data.length) : data'.length = data.length := by
  rw [copyIn] at h
  split_ifs at h with hin
  obtain rfl := Option.some.inj h
  rw [List.length_append, List.length_append, List.length_take, List.length_drop]
  omega

/-! ## What is true of values -/

/-- **The types there are**, by their hash: how large their values are, and what is true of the
bytes of a value. -/
structure Kinds where
  size : BitVec 64 → ℕ
  holds : BitVec 64 → List UInt8 → Prop
  zeros : ∀ hash, holds hash (List.replicate (size hash) 0)

variable (K : Kinds)

/-- A value of a map that is of its type. -/
structure ComponentValue.Of (cv : ComponentValue Name) : Prop where
  known : cv.info.hash ≠ 0
  sized : cv.info.size = K.size cv.info.hash
  length : cv.info.size ≤ cv.data.length
  holds : K.holds cv.info.hash (cv.data.take cv.info.size)

/-- Values that are of their types. -/
def MapOf (cmp : ComponentMap Name) : Prop := ∀ cv ∈ cmp, cv.Of K

/-- A callback that leaves such values. -/
def FillOf (blk : Fill Name) : Prop :=
  ∀ eid cmp cmp', MapOf K cmp → blk eid cmp = some cmp' → MapOf K cmp'

/-- **A column whose rows are of its type**, which is that recorded for its name. -/
structure Component.Of (check : Name → CTypeInfo) (c : Component Name) : Prop where
  known : c.info.hash ≠ 0
  stride : c.stride = c.info.size
  sized : c.info.size = K.size c.info.hash
  checked : (check c.name).hash = c.info.hash
  whole : c.stride ∣ c.data.length
  rows : ∀ row, (row + 1) * c.stride ≤ c.data.length →
    K.holds c.info.hash (rowOf c.data c.stride row)

section Column

variable {K} {check : Name → CTypeInfo} {c c' : Component Name} {cv : ComponentValue Name}

theorem Component.Of.copyIn (h : c.Of K check) {bytes data : List UInt8} {eidx : ℤ}
    (hlength : bytes.length = c.stride) (hbytes : K.holds c.info.hash bytes)
    (hcopy : Decs.copyIn c.data (eidx * c.stride) bytes = some data) :
    Component.Of K check { c with data := data } := by
  have hin := hcopy
  rw [Decs.copyIn] at hin
  split_ifs at hin with hindex
  obtain ⟨row, hrow, hfits⟩ := row_of_index h.whole hindex.1 hindex.2
  rw [Nat.succ_mul] at hfits
  have hbound : (eidx * c.stride).toNat + bytes.length ≤ c.data.length := by omega
  have hsame := copyIn_length hcopy hbound
  have hget := copyIn_getElem? hcopy hbound
  rw [hrow, hlength] at hget
  refine ⟨h.known, h.stride, h.sized, h.checked, hsame ▸ h.whole, fun row' hrow' => ?_⟩
  dsimp only at hrow' ⊢
  rw [hsame] at hrow'
  rcases lt_trichotomy row' row with hlt | rfl | hlt
  · rw [rowOf_congr fun j hj => (hget _).trans (if_neg fun hand => ?_)]
    · exact h.rows row' hrow'
    · exact absurd hand.1 (not_le.mpr (row_lt hlt hj))
  · have heq : rowOf data c.stride row' = bytes := by
      refine List.ext_getElem? fun j => ?_
      rw [rowOf_getElem?]
      split_ifs with hj
      · rw [hget, if_pos (by omega), Nat.add_sub_cancel_left]
      · rw [List.getElem?_eq_none (by omega)]
    rwa [heq]
  · rw [rowOf_congr fun j hj => (hget _).trans (if_neg fun hand => ?_)]
    · exact h.rows row' hrow'
    · have := Nat.mul_le_mul_right c.stride (Nat.succ_le_of_lt hlt)
      rw [Nat.succ_mul] at this
      omega

theorem Component.Of.resize (h : c.Of K check) {length : ℕ} (hwhole : c.stride ∣ length) :
    (c.resize length).Of K check := by
  have hlength : (c.resize length).data.length = length := by
    rw [Component.resize, List.length_append, List.length_take, List.length_replicate]
    omega
  refine ⟨h.known, h.stride, h.sized, h.checked, by rw [hlength]; exact hwhole, fun row hrow => ?_⟩
  rw [hlength] at hrow
  change K.holds c.info.hash (rowOf (c.resize length).data c.stride row)
  change (row + 1) * c.stride ≤ length at hrow
  have hget : ∀ k < length, (c.resize length).data[k]? =
      if k < c.data.length then c.data[k]? else some 0 := by
    intro k hk
    rw [Component.resize, List.getElem?_append, List.length_take, List.getElem?_take,
      List.getElem?_replicate]
    split_ifs <;> first | rfl | omega
  by_cases hold : (row + 1) * c.stride ≤ c.data.length
  · rw [rowOf_congr fun j hj => (hget _ ?_).trans (if_pos ?_)]
    · exact h.rows row hold
    · exact (row_lt (Nat.lt_succ_self row) hj).trans_le hrow
    · exact (row_lt (Nat.lt_succ_self row) hj).trans_le hold
  · have hbehind : c.data.length ≤ row * c.stride := by
      obtain ⟨rows, hrows⟩ := h.whole
      rw [hrows, Nat.mul_comm c.stride] at hold ⊢
      refine Nat.mul_le_mul_right _ (Nat.lt_succ_iff.mp ?_)
      exact not_le.mp fun hle => hold (Nat.mul_le_mul_right _ hle)
    have hzeros : rowOf (c.resize length).data c.stride row =
        List.replicate (K.size c.info.hash) 0 := by
      rw [← h.sized, ← h.stride]
      refine List.ext_getElem? fun j => ?_
      rw [rowOf_getElem?, List.getElem?_replicate]
      split_ifs with hj
      · rw [hget _ ((row_lt (Nat.lt_succ_self row) hj).trans_le hrow), if_neg (by omega)]
      · rfl
    rw [hzeros]
    exact K.zeros _

theorem Component.Of.copyOut (h : c.Of K check) {bytes : List UInt8} {eidx : ℤ}
    (hcopy : Decs.copyOut c.data (eidx * c.stride) c.stride = some bytes) :
    bytes.length = c.stride ∧ K.holds c.info.hash bytes := by
  rw [Decs.copyOut] at hcopy
  split_ifs at hcopy with hindex
  obtain ⟨row, hrow, hfits⟩ := row_of_index h.whole hindex.1 hindex.2
  obtain rfl := Option.some.inj hcopy
  rw [hrow]
  refine ⟨?_, h.rows row hfits⟩
  rw [Nat.succ_mul] at hfits
  rw [List.length_take, List.length_drop]
  omega

theorem Component.Of.write (h : c.Of K check) (hcv : cv.Of K) (htype : cv.info.hash = c.info.hash)
    (eidx : ℤ) : (c.write eidx cv).1.Of K check := by
  have hsize : c.stride = cv.info.size := by
    rw [h.stride, h.sized, hcv.sized, htype]
  unfold Component.write
  split
  next data hcopy =>
    refine h.copyIn ?_ ?_ hcopy
    · rw [List.length_take, hsize]
      exact min_eq_left hcv.length
    · rw [hsize, ← htype]
      exact hcv.holds
  next => exact h

theorem Component.Of.value (h : c.Of K check) {eidx : ℤ} (hvalue : c.value eidx = some cv) :
    cv.Of K := by
  obtain ⟨bytes, hcopy, rfl⟩ := Option.map_eq_some_iff.mp hvalue
  obtain ⟨hlength, hbytes⟩ := h.copyOut hcopy
  have hsize : c.info.size = bytes.length := by rw [hlength, h.stride]
  refine ⟨h.known, h.sized, ?_, ?_⟩
  · change c.info.size ≤ (bytes ++ _).length
    rw [List.length_append]
    omega
  · change K.holds c.info.hash ((bytes ++ _).take c.info.size)
    rw [hsize, List.take_left]
    exact hbytes

theorem Component.Of.fillHole (h : c.Of K check) {di last : ℤ}
    (hfill : c.fillHole di last = some c') : c'.Of K check := by
  obtain ⟨bytes, hout, hbytes⟩ := Option.bind_eq_some_iff.mp hfill
  obtain ⟨data, hin, rfl⟩ := Option.map_eq_some_iff.mp hbytes
  obtain ⟨hlength, hholds⟩ := h.copyOut hout
  exact h.copyIn hlength hholds hin

end Column

/-! ## Archetypes -/

/-- The names and types of a map. -/
def types (cmp : ComponentMap Name) : List (Name × BitVec 64) :=
  cmp.map fun kv => (kv.name, kv.info.hash)

/-- The names and types of the columns. -/
def Archetype.types (arch : Archetype Name) : List (Name × BitVec 64) :=
  arch.components.map fun c => (c.name, c.info.hash)

/-- **What is true of values is true of rows.** -/
structure Typed (w : World Name) : Prop where
  columns : ∀ arch ∈ w.allArchetypes, ∀ c ∈ arch.components, c.Of K w.componentTypeCheck
  looked : ∀ hash found, w.archetypeLookup hash = found + 1 →
    ∃ arch, w.allArchetypes[found]? = some arch ∧ arch.hash = hash

/-- An archetype has certain columns. -/
def TypesAt (idx : ℕ) (T : List (Name × BitVec 64)) (w : World Name) : Prop :=
  ∀ arch, w.allArchetypes[idx]? = some arch → arch.types = T

/-- What only changes rows, and keeps them of their types. -/
structure Rows (w w' : World Name) : Prop where
  hashes : w'.allArchetypes.map Archetype.hash = w.allArchetypes.map Archetype.hash
  types : w'.allArchetypes.map Archetype.types = w.allArchetypes.map Archetype.types
  columns : (∀ arch ∈ w.allArchetypes, ∀ c ∈ arch.components, c.Of K w.componentTypeCheck) →
    ∀ arch ∈ w'.allArchetypes, ∀ c ∈ arch.components, c.Of K w'.componentTypeCheck
  archetypeLookup : w'.archetypeLookup = w.archetypeLookup
  componentTypeCheck : w'.componentTypeCheck = w.componentTypeCheck
  deferActions : w'.deferActions = w.deferActions

instance : Std.Refl (@Rows Name K) := ⟨fun _ => ⟨rfl, rfl, fun h => h, rfl, rfl, rfl⟩⟩

instance : IsTrans (World Name) (Rows K) := ⟨fun _ _ _ h h' =>
  ⟨h'.hashes.trans h.hashes, h'.types.trans h.types, fun hw => h'.columns (h.columns hw),
    h'.archetypeLookup.trans h.archetypeLookup,
    h'.componentTypeCheck.trans h.componentTypeCheck, h'.deferActions.trans h.deferActions⟩⟩

section World

variable {K} {w w' : World Name}

theorem rows_of_eq (harchetypes : w'.allArchetypes = w.allArchetypes)
    (hlookup : w'.archetypeLookup = w.archetypeLookup)
    (hcheck : w'.componentTypeCheck = w.componentTypeCheck)
    (hdefer : w'.deferActions = w.deferActions) : Rows K w w' :=
  ⟨by rw [harchetypes], by rw [harchetypes], fun h => by rw [harchetypes, hcheck]; exact h,
    hlookup, hcheck, hdefer⟩

theorem looked_of_hashes
    (hhashes : w'.allArchetypes.map Archetype.hash = w.allArchetypes.map Archetype.hash)
    (hlookup : w'.archetypeLookup = w.archetypeLookup)
    (h : ∀ hash found, w.archetypeLookup hash = found + 1 →
      ∃ arch, w.allArchetypes[found]? = some arch ∧ arch.hash = hash) :
    ∀ hash found, w'.archetypeLookup hash = found + 1 →
      ∃ arch, w'.allArchetypes[found]? = some arch ∧ arch.hash = hash := by
  intro hash found hfound
  rw [hlookup] at hfound
  obtain ⟨arch, harch, hhash⟩ := h hash found hfound
  have hmap : (w'.allArchetypes.map Archetype.hash)[found]? = some hash := by
    rw [hhashes, List.getElem?_map, harch, Option.map_some, hhash]
  rw [List.getElem?_map] at hmap
  exact Option.map_eq_some_iff.mp hmap

theorem Rows.typed (h : Rows K w w') (hw : Typed K w) : Typed K w' :=
  ⟨h.columns hw.columns, looked_of_hashes h.hashes h.archetypeLookup hw.looked⟩

theorem Rows.typesAt (h : Rows K w w') {idx : ℕ} {T : List (Name × BitVec 64)}
    (hw : TypesAt idx T w) : TypesAt idx T w' := by
  intro arch harch
  have hmap : (w.allArchetypes.map Archetype.types)[idx]? = some arch.types := by
    rw [← h.types, List.getElem?_map, harch, Option.map_some]
  rw [List.getElem?_map] at hmap
  obtain ⟨old, hold, heq⟩ := Option.map_eq_some_iff.mp hmap
  exact heq ▸ hw old hold

theorem forall_mem_modify {α : Type} {l : List α} {i : ℕ} {f : α → α} {p : α → Prop}
    (hf : ∀ a, l[i]? = some a → p a → p (f a)) (h : ∀ a ∈ l, p a) : ∀ a ∈ l.modify i f, p a := by
  intro a ha
  obtain ⟨j, hj⟩ := List.mem_iff_getElem?.mp ha
  rw [List.getElem?_modify] at hj
  obtain ⟨old, hold, rfl⟩ := Option.map_eq_some_iff.mp hj
  by_cases hi : i = j
  · subst hi
    simp only [if_true]
    exact hf old hold (h old (List.mem_of_getElem? hold))
  · simp only [if_neg hi]
    exact h old (List.mem_of_getElem? hold)

theorem rows_modify (w : World Name) (idx : ℕ) (f : Archetype Name → Archetype Name)
    (hhash : ∀ arch, (f arch).hash = arch.hash)
    (htypes : ∀ arch, w.allArchetypes[idx]? = some arch → (f arch).types = arch.types)
    (hof : ∀ arch, w.allArchetypes[idx]? = some arch →
      (∀ c ∈ arch.components, c.Of K w.componentTypeCheck) →
      ∀ c ∈ (f arch).components, c.Of K w.componentTypeCheck) :
    Rows K w { w with allArchetypes := w.allArchetypes.modify idx f } := by
  exact ⟨map_modify_eq _ _ _ _ fun arch _ => hhash arch, map_modify_eq _ _ _ _ htypes,
    forall_mem_modify hof, rfl, rfl, rfl⟩

theorem changeArchetype_rows (idx : ℕ) (f : Archetype Name → Archetype Name)
    (hhash : ∀ arch, (f arch).hash = arch.hash) (htypes : ∀ arch, (f arch).types = arch.types)
    (hof : ∀ check (arch : Archetype Name), (∀ c ∈ arch.components, c.Of K check) →
      ∀ c ∈ (f arch).components, c.Of K check) :
    Moves (Rows K) (changeArchetype idx f) :=
  moves_modify _ fun w => rows_modify w idx f hhash (fun arch _ => htypes arch)
    fun arch _ => hof _ arch

theorem changeLookup_rows (id : ℕ) (f : Lookup → Lookup) :
    Moves (@Rows Name K) (changeLookup id f) := by
  unfold changeLookup
  refine moves_bind moves_get fun w => moves_bind (moves_stopIf _ _) fun _ => ?_
  exact moves_modify _ fun w => rows_of_eq rfl rfl rfl rfl

theorem newEntityId_rows : Moves (@Rows Name K) newEntityId := by
  refine moves_bind moves_get fun w => ?_
  split
  · refine moves_bind (moves_modify _ fun w => rows_of_eq rfl rfl rfl rfl) fun _ => ?_
    exact moves_bind (moves_modify _ fun w => rows_of_eq rfl rfl rfl rfl) fun _ => moves_pure _
  · refine moves_bind (moves_stopIf _ _) fun _ => ?_
    refine moves_bind (moves_modify _ fun w => rows_of_eq rfl rfl rfl rfl) fun _ => ?_
    exact moves_bind (moves_modify _ fun w => rows_of_eq rfl rfl rfl rfl) fun _ => moves_pure _

/-! ## Columns -/

theorem eachColumn_types {f : Component Name → ComponentValue Name → Component Name × Bool}
    (hname : ∀ c cv, (f c cv).1.name = c.name) (hinfo : ∀ c cv, (f c cv).1.info = c.info)
    (components : List (Component Name)) (cmp : ComponentMap Name) :
    (eachColumn f components cmp).1.map (fun c => (c.name, c.info.hash)) =
      components.map fun c => (c.name, c.info.hash) := by
  induction components generalizing cmp with
  | nil => cases cmp <;> rfl
  | cons c components ih =>
    cases cmp with
    | nil => rfl
    | cons cv cmp =>
      rw [eachColumn]
      split
      · rw [List.map_cons, List.map_cons, ih, hname, hinfo]
      · rw [List.map_cons, List.map_cons, hname, hinfo]

theorem eachColumn_of {check : Name → CTypeInfo}
    {f : Component Name → ComponentValue Name → Component Name × Bool}
    (hf : ∀ c cv, c.Of K check → cv.Of K → cv.info.hash = c.info.hash → (f c cv).1.Of K check)
    (components : List (Component Name)) (cmp : ComponentMap Name)
    (hcomponents : ∀ c ∈ components, c.Of K check) (hcmp : MapOf K cmp)
    (htypes : components.map (fun c => (c.name, c.info.hash)) = types cmp) :
    ∀ c ∈ (eachColumn f components cmp).1, c.Of K check := by
  induction components generalizing cmp with
  | nil => cases cmp <;> exact hcomponents
  | cons c components ih =>
    cases cmp with
    | nil => exact hcomponents
    | cons cv cmp =>
      obtain ⟨htype, hrest⟩ := List.cons_eq_cons.mp htypes
      obtain ⟨hc, hcs⟩ := List.forall_mem_cons.mp hcomponents
      obtain ⟨hcv, hcvs⟩ := List.forall_mem_cons.mp hcmp
      have hof := hf c cv hc hcv (congrArg Prod.snd htype).symm
      rw [eachColumn]
      split
      · exact List.forall_mem_cons.mpr ⟨hof, ih cmp hcs hcvs hrest⟩
      · exact List.forall_mem_cons.mpr ⟨hof, hcs⟩

theorem write_info (c : Component Name) (eidx : ℤ) (comp : ComponentValue Name) :
    (c.write eidx comp).1.info = c.info := by
  unfold Component.write
  split <;> rfl

theorem fillHole_type {c c' : Component Name} {di last : ℤ} (h : c.fillHole di last = some c') :
    c'.name = c.name ∧ c'.info = c.info := by
  obtain ⟨bytes, -, hbytes⟩ := Option.bind_eq_some_iff.mp h
  obtain ⟨data, -, rfl⟩ := Option.map_eq_some_iff.mp hbytes
  exact ⟨rfl, rfl⟩

theorem fillHoles_types (di last : ℤ) (components : List (Component Name)) :
    (fillHoles di last components).1.map (fun c => (c.name, c.info.hash)) =
      components.map fun c => (c.name, c.info.hash) := by
  induction components with
  | nil => rfl
  | cons c components ih =>
    rw [fillHoles]
    cases hfill : c.fillHole di last with
    | none => rfl
    | some c' => rw [List.map_cons, List.map_cons, ih, (fillHole_type hfill).1,
        (fillHole_type hfill).2]

theorem fillHoles_of {check : Name → CTypeInfo} (di last : ℤ) (components : List (Component Name))
    (h : ∀ c ∈ components, c.Of K check) :
    ∀ c ∈ (fillHoles di last components).1, c.Of K check := by
  induction components with
  | nil => exact h
  | cons c components ih =>
    obtain ⟨hc, hcs⟩ := List.forall_mem_cons.mp h
    rw [fillHoles]
    cases hfill : c.fillHole di last with
    | none => exact h
    | some c' => exact List.forall_mem_cons.mpr ⟨hc.fillHole hfill, ih hcs⟩

theorem resize_types (arch : Archetype Name) (length : Component Name → ℕ) :
    Archetype.types { arch with
      components := arch.components.map fun c => c.resize (length c) } = arch.types := by
  rw [Archetype.types, List.map_map]
  rfl

theorem growRows_rows (idx count : ℕ) : Moves (@Rows Name K) (changeArchetype idx fun arch =>
    { arch with
      components := arch.components.map fun c =>
        c.resize (c.data.length + c.stride * count) }) := by
  refine changeArchetype_rows idx _ (fun _ => rfl) (fun arch =>
    resize_types arch fun c => c.data.length + c.stride * count) fun check arch h c hc => ?_
  obtain ⟨old, hold, rfl⟩ := List.mem_map.mp hc
  exact (h old hold).resize (Dvd.dvd.add (h old hold).whole (Dvd.intro _ rfl))

theorem removeRow_rows (idx : ℕ) (di : ℤ) : Moves (@Rows Name K) (removeRow idx di) := by
  refine moves_bind (changeArchetype_rows _ (fun arch => { arch with size := arch.size - 1 })
    (fun _ => rfl) (fun _ => rfl) fun _ _ h => h) fun _ => ?_
  refine moves_of_spec fun w => spec_get fun w' hw => ?_
  subst hw
  have hrefl : ∀ s, s = w' → Rows K w' s := fun s hs => hs ▸ refl_of (Rows K) w'
  refine spec_orStop (fun _ => hrefl) fun arch harch => ?_
  refine spec_bind (Q := fun _ => Rows K w') (spec_onlyIf (fun _ => ?_) fun _ => hrefl) fun _ => ?_
  · refine spec_orStop (fun _ => hrefl) fun eidLastId _ => ?_
    have hlookup : Spec (fun s => s = w') (changeLookup eidLastId fun lookup =>
        { lookup with index := di }) (fun _ s => Rows K w' s ∧
          s.allArchetypes = w'.allArchetypes) (Rows K w') := by
      refine spec_get fun s hs => spec_stopIf (fun _ s' hs' => hrefl s' (hs'.trans hs)) fun _ =>
        spec_modify _ fun s' hs' => ?_
      rw [hs', hs]
      exact ⟨rows_of_eq rfl rfl rfl rfl, rfl⟩
    refine spec_bind hlookup fun _ => ?_
    refine spec_bind (spec_modify (Q := fun _ => Rows K w') _ fun s hs => ?_) fun _ =>
      (moves_stopIf _ _).after w'
    refine trans_of (Rows K) hs.1 (rows_modify s idx
      (fun arch' => { arch' with components := (fillHoles di arch.size arch.components).1 })
      (fun _ => rfl) (fun arch' harch' => ?_) fun arch' harch' hof => ?_)
    all_goals
      rw [hs.2] at harch'
      obtain rfl : arch = arch' := Option.some.inj (harch.symm.trans harch')
    · exact fillHoles_types di arch.size arch.components
    · exact fillHoles_of di arch.size arch.components hof
  · refine spec_stopIf (fun _ s hs => hs) fun _ => ?_
    refine (changeArchetype_rows _
      (fun arch => { arch with
        components := arch.components.map fun c => c.resize (arch.size.toNat * c.stride) })
      (fun _ => rfl) (fun arch => resize_types arch _)
      fun check arch h c hc => ?_).after w'
    obtain ⟨old, hold, rfl⟩ := List.mem_map.mp hc
    exact (h old hold).resize (Dvd.intro_left _ rfl)

end World

end DaScript.Decs

import DaScript.Simulate.BinSerializer

/-!
# Simulate/BinValues — the values objects hold

An object is a value of its type (`valueOf`), and a list of bytes once saved (`image`).  The array
buffers below an object are `Held`: the blocks are new, apart from the object, and of a size that
goes by the capacity.  All of it depends on the object's place and its blocks only (`Alike`).
-/

namespace DaScript

/-- A value: the bytes of a scalar, a text (null is the empty one), or values. -/
inductive Val
  | raw (data : List UInt8)
  | text (data : List UInt8)
  | node (kids : List Val)

/-- What a function says at `count` places, `stride` apart. -/
def atEach {α : Type} (f : Place → α) (stride : ℕ) : ℕ → Place → List α
  | 0, _ => []
  | count + 1, p => f p :: atEach f stride count (p.shift stride)

section Values

variable (s : Store)

mutual

/-- **The value of the object at a place.** -/
def valueOf : TypeInfo → Place → Val
  | .scalar t, p => .raw (s.bytesAt p t.size)
  | .enumeration t _, p => .raw (s.bytesAt p t.size)
  | .string, p => .text (s.text p.block p.offset)
  | .struct _ _ fields, p => .node (valuesOf fields p)
  | .tuple _ argTypes, p => .node (valuesOf argTypes p)
  | .dim _ _ count elem, p => .node (atEach (valueOf elem) elem.size count p)
  | .array _ firstType, p =>
    match (s.array p.block p.offset).data with
    | none => .node []
    | some data =>
      .node (atEach (valueOf firstType) firstType.size (s.array p.block p.offset).size ⟨data, 0⟩)
  | _, _ => .node []

/-- The values of the parts. -/
def valuesOf : Fields → Place → List Val
  | .nil, _ => []
  | .cons offset info rest, p => valueOf info (p.shift offset) :: valuesOf rest p

end

mutual

/-- **The encoding of the object at a place.** -/
def image : TypeInfo → Place → List UInt8
  | .scalar t, p => s.bytesAt p t.size
  | .enumeration t enumHash, p => leBytes 8 enumHash ++ s.bytesAt p t.size
  | .string, p => leBytes 4 (s.text p.block p.offset).length ++ s.text p.block p.offset
  | .struct hash _ fields, p => leBytes 8 hash ++ images fields p
  | .tuple _ argTypes, p => images argTypes p
  | .dim hash dimSize count elem, p =>
    leBytes 8 hash ++ (leBytes 4 dimSize ++ (atEach (image elem) elem.size count p).flatten)
  | .array hash firstType, p =>
    leBytes 8 hash ++
      match (s.array p.block p.offset).data with
      | none => leBytes 8 0
      | some data =>
        leBytes 8 (s.array p.block p.offset).size ++
          (atEach (image firstType) firstType.size (s.array p.block p.offset).size
            ⟨data, 0⟩).flatten
  | _, _ => []

/-- The encodings of the parts, one after the other. -/
def images : Fields → Place → List UInt8
  | .nil, _ => []
  | .cons offset info rest, p => image info (p.shift offset) ++ images rest p

end

mutual

/-- **An object whose arrays have the elements they count**: no buffer, no elements. -/
def Backed : TypeInfo → Place → Prop
  | .struct _ _ fields, p => BackedFields fields p
  | .tuple _ argTypes, p => BackedFields argTypes p
  | .dim _ _ count elem, p => ∀ q ∈ atEach id elem.size count p, Backed elem q
  | .array _ firstType, p =>
    ((s.array p.block p.offset).data = none → (s.array p.block p.offset).size = 0) ∧
      ∀ data, (s.array p.block p.offset).data = some data →
        ∀ q ∈ atEach id firstType.size (s.array p.block p.offset).size ⟨data, 0⟩,
          Backed firstType q
  | _, _ => True

def BackedFields : Fields → Place → Prop
  | .nil, _ => True
  | .cons offset info rest, p => Backed info (p.shift offset) ∧ BackedFields rest p

end

/-- **What lies below an array** — it has no elements and no buffer, or elements within its
capacity and a buffer from block `lo` on of `stride` bytes for each of these. -/
def HeldArray (stride lo : ℕ) (arr : ArrayCell) : Prop :=
  arr.data = none ∧ arr.size = 0 ∧ arr.capacity = 0 ∨
    ∃ data, arr.data = some data ∧ lo ≤ data ∧ data < s.next ∧ 0 < arr.size ∧
      arr.size ≤ arr.capacity ∧ s.room data = arr.capacity * stride

variable (stride : TypeInfo → ℕ)

mutual

/-- `HeldArray` of each array of an object, `stride` saying the bytes an element of a type gets; the
blocks below a buffer come after it. -/
def Held : TypeInfo → ℕ → Place → Prop
  | .struct _ _ fields, lo, p => HeldFields fields lo p
  | .tuple _ argTypes, lo, p => HeldFields argTypes lo p
  | .dim _ _ count elem, lo, p => ∀ q ∈ atEach id elem.size count p, Held elem lo q
  | .array _ firstType, lo, p =>
    HeldArray s (stride firstType) lo (s.array p.block p.offset) ∧
      ∀ data, (s.array p.block p.offset).data = some data →
        ∀ q ∈ atEach id firstType.size (s.array p.block p.offset).size ⟨data, 0⟩,
          Held firstType (data + 1) q
  | _, _, _ => True

def HeldFields : Fields → ℕ → Place → Prop
  | .nil, _, _ => True
  | .cons offset info rest, lo, p => Held info lo (p.shift offset) ∧ HeldFields rest lo p

end

end Values

mutual

/-- **Arrays that are not empty have elements of `sizeof(Array)` bytes.** -/
def TypeInfo.Fits : TypeInfo → Val → Prop
  | .struct _ _ fields, .node kids => fields.Fits kids
  | .tuple _ argTypes, .node kids => argTypes.Fits kids
  | .dim _ _ _ elem, .node kids => ∀ k ∈ kids, elem.Fits k
  | .array _ firstType, .node kids =>
    (kids ≠ [] → firstType.size = sizeofArray) ∧ ∀ k ∈ kids, firstType.Fits k
  | _, _ => True

def Fields.Fits : Fields → List Val → Prop
  | .cons _ info rest, k :: kids => info.Fits k ∧ rest.Fits kids
  | _, _ => True

end

/-! ## Places one after the other -/

section Each

variable {α : Type} {stride : ℕ}

theorem atEach_eq_map (f : Place → α) (count : ℕ) (p : Place) :
    atEach f stride count p = (atEach id stride count p).map f := by
  induction count generalizing p with
  | zero => rfl
  | succ count ih => rw [atEach, atEach, List.map_cons, ih]; rfl

theorem mem_atEach {count : ℕ} {p q : Place} :
    q ∈ atEach id stride count p ↔ ∃ i < count, q = p.shift (i * stride) := by
  induction count generalizing p with
  | zero => simp [atEach]
  | succ count ih =>
    rw [atEach, List.mem_cons, ih]
    constructor
    · rintro (rfl | ⟨i, hi, rfl⟩)
      · exact ⟨0, Nat.succ_pos _, by rw [Nat.zero_mul]; rfl⟩
      · exact ⟨i + 1, by omega, by rw [Place.shift_shift, Nat.succ_mul, Nat.add_comm]⟩
    · rintro ⟨i, hi, rfl⟩
      cases i with
      | zero => exact Or.inl (by rw [Nat.zero_mul]; rfl)
      | succ i => exact Or.inr ⟨i, by omega, by rw [Place.shift_shift, Nat.succ_mul, Nat.add_comm]⟩

theorem atEach_congr {f g : Place → α} {count : ℕ} {p : Place}
    (h : ∀ q ∈ atEach id stride count p, f q = g q) :
    atEach f stride count p = atEach g stride count p := by
  rw [atEach_eq_map f, atEach_eq_map g]
  exact List.map_congr_left h

@[simp] theorem length_atEach (f : Place → α) (count : ℕ) (p : Place) :
    (atEach f stride count p).length = count := by
  induction count generalizing p with
  | zero => rfl
  | succ count ih => rw [atEach, List.length_cons, ih]

end Each

/-! ## What a value depends on -/

/-- Two stores have the same at an offset of a block. -/
structure SameAt (s s' : Store) (b o : ℕ) : Prop where
  byte : s'.byte b o = s.byte b o
  text : s'.text b o = s.text b o
  array : s'.array b o = s.array b o

/-- **Two stores agree on an object**: at its place and in the blocks from `lo` on. -/
structure Alike (s s' : Store) (lo : ℕ) (q : Place) (size : ℕ) : Prop where
  next : s.next ≤ s'.next
  here : ∀ o, q.offset ≤ o → o < q.offset + size → SameAt s s' q.block o
  below : ∀ b, lo ≤ b → b < s.next → s'.room b = s.room b ∧ ∀ o, SameAt s s' b o

section Agreement

variable {s s' : Store} {lo : ℕ}

theorem Alike.part {q : Place} {size offset n : ℕ} (h : Alike s s' lo q size)
    (hpart : offset + n ≤ size) : Alike s s' lo (q.shift offset) n :=
  ⟨h.next, fun o h1 h2 => h.here o (by change q.offset + offset ≤ o at h1; omega)
    (by change o < q.offset + offset + n at h2; omega), h.below⟩

theorem Alike.block {q : Place} {size b : ℕ} (h : Alike s s' lo q size) (hlo : lo ≤ b)
    (hb : b < s.next) (n : ℕ) : Alike s s' (b + 1) ⟨b, 0⟩ n :=
  ⟨h.next, fun o _ _ => (h.below b hlo hb).2 o, fun c hc => h.below c (by omega)⟩

theorem Alike.bytesAt {q : Place} {n : ℕ} (h : Alike s s' lo q n) :
    s'.bytesAt q n = s.bytesAt q n := by
  refine List.map_congr_left fun i hi => ?_
  have hi := List.mem_range.mp hi
  exact (h.here _ (by omega) (by omega)).byte

theorem HeldArray.congr {stride : ℕ} {arr : ArrayCell} {q : Place} {size : ℕ}
    (h : Alike s s' lo q size) (hheld : HeldArray s stride lo arr) :
    HeldArray s' stride lo arr := by
  rcases hheld with hnone | ⟨data, hdata, hlo, hnext, hpos, hcap, hroom⟩
  · exact Or.inl hnone
  · refine Or.inr ⟨data, hdata, hlo, lt_of_lt_of_le hnext h.next, hpos, hcap, ?_⟩
    rw [(h.below data hlo hnext).1, hroom]

variable (stride : TypeInfo → ℕ)

mutual

theorem congr_object : ∀ (info : TypeInfo) (lo : ℕ) (q : Place), info.WellFormed →
    Alike s s' lo q info.size → Held s stride info lo q →
      Held s' stride info lo q ∧ valueOf s' info q = valueOf s info q
  | .scalar t, _, q, _, h, _ => ⟨trivial, congrArg Val.raw h.bytesAt⟩
  | .enumeration t _, _, q, _, h, _ => ⟨trivial, congrArg Val.raw h.bytesAt⟩
  | .string, _, q, _, h, _ => by
    refine ⟨trivial, ?_⟩
    rw [valueOf, valueOf, (h.here q.offset le_rfl (by change _ < q.offset + 8; omega)).text]
  | .struct _ size fields, lo, q, hwf, h, hheld => by
    obtain ⟨hheld', hval⟩ := congr_fields fields lo q 0 size hwf.2 h hheld
    exact ⟨hheld', by rw [valueOf, valueOf, hval]⟩
  | .tuple size argTypes, lo, q, hwf, h, hheld => by
    obtain ⟨hheld', hval⟩ := congr_fields argTypes lo q 0 size hwf.2.2 h hheld
    exact ⟨hheld', by rw [valueOf, valueOf, hval]⟩
  | .dim _ _ count elem, lo, q, hwf, h, hheld => by
    have heach : ∀ p ∈ atEach id elem.size count q,
        Held s' stride elem lo p ∧ valueOf s' elem p = valueOf s elem p := fun p hp => by
      obtain ⟨i, hi, rfl⟩ := mem_atEach.mp hp
      have hin : i * elem.size + elem.size ≤ count * elem.size := by
        rw [← Nat.succ_mul]
        exact Nat.mul_le_mul_right _ hi
      exact congr_object elem lo _ hwf.2.2 (h.part hin) (hheld _ hp)
    exact ⟨fun p hp => (heach p hp).1, by
      rw [valueOf, valueOf, atEach_congr fun p hp => (heach p hp).2]⟩
  | .array _ firstType, lo, q, hwf, h, hheld => by
    have harr : s'.array q.block q.offset = s.array q.block q.offset :=
      (h.here q.offset le_rfl (by change _ < q.offset + 40; omega)).array
    obtain ⟨hcell, helems⟩ := hheld
    have heach : ∀ data, (s.array q.block q.offset).data = some data →
        ∀ p ∈ atEach id firstType.size (s.array q.block q.offset).size ⟨data, 0⟩,
        Held s' stride firstType (data + 1) p ∧ valueOf s' firstType p = valueOf s firstType p := by
      intro data hdata p hp
      rcases hcell with ⟨hnone, -⟩ | ⟨data', hdata', hlo, hnext, -⟩
      · rw [hnone] at hdata
        exact nomatch hdata
      · obtain rfl : data' = data := Option.some.inj (hdata'.symm.trans hdata)
        have hp' := hp
        obtain ⟨i, -, rfl⟩ := mem_atEach.mp hp'
        exact congr_object firstType _ _ hwf.2
          ((h.block hlo hnext (i * firstType.size + firstType.size)).part le_rfl)
          (helems _ hdata _ hp)
    refine ⟨⟨?_, ?_⟩, ?_⟩
    · rw [harr]
      exact hcell.congr h
    · rw [harr]
      exact fun data hdata p hp => (heach data hdata p hp).1
    · rw [valueOf, valueOf, harr]
      cases hdata : (s.array q.block q.offset).data with
      | none => rfl
      | some data => exact congrArg Val.node (atEach_congr fun p hp => (heach data hdata p hp).2)
  | .variant .., _, _, hwf, _, _ => hwf.elim
  | .function, _, _, hwf, _, _ => hwf.elim
  | .lambda, _, _, hwf, _, _ => hwf.elim
  | .handle .., _, _, hwf, _, _ => hwf.elim
  | .unsupported .., _, _, hwf, _, _ => hwf.elim

theorem congr_fields : ∀ (fields : Fields) (lo : ℕ) (q : Place) (start size : ℕ),
    fields.Inside start size → Alike s s' lo q size → HeldFields s stride fields lo q →
      HeldFields s' stride fields lo q ∧ valuesOf s' fields q = valuesOf s fields q
  | .nil, _, _, _, _, _, _, _ => ⟨trivial, rfl⟩
  | .cons offset info rest, lo, q, start, size, hin, h, hheld => by
    have hle := Fields.Inside.le_size rest hin.2.2
    obtain ⟨h1, v1⟩ := congr_object info lo (q.shift offset) hin.2.1 (h.part hle) hheld.1
    obtain ⟨h2, v2⟩ := congr_fields rest lo q _ size hin.2.2 h hheld.2
    exact ⟨⟨h1, h2⟩, by rw [valuesOf, valuesOf, v1, v2]⟩

end

end Agreement

end DaScript

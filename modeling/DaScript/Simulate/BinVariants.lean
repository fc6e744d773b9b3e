import DaScript.Simulate.BinSerializer

/-!
# Simulate/BinVariants — variants are saved without their index

`BinDataSerialize` again, over objects as trees: what the bytes of a saved object are (`image`), and
what a walk that reads makes of an object that is there (`load`).  Which alternative of a variant is
walked, the object being walked says (`DataWalker::walk_variant`), and no byte of it is written.

So an object comes back exactly into one whose variants are set as its own, where new elements of
arrays are zeros (`restores_iff`).
-/

namespace DaScript.BinVariants

/-- **An object**: the bytes of a scalar, a text, parts, or an alternative and its payload. -/
inductive Object
  | raw (data : List UInt8)
  | text (data : List UInt8)
  | parts (kids : List Object)
  | variant (fidx : ℕ) (payload : Object)

mutual

/-- **The objects of a type** the serializer supports. -/
def Of : TypeInfo → Object → Prop
  | .scalar t, .raw data => data.length = t.size
  | .enumeration t _, .raw data => data.length = t.size
  | .string, .text data => data.length < 2 ^ 32
  | .struct _ _ fields, .parts kids => OfFields fields kids
  | .tuple _ argTypes, .parts kids => OfFields argTypes kids
  | .dim _ _ count elem, .parts kids => kids.length = count ∧ ∀ k ∈ kids, Of elem k
  | .array _ firstType, .parts kids => kids.length ≤ int64Max ∧ ∀ k ∈ kids, Of firstType k
  | .variant _ argTypes, .variant fidx payload => OfChoice argTypes fidx payload
  | _, _ => False

def OfFields : Fields → List Object → Prop
  | .nil, [] => True
  | .cons _ info rest, k :: kids => Of info k ∧ OfFields rest kids
  | _, _ => False

/-- The alternative is one of those there are. -/
def OfChoice : Fields → ℕ → Object → Prop
  | .nil, _, _ => False
  | .cons _ info _, 0, payload => Of info payload
  | .cons _ _ rest, fidx + 1, payload => OfChoice rest fidx payload

end

/-- An object of a type. -/
structure Typed (info : TypeInfo) where
  object : Object
  of : Of info object

mutual

/-- Memory of zeros. -/
def zero : TypeInfo → Object
  | .scalar t => .raw (List.replicate t.size 0)
  | .enumeration t _ => .raw (List.replicate t.size 0)
  | .string => .text []
  | .struct _ _ fields => .parts (zeros fields)
  | .tuple _ argTypes => .parts (zeros argTypes)
  | .dim _ _ count elem => .parts (List.replicate count (zero elem))
  | .array _ _ => .parts []
  | .variant _ argTypes => .variant 0 (zeroFirst argTypes)
  | _ => .raw []

def zeros : Fields → List Object
  | .nil => []
  | .cons _ info rest => zero info :: zeros rest

def zeroFirst : Fields → Object
  | .nil => .raw []
  | .cons _ info _ => zero info

end

/-! ## Saving -/

mutual

/-- **The bytes a save writes.** -/
def image : TypeInfo → Object → List UInt8
  | .scalar _, .raw data => data
  | .enumeration _ enumHash, .raw data => leBytes 8 enumHash ++ data
  | .string, .text data => leBytes 4 data.length ++ data
  | .struct hash _ fields, .parts kids => leBytes 8 hash ++ images fields kids
  | .tuple _ argTypes, .parts kids => images argTypes kids
  | .dim hash dimSize _ elem, .parts kids =>
    leBytes 8 hash ++ (leBytes 4 dimSize ++ kids.flatMap (image elem))
  | .array hash firstType, .parts kids =>
    leBytes 8 hash ++ (leBytes 8 kids.length ++ kids.flatMap (image firstType))
  | .variant _ argTypes, .variant fidx payload => imageChoice argTypes fidx payload
  | _, _ => []

def images : Fields → List Object → List UInt8
  | .cons _ info rest, k :: kids => image info k ++ images rest kids
  | _, _ => []

/-- `walk_variant`: the payload, and no index. -/
def imageChoice : Fields → ℕ → Object → List UInt8
  | .nil, _, _ => []
  | .cons _ info _, 0, payload => image info payload
  | .cons _ _ rest, fidx + 1, payload => imageChoice rest fidx payload

end

/-- `binary_save`; beyond the 32 bits of a position nothing is said of what is written. -/
def binarySave (info : TypeInfo) (obj : Object) : Option (List UInt8) :=
  if (image info obj).length < 2 ^ 32 then some (image info obj) else none

/-! ## Loading -/

/-- `read`, and what is left. -/
def read (size : ℕ) (data : List UInt8) : Option (List UInt8 × List UInt8) :=
  if size ≤ data.length then some (data.take size, data.drop size) else none

/-- `verify` and `verify_hash`, of the bytes of a number. -/
def verify (x data : List UInt8) : Option (List UInt8) :=
  (read x.length data).bind fun (test, data) => if test = x then some data else none

/-- The loop of `walk_array`. -/
def loadEach (walk : Object → List UInt8 → Option (Object × List UInt8)) :
    List Object → List UInt8 → Option (List Object × List UInt8)
  | [], data => some ([], data)
  | k :: kids, data =>
    (walk k data).bind fun (k, data) =>
      (loadEach walk kids data).map fun (kids, data) => (k :: kids, data)

/-- `beforeArray`: so many elements, of zeros as far as `sizeof(Array)` bytes for each go.  What is
in an element behind these, and whether it is in the buffer, is unknown. -/
def beforeArray (hash : ℕ) (firstType : TypeInfo) (data : List UInt8) :
    Option (List Object × List UInt8) :=
  (verify (leBytes 8 hash) data).bind fun data =>
    (read 8 data).bind fun (newSize, data) =>
      if int64Max < leNat newSize then none
      else if leNat newSize ≠ 0 ∧ sizeofArray < firstType.size then none
      else some (List.replicate (leNat newSize) (zero firstType), data)

mutual

/-- **A walk that reads**: what becomes of the object, and what is left of the bytes. -/
def load : TypeInfo → Object → List UInt8 → Option (Object × List UInt8)
  | .scalar t, _, data => (read t.size data).map fun (d, data) => (.raw d, data)
  | .enumeration t enumHash, _, data =>
    (verify (leBytes 8 enumHash) data).bind fun data =>
      (read t.size data).map fun (d, data) => (.raw d, data)
  | .string, _, data =>
    (read 4 data).bind fun (length, data) =>
      (read (leNat length) data).map fun (d, data) => (.text d, data)
  | .struct hash _ fields, .parts kids, data =>
    (verify (leBytes 8 hash) data).bind fun data =>
      (loadFields fields kids data).map fun (kids, data) => (.parts kids, data)
  | .tuple _ argTypes, .parts kids, data =>
    (loadFields argTypes kids data).map fun (kids, data) => (.parts kids, data)
  | .dim hash dimSize _ elem, .parts kids, data =>
    (verify (leBytes 8 hash) data).bind fun data =>
      (verify (leBytes 4 dimSize) data).bind fun data =>
        (loadEach (load elem) kids data).map fun (kids, data) => (.parts kids, data)
  | .array hash firstType, _, data =>
    (beforeArray hash firstType data).bind fun (kids, data) =>
      (loadEach (load firstType) kids data).map fun (kids, data) => (.parts kids, data)
  | .variant _ argTypes, .variant fidx payload, data =>
    (loadChoice argTypes fidx payload data).map fun (payload, data) =>
      (.variant fidx payload, data)
  | _, _, _ => none

def loadFields : Fields → List Object → List UInt8 → Option (List Object × List UInt8)
  | .nil, [], data => some ([], data)
  | .cons _ info rest, k :: kids, data =>
    (load info k data).bind fun (k, data) =>
      (loadFields rest kids data).map fun (kids, data) => (k :: kids, data)
  | _, _, _ => none

/-- `walk_variant`, by the index in the object. -/
def loadChoice : Fields → ℕ → Object → List UInt8 → Option (Object × List UInt8)
  | .nil, _, _, _ => none
  | .cons _ info _, 0, payload, data => load info payload data
  | .cons _ _ rest, fidx + 1, payload, data => loadChoice rest fidx payload data

end

/-- `binary_load`, which only takes reference types. -/
def binaryLoad (info : TypeInfo) (obj : Object) (data : List UInt8) :
    Option (Object × List UInt8) :=
  if info.isRefType then load info obj data else some (obj, data)

/-! ## What comes back -/

mutual

/-- **An object that one can be loaded into**: its variants are set alike, and the elements of an
array are set as zeros are, with no more than `sizeof(Array)` bytes for each. -/
def Agrees : TypeInfo → Object → Object → Prop
  | .scalar _, _, _ => True
  | .enumeration .., _, _ => True
  | .string, _, _ => True
  | .struct _ _ fields, .parts kids, .parts kids' => AgreesFields fields kids kids'
  | .tuple _ argTypes, .parts kids, .parts kids' => AgreesFields argTypes kids kids'
  | .dim _ _ _ elem, .parts kids, .parts kids' => List.Forall₂ (Agrees elem) kids kids'
  | .array _ firstType, _, .parts kids' =>
    (kids' ≠ [] → firstType.size ≤ sizeofArray) ∧ ∀ k ∈ kids', Agrees firstType (zero firstType) k
  | .variant _ argTypes, .variant fidx payload, .variant fidx' payload' =>
    fidx = fidx' ∧ AgreesChoice argTypes fidx payload payload'
  | _, _, _ => False

def AgreesFields : Fields → List Object → List Object → Prop
  | .nil, [], [] => True
  | .cons _ info rest, k :: kids, k' :: kids' => Agrees info k k' ∧ AgreesFields rest kids kids'
  | _, _, _ => False

def AgreesChoice : Fields → ℕ → Object → Object → Prop
  | .nil, _, _, _ => False
  | .cons _ info _, 0, payload, payload' => Agrees info payload payload'
  | .cons _ _ rest, fidx + 1, payload, payload' => AgreesChoice rest fidx payload payload'

end

theorem read_append {l : List UInt8} {n : ℕ} (hn : l.length = n) (rest : List UInt8) :
    read n (l ++ rest) = some (l, rest) := by
  subst hn
  rw [read, if_pos (by rw [List.length_append]; omega), List.take_left, List.drop_left]

theorem verify_append (x rest : List UInt8) : verify x (x ++ rest) = some rest := by
  rw [verify, read_append rfl]
  exact if_pos rfl

theorem leNat_leBytes_eight {n : ℕ} (hn : n ≤ int64Max) : leNat (leBytes 8 n) = n :=
  leNat_leBytes (hn.trans_lt (by decide))

theorem loadEach_flatMap {walk : Object → List UInt8 → Option (Object × List UInt8)}
    {img : Object → List UInt8} {kids kids' : List Object}
    (h : List.Forall₂ (fun k k' => ∀ rest, walk k (img k' ++ rest) = some (k', rest)) kids kids')
    (rest : List UInt8) :
    loadEach walk kids (kids'.flatMap img ++ rest) = some (kids', rest) := by
  induction h with
  | nil => rfl
  | cons hfirst _ ih =>
    rw [List.flatMap_cons, List.append_assoc, loadEach, hfirst, Option.bind_some]
    dsimp only
    rw [ih]
    rfl

theorem forall₂_replicate {α : Type} {R : α → α → Prop} {a : α} {l : List α}
    (h : ∀ k ∈ l, R a k) : List.Forall₂ R (List.replicate l.length a) l := by
  induction l with
  | nil => exact .nil
  | cons k l ih =>
    obtain ⟨hk, hl⟩ := List.forall_mem_cons.mp h
    exact .cons hk (ih hl)

theorem forall₂_replicate_mem {α : Type} {R : α → α → Prop} {a : α} {n : ℕ} {l : List α}
    (h : List.Forall₂ R (List.replicate n a) l) : ∀ k ∈ l, R a k := by
  induction l generalizing n with
  | nil => exact fun _ hk => absurd hk List.not_mem_nil
  | cons k l ih =>
    cases n with
    | zero => cases h
    | succ n =>
      obtain ⟨hk, hl⟩ := List.forall₂_cons.mp h
      exact List.forall_mem_cons.mpr ⟨hk, ih hl⟩

theorem forall₂_mem {α : Type} {R S : α → α → Prop} {P : α → Prop} {l l' : List α}
    (h : List.Forall₂ R l l') (hl' : ∀ k ∈ l', P k) (hS : ∀ k k', R k k' → P k' → S k k') :
    List.Forall₂ S l l' := by
  induction h with
  | nil => exact .nil
  | cons hfirst _ ih =>
    obtain ⟨hk, hrest⟩ := List.forall_mem_cons.mp hl'
    exact .cons (hS _ _ hfirst hk) (ih hrest)

mutual

theorem load_image : ∀ (info : TypeInfo) (dst src : Object) (rest : List UInt8), Of info src →
    Agrees info dst src → load info dst (image info src ++ rest) = some (src, rest)
  | .scalar t, _, .raw data, rest, hof, _ => by
    rw [image, load, read_append hof]
    rfl
  | .enumeration t enumHash, _, .raw data, rest, hof, _ => by
    rw [image, List.append_assoc, load, verify_append, Option.bind_some, read_append hof]
    rfl
  | .string, _, .text data, rest, hof, _ => by
    rw [image, List.append_assoc, load, read_append (length_leBytes _ _), Option.bind_some]
    dsimp only
    rw [leNat_leBytes (hof.trans_eq rfl), read_append rfl]
    rfl
  | .struct hash _ fields, .parts kids, .parts kids', rest, hof, hagrees => by
    rw [image, List.append_assoc, load, verify_append, Option.bind_some,
      load_images fields kids kids' rest hof hagrees]
    rfl
  | .tuple _ argTypes, .parts kids, .parts kids', rest, hof, hagrees => by
    rw [image, load, load_images argTypes kids kids' rest hof hagrees]
    rfl
  | .dim hash dimSize count elem, .parts kids, .parts kids', rest, hof, hagrees => by
    have helems : List.Forall₂ (fun k k' => ∀ rest, load elem k (image elem k' ++ rest)
        = some (k', rest)) kids kids' :=
      forall₂_mem hagrees hof.2 fun k k' hagrees hof rest =>
        load_image elem k k' rest hof hagrees
    rw [image, List.append_assoc, List.append_assoc, load, verify_append, Option.bind_some,
      verify_append, Option.bind_some, loadEach_flatMap helems]
    rfl
  | .array hash firstType, dst, .parts kids', rest, hof, hagrees => by
    have helems : List.Forall₂ (fun k k' => ∀ rest, load firstType k (image firstType k' ++ rest)
        = some (k', rest)) (List.replicate kids'.length (zero firstType)) kids' :=
      forall₂_replicate fun k hk rest =>
        load_image firstType _ k rest (hof.2 k hk) (hagrees.2 k hk)
    have hsize : ¬ (kids'.length ≠ 0 ∧ sizeofArray < firstType.size) := fun h =>
      absurd (hagrees.1 fun hnil => h.1 (congrArg List.length hnil)) (Nat.not_le.mpr h.2)
    have hbefore : beforeArray hash firstType (leBytes 8 hash ++ (leBytes 8 kids'.length ++
        (kids'.flatMap (image firstType) ++ rest)))
        = some (List.replicate kids'.length (zero firstType),
          kids'.flatMap (image firstType) ++ rest) := by
      rw [beforeArray, verify_append, Option.bind_some, read_append (length_leBytes _ _),
        Option.bind_some]
      dsimp only
      rw [leNat_leBytes_eight hof.1, if_neg (Nat.not_lt.mpr hof.1), if_neg hsize]
    rw [image, List.append_assoc, List.append_assoc, load, hbefore, Option.bind_some]
    dsimp only
    rw [loadEach_flatMap helems]
    rfl
  | .variant _ argTypes, .variant fidx payload, .variant fidx' payload', rest, hof, hagrees => by
    obtain ⟨rfl, hagrees⟩ := hagrees
    rw [image, load, load_imageChoice argTypes fidx payload payload' rest hof hagrees]
    rfl

theorem load_images : ∀ (fields : Fields) (kids kids' : List Object) (rest : List UInt8),
    OfFields fields kids' → AgreesFields fields kids kids' →
    loadFields fields kids (images fields kids' ++ rest) = some (kids', rest)
  | .nil, [], [], _, _, _ => rfl
  | .cons _ info tail, k :: kids, k' :: kids', rest, hof, hagrees => by
    rw [images, List.append_assoc, loadFields, load_image info k k' _ hof.1 hagrees.1,
      Option.bind_some]
    dsimp only
    rw [load_images tail kids kids' rest hof.2 hagrees.2]
    rfl

theorem load_imageChoice : ∀ (argTypes : Fields) (fidx : ℕ) (payload payload' : Object)
    (rest : List UInt8), OfChoice argTypes fidx payload' →
    AgreesChoice argTypes fidx payload payload' →
    loadChoice argTypes fidx payload (imageChoice argTypes fidx payload' ++ rest)
      = some (payload', rest)
  | .cons _ info _, 0, payload, payload', rest, hof, hagrees =>
    load_image info payload payload' rest hof hagrees
  | .cons _ _ tail, fidx + 1, payload, payload', rest, hof, hagrees =>
    load_imageChoice tail fidx payload payload' rest hof hagrees

end

theorem loadEach_forall₂ {walk : Object → List UInt8 → Option (Object × List UInt8)}
    {kids kids' : List Object} {data rest : List UInt8}
    (h : loadEach walk kids data = some (kids', rest)) :
    List.Forall₂ (fun k k' => ∃ data rest, walk k data = some (k', rest)) kids kids' := by
  induction kids generalizing kids' data with
  | nil =>
    cases h
    exact .nil
  | cons k kids ih =>
    obtain ⟨⟨k', data'⟩, hfirst, hrest⟩ := Option.bind_eq_some_iff.mp h
    obtain ⟨⟨tail, rest'⟩, htail, hkids⟩ := Option.map_eq_some_iff.mp hrest
    cases hkids
    exact .cons ⟨_, _, hfirst⟩ (ih htail)

theorem beforeArray_eq {hash : ℕ} {firstType : TypeInfo} {data rest : List UInt8}
    {kids : List Object} (h : beforeArray hash firstType data = some (kids, rest)) :
    ∃ n, kids = List.replicate n (zero firstType) ∧ (n ≠ 0 → firstType.size ≤ sizeofArray) := by
  obtain ⟨data', -, h⟩ := Option.bind_eq_some_iff.mp h
  obtain ⟨⟨newSize, data''⟩, -, h⟩ := Option.bind_eq_some_iff.mp h
  dsimp only at h
  split_ifs at h with hmax hsize
  cases h
  exact ⟨_, rfl, fun hn => Nat.le_of_not_lt fun hlt => hsize ⟨hn, hlt⟩⟩

mutual

theorem agrees_load : ∀ (info : TypeInfo) (dst o : Object) (data rest : List UInt8),
    load info dst data = some (o, rest) → Agrees info dst o
  | .scalar _, _, _, _, _, _ => trivial
  | .enumeration .., _, _, _, _, _ => trivial
  | .string, _, _, _, _, _ => trivial
  | .struct _ _ fields, .parts kids, o, data, rest, h => by
    obtain ⟨data', -, h⟩ := Option.bind_eq_some_iff.mp h
    obtain ⟨⟨kids', rest'⟩, hfields, ho⟩ := Option.map_eq_some_iff.mp h
    cases ho
    exact agrees_loadFields fields kids kids' _ _ hfields
  | .tuple _ argTypes, .parts kids, o, data, rest, h => by
    obtain ⟨⟨kids', rest'⟩, hfields, ho⟩ := Option.map_eq_some_iff.mp h
    cases ho
    exact agrees_loadFields argTypes kids kids' _ _ hfields
  | .dim _ _ _ elem, .parts kids, o, data, rest, h => by
    obtain ⟨data', -, h⟩ := Option.bind_eq_some_iff.mp h
    obtain ⟨data'', -, h⟩ := Option.bind_eq_some_iff.mp h
    obtain ⟨⟨kids', rest'⟩, helems, ho⟩ := Option.map_eq_some_iff.mp h
    cases ho
    exact (loadEach_forall₂ helems).imp fun k k' ⟨data, rest, hk⟩ =>
      agrees_load elem k k' data rest hk
  | .array _ firstType, dst, o, data, rest, h => by
    obtain ⟨⟨kids, data'⟩, hbefore, h⟩ := Option.bind_eq_some_iff.mp h
    obtain ⟨⟨kids', rest'⟩, helems, ho⟩ := Option.map_eq_some_iff.mp h
    cases ho
    obtain ⟨n, rfl, hsize⟩ := beforeArray_eq hbefore
    have heach := loadEach_forall₂ helems
    have hlength : n = kids'.length := by
      have hlength := heach.length_eq
      rwa [List.length_replicate] at hlength
    refine ⟨fun hne => hsize ?_, fun k hk => ?_⟩
    · rw [hlength]
      exact (List.length_pos_iff.mpr hne).ne'
    · obtain ⟨data, rest, hload⟩ := forall₂_replicate_mem heach k hk
      exact agrees_load firstType _ k data rest hload
  | .variant _ argTypes, .variant fidx payload, o, data, rest, h => by
    obtain ⟨⟨payload', rest'⟩, hchoice, ho⟩ := Option.map_eq_some_iff.mp h
    cases ho
    exact ⟨rfl, agrees_loadChoice argTypes fidx payload payload' _ _ hchoice⟩

theorem agrees_loadFields : ∀ (fields : Fields) (kids kids' : List Object) (data rest : List UInt8),
    loadFields fields kids data = some (kids', rest) → AgreesFields fields kids kids'
  | .nil, [], _, _, _, h => by
    cases h
    trivial
  | .cons _ info tail, k :: kids, _, data, rest, h => by
    obtain ⟨⟨k', data'⟩, hfirst, h⟩ := Option.bind_eq_some_iff.mp h
    obtain ⟨⟨kids', rest'⟩, htail, hkids⟩ := Option.map_eq_some_iff.mp h
    cases hkids
    exact ⟨agrees_load info k k' _ _ hfirst, agrees_loadFields tail kids kids' _ _ htail⟩

theorem agrees_loadChoice : ∀ (argTypes : Fields) (fidx : ℕ) (payload payload' : Object)
    (data rest : List UInt8), loadChoice argTypes fidx payload data = some (payload', rest) →
    AgreesChoice argTypes fidx payload payload'
  | .cons _ info _, 0, payload, payload', data, rest, h =>
    agrees_load info payload payload' data rest h
  | .cons _ _ tail, fidx + 1, payload, payload', data, rest, h =>
    agrees_loadChoice tail fidx payload payload' data rest h

end

theorem image_ne_nil {info : TypeInfo} {o : Object} (hof : Of info o)
    (href : info.isRefType = false) : image info o ≠ [] := by
  match info, o, hof with
  | .scalar t, .raw data, hof =>
    exact List.ne_nil_of_length_pos ((Nat.lt_of_lt_of_eq t.size_bounds.1 hof.symm))
  | .enumeration .., .raw data, _ => exact List.cons_ne_nil _ _
  | .string, .text data, _ => exact List.cons_ne_nil _ _

/-- A variant of a number or another. -/
def numbers : TypeInfo :=
  .variant 8 (.cons 4 (.scalar .tInt) (.cons 4 (.scalar .tUInt) .nil))

/-- One of the alternatives. -/
def number (fidx : ℕ) (h : fidx < 2) : Typed numbers :=
  ⟨.variant fidx (.raw [7, 0, 0, 0]), by interval_cases fidx <;> rfl⟩

end DaScript.BinVariants

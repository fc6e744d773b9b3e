import Mathlib.Data.List.DropRight
import DaScript.Simulate.JsonReaders
import DaScript.Simulate.JsonFixedArray

/-!
# Simulate/JsonScan — JSON is scanned by the type of what it is for

`JsonScanner::scanValue` of `simulate/json_scan.cpp`, over a memory that is a parameter (`Host`).
The loops over the entries of structures, tuples, tables and arrays are one (`entries`).
-/

namespace DaScript

open Text

namespace JsonScan

open JsonScanner hiding scanValue

/-- The first `rename` annotation of a field, if there is one. -/
inductive Rename
  | no
  | string (sValue : List UInt8)
  | strip
  deriving DecidableEq, Repr

/-- The type of a key. -/
inductive KeyType
  | string
  | scalar (type : Scalar)
  | enumeration (type : EnumWidth)
  | pointer
  | other
  deriving DecidableEq, Repr

/-- **`TypeInfo`**, as the scanner asks for it.  Structures are told by their number; an array of a
fixed size is one whatever its elements are; `other` is what is skipped. -/
inductive ScanInfo
  | scalar (type : Scalar)
  | string
  | struct (structType : Option ℕ)
  | pointer (structType : Option ℕ)
  | array (stride : ℕ) (firstType : Option ScanInfo)
  | enumeration (type : EnumWidth) (fields : Option (List (Option (List UInt8) × ℤ)))
  | tuple (args : List (ℕ × ScanInfo))
  | variant (args : List (Option (List UInt8) × ℕ × ScanInfo))
  | table (key : KeyType) (valueSize : ℕ) (secondType : ScanInfo)
  | dim (elemSize maxCount : ℕ)
  | handle
  | other

/-- `VarInfo` -/
structure FieldInfo where
  name : List UInt8
  rename : Rename
  offset : ℕ
  type : ScanInfo

def FieldInfo.getFieldName (f : FieldInfo) : List UInt8 :=
  match f.rename with
  | .no => f.name
  | .string sValue => sValue
  | .strip => if f.name.head? = some (ch '_') then f.name.tail else f.name

structure StructInfo where
  isClass : Bool
  size : ℕ
  fields : List FieldInfo

namespace StructInfo

def findField (si : StructInfo) (key : List UInt8) : Option FieldInfo :=
  si.fields.find? fun f => f.getFieldName = key

/-- What a class keeps for itself. -/
def isInternal (si : StructInfo) (f : FieldInfo) : Bool :=
  si.isClass && (f.name = text "__rtti" || f.name = text "__finalize")

end StructInfo

/-- **What a scanner works on**: the memory `μ`, the numbers `ρ` with a fraction, the library. -/
structure Host (μ ρ : Type) where
  atoll : List UInt8 → ℤ
  atof : List UInt8 → ρ
  toInt64 : ρ → ℤ
  storeBool : ℕ → Bool → μ → μ
  store : ℕ → ℕ → ℤ ⊕ ρ → μ → μ
  zero : ℕ → ℕ → μ → μ
  storePointer : ℕ → ℕ → μ → μ
  allocateString : ℕ → List UInt8 → μ → Option (Unit × μ)
  allocate : ℕ → μ → Option (ℕ × μ)
  arrayClear : ℕ → ℕ → μ → Option (Unit × μ)
  pushBackZero : ℕ → ℕ → μ → Option (ℕ × μ)
  tableClear : ℕ → μ → Option (Unit × μ)
  tableReserve : KeyType → List UInt8 ⊕ List (ℤ ⊕ ρ) → ℕ → ℕ → μ → Option (Option ℕ × μ)

/-- A scanner: a reader that works on a memory. -/
abbrev Scanner (μ α : Type) := StateT μ Reader α

section

variable {μ ρ α : Type}

/-- What only reads. -/
def reading (f : Reader α) : Scanner μ α := fun m => f >>= fun a => pure (a, m)

/-- What only works on the memory, and may fail. -/
def onMemory (f : μ → Option (α × μ)) : Scanner μ α := fun m cur => (f m).map fun p => (p, cur)

def fails : Scanner μ α := fun _ _ => none

/-- `atoi`, of the library. -/
def atoi (s : List UInt8) : ℤ :=
  match s.dropWhile fun c => c = 32 || (9 ≤ c && c ≤ 13) with
  | [] => 0
  | c :: s =>
    if c = ch '-' then -(readDecimal (s.takeWhile isDigit) : ℤ)
    else if c = ch '+' then readDecimal (s.takeWhile isDigit)
    else readDecimal ((c :: s).takeWhile isDigit)

/-- A loop over entries, for so many turns: a comma is followed by one more. -/
def entries (close : UInt8) (entry : Scanner μ Unit) : ℕ → Scanner μ Unit
  | 0 => fails
  | turns + 1 => do
    entry
    if ← reading (test close) then pure ()
    else do
      reading (skips (expect (ch ',')))
      entries close entry turns

/-! ## Numbers -/

/-- `readInt64`, or `readDouble`. -/
def readNumber (h : Host μ ρ) (real : Bool) : Reader (ℤ ⊕ ρ) :=
  if real then do
    let v ← readDouble h.atof
    pure (Sum.inr v)
  else do
    let v ← readInt64 h.atoll h.atof h.toInt64
    pure (Sum.inl v)

def vecFieldIndex (key : List UInt8) : Option ℕ :=
  if key = [ch 'x'] then some 0
  else if key = [ch 'y'] then some 1
  else if key = [ch 'z'] then some 2
  else if key = [ch 'w'] then some 3
  else none

/-- The object form of a vector, behind its bracket. -/
def readVecFields (h : Host μ ρ) (real : Bool) : ℕ → List (ℤ ⊕ ρ) → Reader (List (ℤ ⊕ ρ))
  | 0, _ => fun _ => none
  | turns + 1, vals => do
    let key ← (readString : Reader (List UInt8))
    skips (expect (ch ':'))
    let v ← readNumber h real
    let vals := match vecFieldIndex key with
      | some idx => vals.set idx v
      | none => vals
    if ← test (ch ',') then readVecFields h real turns vals
    else do
      skips (expect (ch '\x7d'))
      pure vals

/-- The array form, behind its first number: so many more. -/
def readMore (h : Host μ ρ) (real : Bool) : ℕ → List (ℤ ⊕ ρ) → Reader (List (ℤ ⊕ ρ))
  | 0, vals => do
    skips (expect (ch ']'))
    pure vals
  | more + 1, vals => do
    skips (expect (ch ','))
    let v ← readNumber h real
    readMore h real more (vals ++ [v])

/-- The array form, which is that of a range as well. -/
def readVecArray (h : Host μ ρ) (real : Bool) (count : ℕ) : Reader (List (ℤ ⊕ ρ)) := do
  skips (expect (ch '['))
  let v ← readNumber h real
  readMore h real (count - 1) [v]

/-- `scanVec`, and `scanVecF`. -/
def readVec (h : Host μ ρ) (real : Bool) (turns count : ℕ) : Reader (List (ℤ ⊕ ρ)) := do
  if ← test (ch '\x7b') then
    if ← test (ch '\x7d') then pure (List.replicate count (Sum.inl 0))
    else readVecFields h real turns (List.replicate count (Sum.inl 0))
  else readVecArray h real count

/-- The parts of a vector or a range: how many, and how they are read. -/
def readParts (h : Host μ ρ) (turns : ℕ) : Scalar → Option (ℕ × Reader (List (ℤ ⊕ ρ)))
  | .tInt2 | .tUInt2 => some (2, readVec h false turns 2)
  | .tInt3 | .tUInt3 => some (3, readVec h false turns 3)
  | .tInt4 | .tUInt4 => some (4, readVec h false turns 4)
  | .tFloat2 => some (2, readVec h true turns 2)
  | .tFloat3 => some (3, readVec h true turns 3)
  | .tFloat4 => some (4, readVec h true turns 4)
  | .tRange | .tURange | .tRange64 | .tURange64 => some (2, readVecArray h false 2)
  | _ => none

/-- The parts, one behind the other. -/
def storeParts (h : Host μ ρ) (size dst : ℕ) (vals : List (ℤ ⊕ ρ)) (m : μ) : μ :=
  vals.zipIdx.foldl (fun m p => h.store size (dst + p.2 * size) p.1 m) m

/-- The scalars of the `switch`. -/
def scanScalar (h : Host μ ρ) (turns : ℕ) (s : Scalar) (dst : ℕ) : Scanner μ Unit :=
  if s = .tBool then do
    let v ← reading readBool
    modify (h.storeBool dst v)
  else
    match readParts h turns s with
    | some (count, parts) => do
      let vals ← reading parts
      modify (storeParts h (s.size / count) dst vals)
    | none => do
      let v ← reading (readNumber h (s = .tFloat || s = .tDouble))
      modify (h.store s.size dst v)

/-! ## The containers -/

def scanStruct (scan : ScanInfo → ℕ → Scanner μ Unit) (skip : Reader Unit) (turns : ℕ)
    (si : StructInfo) (dst : ℕ) : Scanner μ Unit := do
  reading (skips (expect (ch '\x7b')))
  if ← reading (test (ch '\x7d')) then pure ()
  else entries (ch '\x7d') (do
    let key ← reading (readString : Reader (List UInt8))
    reading (skips (expect (ch ':')))
    match si.findField key with
    | some f => if si.isInternal f then reading skip else scan f.type (dst + f.offset)
    | none => reading skip) turns

def scanPointer (h : Host μ ρ) (scan : ScanInfo → ℕ → Scanner μ Unit) (skip : Reader Unit)
    (turns : ℕ) (structType : Option StructInfo) (dst : ℕ) : Scanner μ Unit := do
  if ← reading testNull then modify (h.storePointer dst 0)
  else
    match structType with
    | some si => do
      let ptr ← onMemory (h.allocate si.size)
      scanStruct scan skip turns si ptr
      modify (h.storePointer dst ptr)
    | none => reading skip

def scanArray (h : Host μ ρ) (scan : ScanInfo → ℕ → Scanner μ Unit) (turns stride : ℕ)
    (elem : ScanInfo) (dst : ℕ) : Scanner μ Unit := do
  reading (skips (expect (ch '[')))
  onMemory (h.arrayClear dst stride)
  if ← reading (test (ch ']')) then pure ()
  else entries (ch ']') (do
    let ptr ← onMemory (h.pushBackZero dst stride)
    scan elem ptr) turns

def scanEnum (h : Host μ ρ) (skip : Reader Unit) (w : EnumWidth)
    (fields : Option (List (Option (List UInt8) × ℤ))) (dst : ℕ) : Scanner μ Unit :=
  match fields with
  | none => reading skip
  | some fields => do
    if ← reading (look (ch '"')) then do
      let name ← reading (readString : Reader (List UInt8))
      modify (h.store w.size dst
        (Sum.inl (((fields.find? fun f => f.1 = some name).map Prod.snd).getD 0)))
    else do
      let v ← reading (readInt64 h.atoll h.atof h.toInt64)
      modify (h.store w.size dst (Sum.inl v))

/-- The entry of a tuple a key names. -/
def tupleEntry (args : List (ℕ × ScanInfo)) (key : List UInt8) : Option (ℕ × ScanInfo) :=
  if 2 ≤ key.length ∧ key.head? = some (ch '_') ∧ 0 ≤ atoi key.tail then
    args[(atoi key.tail).toNat]?
  else none

def scanTuple (scan : ScanInfo → ℕ → Scanner μ Unit) (skip : Reader Unit) (turns : ℕ)
    (args : List (ℕ × ScanInfo)) (dst : ℕ) : Scanner μ Unit := do
  reading (skips (expect (ch '\x7b')))
  if ← reading (test (ch '\x7d')) then pure ()
  else entries (ch '\x7d') (do
    let key ← reading (readString : Reader (List UInt8))
    reading (skips (expect (ch ':')))
    match tupleEntry args key with
    | some (offset, info) => scan info (dst + offset)
    | none => reading skip) turns

/-- The alternative of a variant a key names. -/
def scanAlternative (h : Host μ ρ) (scan : ScanInfo → ℕ → Scanner μ Unit) (skip : Reader Unit)
    (args : List (Option (List UInt8) × ℕ × ScanInfo)) (key : List UInt8) (dst : ℕ) :
    Scanner μ Unit :=
  match args.zipIdx.find? fun arg => arg.1.1 = some key with
  | some ((_, offset, info), fidx) => do
    modify (h.store 4 dst (Sum.inl fidx))
    scan info (dst + offset)
  | none => reading skip

/-- **`scanVariant`**: where one more key is due, `skipString` is called as it is. -/
def scanVariant (h : Host μ ρ) (scan : ScanInfo → ℕ → Scanner μ Unit) (skip : Reader Unit)
    (turns : ℕ) (args : List (Option (List UInt8) × ℕ × ScanInfo)) (dst : ℕ) :
    Scanner μ Unit := do
  reading (skips (expect (ch '\x7b')))
  if ← reading (test (ch '\x7d')) then pure ()
  else do
    let key ← reading (readString : Reader (List UInt8))
    reading (skips (expect (ch ':')))
    scanAlternative h scan skip args key dst
    if ← reading (test (ch ',')) then
      entries (ch '\x7d') (do
        reading (skips skipString)
        reading (skips (expect (ch ':')))
        reading skip) turns
    else reading (skips (expect (ch '\x7d')))

/-- The key of a table's entry, and the place of its value if there is one. -/
def reserveKey (h : Host μ ρ) (turns : ℕ) (key : KeyType) (keyStr : List UInt8)
    (dst valueSize : ℕ) : Scanner μ (Option ℕ) :=
  match key with
  | .other => pure none
  | .scalar s =>
    match readParts h turns s with
    | none => onMemory (h.tableReserve key (Sum.inl keyStr) dst valueSize)
    | some (count, parts) =>
      match if (isNull keyStr).isSome then some (List.replicate count (Sum.inl 0))
        else (parts keyStr).map Prod.fst with
      | some vals => onMemory (h.tableReserve key (Sum.inr vals) dst valueSize)
      | none => pure none
  | _ => onMemory (h.tableReserve key (Sum.inl keyStr) dst valueSize)

def scanTable (h : Host μ ρ) (scan : ScanInfo → ℕ → Scanner μ Unit) (skip : Reader Unit)
    (turns : ℕ) (key : KeyType) (valueSize : ℕ) (secondType : ScanInfo) (dst : ℕ) :
    Scanner μ Unit := do
  reading (skips (expect (ch '\x7b')))
  onMemory (h.tableClear dst)
  if ← reading (test (ch '\x7d')) then pure ()
  else entries (ch '\x7d') (do
    let keyStr ← reading (readString : Reader (List UInt8))
    reading (skips (expect (ch ':')))
    match ← reserveKey h turns key keyStr dst valueSize with
    | some val => do
      modify (h.zero valueSize val)
      scan secondType val
    | none => reading skip) turns

/-- An array of a fixed size, by `scanFixedArray`. -/
def scanDim (scan : ℕ → Scanner μ Unit) (skip : List UInt8 → Option (List UInt8))
    (elemSize maxCount turns dst : ℕ) : Scanner μ Unit := fun m =>
  (scanFixedArray (fun dst m cur => (scan dst m cur).map fun p => (p.1.2, p.2)) skip elemSize
    maxCount turns dst m : Reader μ) >>= fun m => pure ((), m)

/-- The `switch` of `scanValue`, and what comes before it but for `null`. -/
def scanTyped (h : Host μ ρ) (structs : ℕ → StructInfo) (scan : ScanInfo → ℕ → Scanner μ Unit)
    (skip : List UInt8 → Option (List UInt8)) (turns : ℕ) (ti : ScanInfo) (dst : ℕ) :
    Scanner μ Unit :=
  match ti with
  | .scalar s => scanScalar h turns s dst
  | .string => do
    let v ← reading (readString : Reader (List UInt8))
    onMemory (h.allocateString dst v)
  | .struct (some si) => scanStruct scan (skips skip) turns (structs si) dst
  | .struct none => fails
  | .pointer structType => scanPointer h scan (skips skip) turns (structType.map structs) dst
  | .array stride (some elem) => scanArray h scan turns stride elem dst
  | .array _ none => fails
  | .enumeration w fields => scanEnum h (skips skip) w fields dst
  | .tuple args => scanTuple scan (skips skip) turns args dst
  | .variant args => scanVariant h scan (skips skip) turns args dst
  | .table key valueSize secondType =>
    scanTable h scan (skips skip) turns key valueSize secondType dst
  | .dim elemSize maxCount => scanDim (scan ti) skip elemSize maxCount turns dst
  | .handle => fails
  | .other => reading (skips skip)

/-- **`scanValue`**, for values so deep and so long. -/
def scanValue (h : Host μ ρ) (structs : ℕ → StructInfo) : ℕ → ScanInfo → ℕ → Scanner μ Unit
  | 0, _, _ => fails
  | depth + 1, ti, dst => do
    if ← reading testNull then pure ()
    else scanTyped h structs (scanValue h structs depth) (skipValue depth) depth ti dst

section

variable {β : Type}

theorem bind_apply (f : Scanner μ α) (g : α → Scanner μ β) (m : μ) (cur : List UInt8) :
    (f >>= g) m cur = (f m cur).bind fun p => g p.1.1 p.1.2 p.2 := rfl

theorem reading_apply (f : Reader α) (m : μ) (cur : List UInt8) :
    (reading f : Scanner μ α) m cur = (f cur).map fun p => ((p.1, m), p.2) := by
  unfold reading
  change (f cur).bind _ = _
  cases f cur <;> rfl

end

/-! ## Which scanners are steady -/

/-- **A scanner for which blanks between tokens make no difference.** -/
def Insensitive (f : Scanner μ α) : Prop := ∀ m, Steady (f m)

section

variable {β : Type} {f : Scanner μ α}

theorem Insensitive.pure (a : α) : Insensitive (Pure.pure a : Scanner μ α) :=
  fun m => Steady.pure (a, m)

theorem insensitive_fails : Insensitive (fails : Scanner μ α) := fun _ _ _ _ => .none

theorem Insensitive.bind {g : α → Scanner μ β} (hf : Insensitive f) (hg : ∀ a, Insensitive (g a)) :
    Insensitive (f >>= g) := fun m => (hf m).bind fun p => hg p.1 p.2

theorem Insensitive.ite {p : Prop} [Decidable p] {g : Scanner μ α} (hf : Insensitive f)
    (hg : Insensitive g) : Insensitive (if p then f else g) := by
  split
  · exact hf
  · exact hg

theorem insensitive_reading {f : Reader α} (hf : Steady f) :
    Insensitive (reading f : Scanner μ α) :=
  fun m => hf.bind fun a => Steady.pure (a, m)

theorem insensitive_onMemory (f : μ → Option (α × μ)) : Insensitive (onMemory f) := by
  intro m cur cur' h
  unfold onMemory
  cases f m with
  | none => exact .none
  | some p => exact .some p h

theorem insensitive_modify (f : μ → μ) : Insensitive (modify f : Scanner μ Unit) :=
  fun m => Steady.pure ((), f m)

theorem insensitive_expect {c : UInt8} (hc : isPunct c = true) :
    Insensitive (reading (skips (expect c)) : Scanner μ Unit) :=
  insensitive_reading (expect_steady hc)

theorem insensitive_test {c : UInt8} (hc : isPunct c = true) :
    Insensitive (reading (test c) : Scanner μ Bool) := insensitive_reading (test_steady hc)

theorem insensitive_entries {close : UInt8} (hclose : isPunct close = true)
    {entry : Scanner μ Unit} (hentry : Insensitive entry) (turns : ℕ) :
    Insensitive (entries close entry turns) := by
  induction turns with
  | zero => exact insensitive_fails
  | succ turns ih =>
    refine hentry.bind fun _ => (insensitive_test hclose).bind fun _ => ?_
    exact (Insensitive.pure ()).ite ((insensitive_expect rfl).bind fun _ => ih)

theorem insensitive_object {entry : Scanner μ Unit} (hentry : Insensitive entry) (turns : ℕ) :
    Insensitive (do
      reading (skips (expect (ch '\x7b')))
      if ← reading (test (ch '\x7d')) then pure ()
      else entries (ch '\x7d') entry turns : Scanner μ Unit) :=
  (insensitive_expect rfl).bind fun _ => (insensitive_test rfl).bind fun _ =>
    (Insensitive.pure ()).ite (insensitive_entries rfl hentry turns)

end

variable {h : Host μ ρ} {scan : ScanInfo → ℕ → Scanner μ Unit} {skip : Reader Unit}

theorem readNumber_steady (real : Bool) : Steady (readNumber h real) := by
  unfold readNumber
  split
  · exact (readDouble_steady _).bind fun _ => Steady.pure _
  · exact (readInt64_steady _ _ _).bind fun _ => Steady.pure _

theorem ite_steady {p : Prop} [Decidable p] {f g : Reader α} (hf : Steady f) (hg : Steady g) :
    Steady (if p then f else g) := by
  split
  · exact hf
  · exact hg

theorem readVecFields_steady (real : Bool) (turns : ℕ) (vals : List (ℤ ⊕ ρ)) :
    Steady (readVecFields h real turns vals) := by
  induction turns generalizing vals with
  | zero => exact fun _ _ _ => .none
  | succ turns ih =>
    refine readString_steady.bind fun key => (expect_steady rfl).bind fun _ =>
      (readNumber_steady real).bind fun v => (test_steady rfl).bind fun _ => ?_
    exact ite_steady (ih _) ((expect_steady rfl).bind fun _ => Steady.pure _)

theorem readMore_steady (real : Bool) (more : ℕ) (vals : List (ℤ ⊕ ρ)) :
    Steady (readMore h real more vals) := by
  induction more generalizing vals with
  | zero => exact (expect_steady rfl).bind fun _ => Steady.pure _
  | succ more ih =>
    exact (expect_steady rfl).bind fun _ => (readNumber_steady real).bind fun v => ih _

theorem readVecArray_steady (real : Bool) (count : ℕ) : Steady (readVecArray h real count) :=
  (expect_steady rfl).bind fun _ => (readNumber_steady real).bind fun _ => readMore_steady real _ _

theorem readVec_steady (real : Bool) (turns count : ℕ) : Steady (readVec h real turns count) := by
  refine (test_steady rfl).bind fun _ => ite_steady ?_ (readVecArray_steady real count)
  exact (test_steady rfl).bind fun _ =>
    ite_steady (Steady.pure _) (readVecFields_steady real turns _)

theorem readParts_steady {turns count : ℕ} {s : Scalar} {parts : Reader (List (ℤ ⊕ ρ))}
    (hparts : readParts h turns s = some (count, parts)) : Steady parts := by
  cases s <;> cases hparts <;> first | exact readVec_steady _ _ _ | exact readVecArray_steady _ _

theorem scanScalar_insensitive (turns : ℕ) (s : Scalar) (dst : ℕ) :
    Insensitive (scanScalar h turns s dst) := by
  unfold scanScalar
  refine Insensitive.ite ?_ ?_
  · exact (insensitive_reading readBool_steady).bind fun _ => insensitive_modify _
  · cases hparts : readParts h turns s with
    | none =>
      exact (insensitive_reading (readNumber_steady _)).bind fun _ => insensitive_modify _
    | some p =>
      exact (insensitive_reading (readParts_steady hparts)).bind fun _ => insensitive_modify _

theorem insensitive_key {f : List UInt8 → Scanner μ α} (hf : ∀ key, Insensitive (f key)) :
    Insensitive (do
      let key ← reading (readString : Reader (List UInt8))
      reading (skips (expect (ch ':')))
      f key) :=
  (insensitive_reading readString_steady).bind fun key =>
    (insensitive_expect rfl).bind fun _ => hf key

theorem scanStruct_insensitive (hskip : Steady skip) (turns : ℕ) {si : StructInfo}
    (hscan : ∀ key f, si.findField key = some f → si.isInternal f = false →
      ∀ dst, Insensitive (scan f.type dst)) (dst : ℕ) :
    Insensitive (scanStruct scan skip turns si dst) := by
  refine insensitive_object (insensitive_key fun key => ?_) turns
  cases hfield : si.findField key with
  | none => exact insensitive_reading hskip
  | some f =>
    dsimp only
    cases hinternal : si.isInternal f with
    | true => exact insensitive_reading hskip
    | false => exact hscan key f hfield hinternal _

theorem scanArray_insensitive (turns stride : ℕ) {elem : ScanInfo}
    (hscan : ∀ dst, Insensitive (scan elem dst)) (dst : ℕ) :
    Insensitive (scanArray h scan turns stride elem dst) := by
  refine (insensitive_expect rfl).bind fun _ => (insensitive_onMemory _).bind fun _ =>
    (insensitive_test rfl).bind fun _ => (Insensitive.pure ()).ite ?_
  exact insensitive_entries rfl ((insensitive_onMemory _).bind fun ptr => hscan ptr) turns

theorem scanEnum_insensitive (hskip : Steady skip) (w : EnumWidth)
    (fields : Option (List (Option (List UInt8) × ℤ))) (dst : ℕ) :
    Insensitive (scanEnum h skip w fields dst) := by
  cases fields with
  | none => exact insensitive_reading hskip
  | some fields =>
    refine (insensitive_reading (look_steady _)).bind fun _ => Insensitive.ite ?_ ?_
    · exact (insensitive_reading readString_steady).bind fun _ => insensitive_modify _
    · exact (insensitive_reading (readInt64_steady _ _ _)).bind fun _ => insensitive_modify _

theorem scanTuple_insensitive (hskip : Steady skip) (turns : ℕ) {args : List (ℕ × ScanInfo)}
    (hscan : ∀ arg ∈ args, ∀ dst, Insensitive (scan arg.2 dst)) (dst : ℕ) :
    Insensitive (scanTuple scan skip turns args dst) := by
  refine insensitive_object (insensitive_key fun key => ?_) turns
  cases hentry : tupleEntry args key with
  | none => exact insensitive_reading hskip
  | some arg =>
    unfold tupleEntry at hentry
    split at hentry
    · exact hscan arg (List.mem_of_getElem? hentry) _
    · cases hentry

theorem reserveKey_insensitive (turns : ℕ) (key : KeyType) (keyStr : List UInt8)
    (dst valueSize : ℕ) : Insensitive (reserveKey h turns key keyStr dst valueSize) := by
  unfold reserveKey
  split
  · exact Insensitive.pure none
  · split
    · exact insensitive_onMemory _
    · split
      · exact insensitive_onMemory _
      · exact Insensitive.pure none
  · exact insensitive_onMemory _

theorem scanTable_insensitive (hskip : Steady skip) (turns : ℕ) (key : KeyType) (valueSize : ℕ)
    {secondType : ScanInfo} (hscan : key ≠ .other → ∀ dst, Insensitive (scan secondType dst))
    (dst : ℕ) : Insensitive (scanTable h scan skip turns key valueSize secondType dst) := by
  refine (insensitive_expect rfl).bind fun _ => (insensitive_onMemory _).bind fun _ =>
    (insensitive_test rfl).bind fun _ => (Insensitive.pure ()).ite ?_
  refine insensitive_entries rfl (insensitive_key fun keyStr => ?_) turns
  by_cases hkey : key = .other
  · subst hkey
    exact insensitive_reading hskip
  · refine (reserveKey_insensitive turns key keyStr dst valueSize).bind fun val => ?_
    cases val with
    | none => exact insensitive_reading hskip
    | some val => exact (insensitive_modify _).bind fun _ => hscan hkey val

theorem scanPointer_insensitive (hskip : Steady skip) (turns : ℕ) {structType : Option StructInfo}
    (hscan : ∀ si ∈ structType, ∀ key f, si.findField key = some f → si.isInternal f = false →
      ∀ dst, Insensitive (scan f.type dst)) (dst : ℕ) :
    Insensitive (scanPointer h scan skip turns structType dst) := by
  refine (insensitive_reading testNull_steady).bind fun _ => (insensitive_modify _).ite ?_
  cases structType with
  | none => exact insensitive_reading hskip
  | some si =>
    exact (insensitive_onMemory _).bind fun ptr =>
      (scanStruct_insensitive hskip turns (hscan si rfl) ptr).bind fun _ => insensitive_modify _

section

variable {scan : ℕ → μ → Reader μ} {skip : List UInt8 → Option (List UInt8)}

theorem scanElements_steady (hscan : ∀ dst m, Steady (scan dst m)) (hskip : Steady (skips skip))
    (elemSize maxCount dst turns idx : ℕ) (m : μ) :
    Steady (scanElements scan skip elemSize maxCount dst turns idx m : Reader μ) := by
  induction turns generalizing idx m with
  | zero => exact fun _ _ _ => .none
  | succ turns ih =>
    have helement : Steady (fun cur => if idx < maxCount
        then scan (dst + idx * elemSize % 2 ^ 32) m cur
        else (skip cur).map (Prod.mk m) : Reader μ) := by
      intro cur cur' h
      dsimp only
      split
      · exact hscan _ m h
      · rcases sameRead_skips (hskip h) with ⟨hcur, hcur'⟩ | ⟨tail, tail', hcur, hcur', htail⟩
        · rw [hcur, hcur']
          exact .none
        · rw [hcur, hcur']
          exact .some m htail
    exact helement.bind fun m => afterEntry_steady rfl (Steady.pure m) (ih _ m)

theorem scanFixedArray_steady (hscan : ∀ dst m, Steady (scan dst m)) (hskip : Steady (skips skip))
    (elemSize maxCount turns dst : ℕ) (m : μ) :
    Steady (scanFixedArray scan skip elemSize maxCount turns dst m : Reader μ) := by
  have hclosed : Steady (fun cur => if peek cur = ch ']' then some (m, (skipWS cur).tail)
      else scanElements scan skip elemSize maxCount dst turns 0 m cur : Reader μ) :=
    closed_steady rfl m (scanElements_steady hscan hskip elemSize maxCount dst turns 0 m)
  intro cur cur' h
  unfold scanFixedArray
  rcases sameRead_skips (expect_steady rfl h : SameRead (skips (expect (ch '[')) cur) _) with
    ⟨hcur, hcur'⟩ | ⟨tail, tail', hcur, hcur', htail⟩
  · rw [hcur, hcur']
    exact .none
  · rw [hcur, hcur']
    exact hclosed htail

end

theorem scanDim_insensitive {scan : ℕ → Scanner μ Unit}
    {skip : List UInt8 → Option (List UInt8)} (hscan : ∀ dst, Insensitive (scan dst))
    (hskip : Steady (skips skip)) (elemSize maxCount turns dst : ℕ) :
    Insensitive (scanDim scan skip elemSize maxCount turns dst) := by
  intro m
  refine Steady.bind (scanFixedArray_steady (fun dst m cur cur' h => ?_) hskip elemSize maxCount
    turns dst m) fun m => Steady.pure ((), m)
  have hsame := hscan dst m h
  change SameRead (Option.map _ (scan dst m cur)) (Option.map _ (scan dst m cur'))
  generalize scan dst m cur = x, scan dst m cur' = x' at hsame ⊢
  cases hsame with
  | none => exact .none
  | some p h => exact .some p.2 h

/-! ## Variants -/

/-- **A variant is reached** when a value of a type is scanned.  What an array of a fixed size is of
is not. -/
inductive Reaches (structs : ℕ → StructInfo) : ScanInfo → Prop
  | variant (args : List (Option (List UInt8) × ℕ × ScanInfo)) : Reaches structs (.variant args)
  | struct {si : ℕ} {key : List UInt8} {f : FieldInfo} (hf : (structs si).findField key = some f)
      (hinternal : (structs si).isInternal f = false) (h : Reaches structs f.type) :
      Reaches structs (.struct (some si))
  | pointer {si : ℕ} {key : List UInt8} {f : FieldInfo} (hf : (structs si).findField key = some f)
      (hinternal : (structs si).isInternal f = false) (h : Reaches structs f.type) :
      Reaches structs (.pointer (some si))
  | array (stride : ℕ) {elem : ScanInfo} (h : Reaches structs elem) :
      Reaches structs (.array stride (some elem))
  | tuple {args : List (ℕ × ScanInfo)} {arg : ℕ × ScanInfo} (harg : arg ∈ args)
      (h : Reaches structs arg.2) : Reaches structs (.tuple args)
  | table {key : KeyType} (hkey : key ≠ .other) (valueSize : ℕ) {secondType : ScanInfo}
      (h : Reaches structs secondType) : Reaches structs (.table key valueSize secondType)

theorem scanValue_insensitive (h : Host μ ρ) {structs : ℕ → StructInfo} (depth : ℕ)
    (ti : ScanInfo) (hti : ¬Reaches structs ti) (dst : ℕ) :
    Insensitive (scanValue h structs depth ti dst) := by
  induction depth generalizing ti dst with
  | zero => exact insensitive_fails
  | succ depth ih =>
    have hskip := skipValue_steady depth
    refine (insensitive_reading testNull_steady).bind fun _ => (Insensitive.pure ()).ite ?_
    cases ti with
    | scalar s => exact scanScalar_insensitive depth s dst
    | string =>
      exact (insensitive_reading readString_steady).bind fun v => insensitive_onMemory _
    | struct structType =>
      cases structType with
      | none => exact insensitive_fails
      | some si =>
        exact scanStruct_insensitive hskip depth
          (fun key f hf hinternal => ih _ fun h => hti (.struct hf hinternal h)) dst
    | pointer structType =>
      refine scanPointer_insensitive hskip depth (fun si hsi key f hf hinternal => ?_) dst
      obtain ⟨i, rfl, rfl⟩ := Option.map_eq_some_iff.mp hsi
      exact ih _ fun h => hti (.pointer hf hinternal h)
    | array stride elem =>
      cases elem with
      | none => exact insensitive_fails
      | some elem =>
        exact scanArray_insensitive depth stride (ih elem fun h => hti (.array stride h)) dst
    | enumeration w fields => exact scanEnum_insensitive hskip w fields dst
    | tuple args =>
      exact scanTuple_insensitive hskip depth
        (fun arg harg => ih _ fun h => hti (.tuple harg h)) dst
    | variant args => exact absurd (.variant args) hti
    | table key valueSize secondType =>
      exact scanTable_insensitive hskip depth key valueSize
        (fun hkey => ih _ fun h => hti (.table hkey valueSize h)) dst
    | dim elemSize maxCount => exact scanDim_insensitive (ih _ hti) hskip _ _ _ _
    | handle => exact insensitive_fails
    | other => exact insensitive_reading hskip

end

end JsonScan

end DaScript

import DaScript.Simulate.BinSerializer

/-!
# Daslib/Archive — values as bytes, and back

`MemSerializer` and the `serialize` overloads of `daslib/archive.das`, for the types whose values
own what they hold.  An archive has no tags: the type says what comes next.
-/

namespace DaScript.Archive

/-! ## Types -/

/-- Workhorse types, the pointers left out. -/
inductive Workhorse
  | scalar (s : Scalar)
  | enumeration (w : EnumWidth)
  | string
  deriving DecidableEq, Repr

/-- What can be archived. -/
inductive Ty
  | workhorse (w : Workhorse)
  | struct (fields : List Ty)
  | tuple (fields : List Ty)
  | variant (alternatives : List Ty)
  | fixed (dim : ℕ) (element : Ty)
  | array (element : Ty)
  | table (key : Workhorse) (value : Ty)

/-- The size of `Table`: that of `Array`, and three words more. -/
def sizeofTable : ℕ := 64

namespace Workhorse

def isRawPod : Workhorse → Bool
  | string => false
  | _ => true

def getSizeOf : Workhorse → ℕ
  | scalar s => s.size
  | enumeration w => w.size
  | string => 8

def getAlignOf : Workhorse → ℕ
  | scalar s => s.align
  | enumeration w => w.size
  | string => 8

theorem getSizeOf_pos (w : Workhorse) : 0 < w.getSizeOf := by
  cases w with
  | scalar s => exact s.size_bounds.1
  | enumeration w => exact w.size_bounds.1
  | string => decide

end Workhorse

namespace Ty

/-- `isWorkhorseType` -/
def isWorkhorse : Ty → Bool
  | workhorse _ => true
  | _ => false

/-- `typeinfo is_dim` -/
def isDim : Ty → Bool
  | fixed _ _ => true
  | _ => false

mutual

def isRawPod : Ty → Bool
  | workhorse w => w.isRawPod
  | struct fields => allRawPod fields
  | tuple fields => allRawPod fields
  | variant alternatives => allRawPod alternatives
  | fixed _ element => element.isRawPod
  | array _ => false
  | table _ _ => false

def allRawPod : List Ty → Bool
  | [] => true
  | t :: ts => t.isRawPod && allRawPod ts

end

mutual

def getAlignOf : Ty → ℕ
  | workhorse w => w.getAlignOf
  | struct fields => maxAlign fields 1
  | tuple fields => maxAlign fields 1
  | variant alternatives => maxAlign alternatives 4
  | fixed _ element => element.getAlignOf
  | array _ => 8
  | table _ _ => 8

/-- The largest alignment of some types, and of `align`. -/
def maxAlign : List Ty → ℕ → ℕ
  | [], align => align
  | t :: ts, align => maxAlign ts (max t.getAlignOf align)

end

mutual

def getSizeOf : Ty → ℕ
  | workhorse w => w.getSizeOf
  | struct fields => alignOffset (maxAlign fields 1) (endOf fields 0)
  | tuple fields => alignOffset (maxAlign fields 1) (endOf fields 0)
  | variant alternatives =>
    alignOffset (maxAlign alternatives 4)
      (maxEnd alternatives (alignOffset (maxAlign alternatives 4) 4))
  | fixed dim element => dim * element.getSizeOf
  | array _ => sizeofArray
  | table _ _ => sizeofTable

/-- Where fields one after another end. -/
def endOf : List Ty → ℕ → ℕ
  | [], size => size
  | t :: ts, size => endOf ts (alignOffset t.getAlignOf size + t.getSizeOf)

/-- Where alternatives that all begin at `start` end. -/
def maxEnd : List Ty → ℕ → ℕ
  | [], _ => 0
  | t :: ts, start => max (start + t.getSizeOf) (maxEnd ts start)

end

/-- An array of these is copied as a block. -/
def isRawWorkhorse (element : Ty) : Bool := element.isWorkhorse && element.isRawPod

theorem getSizeOf_pos {element : Ty} (h : element.isRawWorkhorse = true) :
    0 < element.getSizeOf := by
  cases element with
  | workhorse w => rw [getSizeOf]; exact w.getSizeOf_pos
  | _ => exact nomatch h

/-- A fixed array of these is copied as a block. -/
def isRawBlock (element : Ty) : Bool := element.isRawPod && (element.isWorkhorse || element.isDim)

end Ty

/-! ## Values -/

/-- What a variable holds. -/
inductive Val
  /-- memory that is copied as it is -/
  | block (bytes : List UInt8)
  | text (s : List UInt8)
  | record (fields : List Val)
  | variant (index : ℕ) (value : Val)
  | elements (es : List Val)
  | pairs (ps : List (Val × Val))

namespace Ty

mutual

/-- The value of memory that is zero. -/
def zeroed : Ty → Val
  | workhorse .string => .text []
  | workhorse w => .block (List.replicate w.getSizeOf 0)
  | struct fields => .record (zeroedFields fields)
  | tuple fields => .record (zeroedFields fields)
  | variant alternatives => .variant 0 (zeroedAt alternatives 0)
  | fixed dim element =>
    if element.isRawBlock then .block (List.replicate (dim * element.getSizeOf) 0)
    else .elements (List.replicate dim element.zeroed)
  | array element => if element.isRawWorkhorse then .block [] else .elements []
  | table _ _ => .pairs []

def zeroedFields : List Ty → List Val
  | [] => []
  | t :: ts => t.zeroed :: zeroedFields ts

/-- The alternative of an index, the rest of the variant being zero. -/
def zeroedAt : List Ty → ℕ → Val
  | [], _ => .block []
  | t :: _, 0 => t.zeroed
  | _ :: ts, i + 1 => zeroedAt ts i

end

end Ty

/-! ## The serializer -/

structure MemSerializer where
  data : List UInt8
  readOffset : ℕ
  lastError : String
  deriving DecidableEq, Repr

/-- An `int` of which these are the bits. -/
def isNegative (len : ℕ) : Bool := 2 ^ 31 ≤ len

theorem not_isNegative {len : ℕ} (h : len < 2 ^ 31) : ¬ isNegative len = true := by
  rw [isNegative, decide_eq_true_eq]
  exact not_le.mpr h

namespace MemSerializer

/-- `write`.  Of no bytes at all it takes the address past the end. -/
def write (bytes : List UInt8) (s : MemSerializer) : Outcome MemSerializer Unit :=
  let pos := s.data.length
  if 2 ^ 31 ≤ pos + bytes.length then .error (.undefined "signed overflow") s
  else if bytes = [] then .error (.throw s!"array index out of range, {pos} of {pos}") s
  else .ok () { s with data := s.data ++ bytes }

/-- `read`: the bytes, if there are so many. -/
def read (size : ℕ) (s : MemSerializer) : Outcome MemSerializer (Option (List UInt8)) :=
  let maxOffset := s.data.length
  if 2 ^ 31 ≤ s.readOffset + size then .error (.undefined "signed overflow") s
  else if maxOffset < s.readOffset + size then
    .ok none { s with readOffset := maxOffset, lastError := "reading past the end of stream" }
  else if maxOffset ≤ s.readOffset then
    .error (.throw s!"array index out of range, {s.readOffset} of {maxOffset}") s
  else
    .ok (some ((s.data.drop s.readOffset).take size)) { s with readOffset := s.readOffset + size }

/-- `read_raw(len)`, of an `int` that is zero. -/
def readInt (s : MemSerializer) : Outcome MemSerializer ℕ :=
  (s.read 4).bind fun bytes s => .ok (bytes.elim 0 leNat) s

/-- `length`, and `write_raw(len)`. -/
def writeLength (what : String) (len : ℕ) (s : MemSerializer) : Outcome MemSerializer Unit :=
  if isNegative len then
    .error (.verify s!"{what} size {len} exceeds INT_MAX; use long_length() instead") s
  else s.write (leBytes 4 len)

end MemSerializer

/-- A value that is not of the type. -/
def notOfType {α : Type} (s : MemSerializer) : Outcome MemSerializer α :=
  .error (.undefined "a value of another type") s

/-- One call for each of some values. -/
def forEach {α : Type} (f : α → MemSerializer → Outcome MemSerializer Unit) :
    List α → MemSerializer → Outcome MemSerializer Unit
  | [], s => .ok () s
  | a :: as, s => (f a s).bind fun _ s => forEach f as s

/-- One call for each of some variables, which it may change. -/
def changeEach {α : Type} (f : α → MemSerializer → Outcome MemSerializer α) :
    List α → MemSerializer → Outcome MemSerializer (List α)
  | [], s => .ok [] s
  | a :: as, s => (f a s).bind fun a s => (changeEach f as s).bind fun as s => .ok (a :: as) s

/-! ## Writing -/

/-- `serialize` of a workhorse, writing. -/
def Workhorse.save : Workhorse → Val → MemSerializer → Outcome MemSerializer Unit
  | .string, .text t, s =>
    (s.writeLength "string" t.length).bind fun _ s => if t = [] then .ok () s else s.write t
  | .scalar _, .block bytes, s => s.write bytes
  | .enumeration _, .block bytes, s => s.write bytes
  | _, _, s => notOfType s

mutual

/-- `serialize`, writing. -/
def save : Ty → Val → MemSerializer → Outcome MemSerializer Unit
  | .workhorse w, v, s => w.save v s
  | .struct fields, .record vs, s => saveFields fields vs s
  | .tuple fields, .record vs, s => saveFields fields vs s
  | .variant alternatives, .variant index v, s =>
    (s.write (leBytes 4 index)).bind fun _ s => saveAlternative alternatives index v s
  | .fixed _ element, v, s =>
    if element.isRawBlock then
      match v with
      | .block bytes => s.write bytes
      | _ => notOfType s
    else
      match v with
      | .elements es => forEach (fun v s => save element v s) es s
      | _ => notOfType s
  | .array element, v, s =>
    if element.isRawWorkhorse then
      match v with
      | .block bytes =>
        (s.writeLength "array" (bytes.length / element.getSizeOf)).bind fun _ s =>
          if bytes = [] then .ok () s else s.write bytes
      | _ => notOfType s
    else
      match v with
      | .elements es => (s.writeLength "array" es.length).bind fun _ s =>
          forEach (fun v s => save element v s) es s
      | _ => notOfType s
  | .table key value, .pairs ps, s =>
    (s.writeLength "table" ps.length).bind fun _ s =>
      forEach (fun p s => (key.save p.1 s).bind fun _ s => save value p.2 s) ps s
  | _, _, s => notOfType s

/-- `apply` on the fields of a structure or a tuple, writing. -/
def saveFields : List Ty → List Val → MemSerializer → Outcome MemSerializer Unit
  | [], [], s => .ok () s
  | t :: ts, v :: vs, s => (save t v s).bind fun _ s => saveFields ts vs s
  | _, _, s => notOfType s

/-- `apply` on a variant, writing. -/
def saveAlternative : List Ty → ℕ → Val → MemSerializer → Outcome MemSerializer Unit
  | [], _, _, s => notOfType s
  | t :: _, 0, v, s => save t v s
  | _ :: ts, i + 1, v, s => saveAlternative ts i v s

end

/-! ## Reading -/

section Reading

variable (fresh : ℕ → UInt8) (same : Workhorse → Val → Val → Bool)

/-- Memory that was not initialized. -/
def uninitialized (n : ℕ) : List UInt8 := (List.range n).map fresh

/-- `clone_string` of bytes and a zero. -/
def cloneString (bytes : List UInt8) : List UInt8 := bytes.takeWhile (· ≠ 0)

/-- `serialize` of a workhorse, reading over `old`. -/
def Workhorse.load : Workhorse → Val → MemSerializer → Outcome MemSerializer Val
  | .string, _, s =>
    s.readInt.bind fun len s =>
      if len = 0 ∨ isNegative len then .ok (.text []) s
      else (s.read len).bind fun bytes s =>
        .ok (.text (cloneString (bytes.getD (uninitialized fresh len)))) s
  | w, old, s => (s.read w.getSizeOf).bind fun bytes s => .ok (bytes.elim old .block) s

/-- `value[k]` of a table: what is there, if there is something. -/
def slot (key : Workhorse) (k : Val) : List (Val × Val) → Option Val
  | [] => none
  | p :: ps => if same key p.1 k then some p.2 else slot key k ps

/-- What is there becomes `v`. -/
def setSlot (key : Workhorse) (k v : Val) : List (Val × Val) → List (Val × Val)
  | [] => [(k, v)]
  | p :: ps => if same key p.1 k then (p.1, v) :: ps else p :: setSlot key k v ps

/-- The loop over the pairs of a table. -/
def loadPairs (key : Workhorse) (zeroed : Val)
    (loadValue : Val → MemSerializer → Outcome MemSerializer Val) :
    ℕ → List (Val × Val) → MemSerializer → Outcome MemSerializer (List (Val × Val))
  | 0, ps, s => .ok ps s
  | len + 1, ps, s =>
    (key.load fresh (Ty.workhorse key).zeroed s).bind fun k s =>
      (loadValue ((slot same key k ps).getD zeroed) s).bind fun v s =>
        loadPairs key zeroed loadValue len (setSlot same key k v ps) s

mutual

/-- `serialize`, reading over `old`.  What is deleted first is zero from then on. -/
def load : Ty → Val → MemSerializer → Outcome MemSerializer Val
  | .workhorse w, old, s => w.load fresh old s
  | .struct fields, _, s =>
    (loadFields fields (Ty.zeroedFields fields) s).bind fun vs s => .ok (.record vs) s
  | .tuple fields, _, s =>
    (loadFields fields (Ty.zeroedFields fields) s).bind fun vs s => .ok (.record vs) s
  | .variant alternatives, _, s =>
    s.readInt.bind fun index s =>
      (loadAlternative alternatives index s).bind fun v s => .ok (.variant index v) s
  | .fixed dim element, old, s =>
    if element.isRawBlock then
      (s.read (dim * element.getSizeOf)).bind fun bytes s => .ok (bytes.elim old .block) s
    else
      match old with
      | .elements es => (changeEach (fun v s => load element v s) es s).bind fun es s =>
          .ok (.elements es) s
      | _ => notOfType s
  | .array element, _, s =>
    s.readInt.bind fun len s =>
      if isNegative len then
        .error (.throw s!"resizing array to negative size {(len : ℤ) - 2 ^ 32}") s
      else if element.isRawWorkhorse then
        if len = 0 then .ok (.block []) s
        else (s.read (len * element.getSizeOf)).bind fun bytes s =>
          .ok (.block (bytes.getD (uninitialized fresh (len * element.getSizeOf)))) s
      else
        (changeEach (fun v s => load element v s) (List.replicate len element.zeroed) s).bind
          fun es s => .ok (.elements es) s
  | .table key value, _, s =>
    s.readInt.bind fun len s =>
      (loadPairs fresh same key value.zeroed (fun v s => load value v s)
        (if isNegative len then 0 else len) [] s).bind fun ps s => .ok (.pairs ps) s

/-- `apply` on the fields of a structure or a tuple, reading. -/
def loadFields : List Ty → List Val → MemSerializer → Outcome MemSerializer (List Val)
  | [], [], s => .ok [] s
  | t :: ts, v :: vs, s =>
    (load t v s).bind fun v s => (loadFields ts vs s).bind fun vs s => .ok (v :: vs) s
  | _, _, s => notOfType s

/-- `apply` on a variant, reading; it has no field if the index is of none. -/
def loadAlternative : List Ty → ℕ → MemSerializer → Outcome MemSerializer Val
  | [], _, s => .ok (.block []) s
  | t :: _, 0, s => load t t.zeroed s
  | _ :: ts, i + 1, s => loadAlternative ts i s

end

/-! ## Archives in memory -/

def memArchiveSave (t : Ty) (v : Val) : Outcome MemSerializer (List UInt8) :=
  (save t v ⟨[], 0, ""⟩).bind fun _ s => .ok s.data s

/-- `mem_archive_load` into a variable that holds `old`. -/
def memArchiveLoad (canfail : Bool) (data : List UInt8) (t : Ty) (old : Val) :
    Outcome MemSerializer (Bool × Val) :=
  (load fresh same t old ⟨data, 0, ""⟩).bind fun v s =>
    if s.lastError = "" then .ok (true, v) s
    else if canfail then .ok (false, v) s
    else .error (.throw s.lastError) s

end Reading

end DaScript.Archive

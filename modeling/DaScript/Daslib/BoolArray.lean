import DaScript.Foundations.Machine
import DaScript.Machinery.Bitmap

/-!
# Daslib/BoolArray — booleans in the bits of an array

`BoolArray` of `daslib/bool_array.das`: element `k` is bit `k % 32` of word `k / 32`.  What lies
behind the last element in its word is left over from elements that are gone, until `resize` masks
it and `push` writes over it.

What the script's arrays do with an index that is out of range stops the program
(`Fault.undefined`): the functions ask the compiler not to look.
-/

namespace DaScript

open Bitmap

/-- A script's `int`. -/
abbrev Index : Type := Set.Ico (-(2 : ℤ) ^ 31) (2 ^ 31)

structure BoolArray where
  bits : List (BitVec 32)
  realSize : ℕ
  deriving DecidableEq, Repr

namespace BoolArray

/-- `BoolArray()` -/
def empty : BoolArray := ⟨[], 0⟩

/-- `uint(index)` -/
def uint (index : ℤ) : ℕ := (index % 2 ^ 32).toNat

/-- What a call does to an array, and what it returns. -/
abbrev Call (α : Type) : Type := BoolArray → Outcome BoolArray α

/-- `panic` -/
def panics {α : Type} (message : String) : Call α := .error (.throw message)

/-- The range check of an index. -/
def outOfRange {α : Type} (index : ℤ) : Call α := panics s!"index out of range, {index}"

/-- `bits[offs]` -/
def word (offs : ℕ) : Call (BitVec 32) := fun self =>
  match self.bits[offs]? with
  | some w => .ok w self
  | none => .error (.undefined "an index that is not checked") self

/-- `bits[offs] = w` -/
def setWord (offs : ℕ) (w : BitVec 32) : Call Unit := fun self =>
  if offs < self.bits.length then .ok () { self with bits := self.bits.set offs w }
  else .error (.undefined "an index that is not checked") self

/-- `bits[offs] |= mask`, and the like. -/
def updateWord (offs : ℕ) (f : BitVec 32 → BitVec 32) : Call Unit := fun self =>
  (word offs self).bind fun w => setWord offs (f w)

/-- `bits.resize` -/
def resizeWords (count : ℕ) (bits : List (BitVec 32)) : List (BitVec 32) :=
  bits.take count ++ List.replicate (count - bits.length) 0#32

/-- `(1u << bit) - 1u` -/
def below (bit : ℕ) : BitVec 32 := flag bit - 1#32

/-! ## Elements -/

/-- An operation on the word and the mask of an index that is in range. -/
def atIndex {α : Type} (index : ℤ) (f : ℕ → BitVec 32 → Call α) : Call α := fun self =>
  let uindex := uint index
  if self.realSize ≤ uindex then outOfRange index self
  else f (uindex / 32) (flag (uindex % 32)) self

/-- `operator []` -/
def get (index : ℤ) : Call Bool :=
  atIndex index fun offs mask self => (word offs self).bind fun w => .ok (w &&& mask != 0#32)

/-- `operator [] =` -/
def assign (index : ℤ) (value : Bool) : Call Unit :=
  atIndex index fun offs mask =>
    updateWord offs fun w => if value then w ||| mask else w &&& ~~~mask

/-- `operator [] ^^=` -/
def xorAssign (index : ℤ) (value : Bool) : Call Unit :=
  if value then atIndex index fun offs mask => updateWord offs (· ^^^ mask) else .ok ()

/-- `operator [] &&=` -/
def andAssign (index : ℤ) (value : Bool) : Call Unit :=
  if !value then atIndex index fun offs mask => updateWord offs (· &&& ~~~mask) else .ok ()

/-- `operator [] ||=` -/
def orAssign (index : ℤ) (value : Bool) : Call Unit :=
  if value then atIndex index fun offs mask => updateWord offs (· ||| mask) else .ok ()

/-! ## Sizes -/

def clear : Call Unit := fun _ => .ok () ⟨[], 0⟩

def reserve (capacity : ℤ) : Call Unit :=
  if capacity < 0 then panics "assert failed" else .ok ()

/-- The tail of the last word is cleared, if the array grows. -/
def maskTail (newRealSize : ℕ) : Call Unit := fun self =>
  if self.realSize < newRealSize ∧ self.realSize % 32 ≠ 0 then
    updateWord (self.realSize / 32) (· &&& below (self.realSize % 32)) self
  else .ok () self

def resize (newSize : ℤ) : Call Unit := fun self =>
  if newSize < 0 then panics "assert failed" self
  else
    let newRealSize := newSize.toNat
    (maskTail newRealSize self).bind fun _ self =>
      .ok () ⟨resizeWords ((newRealSize + 31) / 32) self.bits, newRealSize⟩

def push (value : Bool) : Call Unit := fun self =>
  let grown := if self.realSize % 32 = 0 then { self with bits := self.bits ++ [0#32] } else self
  let mask := flag (self.realSize % 32)
  (updateWord (self.realSize / 32) (fun w => if value then w ||| mask else w &&& ~~~mask)
    grown).bind fun _ self => .ok () { self with realSize := self.realSize + 1 }

def pop : Call Bool := fun self =>
  if self.realSize = 0 then panics "pop from empty BoolArray" self
  else
    (get (self.realSize - 1) self).bind fun value self =>
      (resize (self.realSize - 1) self).bind fun _ => .ok value

/-! ## In the middle -/

/-- The loop of `erase` over the words that follow, with the one before shifted already. -/
def eraseWords : List ℕ → BitVec 32 → Call (BitVec 32)
  | [], newW, self => .ok newW self
  | offs :: rest, newW, self =>
    (word offs self).bind fun nextW self =>
      (setWord (offs - 1) (newW ||| ((nextW &&& 1#32) <<< 31)) self).bind fun _ =>
        eraseWords rest (nextW >>> 1)

def erase (index : ℤ) : Call Unit := fun self =>
  let uindex := uint index
  if self.realSize ≤ uindex then outOfRange index self
  else
    let startOffs := uindex / 32
    let startBit := uindex % 32
    (word startOffs self).bind fun w self =>
      let lowBits := w &&& below startBit
      let upperBits := if startBit < 31 then w >>> (startBit + 1) else 0#32
      let newW := lowBits ||| (upperBits <<< startBit)
      let totalUints := (self.realSize + 31) / 32
      (eraseWords (List.range' (startOffs + 1) (totalUints - (startOffs + 1))) newW self).bind
        fun newW self =>
          (setWord (totalUints - 1) newW self).bind fun _ self => resize (self.realSize - 1) self

/-- The loop of `insert` over the words that follow, with the bit the one before gave up. -/
def insertWords : List ℕ → BitVec 32 → Call (BitVec 32)
  | [], carryBit, self => .ok carryBit self
  | offs :: rest, carryBit, self =>
    (word offs self).bind fun nextW self =>
      (setWord offs (((nextW &&& below 31) <<< 1) ||| carryBit) self).bind fun _ =>
        insertWords rest (nextW >>> 31)

def insert (index : ℤ) (value : Bool) : Call Unit := fun self =>
  let uindex := uint index
  if self.realSize < uindex then outOfRange index self
  else if uindex = self.realSize then push value self
  else
    (resize (self.realSize + 1) self).bind fun _ self =>
      let startOffs := uindex / 32
      let startBit := uindex % 32
      (word startOffs self).bind fun w self =>
        let lowerBits := w &&& below startBit
        let upperBits := (w &&& ~~~below startBit) <<< 1
        let setBit := if value then flag startBit else 0#32
        (setWord startOffs (lowerBits ||| setBit ||| upperBits) self).bind fun _ self =>
          let totalUints := (self.realSize + 31) / 32
          (insertWords (List.range' (startOffs + 1) (totalUints - (startOffs + 1))) (w >>> 31)
            self).bind fun carryBit => updateWord (totalUints - 1) (· ||| carryBit)

/-- `push` at an index. -/
def pushAt (value : Bool) (at' : ℤ) : Call Unit := fun self =>
  if at' ≠ self.realSize then insert at' value self else push value self

/-! ## Reports -/

def length (self : BoolArray) : ℤ := self.realSize

/-- How a boolean is written. -/
def nameOf (value : Bool) : String := if value then "true" else "false"

/-- The loop of `to_string`, with so many bits to go. -/
def writeBits : ℕ → ℕ → String → Call String
  | 0, _, written, self => .ok written self
  | n + 1, bit, written, self =>
    (get bit self).bind fun value =>
      writeBits n (bit + 1) (written ++ (if bit ≠ 0 then ", " else "") ++ nameOf value)

def toString : Call String := fun self =>
  (writeBits self.realSize 0 "[" self).bind fun written => .ok (written ++ "]")

/-! ## Runs -/

/-- A call of an operation. -/
inductive Op
  | push (value : Bool)
  | pushAt (value : Bool) (at' : Index)
  | pop
  | insert (index : Index) (value : Bool)
  | erase (index : Index)
  | resize (newSize : Index)
  | clear
  | reserve (capacity : Index)
  | get (index : Index)
  | assign (index : Index) (value : Bool)
  | xorAssign (index : Index) (value : Bool)
  | andAssign (index : Index) (value : Bool)
  | orAssign (index : Index) (value : Bool)

/-- A call that returns nothing. -/
def void (call : Call Unit) : Call (Option Bool) := fun self =>
  (call self).bind fun _ => .ok none

/-- A call that returns a boolean. -/
def returning (call : Call Bool) : Call (Option Bool) := fun self =>
  (call self).bind fun value => .ok (some value)

/-- The call. -/
def call : Op → Call (Option Bool)
  | .push value => void (push value)
  | .pushAt value at' => void (pushAt value at')
  | .pop => returning pop
  | .insert index value => void (insert index value)
  | .erase index => void (erase index)
  | .resize newSize => void (resize newSize)
  | .clear => void clear
  | .reserve capacity => void (reserve capacity)
  | .get index => returning (get index)
  | .assign index value => void (assign index value)
  | .xorAssign index value => void (xorAssign index value)
  | .andAssign index value => void (andAssign index value)
  | .orAssign index value => void (orAssign index value)

end BoolArray

end DaScript

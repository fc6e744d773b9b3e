import DaScript.Foundations.Machine
import DaScript.Machinery.Text

/-!
# Daslib/Base64 — base64, there and back

`base64_encode` and `base64_decode` of `daslib/base64.das`.  Both write into an array of the size
they expect, at a position of their own, and carry the bits that a byte and a character do not share
from one turn of the loop to the next.

`groups` and `closing` are the text they are about.  The round trip fails where the text is empty,
for nothing is then shown to the decoder, and where its size is no `int` (`base64_roundTrips_iff`).
-/

namespace DaScript.Base64

open Text

/-- An `int`. -/
def int32 (i : ℤ) : ℤ := i.bmod (2 ^ 32)

/-- The largest `int`. -/
def maxInt : ℕ := 2 ^ 31 - 1

def base64Pad : ℕ := (ch '=').toNat

def base64deFirst : ℕ := (ch '+').toNat

def base64deLast : ℕ := (ch 'z').toNat

def base64en : List UInt8 :=
  text "ABCDEFGHIJKLMNOPQRSTUVWXYZabcdefghijklmnopqrstuvwxyz0123456789+/"

/-- From `+` on; `-1` for what is no character of the alphabet. -/
def base64de : List ℤ := [
  62, -1, -1, -1, 63, 52, 53, 54,
  55, 56, 57, 58, 59, 60, 61, -1,
  -1, -1, -1, -1, -1, -1, 0, 1,
  2, 3, 4, 5, 6, 7, 8, 9,
  10, 11, 12, 13, 14, 15, 16, 17,
  18, 19, 20, 21, 22, 23, 24, 25,
  -1, -1, -1, -1, -1, -1, 26, 27,
  28, 29, 30, 31, 32, 33, 34, 35,
  36, 37, 38, 39, 40, 41, 42, 43,
  44, 45, 46, 47, 48, 49, 50, 51]

def base64DecodeOutSize (s : ℤ) : ℤ := s.tdiv 4 * 3

def base64EncodeOutSize (s : ℤ) : ℤ := int32 ((int32 (s + 2)).tdiv 3 * 4)

/-! ## Arrays -/

/-- `length`, which is an `int`. -/
def length (arr : List UInt8) : Except Fault ℤ :=
  if maxInt < arr.length then .error (.verify "array size exceeds INT_MAX") else .ok arr.length

def resize (arr : List UInt8) (newSize : ℤ) : Except Fault (List UInt8) :=
  if newSize < 0 then .error (.throw "resizing array to negative size")
  else .ok (arr.take newSize.toNat ++ List.replicate (newSize.toNat - arr.length) 0)

/-- `arr[j]` -/
def fetch (arr : List UInt8) (j : ℕ) : Except Fault UInt8 :=
  if j < arr.length then .ok (arr.getD j 0) else .error (.throw "array index out of range")

/-- `arr[j] = c` -/
def put (arr : List UInt8) (j : ℕ) (c : UInt8) : Except Fault (List UInt8) :=
  if j < arr.length then .ok (arr.set j c) else .error (.throw "array index out of range")

/-- `out[j++] = c` -/
def emit (st : List UInt8 × ℕ) (c : UInt8) : Except Fault (List UInt8 × ℕ) := do
  let out ← put st.1 st.2 c
  pure (out, st.2 + 1)

/-! ## Encoding -/

/-- `base64en[v]` -/
def en (v : ℕ) : UInt8 := base64en.getD v 0

/-- `uint(inp[i])`, the index being in range. -/
def byteAt (inp : List UInt8) (i : ℕ) : ℕ := (inp.getD i 0).toNat

/-- A turn of the loop of `base64_encode`. -/
def encodeStep (inp : List UInt8) (st : List UInt8 × ℕ) (i : ℕ) :
    Except Fault (List UInt8 × ℕ) :=
  if i % 3 = 0 then emit st (en (byteAt inp i >>> 2 &&& 0x3F))
  else if i % 3 = 1 then
    emit st (en (((byteAt inp (i - 1) &&& 0x3) <<< 4) + (byteAt inp i >>> 4 &&& 0xF)))
  else do
    let st ← emit st (en (((byteAt inp (i - 1) &&& 0xF) <<< 2) + (byteAt inp i >>> 6 &&& 0x3)))
    emit st (en (byteAt inp i &&& 0x3F))

/-- The last character and the padding; `i` is the index of the last byte. -/
def encodeTail (inp : List UInt8) (i : ℤ) (st : List UInt8 × ℕ) :
    Except Fault (List UInt8 × ℕ) :=
  if i.tmod 3 = 0 then do
    let st ← emit st (en ((byteAt inp i.toNat &&& 0x3) <<< 4))
    let st ← emit st (ch '=')
    emit st (ch '=')
  else if i.tmod 3 = 1 then do
    let st ← emit st (en ((byteAt inp i.toNat &&& 0xF) <<< 2))
    emit st (ch '=')
  else pure st

/-- `base64_encode` of an array: the bytes of the string. -/
def base64Encode (inp : List UInt8) : Except Fault (List UInt8) := do
  let inlen ← length inp
  let out ← resize [] (base64EncodeOutSize inlen)
  let st ← (List.range inp.length).foldlM (encodeStep inp) (out, 0)
  let st ← encodeTail inp (inlen - 1) st
  pure st.1

/-! ## Decoding -/

/-- What a turn of the loop of `base64_decode` does with the value of a character. -/
def decodeChar (inp : List UInt8) (i c : ℕ) (st : List UInt8 × ℕ) :
    Except Fault (List UInt8 × ℕ) :=
  let (out, j) := st
  if i % 4 = 0 then do
    let out ← put out j (UInt8.ofNat (c <<< 2 &&& 0xFF))
    pure (out, j)
  else if i % 4 = 1 then do
    let v ← fetch out j
    let out ← put out j (UInt8.ofNat (v.toNat + (c >>> 4 &&& 0x3)))
    if (i : ℤ) < inp.length - 3 ∨ byteAt inp (inp.length - 2) ≠ base64Pad then do
      let out ← put out (j + 1) (UInt8.ofNat ((c &&& 0xF) <<< 4))
      pure (out, j + 1)
    else pure (out, j + 1)
  else if i % 4 = 2 then do
    let v ← fetch out j
    let out ← put out j (UInt8.ofNat (v.toNat + (c >>> 2 &&& 0xF)))
    if (i : ℤ) < inp.length - 2 ∨ byteAt inp (inp.length - 1) ≠ base64Pad then do
      let out ← put out (j + 1) (UInt8.ofNat ((c &&& 0x3) <<< 6))
      pure (out, j + 1)
    else pure (out, j + 1)
  else do
    let v ← fetch out j
    let out ← put out j (UInt8.ofNat (v.toNat + c))
    pure (out, j + 1)

/-- What follows the loop: the array is cut to what was written. -/
def finish (st : List UInt8 × ℕ) : Except Fault (ℤ × List UInt8) := do
  let out ← resize st.1 st.2
  pure (st.2, out)

/-- The loop of `base64_decode` from the `i`-th character on, so many of them: what it returns, and
`out`. -/
def decodeFrom (inp : List UInt8) : ℕ → ℕ → List UInt8 × ℕ → Except Fault (ℤ × List UInt8)
  | 0, _, st => finish st
  | n + 1, i, st =>
    let ii := byteAt inp i
    if ii = base64Pad then finish st
    else if ii < base64deFirst ∨ base64deLast < ii then .ok (-1, st.1)
    else
      let c := base64de.getD (ii - base64deFirst) 0
      if c = -1 then .ok (-1, st.1)
      else do
        let st ← decodeChar inp i c.toNat st
        decodeFrom inp n (i + 1) st

/-- `base64_decode` of an array. -/
def base64DecodeArray (inp : List UInt8) : Except Fault (ℤ × List UInt8) := do
  let inlen ← length inp
  let out ← resize [] (base64DecodeOutSize inlen)
  decodeFrom inp inp.length 0 (out, 0)

/-- `base64_decode` of a string into an array.  An empty string is a null pointer, and `peek_data`
does not invoke its block for it; of any other it shows the bytes before the terminator. -/
def base64Decode (str out : List UInt8) : Except Fault (ℤ × List UInt8) :=
  if str = [] then .ok (0, out) else base64DecodeArray (str.takeWhile (· ≠ 0))

end DaScript.Base64

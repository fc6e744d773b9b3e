import Mathlib.Tactic

/-!
# Daslib/Utf8Utils — UTF-8 by arithmetic, and by an automaton

`utf8_encode`, `utf8_length`, `contains_utf8_bom`, `is_utf8_string_valid` and `utf8_decode` of
`daslib/utf8_utils.das`, for arrays.  The automaton finds the class of a byte in the first half of
one table and its next state, by class, in the second; a state is where its row begins.

Elements of `array<uint>` are numbers here, and arrays are shorter than an `int` can count.
-/

namespace DaScript.Utf8Utils

/-! ## Encoding -/

/-- The bytes `utf8_encode` appends for a codepoint. -/
def encoded (ch : ℕ) : List UInt8 :=
  if ch < 0x80 then [UInt8.ofNat ch]
  else if ch < 0x800 then
    [UInt8.ofNat (0xC0 + (ch >>> 6)),
      UInt8.ofNat (0x80 + (ch &&& 0x3F))]
  else if ch < 0x10000 then
    [UInt8.ofNat (0xE0 + (ch >>> 12)),
      UInt8.ofNat (0x80 + ((ch >>> 6) &&& 0x3F)),
      UInt8.ofNat (0x80 + (ch &&& 0x3F))]
  else
    [UInt8.ofNat (0xF0 + (ch >>> 18)),
      UInt8.ofNat (0x80 + ((ch >>> 12) &&& 0x3F)),
      UInt8.ofNat (0x80 + ((ch >>> 6) &&& 0x3F)),
      UInt8.ofNat (0x80 + (ch &&& 0x3F))]

def utf8Encode (source : List ℕ) : List UInt8 :=
  source.foldl (fun dest ch => dest ++ encoded ch) []

def utf8Length (utf8String : List UInt8) : ℕ :=
  utf8String.foldl (fun length ch => if ch.toNat &&& 0xC0 ≠ 0x80 then length + 1 else length) 0

def containsUtf8Bom (utf8String : List UInt8) : Bool := [0xEF, 0xBB, 0xBF].isPrefixOf utf8String

/-! ## Decoding -/

def sUtf8d : List ℕ := [
  0, 0, 0, 0, 0, 0, 0, 0, 0, 0, 0, 0, 0, 0, 0, 0, 0, 0, 0, 0, 0, 0, 0, 0, 0, 0, 0, 0, 0, 0, 0, 0,
  0, 0, 0, 0, 0, 0, 0, 0, 0, 0, 0, 0, 0, 0, 0, 0, 0, 0, 0, 0, 0, 0, 0, 0, 0, 0, 0, 0, 0, 0, 0, 0,
  0, 0, 0, 0, 0, 0, 0, 0, 0, 0, 0, 0, 0, 0, 0, 0, 0, 0, 0, 0, 0, 0, 0, 0, 0, 0, 0, 0, 0, 0, 0, 0,
  0, 0, 0, 0, 0, 0, 0, 0, 0, 0, 0, 0, 0, 0, 0, 0, 0, 0, 0, 0, 0, 0, 0, 0, 0, 0, 0, 0, 0, 0, 0, 0,
  1, 1, 1, 1, 1, 1, 1, 1, 1, 1, 1, 1, 1, 1, 1, 1, 9, 9, 9, 9, 9, 9, 9, 9, 9, 9, 9, 9, 9, 9, 9, 9,
  7, 7, 7, 7, 7, 7, 7, 7, 7, 7, 7, 7, 7, 7, 7, 7, 7, 7, 7, 7, 7, 7, 7, 7, 7, 7, 7, 7, 7, 7, 7, 7,
  8, 8, 2, 2, 2, 2, 2, 2, 2, 2, 2, 2, 2, 2, 2, 2, 2, 2, 2, 2, 2, 2, 2, 2, 2, 2, 2, 2, 2, 2, 2, 2,
  10, 3, 3, 3, 3, 3, 3, 3, 3, 3, 3, 3, 3, 4, 3, 3, 11, 6, 6, 6, 5, 8, 8, 8, 8, 8, 8, 8, 8, 8, 8, 8,
  0, 12, 24, 36, 60, 96, 84, 12, 12, 12, 48, 72,
  12, 12, 12, 12, 12, 12, 12, 12, 12, 12, 12, 12,
  12, 0, 12, 12, 12, 12, 12, 0, 12, 0, 12, 12,
  12, 24, 12, 12, 12, 12, 12, 24, 12, 24, 12, 12,
  12, 12, 12, 12, 12, 12, 12, 24, 12, 12, 12, 12,
  12, 24, 12, 12, 12, 12, 12, 12, 12, 24, 12, 12,
  12, 12, 12, 12, 12, 12, 12, 36, 12, 36, 12, 12,
  12, 36, 12, 12, 12, 12, 12, 36, 12, 36, 12, 12,
  12, 36, 12, 12, 12, 12, 12, 12, 12, 12, 12, 12]

def utf8Accept : ℕ := 0

/-- The class of a byte. -/
def classOf (byte : ℕ) : ℕ := sUtf8d.getD byte 0

/-- `state = s_utf8d[256u + state + type_]` -/
def nextState (state byte : ℕ) : ℕ := sUtf8d.getD (256 + state + classOf byte) 0

/-- `codepoint = ...` -/
def nextCodepoint (state codepoint byte : ℕ) : ℕ :=
  if state ≠ utf8Accept then (byte &&& 0x3F) ||| ((codepoint <<< 6) % 2 ^ 32)
  else (0xFF >>> classOf byte) &&& byte

/-- The loop of `is_utf8_string_valid`. -/
def lastState : ℕ → ℕ → List UInt8 → ℕ
  | state, _, [] => state
  | state, codepoint, ch :: rest =>
    lastState (nextState state ch.toNat) (nextCodepoint state codepoint ch.toNat) rest

def isUtf8StringValid (utf8String : List UInt8) : Bool := lastState 0 0 utf8String = utf8Accept

/-- The loop of `utf8_decode`. -/
def decodeFrom : ℕ → ℕ → List UInt8 → List ℕ
  | _, _, [] => []
  | state, codepoint, ch :: rest =>
    let codepoint := nextCodepoint state codepoint ch.toNat
    let state := nextState state ch.toNat
    if state = utf8Accept then codepoint :: decodeFrom state codepoint rest
    else decodeFrom state codepoint rest

def utf8Decode (source : List UInt8) : List ℕ :=
  decodeFrom 0 0 (if containsUtf8Bom source then source.drop 3 else source)

/-! ## The table, in ranges -/

/-- `10xxxxxx` -/
def Continues (byte : ℕ) : Prop := 0x80 ≤ byte ∧ byte ≤ 0xBF

instance : DecidablePred Continues := fun _ => inferInstanceAs (Decidable (_ ∧ _))

/-- The classes: three of bytes that continue, the others of bytes that begin. -/
def classInRanges (byte : ℕ) : ℕ :=
  if byte < 0x80 then 0
  else if byte < 0x90 then 1
  else if byte < 0xA0 then 9
  else if byte < 0xC0 then 7
  else if byte < 0xC2 then 8
  else if byte < 0xE0 then 2
  else if byte = 0xE0 then 10
  else if byte = 0xED then 4
  else if byte < 0xF0 then 3
  else if byte = 0xF0 then 11
  else if byte < 0xF4 then 6
  else if byte = 0xF4 then 5
  else 8

/-- The rows: which classes lead on, and where. -/
def row (state type : ℕ) : ℕ :=
  if state = 0 then [0, 12, 24, 36, 60, 96, 84, 12, 12, 12, 48, 72].getD type 12
  else if state = 24 then if type = 1 ∨ type = 7 ∨ type = 9 then 0 else 12
  else if state = 36 then if type = 1 ∨ type = 7 ∨ type = 9 then 24 else 12
  else if state = 48 then if type = 7 then 24 else 12
  else if state = 60 then if type = 1 ∨ type = 9 then 24 else 12
  else if state = 72 then if type = 7 ∨ type = 9 then 36 else 12
  else if state = 84 then if type = 1 ∨ type = 7 ∨ type = 9 then 36 else 12
  else if state = 96 then if type = 1 then 36 else 12
  else 12

/-- The states of the automaton, which is where their rows begin. -/
def states : List ℕ := [0, 12, 24, 36, 48, 60, 72, 84, 96]

/-- The second half of the table. -/
def rows : List ℕ := states.flatMap fun state => (List.range 12).map (row state)

set_option maxRecDepth 4000 in
theorem sUtf8d_eq : sUtf8d = (List.range 256).map classInRanges ++ rows := rfl

theorem classOf_eq (byte : ℕ) (hbyte : byte < 256) : classOf byte = classInRanges byte := by
  have hlength : byte < ((List.range 256).map classInRanges).length := by
    rw [List.length_map, List.length_range]
    exact hbyte
  rw [classOf, sUtf8d_eq, List.getD_eq_getElem?_getD, List.getElem?_append_left hlength,
    List.getElem?_eq_getElem hlength, List.getElem_map, List.getElem_range, Option.getD_some]

set_option maxRecDepth 4000 in
theorem classInRanges_facts : ∀ byte < 256, classInRanges byte < 12 ∧
    (classInRanges byte = 1 ↔ 0x80 ≤ byte ∧ byte ≤ 0x8F) ∧
    (classInRanges byte = 9 ↔ 0x90 ≤ byte ∧ byte ≤ 0x9F) ∧
    (classInRanges byte = 7 ↔ 0xA0 ≤ byte ∧ byte ≤ 0xBF) := by
  decide

theorem rows_eq : ∀ state ∈ states, ∀ type < 12, rows.getD (state + type) 0 = row state type := by
  decide

theorem row_eq {state type : ℕ} (hstate : state ∈ states) (htype : type < 12) :
    sUtf8d.getD (256 + state + type) 0 = row state type := by
  have hlength : ((List.range 256).map classInRanges).length = 256 := by
    rw [List.length_map, List.length_range]
  rw [sUtf8d_eq, List.getD_eq_getElem?_getD, List.getElem?_append_right (by omega), hlength,
    show 256 + state + type - 256 = state + type by omega, ← List.getD_eq_getElem?_getD]
  exact rows_eq state hstate type htype

theorem nextState_eq {state byte : ℕ} (hstate : state ∈ states) (hbyte : byte < 256) :
    nextState state byte = row state (classInRanges byte) := by
  rw [nextState, classOf_eq byte hbyte]
  exact row_eq hstate (classInRanges_facts byte hbyte).1

set_option maxRecDepth 4000 in
theorem row_accept : ∀ byte < 256, row 0 (classInRanges byte) =
    if byte < 0x80 then 0
    else if 0xC2 ≤ byte ∧ byte ≤ 0xDF then 24
    else if byte = 0xE0 then 48
    else if byte = 0xED then 60
    else if 0xE1 ≤ byte ∧ byte ≤ 0xEF then 36
    else if byte = 0xF0 then 72
    else if byte = 0xF4 then 96
    else if 0xF1 ≤ byte ∧ byte ≤ 0xF3 then 84
    else 12 := by
  decide

theorem row_reject (type : ℕ) : row 12 type = 12 := rfl

theorem row_one : ∀ byte < 256,
    row 24 (classInRanges byte) = if Continues byte then 0 else 12 := by
  intro byte hbyte
  obtain ⟨-, hone, hnine, hseven⟩ := classInRanges_facts byte hbyte
  simp only [row, Nat.reduceEqDiff, reduceIte, hone, hnine, hseven]
  exact if_congr (by unfold Continues; omega) rfl rfl

theorem row_two : ∀ byte < 256,
    row 36 (classInRanges byte) = if Continues byte then 24 else 12 := by
  intro byte hbyte
  obtain ⟨-, hone, hnine, hseven⟩ := classInRanges_facts byte hbyte
  simp only [row, Nat.reduceEqDiff, reduceIte, hone, hnine, hseven]
  exact if_congr (by unfold Continues; omega) rfl rfl

theorem row_afterE0 : ∀ byte < 256,
    row 48 (classInRanges byte) = if Continues byte ∧ 0xA0 ≤ byte then 24 else 12 := by
  intro byte hbyte
  obtain ⟨-, hone, hnine, hseven⟩ := classInRanges_facts byte hbyte
  simp only [row, Nat.reduceEqDiff, reduceIte, hone, hnine, hseven]
  exact if_congr (by unfold Continues; omega) rfl rfl

theorem row_afterED : ∀ byte < 256,
    row 60 (classInRanges byte) = if Continues byte ∧ byte ≤ 0x9F then 24 else 12 := by
  intro byte hbyte
  obtain ⟨-, hone, hnine, hseven⟩ := classInRanges_facts byte hbyte
  simp only [row, Nat.reduceEqDiff, reduceIte, hone, hnine, hseven]
  exact if_congr (by unfold Continues; omega) rfl rfl

theorem row_afterF0 : ∀ byte < 256,
    row 72 (classInRanges byte) = if Continues byte ∧ 0x90 ≤ byte then 36 else 12 := by
  intro byte hbyte
  obtain ⟨-, hone, hnine, hseven⟩ := classInRanges_facts byte hbyte
  simp only [row, Nat.reduceEqDiff, reduceIte, hone, hnine, hseven]
  exact if_congr (by unfold Continues; omega) rfl rfl

theorem row_three : ∀ byte < 256,
    row 84 (classInRanges byte) = if Continues byte then 36 else 12 := by
  intro byte hbyte
  obtain ⟨-, hone, hnine, hseven⟩ := classInRanges_facts byte hbyte
  simp only [row, Nat.reduceEqDiff, reduceIte, hone, hnine, hseven]
  exact if_congr (by unfold Continues; omega) rfl rfl

theorem row_afterF4 : ∀ byte < 256,
    row 96 (classInRanges byte) = if Continues byte ∧ byte ≤ 0x8F then 36 else 12 := by
  intro byte hbyte
  obtain ⟨-, hone, hnine, hseven⟩ := classInRanges_facts byte hbyte
  simp only [row, Nat.reduceEqDiff, reduceIte, hone, hnine, hseven]
  exact if_congr (by unfold Continues; omega) rfl rfl

set_option maxRecDepth 4000 in
theorem first_bits : ∀ byte < 256,
    (byte < 0x80 → (0xFF >>> classInRanges byte) &&& byte = byte) ∧
      (0xC2 ≤ byte ∧ byte ≤ 0xDF → (0xFF >>> classInRanges byte) &&& byte = byte - 0xC0) ∧
      (0xE0 ≤ byte ∧ byte ≤ 0xEF → (0xFF >>> classInRanges byte) &&& byte = byte - 0xE0) ∧
      (0xF0 ≤ byte ∧ byte ≤ 0xF4 → (0xFF >>> classInRanges byte) &&& byte = byte - 0xF0) := by
  decide

theorem later_bits {byte codepoint : ℕ} (hbyte : Continues byte) (hcodepoint : codepoint < 2 ^ 26) :
    (byte &&& 0x3F) ||| ((codepoint <<< 6) % 2 ^ 32) = codepoint * 64 + (byte - 0x80) := by
  obtain ⟨hlow, hhigh⟩ := hbyte
  have hand : byte &&& 0x3F = byte - 0x80 := by
    rw [show (0x3F : ℕ) = 2 ^ 6 - 1 from rfl, Nat.and_two_pow_sub_one_eq_mod]
    omega
  have hshift : (codepoint <<< 6) % 2 ^ 32 = codepoint <<< 6 := by
    rw [Nat.shiftLeft_eq]
    omega
  rw [hand, hshift, Nat.or_comm, ← Nat.shiftLeft_add_eq_or_of_lt (by omega), Nat.shiftLeft_eq]

set_option maxRecDepth 4000 in
theorem continues_iff : ∀ byte < 256, byte &&& 0xC0 = 0x80 ↔ Continues byte := by decide

end DaScript.Utf8Utils

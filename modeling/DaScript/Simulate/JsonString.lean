import DaScript.Simulate.EscapeString

/-!
# Simulate/JsonString — a JSON string is read

`JsonScanner::readString` of `simulate/json_scan.cpp`, over the bytes that are left.  The writer
prints strings by `escapeString`, whose escapes are those of the language.

So what is printed is read back exactly if there is no vertical tab (`readString_escape_iff`).
-/

namespace DaScript

open Text

namespace JsonScanner

def skipWS (cur : List UInt8) : List UInt8 :=
  cur.dropWhile fun c => c = 32 || c = 9 || c = 10 || c = 13

/-- The loop over the hex digits of `\u`. -/
def readHex : ℕ → UInt32 → List UInt8 → Option (UInt32 × List UInt8)
  | 0, cp, cur => some (cp, cur)
  | _ + 1, _, [] => none
  | digits + 1, cp, c :: cur =>
    match hexChar c with
    | none => none
    | some h => readHex digits ((cp <<< 4) ||| h.toUInt32) cur

/-- The low surrogate that may follow a high one. -/
def readSurrogate (cp : UInt32) (cur : List UInt8) : Option (UInt32 × List UInt8) :=
  if 0xD800 ≤ cp ∧ cp ≤ 0xDBFF then
    match cur with
    | c :: c' :: tail =>
      if c = ch '\\' ∧ c' = ch 'u' then
        (readHex 4 0 tail).map fun (lo, cur) =>
          ((0x10000 : UInt32) + ((cp - 0xD800) <<< 10) + (lo - 0xDC00), cur)
      else some (cp, cur)
    | _ => some (cp, cur)
  else some (cp, cur)

/-- What is appended for a code point. -/
def appendUtf8 (cp : UInt32) : List UInt8 :=
  if cp < 0x80 then [cp.toUInt8]
  else if cp < 0x800 then [utf8Byte cp 6 0xFF 0xC0, utf8Byte cp 0 0x3F 0x80]
  else if cp < 0x10000 then
    [utf8Byte cp 12 0xFF 0xE0, utf8Byte cp 6 0x3F 0x80, utf8Byte cp 0 0x3F 0x80]
  else
    [utf8Byte cp 18 0xFF 0xF0, utf8Byte cp 12 0x3F 0x80, utf8Byte cp 6 0x3F 0x80,
      utf8Byte cp 0 0x3F 0x80]

/-- What follows a backslash. -/
def readEscape (c : UInt8) (cur : List UInt8) : Option (List UInt8 × List UInt8) :=
  if c = ch '"' then some ([ch '"'], cur)
  else if c = ch '\\' then some ([ch '\\'], cur)
  else if c = ch '/' then some ([ch '/'], cur)
  else if c = ch 'b' then some ([8], cur)
  else if c = ch 'f' then some ([12], cur)
  else if c = ch 'n' then some ([10], cur)
  else if c = ch 'r' then some ([13], cur)
  else if c = ch 't' then some ([9], cur)
  else if c = ch 'u' then
    (readHex 4 0 cur).bind fun (cp, cur) =>
      (readSurrogate cp cur).map fun (cp, cur) => (appendUtf8 cp, cur)
  else none

/-- The loop of `readString`; every turn takes a byte at least. -/
def readChars : ℕ → List UInt8 → Option (List UInt8 × List UInt8)
  | 0, _ => none
  | _ + 1, [] => none
  | turns + 1, c :: cur =>
    if c = ch '"' then some ([], cur)
    else if c = ch '\\' then
      match cur with
      | [] => none
      | c :: cur =>
        (readEscape c cur).bind fun (out, cur) =>
          (readChars turns cur).map fun (out', cur) => (out ++ out', cur)
    else (readChars turns cur).map fun (out', cur) => (c :: out', cur)

/-- `readString`: what is read, and what is left. -/
def readString (cur : List UInt8) : Option (List UInt8 × List UInt8) :=
  match skipWS cur with
  | [] => none
  | c :: cur => if c = ch '"' then readChars cur.length cur else none

/-! ## What the writer prints -/

/-- `JsonWriter::String`, when it is neither unescaped nor embedded. -/
def printString (value : List UInt8) : List UInt8 :=
  ch '"' :: escapeString value false ++ [ch '"']

theorem readChars_plain {c : UInt8} (hquote : c ≠ ch '"') (hescape : c ≠ ch '\\') (turns : ℕ)
    (rest : List UInt8) :
    readChars (turns + 1) (c :: rest)
      = (readChars turns rest).map fun (out, cur) => (c :: out, cur) :=
  (if_neg hquote).trans (if_neg hescape)

theorem escapeByte_plain {c : UInt8} (hcontrol : ¬ c.toNat < 32) (hquote : c ≠ ch '"')
    (hescape : c ≠ ch '\\') : escapeByte false c = [c] := by
  have hplain : ∀ n : UInt8, n.toNat < 32 → c ≠ n := by
    rintro n hn rfl
    exact hcontrol hn
  have hle : ¬ c ≤ 0x1f := fun h => hcontrol (Nat.lt_succ_of_le (UInt8.le_iff_toNat_le.mp h))
  rw [escapeByte, if_neg hquote, if_neg hescape, if_neg (hplain 8 (by decide)),
    if_neg (hplain 11 (by decide)), if_neg (hplain 12 (by decide)),
    if_neg (hplain 10 (by decide)), if_neg (hplain 13 (by decide)),
    if_neg (hplain 9 (by decide)), if_neg Bool.false_ne_true, if_neg hle,
    ite_self, ite_self]

theorem escapeByte_elim {P : UInt8 → List UInt8 → Prop}
    (control : ∀ n < 32, P n.toUInt8 (escapeByte false n.toUInt8))
    (quote : P (ch '"') (escapeByte false (ch '"')))
    (backslash : P (ch '\\') (escapeByte false (ch '\\')))
    (plain : ∀ c : UInt8, 32 ≤ c.toNat → c ≠ ch '"' → c ≠ ch '\\' → P c [c]) (c : UInt8) :
    P c (escapeByte false c) := by
  by_cases hcontrol : c.toNat < 32
  · have hbyte := control c.toNat hcontrol
    rwa [Nat.toUInt8_eq, UInt8.ofNat_toNat] at hbyte
  by_cases hquote : c = ch '"'
  · subst hquote
    exact quote
  by_cases hbackslash : c = ch '\\'
  · subst hbackslash
    exact backslash
  rw [escapeByte_plain hcontrol hquote hbackslash]
  exact plain c (Nat.le_of_not_lt hcontrol) hquote hbackslash

theorem readChars_escapeByte {c : UInt8} (hc : c ≠ 11) (turns : ℕ) (rest : List UInt8) :
    readChars (turns + 1) (escapeByte false c ++ rest)
      = (readChars turns rest).map fun (out, cur) => (c :: out, cur) := by
  revert hc
  refine escapeByte_elim (P := fun c e => c ≠ 11 → readChars (turns + 1) (e ++ rest)
    = (readChars turns rest).map fun (out, cur) => (c :: out, cur))
    (fun n hn hc => ?_) (fun _ => rfl) (fun _ => rfl) (fun c _ hquote hback _ => ?_) c
  · interval_cases n
    all_goals first | exact absurd rfl hc | rfl
  · exact readChars_plain hquote hback turns rest

theorem readChars_escapeString (s rest : List UInt8) {turns : ℕ} (hturns : s.length < turns) :
    readChars turns (escapeString s false ++ ch '"' :: rest)
      = if 11 ∈ s then none else some (s, rest) := by
  induction s generalizing turns with
  | nil =>
    obtain ⟨turns, rfl⟩ := Nat.exists_eq_succ_of_ne_zero hturns.ne'
    rfl
  | cons c s ih =>
    obtain ⟨turns, rfl⟩ := Nat.exists_eq_succ_of_ne_zero (Nat.ne_of_gt (Nat.zero_lt_of_lt hturns))
    rw [escapeString, List.flatMap_cons, List.append_assoc]
    by_cases hc : c = 11
    · subst hc
      rw [if_pos List.mem_cons_self]
      rfl
    · rw [readChars_escapeByte hc]
      have hrest := ih (Nat.lt_of_succ_lt_succ hturns)
      rw [escapeString] at hrest
      rw [hrest]
      by_cases hs : 11 ∈ s
      · rw [if_pos hs, if_pos (List.mem_cons_of_mem _ hs)]
        rfl
      · rw [if_neg hs, if_neg (List.not_mem_cons_of_ne_of_not_mem (Ne.symm hc) hs)]
        rfl

/-- **A printed string is read back exactly if there is no vertical tab in it.** -/
theorem readString_escape_iff (s rest : List UInt8) :
    readString (printString s ++ rest) = some (s, rest) ↔ 11 ∉ s := by
  have hread : readString (printString s ++ rest) = if 11 ∈ s then none else some (s, rest) := by
    have hread : readString (printString s ++ rest)
        = readChars (escapeString s false ++ ch '"' :: rest).length
          (escapeString s false ++ ch '"' :: rest) := by
      rw [printString, List.cons_append, List.cons_append, List.append_assoc]
      rfl
    have hlength : s.length < (escapeString s false ++ ch '"' :: rest).length := by
      have hle := length_le_escapeString s false
      rw [List.length_append, List.length_cons]
      omega
    rw [hread, readChars_escapeString s rest hlength]
  rw [hread]
  by_cases hs : 11 ∈ s
  · rw [if_pos hs]
    exact ⟨fun h => (Option.some_ne_none _ h.symm).elim, fun h => absurd hs h⟩
  · rw [if_neg hs]
    exact ⟨fun _ => hs, fun _ => rfl⟩

theorem readString_escape_verticalTab :
    ¬ ∀ s rest : List UInt8, 0 ∉ s → readString (printString s ++ rest) = some (s, rest) :=
  fun h => absurd (h [11] [] (by decide)) (by decide)

end JsonScanner

end DaScript

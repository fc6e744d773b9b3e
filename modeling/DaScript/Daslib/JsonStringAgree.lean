import DaScript.Daslib.JsonLexerSteps
import DaScript.Simulate.JsonString

/-!
# Daslib/JsonStringAgree — two readers of a JSON string

A string literal of JSON, piece by piece, and what the lexer of `daslib/json.das` and
`JsonScanner::readString` make of it.  They part at a high surrogate with another escape behind it.
-/

namespace DaScript

open Text

namespace JsonLiteral

/-! ## Literals -/

/-- The escapes of one letter. -/
inductive Short
  | quote
  | backslash
  | slash
  | backspace
  | formFeed
  | newline
  | carriageReturn
  | tab
  deriving DecidableEq, Repr

/-- The letter behind the backslash. -/
def Short.letter : Short → UInt8
  | .quote => ch '"'
  | .backslash => ch '\\'
  | .slash => ch '/'
  | .backspace => ch 'b'
  | .formFeed => ch 'f'
  | .newline => ch 'n'
  | .carriageReturn => ch 'r'
  | .tab => ch 't'

/-- The character that is meant. -/
def Short.char : Short → Char
  | .quote => '"'
  | .backslash => '\\'
  | .slash => '/'
  | .backspace => Char.ofNat 8
  | .formFeed => Char.ofNat 12
  | .newline => '\n'
  | .carriageReturn => '\r'
  | .tab => '\t'

/-- Four hexadecimal digits. -/
structure CodeUnit where
  digits : List UInt8
  length_digits : digits.length = 4
  hex : ∀ d ∈ digits, Json.isHex d = true

namespace CodeUnit

def value (u : CodeUnit) : ℕ := u.digits.foldl (fun n d => n * 16 + Json.hexDigit d) 0

def IsHigh (u : CodeUnit) : Prop := 0xD800 ≤ u.value ∧ u.value ≤ 0xDBFF

def IsLow (u : CodeUnit) : Prop := 0xDC00 ≤ u.value ∧ u.value ≤ 0xDFFF

instance (u : CodeUnit) : Decidable u.IsHigh := inferInstanceAs (Decidable (_ ∧ _))

instance (u : CodeUnit) : Decidable u.IsLow := inferInstanceAs (Decidable (_ ∧ _))

end CodeUnit

/-- **A piece of a literal**: a character that stands for itself, or an escape. -/
inductive Piece
  | raw (c : Char) (h : 0x20 ≤ c.toNat ∧ c ≠ '"' ∧ c ≠ '\\')
  | short (s : Short)
  | unicode (u : CodeUnit) (h : u.value ≠ 0)

/-- A piece, as it is written. -/
def Piece.print : Piece → List UInt8
  | .raw c _ => String.utf8EncodeChar c
  | .short s => [ch '\\', s.letter]
  | .unicode u _ => ch '\\' :: ch 'u' :: u.digits

/-- A literal, as it is written. -/
def quoted (lit : List Piece) : List UInt8 := ch '"' :: lit.flatMap Piece.print ++ [ch '"']

/-- **The text of a literal**; a surrogate that is not one of a pair means no text. -/
def denoted : List Piece → Option (List Char)
  | [] => some []
  | .raw c _ :: ps => (denoted ps).map (c :: ·)
  | .short s :: ps => (denoted ps).map (s.char :: ·)
  | .unicode u _ :: .unicode v hv :: ps =>
    if u.IsHigh ∧ v.IsLow then
      (denoted ps).map
        (Char.ofNat (0x10000 + (u.value - 0xD800) * 0x400 + (v.value - 0xDC00)) :: ·)
    else if u.IsHigh ∨ u.IsLow then none
    else (denoted (.unicode v hv :: ps)).map (Char.ofNat u.value :: ·)
  | .unicode u _ :: ps =>
    if u.IsHigh ∨ u.IsLow then none else (denoted ps).map (Char.ofNat u.value :: ·)

/-- UTF-8. -/
def utf8 (s : List Char) : List UInt8 := s.flatMap String.utf8EncodeChar

/-- Whether one piece is not the escape of a high surrogate with an escape `\u` behind it. -/
def Apart : Piece → Piece → Prop
  | .unicode u _, .unicode _ _ => ¬ u.IsHigh
  | _, _ => True

/-! ## What the readers make of a piece -/

/-- The bytes the lexer pushes for a piece. -/
def lexed : Piece → List UInt8
  | .raw c _ => String.utf8EncodeChar c
  | .short s => String.utf8EncodeChar s.char
  | .unicode u _ => Json.encode u.value

/-- The code point `readString` makes of two escapes, the first a high surrogate. -/
def paired (u v : CodeUnit) : UInt32 :=
  (0x10000 : UInt32) + ((u.value.toUInt32 - 0xD800) <<< 10) + (v.value.toUInt32 - 0xDC00)

/-- The bytes `readString` appends for a literal. -/
def scanned : List Piece → List UInt8
  | [] => []
  | .raw c _ :: ps => String.utf8EncodeChar c ++ scanned ps
  | .short s :: ps => String.utf8EncodeChar s.char ++ scanned ps
  | .unicode u _ :: .unicode v hv :: ps =>
    if u.IsHigh then JsonScanner.appendUtf8 (paired u v) ++ scanned ps
    else JsonScanner.appendUtf8 u.value.toUInt32 ++ scanned (.unicode v hv :: ps)
  | .unicode u _ :: ps => JsonScanner.appendUtf8 u.value.toUInt32 ++ scanned ps

/-! ### Digits -/

set_option maxRecDepth 4000 in
theorem hexChar_of_isHex {d : UInt8} (hd : Json.isHex d = true) :
    hexChar d = some (Json.hexDigit d) ∧ Json.hexDigit d < 16 := by
  have hbytes : ∀ n < 256, Json.isHex n.toUInt8 = true →
      hexChar n.toUInt8 = some (Json.hexDigit n.toUInt8) ∧ Json.hexDigit n.toUInt8 < 16 := by
    decide
  have hbyte := hbytes d.toNat d.toNat_lt
  rw [Nat.toUInt8_eq, UInt8.ofNat_toNat] at hbyte
  exact hbyte hd

theorem foldl_hex_lt {ds : List UInt8} (hds : ∀ d ∈ ds, Json.isHex d = true) (n : ℕ) :
    ds.foldl (fun n d => n * 16 + Json.hexDigit d) n < (n + 1) * 16 ^ ds.length := by
  induction ds generalizing n with
  | nil => exact (Nat.lt_succ_self n).trans_eq (Nat.mul_one _).symm
  | cons d ds ih =>
    have hd := (hexChar_of_isHex (hds d List.mem_cons_self)).2
    refine (ih (fun d hd => hds d (List.mem_cons_of_mem _ hd)) _).trans_le ?_
    rw [List.length_cons, pow_succ']
    calc (n * 16 + Json.hexDigit d + 1) * 16 ^ ds.length
        ≤ ((n + 1) * 16) * 16 ^ ds.length := Nat.mul_le_mul_right _ (by omega)
      _ = (n + 1) * (16 * 16 ^ ds.length) := Nat.mul_assoc _ _ _

theorem CodeUnit.value_lt (u : CodeUnit) : u.value < 0x10000 := by
  have h := foldl_hex_lt u.hex 0
  rwa [u.length_digits] at h

theorem readHex_digits {ds : List UInt8} (hds : ∀ d ∈ ds, Json.isHex d = true) (rest : List UInt8)
    (cp : UInt32) (hcp : (cp.toNat + 1) * 16 ^ ds.length ≤ 2 ^ 32) :
    JsonScanner.readHex ds.length cp (ds ++ rest)
      = some ((ds.foldl (fun n d => n * 16 + Json.hexDigit d) cp.toNat).toUInt32, rest) := by
  induction ds generalizing cp with
  | nil =>
    rw [List.foldl_nil, Nat.toUInt32_eq, UInt32.ofNat_toNat]
    rfl
  | cons d ds ih =>
    obtain ⟨hd, hlt⟩ := hexChar_of_isHex (hds d List.mem_cons_self)
    rw [List.length_cons, pow_succ'] at hcp
    have hpos : 1 ≤ 16 ^ ds.length := Nat.one_le_pow _ _ (by decide)
    have hsmall : (cp.toNat + 1) * 16 ≤ 2 ^ 32 := by
      refine le_trans ?_ hcp
      rw [← Nat.mul_assoc]
      exact Nat.le_mul_of_pos_right _ hpos
    have hnext : ((cp <<< 4) ||| (Json.hexDigit d).toUInt32).toNat
        = cp.toNat * 16 + Json.hexDigit d := by
      have hor := Nat.two_pow_add_eq_or_of_lt (show Json.hexDigit d < 2 ^ 4 from hlt) cp.toNat
      rw [UInt32.toNat_or, UInt32.toNat_shiftLeft, Nat.toUInt32_eq, UInt32.toNat_ofNat']
      change cp.toNat <<< 4 % 2 ^ 32 ||| Json.hexDigit d % 2 ^ 32 = _
      rw [Nat.shiftLeft_eq, Nat.mod_eq_of_lt (show cp.toNat * 2 ^ 4 < 2 ^ 32 by omega),
        Nat.mod_eq_of_lt (by omega), Nat.mul_comm, ← hor]
      omega
    rw [List.cons_append, List.length_cons, JsonScanner.readHex, hd]
    dsimp only
    rw [ih (fun d hd => hds d (List.mem_cons_of_mem _ hd)) _ ?_, hnext, List.foldl_cons]
    rw [hnext]
    refine le_trans ?_ hcp
    rw [← Nat.mul_assoc]
    exact Nat.mul_le_mul_right _ (by omega)

theorem readHex_unit (u : CodeUnit) (rest : List UInt8) :
    JsonScanner.readHex 4 0 (u.digits ++ rest) = some (u.value.toUInt32, rest) := by
  have h := readHex_digits u.hex rest 0 (by rw [u.length_digits]; decide)
  rwa [u.length_digits] at h

/-! ### UTF-8 -/

theorem utf8EncodeChar_eq (c : Char) : String.utf8EncodeChar c =
    if c.toNat ≤ 0x7f then [c.toNat.toUInt8]
    else if c.toNat ≤ 0x7ff then
      [(c.toNat / 64 % 0x20 + 0xc0).toUInt8, (c.toNat % 0x40 + 0x80).toUInt8]
    else if c.toNat ≤ 0xffff then
      [(c.toNat / 4096 % 0x10 + 0xe0).toUInt8, (c.toNat / 64 % 0x40 + 0x80).toUInt8,
        (c.toNat % 0x40 + 0x80).toUInt8]
    else
      [(c.toNat / 262144 % 0x08 + 0xf0).toUInt8, (c.toNat / 4096 % 0x40 + 0x80).toUInt8,
        (c.toNat / 64 % 0x40 + 0x80).toUInt8, (c.toNat % 0x40 + 0x80).toUInt8] := rfl

theorem mem_utf8EncodeChar {c : Char} {b : UInt8} (hb : b ∈ String.utf8EncodeChar c) :
    (b = c.toNat.toUInt8 ∧ c.toNat < 0x80) ∨ 0x80 ≤ b.toNat := by
  have htail : ∀ n m : ℕ, 0x80 ≤ m → n + m < 256 → 0x80 ≤ (n + m).toUInt8.toNat := by
    intro n m hm hlt
    rw [Nat.toUInt8_eq, UInt8.toNat_ofNat', Nat.mod_eq_of_lt hlt]
    omega
  rw [utf8EncodeChar_eq] at hb
  split_ifs at hb with h1 h2 h3 <;>
    simp only [List.mem_cons, List.not_mem_nil, or_false] at hb
  · exact .inl ⟨hb, Nat.lt_succ_of_le h1⟩
  all_goals
    right
    rcases hb with rfl | rfl | hb <;> try exact htail _ _ (by omega) (by omega)
  · exact hb ▸ htail _ _ (by omega) (by omega)
  · rcases hb with rfl | rfl <;> exact htail _ _ (by omega) (by omega)

theorem utf8EncodeChar_plain {c : Char} (hc : c ≠ '"' ∧ c ≠ '\\') {b : UInt8}
    (hb : b ∈ String.utf8EncodeChar c) : b ≠ ch '"' ∧ b ≠ ch '\\' := by
  have hbyte : ∀ d : Char, d.toNat < 0x80 → c ≠ d → b ≠ ch d := by
    rintro d hd hne rfl
    have hnat : (ch d).toNat = d.toNat := by
      rw [ch, Nat.toUInt8_eq, UInt8.toNat_ofNat']
      omega
    rcases mem_utf8EncodeChar hb with ⟨heq, hlt⟩ | hle
    · refine hne (Char.toNat_inj.mp ?_)
      have h := congrArg UInt8.toNat heq
      rw [hnat, Nat.toUInt8_eq, UInt8.toNat_ofNat'] at h
      omega
    · omega
  exact ⟨hbyte _ (by decide) hc.1, hbyte _ (by decide) hc.2⟩

theorem mark_or {i n : ℕ} (a : ℕ) (hn : n < 2 ^ i) : 2 ^ i * a ||| n = n + 2 ^ i * a := by
  rw [← Nat.two_pow_add_eq_or_of_lt hn, Nat.add_comm]

theorem mark_six (n : ℕ) : 0x80 ||| n &&& 0x3F = n % 0x40 + 0x80 := by
  have hmod : n &&& 0x3F = n % 2 ^ 6 := Nat.and_two_pow_sub_one_eq_mod n 6
  rw [hmod]
  exact mark_or (i := 7) 1 (by omega)

theorem encode_eq_utf8EncodeChar {c : Char} (hc : c.toNat < 0x10000) :
    Json.encode c.toNat = String.utf8EncodeChar c := by
  rw [Json.encode, utf8EncodeChar_eq]
  generalize c.toNat = n at hc
  split_ifs with h1 h2 h3
  · rfl
  · rw [mark_six, Nat.shiftRight_eq_div_pow]
    have hlead : 0xC0 ||| n / 2 ^ 6 = n / 64 % 0x20 + 0xc0 := by
      rw [Nat.mod_eq_of_lt (by omega)]
      exact mark_or (i := 6) 3 (by omega)
    rw [hlead]
  · rw [mark_six, mark_six, Nat.shiftRight_eq_div_pow, Nat.shiftRight_eq_div_pow]
    have hlead : 0xE0 ||| n / 2 ^ 12 = n / 4096 % 0x10 + 0xe0 := by
      rw [Nat.mod_eq_of_lt (by omega)]
      exact mark_or (i := 5) 7 (by omega)
    rw [hlead]
  · omega

theorem utf8Byte_eq (c : UInt32) {shift : UInt32} (hshift : shift.toNat < 32) (mask mark : UInt32) :
    utf8Byte c shift mask mark
      = (c.toNat >>> shift.toNat &&& mask.toNat ||| mark.toNat).toUInt8 := by
  rw [← UInt8.toNat_inj, utf8Byte, UInt32.toNat_toUInt8, UInt32.toNat_or, UInt32.toNat_and,
    UInt32.toNat_shiftRight, Nat.mod_eq_of_lt hshift]
  rfl

theorem appendUtf8_eq_encode {n : ℕ} (hn : n < 0x10000) :
    JsonScanner.appendUtf8 n.toUInt32 = Json.encode n := by
  have hnat : n.toUInt32.toNat = n := by
    rw [Nat.toUInt32_eq, UInt32.toNat_ofNat']
    omega
  have hbyte : ∀ k < 0x100, k &&& 0xFF = k := fun k hk =>
    (Nat.and_two_pow_sub_one_eq_mod k 8).trans (Nat.mod_eq_of_lt hk)
  have hshift : ∀ i, n < 2 ^ (i + 8) → n >>> i &&& 0xFF = n >>> i := by
    intro i hi
    refine hbyte _ ?_
    rw [Nat.shiftRight_eq_div_pow]
    exact Nat.div_lt_of_lt_mul (by rwa [pow_add] at hi)
  rw [JsonScanner.appendUtf8, Json.encode]
  simp only [UInt32.lt_iff_toNat_lt, hnat]
  change ite (n < 0x80) _ (ite (n < 0x800) _ (ite (n < 0x10000) _ _)) = _
  by_cases h1 : n < 0x80
  · rw [if_pos h1, if_pos (Nat.le_of_lt_succ h1), List.cons.injEq]
    refine ⟨?_, rfl⟩
    rw [← UInt8.toNat_inj, UInt32.toNat_toUInt8, hnat]
    rfl
  rw [if_neg h1, if_neg fun h => h1 (Nat.lt_succ_of_le h)]
  have hlow : utf8Byte n.toUInt32 0 0x3F 0x80 = (0x80 ||| n &&& 0x3F).toUInt8 := by
    rw [utf8Byte_eq _ (by decide), hnat, Nat.or_comm]
    rfl
  by_cases h2 : n < 0x800
  · have hlead : utf8Byte n.toUInt32 6 0xFF 0xC0 = (0xC0 ||| n >>> 6).toUInt8 := by
      rw [utf8Byte_eq _ (by decide), hnat, Nat.or_comm]
      exact congrArg (fun k => (0xC0 ||| k).toUInt8) (hshift 6 (by omega))
    rw [if_pos h2, if_pos (Nat.le_of_lt_succ h2), hlow, hlead]
  · have hmiddle : utf8Byte n.toUInt32 6 0x3F 0x80 = (0x80 ||| n >>> 6 &&& 0x3F).toUInt8 := by
      rw [utf8Byte_eq _ (by decide), hnat, Nat.or_comm]
      rfl
    have hlead : utf8Byte n.toUInt32 12 0xFF 0xE0 = (0xE0 ||| n >>> 12).toUInt8 := by
      rw [utf8Byte_eq _ (by decide), hnat, Nat.or_comm]
      exact congrArg (fun k => (0xE0 ||| k).toUInt8) (hshift 12 (by omega))
    rw [if_neg h2, if_neg fun h => h2 (Nat.lt_succ_of_le h), if_pos hn,
      if_pos (Nat.le_of_lt_succ hn), hlow, hmiddle, hlead]

/-! ### Reading -/

theorem utf8EncodeChar_short (s : Short) :
    String.utf8EncodeChar s.char = [Json.unescape s.letter] := by
  cases s <;> rfl

theorem stringLoop_bytes {bs : List UInt8} (hbs : ∀ b ∈ bs, b ≠ ch '"' ∧ b ≠ ch '\\')
    (cs : List UInt8) (h : Json.Head) (str : List UInt8) :
    ∃ h', Json.stringLoop (bs ++ cs) h .plain str = Json.stringLoop cs h' .plain (str ++ bs) := by
  induction bs generalizing h str with
  | nil => exact ⟨h, by rw [List.append_nil]; rfl⟩
  | cons b bs ih =>
    obtain ⟨hquote, hbackslash⟩ := hbs b List.mem_cons_self
    obtain ⟨h', hrest⟩ := ih (fun b hb => hbs b (List.mem_cons_of_mem _ hb)) (h.read b)
      (str ++ [b])
    refine ⟨h', ?_⟩
    rw [List.cons_append, Json.stringLoop, if_neg hquote, if_neg hbackslash, hrest,
      List.append_assoc, List.singleton_append]

theorem stringLoop_hex {ds seen : List UInt8} (hds : ∀ d ∈ ds, Json.isHex d = true)
    (hne : ds ≠ []) (hlength : seen.length + ds.length = 4) (cs : List UInt8) (h : Json.Head)
    (str : List UInt8) :
    ∃ h', Json.stringLoop (ds ++ cs) h (.hex seen) str = Json.stringLoop cs h' .plain
      (str ++ Json.encode ((seen ++ ds).foldl (fun n c => n * 16 + Json.hexDigit c) 0)) := by
  induction ds generalizing seen h with
  | nil => exact absurd rfl hne
  | cons d ds ih =>
    have hd : ¬ (!Json.isHex d) = true := by
      rw [hds d List.mem_cons_self]
      exact Bool.false_ne_true
    rw [List.length_cons] at hlength
    rw [List.cons_append, Json.stringLoop, if_neg hd]
    cases ds with
    | nil =>
      rw [if_pos (by rw [List.length_nil] at hlength; omega)]
      exact ⟨h.read d, rfl⟩
    | cons d' ds =>
      rw [if_neg (by rw [List.length_cons] at hlength; omega)]
      have hmore : (seen ++ [d]).length + (d' :: ds).length = 4 := by
        rw [List.length_append, List.length_singleton]
        omega
      obtain ⟨h', hrest⟩ := ih (fun d hd => hds d (List.mem_cons_of_mem _ hd))
        (List.cons_ne_nil _ _) hmore (h.read d)
      refine ⟨h', ?_⟩
      rw [hrest, List.append_assoc, List.singleton_append]

theorem stringLoop_piece (p : Piece) (cs : List UInt8) (h : Json.Head) (str : List UInt8) :
    ∃ h', Json.stringLoop (p.print ++ cs) h .plain str
      = Json.stringLoop cs h' .plain (str ++ lexed p) := by
  cases p with
  | raw c hc => exact stringLoop_bytes (fun b hb => utf8EncodeChar_plain hc.2 hb) cs h str
  | short s =>
    rw [lexed, utf8EncodeChar_short]
    refine ⟨(h.read (ch '\\')).read s.letter, ?_⟩
    cases s <;> rfl
  | unicode u hu =>
    have hne : u.digits ≠ [] := fun h => absurd u.length_digits (by rw [h]; decide)
    have hlength : ([] : List UInt8).length + u.digits.length = 4 := by
      rw [u.length_digits]
      rfl
    exact stringLoop_hex u.hex hne hlength cs
      ((h.read (ch '\\')).read (ch 'u')) str

theorem stringLoop_literal (lit : List Piece) (cs : List UInt8) (h : Json.Head)
    (str : List UInt8) :
    ∃ h', Json.stringLoop (lit.flatMap Piece.print ++ cs) h .plain str
      = Json.stringLoop cs h' .plain (str ++ lit.flatMap lexed) := by
  induction lit generalizing h str with
  | nil => exact ⟨h, by rw [List.flatMap_nil, List.flatMap_nil, List.append_nil]; rfl⟩
  | cons p lit ih =>
    obtain ⟨h₁, hone⟩ := stringLoop_piece p (lit.flatMap Piece.print ++ cs) h str
    obtain ⟨h₂, hrest⟩ := ih h₁ (str ++ lexed p)
    refine ⟨h₂, ?_⟩
    rw [List.flatMap_cons, List.append_assoc, hone, hrest, List.flatMap_cons, List.append_assoc]

theorem reads_literal {R : Json.Reals} {s : Json.Cursor} {white rest : List UInt8}
    (lit : List Piece) (hs : s.pending = white ++ (quoted lit ++ rest))
    (hwhite : ∀ w ∈ white, Json.isWhiteSpace w = true) :
    Json.Reads (R := R) s (.string (lit.flatMap lexed)) rest := by
  rw [quoted, List.cons_append, List.cons_append, List.append_assoc] at hs
  obtain ⟨h, hahead, hskip, hone⟩ := Json.lexOne_of_pending (R := R) hs hwhite rfl
  obtain ⟨h', hloop⟩ := stringLoop_literal lit ([ch '"'] ++ rest) h []
  have hend : Json.stringLoop ([ch '"'] ++ rest) h' .plain ([] ++ lit.flatMap lexed) =
      .ok (lit.flatMap lexed, rest, h'.read (ch '"')) := rfl
  refine ⟨(h'.read (ch '"')).line, (h'.read (ch '"')).row,
    Json.Cursor.skip ⟨some rest, h'.read (ch '"')⟩, ?_, Json.Cursor.pending_skip _⟩
  rw [hone, Json.lexOne]
  dsimp only
  rw [hskip]
  dsimp only
  rw [hahead, if_neg (by decide), if_pos rfl, hloop, hend]
  exact congrArg some (Json.Head.yields_goesOn _ _ rfl)

theorem readChars_bytes {bs : List UInt8} (hbs : ∀ b ∈ bs, b ≠ ch '"' ∧ b ≠ ch '\\')
    (turns : ℕ) (cur : List UInt8) :
    JsonScanner.readChars (turns + bs.length) (bs ++ cur)
      = (JsonScanner.readChars turns cur).map fun (out, cur) => (bs ++ out, cur) := by
  induction bs with
  | nil =>
    rw [List.nil_append]
    cases JsonScanner.readChars turns cur <;> rfl
  | cons b bs ih =>
    obtain ⟨hquote, hbackslash⟩ := hbs b List.mem_cons_self
    rw [List.cons_append, List.length_cons, ← Nat.add_assoc,
      JsonScanner.readChars_plain hquote hbackslash,
      ih fun b hb => hbs b (List.mem_cons_of_mem _ hb), Option.map_map]
    rfl

theorem readChars_escape (turns : ℕ) (c : UInt8) (cur : List UInt8) :
    JsonScanner.readChars (turns + 1) (ch '\\' :: c :: cur)
      = (JsonScanner.readEscape c cur).bind fun (out, cur) =>
        (JsonScanner.readChars turns cur).map fun (out', cur) => (out ++ out', cur) := rfl

theorem readEscape_short (s : Short) (cur : List UInt8) :
    JsonScanner.readEscape s.letter cur = some (String.utf8EncodeChar s.char, cur) := by
  cases s <;> rfl

theorem readEscape_unit (u : CodeUnit) (cur : List UInt8) :
    JsonScanner.readEscape (ch 'u') (u.digits ++ cur)
      = (JsonScanner.readSurrogate u.value.toUInt32 cur).map fun (cp, cur) =>
        (JsonScanner.appendUtf8 cp, cur) := by
  have h : JsonScanner.readEscape (ch 'u') (u.digits ++ cur)
      = (JsonScanner.readHex 4 0 (u.digits ++ cur)).bind fun (cp, cur) =>
        (JsonScanner.readSurrogate cp cur).map fun (cp, cur) =>
          (JsonScanner.appendUtf8 cp, cur) := rfl
  rw [h, readHex_unit]
  rfl

theorem readChars_unit (turns : ℕ) (u : CodeUnit) (hu : u.value ≠ 0) (cur : List UInt8) :
    JsonScanner.readChars (turns + 1) ((Piece.unicode u hu).print ++ cur)
      = (JsonScanner.readSurrogate u.value.toUInt32 cur).bind fun (cp, cur) =>
        (JsonScanner.readChars turns cur).map fun (out, cur) =>
          (JsonScanner.appendUtf8 cp ++ out, cur) := by
  rw [Piece.print, List.cons_append, List.cons_append, readChars_escape, readEscape_unit,
    Option.bind_map]
  rfl

theorem CodeUnit.isHigh_iff (u : CodeUnit) :
    (0xD800 ≤ u.value.toUInt32 ∧ u.value.toUInt32 ≤ 0xDBFF) ↔ u.IsHigh := by
  have hnat : u.value.toUInt32.toNat = u.value := by
    have := u.value_lt
    rw [Nat.toUInt32_eq, UInt32.toNat_ofNat']
    omega
  rw [UInt32.le_iff_toNat_le, UInt32.le_iff_toNat_le, hnat]
  rfl

theorem readSurrogate_alone (cp : UInt32) {cur : List UInt8}
    (hcur : ∀ tail, cur ≠ ch '\\' :: ch 'u' :: tail) :
    JsonScanner.readSurrogate cp cur = some (cp, cur) := by
  unfold JsonScanner.readSurrogate
  by_cases hcp : 0xD800 ≤ cp ∧ cp ≤ 0xDBFF
  · rw [if_pos hcp]
    rcases cur with _ | ⟨c, _ | ⟨c', tail⟩⟩
    · rfl
    · rfl
    · refine if_neg ?_
      rintro ⟨rfl, rfl⟩
      exact hcur tail rfl
  · exact if_neg hcp

theorem readSurrogate_not {u : CodeUnit} (hu : ¬ u.IsHigh) (cur : List UInt8) :
    JsonScanner.readSurrogate u.value.toUInt32 cur = some (u.value.toUInt32, cur) :=
  if_neg fun h => hu (u.isHigh_iff.mp h)

theorem readSurrogate_pair {u : CodeUnit} (hu : u.IsHigh) (v : CodeUnit) (cur : List UInt8) :
    JsonScanner.readSurrogate u.value.toUInt32 (ch '\\' :: ch 'u' :: (v.digits ++ cur))
      = some (paired u v, cur) := by
  rw [JsonScanner.readSurrogate, if_pos (u.isHigh_iff.mpr hu)]
  dsimp only
  rw [if_pos ⟨rfl, rfl⟩, readHex_unit]
  rfl

theorem print_ne_escape {ps : List Piece} (hps : ∀ v hv ps', ps = .unicode v hv :: ps' → False)
    (rest tail : List UInt8) :
    ps.flatMap Piece.print ++ ch '"' :: rest ≠ ch '\\' :: ch 'u' :: tail := by
  intro h
  cases ps with
  | nil => exact absurd (List.cons.inj h).1 (by decide)
  | cons p ps =>
    rw [List.flatMap_cons, List.append_assoc] at h
    cases p with
    | raw c hc =>
      obtain ⟨b, bs, hbs⟩ := List.exists_cons_of_ne_nil (String.utf8EncodeChar_ne_nil (c := c))
      rw [Piece.print, hbs] at h
      exact (utf8EncodeChar_plain hc.2 (hbs ▸ List.mem_cons_self)).2 (List.cons.inj h).1
    | short s =>
      have hletter := (List.cons.inj (List.cons.inj h).2).1
      cases s <;> exact absurd hletter (by decide)
    | unicode v hv => exact hps v hv ps rfl

theorem readChars_literal (lit : List Piece) (rest : List UInt8) {turns : ℕ}
    (hturns : (lit.flatMap Piece.print).length < turns) :
    JsonScanner.readChars turns (lit.flatMap Piece.print ++ ch '"' :: rest)
      = some (scanned lit, rest) := by
  induction lit using scanned.induct generalizing turns with
  | case1 =>
    obtain ⟨turns, rfl⟩ := Nat.exists_eq_succ_of_ne_zero (Nat.ne_of_gt hturns)
    rfl
  | case2 c hc ps ih =>
    rw [List.flatMap_cons, List.length_append, Piece.print] at hturns
    obtain ⟨turns, rfl⟩ := Nat.exists_eq_add_of_le' (show (String.utf8EncodeChar c).length ≤ turns
      by omega)
    rw [List.flatMap_cons, List.append_assoc, Piece.print,
      readChars_bytes (fun b hb => utf8EncodeChar_plain hc.2 hb), ih (by omega)]
    rfl
  | case3 s ps ih =>
    rw [List.flatMap_cons, List.length_append] at hturns
    obtain ⟨turns, rfl⟩ := Nat.exists_eq_succ_of_ne_zero (Nat.ne_of_gt (Nat.zero_lt_of_lt hturns))
    have hlength : (Piece.short s).print.length = 2 := rfl
    rw [List.flatMap_cons, List.append_assoc, Piece.print, List.cons_append, List.singleton_append,
      readChars_escape, readEscape_short, Option.bind_some]
    dsimp only
    rw [ih (by omega)]
    rfl
  | case4 u hu v hv ps hhigh ih =>
    rw [List.flatMap_cons, List.length_append, List.flatMap_cons, List.length_append] at hturns
    obtain ⟨turns, rfl⟩ := Nat.exists_eq_succ_of_ne_zero (Nat.ne_of_gt (Nat.zero_lt_of_lt hturns))
    have hprint : (Piece.unicode v hv).print ++ (ps.flatMap Piece.print ++ ch '"' :: rest)
        = ch '\\' :: ch 'u' :: (v.digits ++ (ps.flatMap Piece.print ++ ch '"' :: rest)) := rfl
    have hlength : 0 < (Piece.unicode v hv).print.length := Nat.succ_pos _
    rw [List.flatMap_cons, List.append_assoc, readChars_unit, List.flatMap_cons,
      List.append_assoc, hprint, readSurrogate_pair hhigh, Option.bind_some]
    dsimp only
    rw [ih (by omega), scanned, if_pos hhigh]
    rfl
  | case5 u hu v hv ps hhigh ih =>
    rw [List.flatMap_cons, List.length_append] at hturns
    obtain ⟨turns, rfl⟩ := Nat.exists_eq_succ_of_ne_zero (Nat.ne_of_gt (Nat.zero_lt_of_lt hturns))
    have hlength : 0 < (Piece.unicode u hu).print.length := Nat.succ_pos _
    rw [List.flatMap_cons, List.append_assoc, readChars_unit, readSurrogate_not hhigh,
      Option.bind_some]
    dsimp only
    rw [ih (by omega), scanned, if_neg hhigh]
    rfl
  | case6 u hu ps hps ih =>
    rw [List.flatMap_cons, List.length_append] at hturns
    obtain ⟨turns, rfl⟩ := Nat.exists_eq_succ_of_ne_zero (Nat.ne_of_gt (Nat.zero_lt_of_lt hturns))
    have hlength : 0 < (Piece.unicode u hu).print.length := Nat.succ_pos _
    rw [List.flatMap_cons, List.append_assoc, readChars_unit,
      readSurrogate_alone _ fun tail => print_ne_escape hps rest tail, Option.bind_some]
    dsimp only
    rw [ih (by omega), scanned.eq_5 u hu ps hps]
    rfl

theorem readString_literal (lit : List Piece) (rest : List UInt8) :
    JsonScanner.readString (quoted lit ++ rest) = some (scanned lit, rest) := by
  have hquoted : quoted lit ++ rest = ch '"' :: (lit.flatMap Piece.print ++ ch '"' :: rest) := by
    rw [quoted, List.cons_append, List.cons_append, List.append_assoc, List.singleton_append]
  rw [hquoted]
  refine readChars_literal lit rest ?_
  rw [List.length_append, List.length_cons]
  omega

/-! ## Where they agree -/

theorem length_encode {n : ℕ} (hn : n < 0x10000) : 1 ≤ (Json.encode n).length := by
  rw [Json.encode]
  split_ifs <;> first | omega | exact Nat.le_add_left 1 _

theorem encode_high {u : CodeUnit} (hu : u.IsHigh) :
    ∃ b b', Json.encode u.value = [0xED, b, b'] := by
  obtain ⟨hlo, hhi⟩ := hu
  have hlead : 0xE0 ||| u.value >>> 12 = 0xED := by
    rw [Nat.shiftRight_eq_div_pow, show u.value / 2 ^ 12 = 13 by omega]
    rfl
  rw [Json.encode, if_neg (by omega), if_neg (by omega), if_pos (by omega), hlead]
  exact ⟨_, _, rfl⟩

theorem appendUtf8_cases (cp : UInt32) : (JsonScanner.appendUtf8 cp).length ≤ 3 ∨
    ∃ b bs, JsonScanner.appendUtf8 cp = b :: bs ∧ b ≠ 0xED ∧ bs.length = 3 := by
  rw [JsonScanner.appendUtf8]
  split_ifs
  · exact .inl (Nat.le_add_left 1 2)
  · exact .inl (Nat.le_add_left 2 1)
  · exact .inl le_rfl
  · refine .inr ⟨_, _, rfl, fun hlead => ?_, rfl⟩
    rw [utf8Byte_eq _ (by decide), ← UInt8.toNat_inj, Nat.toUInt8_eq, UInt8.toNat_ofNat'] at hlead
    have hlt : cp.toNat >>> 18 &&& 0xFF ||| 0xF0 < 2 ^ 8 :=
      Nat.or_lt_two_pow (Nat.and_lt_two_pow _ (by decide)) (by decide)
    have hle : 0xF0 ≤ cp.toNat >>> 18 &&& 0xFF ||| 0xF0 := Nat.right_le_or
    change (cp.toNat >>> 18 &&& 0xFF ||| 0xF0) % 2 ^ 8 = 0xED at hlead
    omega

theorem length_scanned (lit : List Piece) :
    (scanned lit).length ≤ (lit.flatMap lexed).length := by
  induction lit using scanned.induct with
  | case1 => exact le_rfl
  | case2 c hc ps ih =>
    rw [scanned, List.flatMap_cons, List.length_append, List.length_append]
    exact Nat.add_le_add_left ih _
  | case3 s ps ih =>
    rw [scanned, List.flatMap_cons, List.length_append, List.length_append]
    exact Nat.add_le_add_left ih _
  | case4 u hu v hv ps hhigh ih =>
    obtain ⟨b, b', hbytes⟩ := encode_high hhigh
    have hv' := length_encode v.value_lt
    rw [scanned, if_pos hhigh, List.flatMap_cons, List.flatMap_cons, lexed, lexed, hbytes,
      List.length_append, List.length_append, List.length_append]
    have hthree : [0xED, b, b'].length = 3 := rfl
    rcases appendUtf8_cases (paired u v) with hshort | ⟨c, bs, hlong, -, hthree'⟩
    · omega
    · rw [hlong, List.length_cons]
      omega
  | case5 u hu v hv ps hhigh ih =>
    rw [scanned, if_neg hhigh, List.flatMap_cons, List.length_append, List.length_append,
      appendUtf8_eq_encode u.value_lt]
    exact Nat.add_le_add_left ih _
  | case6 u hu ps hps ih =>
    rw [scanned.eq_5 u hu ps hps, List.flatMap_cons, List.length_append, List.length_append,
      appendUtf8_eq_encode u.value_lt]
    exact Nat.add_le_add_left ih _

theorem isChain_cons_of_not {u : CodeUnit} {hu : u.value ≠ 0} {ps : List Piece}
    (h : ∀ v hv ps', ps = .unicode v hv :: ps' → ¬ u.IsHigh) (hps : ps.IsChain Apart) :
    (Piece.unicode u hu :: ps).IsChain Apart := by
  refine List.isChain_cons.mpr ⟨fun p hp => ?_, hps⟩
  cases p with
  | raw c hc => trivial
  | short s => trivial
  | unicode v hv =>
    obtain ⟨ps', rfl⟩ := List.head?_eq_some_iff.mp hp
    exact h v hv ps' rfl

theorem scanned_eq_lexed_iff (lit : List Piece) :
    scanned lit = lit.flatMap lexed ↔ lit.IsChain Apart := by
  induction lit using scanned.induct with
  | case1 => exact ⟨fun _ => .nil, fun _ => rfl⟩
  | case2 c hc ps ih =>
    rw [scanned, List.flatMap_cons, lexed, List.append_right_inj, ih, List.isChain_cons]
    exact ⟨fun h => ⟨fun _ _ => trivial, h⟩, fun h => h.2⟩
  | case3 s ps ih =>
    rw [scanned, List.flatMap_cons, lexed, List.append_right_inj, ih, List.isChain_cons]
    exact ⟨fun h => ⟨fun _ _ => trivial, h⟩, fun h => h.2⟩
  | case4 u hu v hv ps hhigh ih =>
    refine ⟨fun heq => ?_, fun h => absurd hhigh ((List.isChain_cons.mp h).1 _ rfl)⟩
    exfalso
    obtain ⟨b, b', hbytes⟩ := encode_high hhigh
    have hv' := length_encode v.value_lt
    have hle := length_scanned ps
    rw [scanned, if_pos hhigh, List.flatMap_cons, List.flatMap_cons, lexed, lexed, hbytes] at heq
    rcases appendUtf8_cases (paired u v) with hshort | ⟨c, bs, hlong, hlead, -⟩
    · have hlength := congrArg List.length heq
      rw [List.length_append, List.length_append, List.length_append] at hlength
      have hthree : [0xED, b, b'].length = 3 := rfl
      omega
    · rw [hlong] at heq
      exact hlead (List.cons.inj heq).1
  | case5 u hu v hv ps hhigh ih =>
    rw [scanned, if_neg hhigh, List.flatMap_cons, appendUtf8_eq_encode u.value_lt]
    refine (List.append_right_inj _).trans (ih.trans ⟨fun h => ?_, fun h => h.tail⟩)
    exact isChain_cons_of_not (fun _ _ _ _ => hhigh) h
  | case6 u hu ps hps ih =>
    rw [scanned.eq_5 u hu ps hps, List.flatMap_cons, appendUtf8_eq_encode u.value_lt]
    refine (List.append_right_inj _).trans (ih.trans ⟨fun h => ?_, fun h => h.tail⟩)
    exact isChain_cons_of_not (fun v hv ps' h => (hps v hv ps' h).elim) h

/-! ### The text -/

theorem encode_unit {u : CodeUnit} (hu : ¬ (u.IsHigh ∨ u.IsLow)) :
    Json.encode u.value = String.utf8EncodeChar (Char.ofNat u.value) := by
  have hlt := u.value_lt
  have hvalid : u.value.isValidChar := by
    rw [CodeUnit.IsHigh, CodeUnit.IsLow] at hu
    rw [Nat.isValidChar]
    omega
  have hnat : (Char.ofNat u.value).toNat = u.value := by
    rw [Char.ofNat, dif_pos hvalid]
    rfl
  have h := encode_eq_utf8EncodeChar (c := Char.ofNat u.value) (by rw [hnat]; exact hlt)
  rwa [hnat] at h

theorem lexed_of_denoted {lit : List Piece} (happart : lit.IsChain Apart) {text : List Char}
    (htext : denoted lit = some text) : lit.flatMap lexed = utf8 text := by
  induction lit using denoted.induct generalizing text with
  | case1 =>
    cases htext
    rfl
  | case2 c hc ps ih =>
    obtain ⟨text, hps, rfl⟩ := Option.map_eq_some_iff.mp htext
    rw [List.flatMap_cons, ih happart.tail hps]
    rfl
  | case3 s ps ih =>
    obtain ⟨text, hps, rfl⟩ := Option.map_eq_some_iff.mp htext
    rw [List.flatMap_cons, ih happart.tail hps]
    rfl
  | case4 u hu v hv ps hpair ih => exact absurd hpair.1 ((List.isChain_cons.mp happart).1 _ rfl)
  | case5 u hu v hv ps hpair hsurrogate =>
    rw [denoted, if_neg hpair, if_pos hsurrogate] at htext
    cases htext
  | case6 u hu v hv ps hpair hsurrogate ih =>
    rw [denoted, if_neg hpair, if_neg hsurrogate] at htext
    obtain ⟨text, hps, rfl⟩ := Option.map_eq_some_iff.mp htext
    rw [List.flatMap_cons, ih happart.tail hps, lexed, encode_unit hsurrogate]
    rfl
  | case7 u hu ps hps hsurrogate =>
    rw [denoted.eq_5 u hu ps hps, if_pos hsurrogate] at htext
    cases htext
  | case8 u hu ps hps hsurrogate ih =>
    rw [denoted.eq_5 u hu ps hps, if_neg hsurrogate] at htext
    obtain ⟨text, hps, rfl⟩ := Option.map_eq_some_iff.mp htext
    rw [List.flatMap_cons, ih happart.tail hps, lexed, encode_unit hsurrogate]
    rfl

/-- **The two readers agree on a literal**: wherever the lexer comes to it, and whatever follows, it
yields the string that `readString` reads, and that is the text of the literal in UTF-8. -/
def Agree (R : Json.Reals) (lit : List Piece) : Prop :=
  ∃ str, (∀ (s : Json.Cursor) (white rest : List UInt8), s.pending = white ++ (quoted lit ++ rest) →
      (∀ w ∈ white, Json.isWhiteSpace w = true) → Json.Reads (R := R) s (.string str) rest) ∧
    (∀ rest, JsonScanner.readString (quoted lit ++ rest) = some (str, rest)) ∧
    ∀ text, denoted lit = some text → str = utf8 text

/-- **The readers agree exactly on the literals in which no escape of a high surrogate has another
escape `\u` right behind it.** -/
theorem stringReaders_agree_iff (R : Json.Reals) (lit : List Piece) :
    Agree R lit ↔ lit.IsChain Apart := by
  constructor
  · rintro ⟨str, hlexer, hscanner, -⟩
    have hscanned : scanned lit = str := by
      have h := (readString_literal lit []).symm.trans (hscanner [])
      exact (Prod.mk.inj (Option.some.inj h)).1
    have hlexed : lit.flatMap lexed = str := by
      let s : Json.Cursor := ⟨some (quoted lit).tail, ⟨ch '"', 1, 0⟩⟩
      have hs : s.pending = [] ++ (quoted lit ++ []) := (List.append_nil _).symm
      obtain ⟨l, r, s₁, hone, -⟩ := hlexer s [] [] hs (by simp)
      obtain ⟨l', r', s₁', hone', -⟩ := reads_literal (R := R) lit hs (by simp)
      rw [hone] at hone'
      cases hone'
      rfl
    rw [← scanned_eq_lexed_iff, hscanned, hlexed]
  · intro happart
    exact ⟨lit.flatMap lexed, fun _ _ _ hs hwhite => reads_literal lit hs hwhite,
      fun rest => (scanned_eq_lexed_iff lit).mpr happart ▸ readString_literal lit rest,
      fun _ htext => lexed_of_denoted happart htext⟩

/-- The escapes of a surrogate pair. -/
def smile : List Piece :=
  [.unicode ⟨text "d83d", rfl, List.all_eq_true.mp rfl⟩ (by decide),
    .unicode ⟨text "de00", rfl, List.all_eq_true.mp rfl⟩ (by decide)]

theorem stringReaders_pair :
    quoted smile = text "\"\\ud83d\\ude00\"" ∧ denoted smile = some [Char.ofNat 0x1F600] ∧
    JsonScanner.readString (quoted smile) = some (utf8 [Char.ofNat 0x1F600], []) ∧
    ∀ R : Json.Reals, (∃ line row s, Json.lexOne R ⟨some (quoted smile).tail, ⟨ch '"', 1, 0⟩⟩ =
      some (.token ⟨.string [0xED, 0xA0, 0xBD, 0xED, 0xB8, 0x80], line, row⟩, s)) ∧
      ¬ Agree R smile := by
  have hscanner : JsonScanner.readString (quoted smile)
      = some (utf8 [Char.ofNat 0x1F600], []) := by decide
  refine ⟨by decide, by decide, hscanner, fun R => ?_⟩
  have hs : (⟨some (quoted smile).tail, ⟨ch '"', 1, 0⟩⟩ : Json.Cursor).pending
      = [] ++ (quoted smile ++ []) := (List.append_nil _).symm
  obtain ⟨line, row, s, hone, -⟩ := reads_literal (R := R) smile hs (by simp)
  refine ⟨⟨line, row, some s, hone⟩, ?_⟩
  rintro ⟨str, hlexer, hread, -⟩
  obtain ⟨l, r, s', hone', -⟩ := hlexer _ [] [] hs (by simp)
  rw [hone] at hone'
  have hstr := (hread []).symm.trans hscanner
  cases hone'
  exact absurd hstr (by decide)

end JsonLiteral

end DaScript

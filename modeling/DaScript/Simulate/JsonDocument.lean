import DaScript.Simulate.JsonString

/-!
# Simulate/JsonDocument — documents of the JSON grammar

A document as a tree, printed without whitespace.  It is of the grammar if what stands between its
quotes is what a JSON string may have there: no quote, no control character, and of the escapes only
those JSON knows.

What `escapeString` makes is fine as long as there is no vertical tab (`stringChars_escapeString`).
-/

namespace DaScript

open Text

namespace JsonDocument

/-- Where a reader of a JSON string stands. -/
inductive StringState
  | plain
  | escape
  | hex (more : ℕ)
  deriving DecidableEq, Repr

/-- A hex digit. -/
def isHexDigit (c : UInt8) : Bool := (hexChar c).isSome

/-- What follows the backslash, but for `u`. -/
def escapes : List UInt8 := text "\"\\/bfnrt"

/-- **What may stand between the quotes.** -/
def stringChars : StringState → List UInt8 → Bool
  | s, [] => s = .plain
  | .plain, c :: rest =>
    if c = ch '\\' then stringChars .escape rest
    else 32 ≤ c.toNat && c ≠ ch '"' && stringChars .plain rest
  | .escape, c :: rest =>
    if c = ch 'u' then stringChars (.hex 3) rest
    else decide (c ∈ escapes) && stringChars .plain rest
  | .hex 0, c :: rest => isHexDigit c && stringChars .plain rest
  | .hex (more + 1), c :: rest => isHexDigit c && stringChars (.hex more) rest

/-- **A document**, or `nothing` where there is none. -/
inductive Doc
  | nothing
  | null
  | bool (b : Bool)
  | number (n : ℤ)
  | string (chars : List UInt8)
  | object (entries : List (List UInt8 × Doc))
  | array (elems : List Doc)

/-- A comma, unless this is the first. -/
def comma (more : Bool) : List UInt8 := if more then [ch ','] else []

namespace Doc

mutual

def print : Doc → List UInt8
  | nothing => []
  | null => text "null"
  | bool b => if b then text "true" else text "false"
  | number n => decimalInt n
  | string chars => ch '"' :: (chars ++ [ch '"'])
  | object entries => ch '\x7b' :: (printEntries false entries ++ [ch '\x7d'])
  | array elems => ch '[' :: (printElems false elems ++ [ch ']'])

/-- The entries of an object, behind others or not. -/
def printEntries : Bool → List (List UInt8 × Doc) → List UInt8
  | _, [] => []
  | more, (key, d) :: rest =>
    comma more ++ ch '"' :: (key ++ ch '"' :: ch ':' :: (print d ++ printEntries true rest))

/-- The elements of an array, behind others or not. -/
def printElems : Bool → List Doc → List UInt8
  | _, [] => []
  | more, d :: rest => comma more ++ (print d ++ printElems true rest)

end

mutual

/-- **The JSON grammar**: there is something, and its strings are strings. -/
def WellFormed : Doc → Prop
  | nothing => False
  | string chars => stringChars .plain chars = true
  | object entries => EntriesWellFormed entries
  | array elems => ElemsWellFormed elems
  | _ => True

def EntriesWellFormed : List (List UInt8 × Doc) → Prop
  | [] => True
  | (key, d) :: rest =>
    stringChars .plain key = true ∧ WellFormed d ∧ EntriesWellFormed rest

def ElemsWellFormed : List Doc → Prop
  | [] => True
  | d :: rest => WellFormed d ∧ ElemsWellFormed rest

end

end Doc

/-- Nothing that needs an escape. -/
def Plain (c : UInt8) : Prop := 32 ≤ c.toNat ∧ c ≠ ch '"' ∧ c ≠ ch '\\'

theorem stringChars_plain {c : UInt8} (hc : Plain c) (rest : List UInt8) :
    stringChars .plain (c :: rest) = stringChars .plain rest := by
  obtain ⟨hcontrol, hquote, hescape⟩ := hc
  rw [stringChars, if_neg hescape, decide_eq_true hcontrol, decide_eq_true hquote]
  rfl

theorem stringChars_append {chars : List UInt8} (h : ∀ c ∈ chars, Plain c) (rest : List UInt8) :
    stringChars .plain (chars ++ rest) = stringChars .plain rest := by
  induction chars with
  | nil => rfl
  | cons c chars ih =>
    obtain ⟨hc, hrest⟩ := List.forall_mem_cons.mp h
    rw [List.cons_append, stringChars_plain hc, ih hrest]

theorem stringChars_escapeByte (c : UInt8) (rest : List UInt8) :
    stringChars .plain (escapeByte false c ++ rest)
      = (decide (c ≠ 11) && stringChars .plain rest) := by
  refine JsonScanner.escapeByte_elim (P := fun c e => stringChars .plain (e ++ rest)
    = (decide (c ≠ 11) && stringChars .plain rest))
    (fun n hn => ?_) rfl rfl (fun c hcontrol hquote hback => ?_) c
  · interval_cases n
    all_goals rfl
  · have htab : c ≠ 11 := by
      rintro rfl
      exact absurd hcontrol (by decide)
    rw [decide_eq_true htab, Bool.true_and]
    exact stringChars_plain ⟨hcontrol, hquote, hback⟩ rest

theorem stringChars_escapeString (s : List UInt8) :
    stringChars .plain (escapeString s false) = true ↔ (11 : UInt8) ∉ s := by
  induction s with
  | nil => exact iff_of_true rfl List.not_mem_nil
  | cons c s ih =>
    rw [escapeString, List.flatMap_cons, stringChars_escapeByte, ← escapeString, Bool.and_eq_true,
      ih, decide_eq_true_iff, List.mem_cons, not_or]
    exact and_congr_left fun _ => ne_comm

theorem mem_decimalInt {n : ℤ} {c : UInt8} (hc : c ∈ decimalInt n) :
    c = ch '-' ∨ isDigit c = true := by
  rw [decimalInt] at hc
  split at hc
  · exact (List.mem_cons.mp hc).imp id isDigit_of_mem_decimal
  · exact Or.inr (isDigit_of_mem_decimal hc)

theorem plain_decimalInt {n : ℤ} {c : UInt8} (hc : c ∈ decimalInt n) : Plain c := by
  rcases mem_decimalInt hc with rfl | hdigit
  · unfold Plain
    decide
  · have hbounds : 48 ≤ c.toNat ∧ c.toNat ≤ 57 := by
      simpa [isDigit, UInt8.le_iff_toNat_le] using hdigit
    refine ⟨by omega, ?_, ?_⟩
    · rintro rfl
      cases hdigit
    · rintro rfl
      cases hdigit

theorem not_quote_of_plain {chars : List UInt8} (h : ∀ c ∈ chars, Plain c) : ch '"' ∉ chars :=
  fun hc => (h _ hc).2.1 rfl

mutual

theorem stringChars_print : ∀ (d : Doc) (rest : List UInt8), stringChars .plain (d.print ++ rest)
    = (decide (ch '"' ∉ d.print) && stringChars .plain rest)
  | .nothing, _ => rfl
  | .null, _ => rfl
  | .bool true, _ => rfl
  | .bool false, _ => rfl
  | .number n, rest => by
    have hplain : ∀ c ∈ decimalInt n, Plain c := fun _ hc => plain_decimalInt hc
    rw [Doc.print, stringChars_append hplain, decide_eq_true (not_quote_of_plain hplain),
      Bool.true_and]
  | .string chars, rest => by
    have hquote : ¬ch '"' ∉ Doc.print (.string chars) := fun h => h List.mem_cons_self
    rw [decide_eq_false hquote]
    rfl
  | .object [], _ => rfl
  | .object ((key, d) :: entries), rest => by
    have hquote : ¬ch '"' ∉ Doc.print (.object ((key, d) :: entries)) :=
      fun h => h (List.mem_cons_of_mem _ List.mem_cons_self)
    rw [decide_eq_false hquote]
    rfl
  | .array elems, rest => by
    have hprint : Doc.print (.array elems) ++ rest
        = ch '[' :: (Doc.printElems false elems ++ ch ']' :: rest) := by
      rw [Doc.print, List.cons_append, List.append_assoc]
      rfl
    have hquote : ch '"' ∉ Doc.print (.array elems) ↔ ch '"' ∉ Doc.printElems false elems := by
      rw [Doc.print]
      simp only [List.mem_cons, List.mem_append, List.not_mem_nil, or_false, not_or]
      exact ⟨fun h => h.2.1, fun h => ⟨by decide, h, by decide⟩⟩
    rw [hprint, stringChars_plain (by unfold Plain; decide), stringChars_printElems elems false,
      stringChars_plain (by unfold Plain; decide), decide_eq_decide.mpr hquote]

theorem stringChars_printElems : ∀ (elems : List Doc) (more : Bool) (rest : List UInt8),
    stringChars .plain (Doc.printElems more elems ++ rest)
      = (decide (ch '"' ∉ Doc.printElems more elems) && stringChars .plain rest)
  | [], _, _ => rfl
  | d :: elems, more, rest => by
    have hcomma : ∀ c ∈ comma more, Plain c := by
      cases more
      · exact fun _ hc => by cases hc
      · intro c hc
        rw [List.mem_singleton.mp hc]
        unfold Plain
        decide
    have hquote : ch '"' ∉ Doc.printElems more (d :: elems)
        ↔ ch '"' ∉ d.print ∧ ch '"' ∉ Doc.printElems true elems := by
      rw [Doc.printElems, List.mem_append, List.mem_append, not_or, not_or]
      exact ⟨fun h => h.2, fun h => ⟨not_quote_of_plain hcomma, h⟩⟩
    rw [decide_eq_decide.mpr hquote, Bool.decide_and, Doc.printElems, List.append_assoc,
      List.append_assoc, stringChars_append hcomma, stringChars_print d,
      stringChars_printElems elems true, Bool.and_assoc]

end

end JsonDocument

end DaScript

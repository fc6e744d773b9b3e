import DaScript.Simulate.JsonString

/-!
# Simulate/JsonSkip — JSON values are printed, and skipped

What `JsonWriter` of `simulate/json_print.cpp` prints of numbers, booleans, strings, structures and
arrays, fixed-size or not, and the helpers of `JsonScanner` (`json_scan.cpp`) that skip a value.  A
printed value is skipped to its end, whatever follows it in a document (`skipValue_print`).
-/

namespace DaScript

open Text

/-- The name of a field: nothing in it needs an escape. -/
structure FieldName where
  bytes : List UInt8
  plain : ∀ c ∈ bytes, c ≠ ch '"' ∧ c ≠ ch '\\'

/-- **A value**, as it is printed. -/
inductive JsonValue
  | number (n : ℤ)
  | bool (b : Bool)
  | string (s : List UInt8)
  | object (fields : List (FieldName × JsonValue))
  | array (elems : List JsonValue)

namespace JsonValue

mutual

/-- `JsonWriter` -/
def print : JsonValue → List UInt8
  | number n => decimalInt n
  | bool b => if b then text "true" else text "false"
  | string s => JsonScanner.printString s
  | object fields => ch '\x7b' :: (printFields fields ++ [ch '\x7d'])
  | array elems => ch '[' :: (printElems elems ++ [ch ']'])

/-- The fields of a structure, with commas between. -/
def printFields : List (FieldName × JsonValue) → List UInt8
  | [] => []
  | [(name, v)] => ch '"' :: (name.bytes ++ ch '"' :: ch ':' :: print v)
  | (name, v) :: rest =>
    ch '"' :: (name.bytes ++ ch '"' :: ch ':' :: (print v ++ ch ',' :: printFields rest))

/-- `walk_array`, with commas between. -/
def printElems : List JsonValue → List UInt8
  | [] => []
  | [v] => print v
  | v :: rest => print v ++ ch ',' :: printElems rest

end

end JsonValue

namespace JsonScanner

def expect (c : UInt8) (cur : List UInt8) : Option (List UInt8) :=
  match skipWS cur with
  | [] => none
  | c' :: cur => if c' = c then some cur else none

/-- `peek`, zero at the end. -/
def peek (cur : List UInt8) : UInt8 := (skipWS cur).headD 0

/-- A word, where the scanner stands. -/
def word (w cur : List UInt8) : Option (List UInt8) :=
  if cur.take w.length = w then some (cur.drop w.length) else none

def isNull (cur : List UInt8) : Option (List UInt8) := word (text "null") (skipWS cur)

/-- The loop of `skipString`, or what it does behind a backslash. -/
def skipChars : Bool → List UInt8 → Option (List UInt8)
  | _, [] => none
  | true, _ :: cur => skipChars false cur
  | false, c :: cur => if c = ch '"' then some cur else skipChars (c = ch '\\') cur

/-- `skipString`, which does not skip whitespace. -/
def skipString : List UInt8 → Option (List UInt8)
  | [] => none
  | c :: cur => if c = ch '"' then skipChars false cur else none

/-- Digits. -/
def skipDigits (cur : List UInt8) : List UInt8 := cur.dropWhile isDigit

/-- A sign that may be there. -/
def skipSign (signs : List UInt8) : List UInt8 → List UInt8
  | [] => []
  | c :: cur => if c ∈ signs then cur else c :: cur

/-- A fraction that may be there. -/
def skipFraction : List UInt8 → List UInt8
  | [] => []
  | c :: cur => if c = ch '.' then skipDigits cur else c :: cur

/-- An exponent that may be there. -/
def skipExponent : List UInt8 → List UInt8
  | [] => []
  | c :: cur =>
    if c = ch 'e' ∨ c = ch 'E' then skipDigits (skipSign [ch '+', ch '-'] cur) else c :: cur

def skipNumber (cur : List UInt8) : Option (List UInt8) :=
  match skipSign [ch '-'] cur with
  | [] => none
  | c :: cur =>
    if isDigit c then some (skipExponent (skipFraction (skipDigits (c :: cur)))) else none

/-- What follows an entry: the end, or a comma and more. -/
def afterEntry {α : Type} (close : UInt8) (done more : List UInt8 → Option α)
    (cur : List UInt8) : Option α :=
  match skipWS cur with
  | [] => none
  | c :: cur => if c = close then done cur else if c ≠ ch ',' then none else more cur

/-- The loop of `skipArray`, for so many turns. -/
def skipElems (skip : List UInt8 → Option (List UInt8)) : ℕ → List UInt8 → Option (List UInt8)
  | 0, _ => none
  | turns + 1, cur => (skip cur).bind (afterEntry (ch ']') some (skipElems skip turns))

def skipArray (skip : List UInt8 → Option (List UInt8)) (turns : ℕ) (cur : List UInt8) :
    Option (List UInt8) :=
  (expect (ch '[') cur).bind fun cur =>
    if peek cur = ch ']' then some (skipWS cur).tail else skipElems skip turns cur

/-- The loop of `skipObject`, for so many turns. -/
def skipFields (skip : List UInt8 → Option (List UInt8)) : ℕ → List UInt8 → Option (List UInt8)
  | 0, _ => none
  | turns + 1, cur =>
    (skipString (skipWS cur)).bind fun cur =>
      (expect (ch ':') cur).bind fun cur =>
        (skip cur).bind (afterEntry (ch '\x7d') some (skipFields skip turns))

def skipObject (skip : List UInt8 → Option (List UInt8)) (turns : ℕ) (cur : List UInt8) :
    Option (List UInt8) :=
  (expect (ch '\x7b') cur).bind fun cur =>
    if peek cur = ch '\x7d' then some (skipWS cur).tail else skipFields skip turns cur

/-- **`skipValue`**, for values so deep and so long. -/
def skipValue : ℕ → List UInt8 → Option (List UInt8)
  | 0, _ => none
  | depth + 1, cur =>
    match skipWS cur with
    | [] => none
    | c :: cur =>
      if c = ch '"' then skipString (c :: cur)
      else if c = ch '\x7b' then skipObject (skipValue depth) depth (c :: cur)
      else if c = ch '[' then skipArray (skipValue depth) depth (c :: cur)
      else if c = ch 't' then word (text "true") (c :: cur)
      else if c = ch 'f' then word (text "false") (c :: cur)
      else if c = ch 'n' then word (text "null") (c :: cur)
      else if c = ch '-' ∨ isDigit c then skipNumber (c :: cur)
      else none

/-! ## What is printed is skipped -/

open JsonValue

/-- What may stand behind a value in a document. -/
def Ends (rest : List UInt8) : Prop :=
  ∀ c ∈ rest.head?, c = ch ',' ∨ c = ch ']' ∨ c = ch '\x7d'

theorem ends_nil : Ends [] := fun _ h => by cases h

theorem ends_cons {c : UInt8} (h : c = ch ',' ∨ c = ch ']' ∨ c = ch '\x7d') (rest : List UInt8) :
    Ends (c :: rest) := fun _ hc => Option.some.inj hc ▸ h

theorem Ends.ne {c d : UInt8} {rest : List UInt8} (h : Ends (c :: rest))
    (hd : d ≠ ch ',' ∧ d ≠ ch ']' ∧ d ≠ ch '\x7d') : c ≠ d := by
  rintro rfl
  rcases h c rfl with h | h | h
  · exact hd.1 h
  · exact hd.2.1 h
  · exact hd.2.2 h

/-- No whitespace, no closing bracket, and no `null`. -/
def Begins (c : UInt8) : Prop :=
  (c = 32 || c = 9 || c = 10 || c = 13) = false ∧ c ≠ ch ']' ∧ c ≠ ch 'n'

theorem begins_digit {c : UInt8} (h : isDigit c = true) : Begins c := by
  have hne : ∀ d : UInt8, isDigit d = false → c ≠ d := by
    rintro d hd rfl
    rw [h] at hd
    cases hd
  refine ⟨?_, hne _ (by decide), hne _ (by decide)⟩
  simp only [Bool.or_eq_false_iff, decide_eq_false_iff_not]
  exact ⟨⟨⟨hne _ (by decide), hne _ (by decide)⟩, hne _ (by decide)⟩, hne _ (by decide)⟩

theorem decimalInt_cases (n : ℤ) : ∃ d digits, isDigit d = true ∧ (∀ c ∈ digits, isDigit c = true) ∧
    (decimalInt n = d :: digits ∨ decimalInt n = ch '-' :: d :: digits) := by
  obtain ⟨d, digits, hdecimal⟩ := List.exists_cons_of_ne_nil (decimal_ne_nil n.natAbs)
  have hdigits : ∀ c ∈ decimal n.natAbs, isDigit c = true := fun c hc => isDigit_of_mem_decimal hc
  rw [hdecimal] at hdigits
  obtain ⟨hd, hrest⟩ := List.forall_mem_cons.mp hdigits
  refine ⟨d, digits, hd, hrest, ?_⟩
  rw [decimalInt, hdecimal]
  split
  · exact Or.inr rfl
  · exact Or.inl rfl

theorem print_begins : ∀ v : JsonValue,
    ∃ c tail, print v = c :: tail ∧ Begins c ∧ (c = ch '[' → ∃ elems, v = .array elems)
  | .number n => by
    obtain ⟨d, digits, hd, -, h | h⟩ := decimalInt_cases n
    · refine ⟨d, _, h, begins_digit hd, ?_⟩
      rintro rfl
      cases hd
    · exact ⟨_, _, h, by unfold Begins; decide, fun hc => by cases hc⟩
  | .bool true => ⟨_, _, rfl, by unfold Begins; decide, fun hc => by cases hc⟩
  | .bool false => ⟨_, _, rfl, by unfold Begins; decide, fun hc => by cases hc⟩
  | .string _ => ⟨_, _, rfl, by unfold Begins; decide, fun hc => by cases hc⟩
  | .object _ => ⟨_, _, rfl, by unfold Begins; decide, fun hc => by cases hc⟩
  | .array _ => ⟨_, _, rfl, by unfold Begins; decide, fun _ => ⟨_, rfl⟩⟩

theorem skipNumber_digits {d : UInt8} {digits rest : List UInt8} (hd : isDigit d = true)
    (hdigits : ∀ c ∈ digits, isDigit c = true) (hrest : Ends rest) :
    skipExponent (skipFraction (skipDigits (d :: digits ++ rest))) = rest := by
  have hdrop : skipDigits (d :: digits ++ rest) = rest := by
    rw [skipDigits, List.dropWhile_append_of_pos (List.forall_mem_cons.mpr ⟨hd, hdigits⟩)]
    cases rest with
    | nil => rfl
    | cons c rest =>
      refine List.dropWhile_cons_of_neg ?_
      rcases hrest c rfl with rfl | rfl | rfl <;> decide
  rw [hdrop]
  cases rest with
  | nil => rfl
  | cons c rest =>
    rw [skipFraction, if_neg (hrest.ne (by decide)), skipExponent, if_neg]
    exact fun h => h.elim (hrest.ne (by decide)) (hrest.ne (by decide))

theorem skipWS_begins {c : UInt8} (hc : Begins c) (cur : List UInt8) :
    skipWS (c :: cur) = c :: cur :=
  List.dropWhile_cons_of_neg (by rw [hc.1]; exact Bool.false_ne_true)

theorem skipValue_digits {d : UInt8} {digits rest : List UInt8} (hd : isDigit d = true)
    (hdigits : ∀ c ∈ digits, isDigit c = true) (hrest : Ends rest) (depth : ℕ) :
    skipValue (depth + 1) (d :: digits ++ rest) = some rest := by
  have hne : ∀ c : UInt8, isDigit c = false → d ≠ c := by
    rintro c hc rfl
    rw [hd] at hc
    cases hc
  have hsign : skipSign [ch '-'] (d :: digits ++ rest) = d :: digits ++ rest :=
    if_neg fun h => hne (ch '-') (by decide) (List.mem_singleton.mp h)
  rw [skipValue, List.cons_append, skipWS_begins (begins_digit hd)]
  dsimp only
  rw [if_neg (hne _ (by decide)), if_neg (hne _ (by decide)), if_neg (hne _ (by decide)),
    if_neg (hne _ (by decide)), if_neg (hne _ (by decide)), if_neg (hne _ (by decide)),
    if_pos (Or.inr hd), skipNumber, ← List.cons_append, hsign, List.cons_append]
  dsimp only
  rw [if_pos hd, ← List.cons_append, skipNumber_digits hd hdigits hrest]

theorem skipValue_negative {d : UInt8} {digits rest : List UInt8} (hd : isDigit d = true)
    (hdigits : ∀ c ∈ digits, isDigit c = true) (hrest : Ends rest) (depth : ℕ) :
    skipValue (depth + 1) (ch '-' :: d :: digits ++ rest) = some rest := by
  have hskip : skipValue (depth + 1) (ch '-' :: d :: digits ++ rest)
      = if isDigit d then some (skipExponent (skipFraction (skipDigits (d :: digits ++ rest))))
        else none := rfl
  rw [hskip, if_pos hd, skipNumber_digits hd hdigits hrest]

theorem skipChars_plain {c : UInt8} (hquote : c ≠ ch '"') (hescape : c ≠ ch '\\')
    (rest : List UInt8) : skipChars false (c :: rest) = skipChars false rest := by
  rw [skipChars, if_neg hquote, decide_eq_false hescape]

theorem skipChars_escapeByte (c : UInt8) (rest : List UInt8) :
    skipChars false (escapeByte false c ++ rest) = skipChars false rest := by
  refine escapeByte_elim (P := fun _ e => skipChars false (e ++ rest) = skipChars false rest)
    (fun n hn => ?_) rfl rfl (fun c _ hquote hback => ?_) c
  · interval_cases n
    all_goals rfl
  · exact skipChars_plain hquote hback rest

theorem skipChars_escapeString (s rest : List UInt8) :
    skipChars false (escapeString s false ++ ch '"' :: rest) = some rest := by
  induction s with
  | nil => rfl
  | cons c s ih =>
    rw [escapeString, List.flatMap_cons, List.append_assoc, skipChars_escapeByte, ← escapeString,
      ih]

theorem skipChars_name (name : FieldName) (rest : List UInt8) :
    skipChars false (name.bytes ++ ch '"' :: rest) = some rest := by
  obtain ⟨bytes, hplain⟩ := name
  induction bytes with
  | nil => rfl
  | cons c bytes ih =>
    obtain ⟨⟨hquote, hescape⟩, hrest⟩ := List.forall_mem_cons.mp hplain
    exact (skipChars_plain hquote hescape _).trans (ih hrest)

theorem print_array (elems : List JsonValue) (rest : List UInt8) :
    print (.array elems) ++ rest = ch '[' :: (printElems elems ++ ch ']' :: rest) := by
  rw [print, List.cons_append, List.append_assoc]
  rfl

theorem printElems_cons (v w : JsonValue) (elems : List JsonValue) :
    printElems (v :: w :: elems) = print v ++ ch ',' :: printElems (w :: elems) := by
  rw [printElems]
  exact fun h => by cases h

theorem printFields_cons (name : FieldName) (v : JsonValue) (field : FieldName × JsonValue)
    (fields : List (FieldName × JsonValue)) :
    printFields ((name, v) :: field :: fields) = ch '"' :: (name.bytes ++ ch '"' :: ch ':' ::
      (print v ++ ch ',' :: printFields (field :: fields))) := by
  rw [printFields]
  exact fun h => by cases h

theorem length_printElems {v : JsonValue} {elems : List JsonValue} (hv : v ∈ elems) :
    (print v).length ≤ (printElems elems).length := by
  induction elems with
  | nil => cases hv
  | cons w elems ih =>
    cases elems with
    | nil =>
      rw [List.mem_singleton.mp hv]
      rfl
    | cons w' elems =>
      rw [printElems_cons, List.length_append, List.length_cons]
      rcases List.mem_cons.mp hv with rfl | hv
      · omega
      · have := ih hv
        omega

theorem elems_le_length : ∀ elems : List JsonValue, elems.length ≤ (printElems elems).length
  | [] => le_rfl
  | [v] => by
    obtain ⟨c, tail, hprint, -, -⟩ := print_begins v
    rw [printElems, hprint]
    exact Nat.succ_le_succ (Nat.zero_le _)
  | v :: w :: elems => by
    have hrest := elems_le_length (w :: elems)
    rw [printElems_cons]
    simp only [List.length_cons, List.length_append] at hrest ⊢
    omega

theorem fields_le_length : ∀ fields : List (FieldName × JsonValue),
    fields.length ≤ (printFields fields).length
  | [] => le_rfl
  | [(name, v)] => Nat.succ_le_succ (Nat.zero_le _)
  | (name, v) :: field :: fields => by
    have hrest := fields_le_length (field :: fields)
    rw [printFields_cons]
    simp only [List.length_cons, List.length_append] at hrest ⊢
    omega

theorem printElems_begins {elems : List JsonValue} (hne : elems ≠ []) :
    ∃ c tail, printElems elems = c :: tail ∧ Begins c := by
  match elems, hne with
  | [v], _ =>
    obtain ⟨c, tail, hprint, hc, -⟩ := print_begins v
    exact ⟨c, tail, hprint, hc⟩
  | v :: w :: elems, _ =>
    obtain ⟨c, tail, hprint, hc, -⟩ := print_begins v
    rw [printElems_cons, hprint]
    exact ⟨c, _, rfl, hc⟩

theorem printFields_quote {fields : List (FieldName × JsonValue)} (hne : fields ≠ []) :
    ∃ tail, printFields fields = ch '"' :: tail := by
  match fields, hne with
  | [(name, v)], _ => exact ⟨_, rfl⟩
  | (name, v) :: field :: fields, _ =>
    rw [printFields_cons]
    exact ⟨_, rfl⟩

theorem skipFields_entry (skip : List UInt8 → Option (List UInt8)) (turns : ℕ) (name : FieldName)
    (cur : List UInt8) :
    skipFields skip (turns + 1) (ch '"' :: (name.bytes ++ ch '"' :: ch ':' :: cur))
      = (skip cur).bind (afterEntry (ch '\x7d') some (skipFields skip turns)) := by
  have hname : skipString (skipWS (ch '"' :: (name.bytes ++ ch '"' :: ch ':' :: cur)))
      = some (ch ':' :: cur) := skipChars_name name (ch ':' :: cur)
  rw [skipFields, hname]
  rfl

mutual

theorem skipValue_print : ∀ (v : JsonValue) {depth : ℕ} {rest : List UInt8},
    (print v).length ≤ depth → Ends rest → skipValue depth (print v ++ rest) = some rest
  | v, 0, _, hdepth, _ => by
    obtain ⟨c, tail, hprint, -, -⟩ := print_begins v
    rw [hprint] at hdepth
    cases hdepth
  | .number n, depth + 1, rest, _, hrest => by
    rw [print]
    obtain ⟨d, digits, hd, hdigits, h | h⟩ := decimalInt_cases n
    · rw [h]
      exact skipValue_digits hd hdigits hrest depth
    · rw [h]
      exact skipValue_negative hd hdigits hrest depth
  | .bool true, _ + 1, _, _, _ => rfl
  | .bool false, _ + 1, _, _, _ => rfl
  | .string s, depth + 1, rest, _, _ => by
    rw [print, printString, List.cons_append, List.cons_append, List.append_assoc]
    exact skipChars_escapeString s rest
  | .object fields, depth + 1, rest, hdepth, _ => by
    have hprint : print (.object fields) ++ rest
        = ch '\x7b' :: (printFields fields ++ ch '\x7d' :: rest) := by
      rw [print, List.cons_append, List.append_assoc]
      rfl
    rw [print, List.length_cons, List.length_append] at hdepth
    have hlength := fields_le_length fields
    rw [hprint]
    by_cases hne : fields = []
    · subst hne
      rfl
    obtain ⟨tail, htail⟩ := printFields_quote hne
    have hskip : skipValue (depth + 1) (ch '\x7b' :: (printFields fields ++ ch '\x7d' :: rest))
        = skipFields (skipValue depth) depth (printFields fields ++ ch '\x7d' :: rest) := by
      rw [htail]
      rfl
    rw [hskip]
    exact skipFields_print fields hne (by omega) (by omega)
  | .array elems, depth + 1, rest, hdepth, _ => by
    rw [print, List.length_cons, List.length_append] at hdepth
    have hlength := elems_le_length elems
    rw [print_array]
    by_cases hne : elems = []
    · subst hne
      rfl
    obtain ⟨c, tail, htail, hc⟩ := printElems_begins hne
    have hpeek : peek (printElems elems ++ ch ']' :: rest) ≠ ch ']' := by
      rw [htail, List.cons_append, peek, skipWS_begins hc]
      exact hc.2.1
    have hskip : skipValue (depth + 1) (ch '[' :: (printElems elems ++ ch ']' :: rest))
        = skipElems (skipValue depth) depth (printElems elems ++ ch ']' :: rest) := if_neg hpeek
    rw [hskip]
    exact skipElems_print elems hne (by omega) (by omega)

theorem skipElems_print : ∀ (elems : List JsonValue) {depth turns : ℕ} {rest : List UInt8},
    elems ≠ [] → (printElems elems).length ≤ depth → elems.length ≤ turns →
    skipElems (skipValue depth) turns (printElems elems ++ ch ']' :: rest) = some rest
  | [], _, _, _, hne, _, _ => absurd rfl hne
  | _ :: _, _, 0, _, _, _, hturns => absurd hturns (Nat.not_succ_le_zero _)
  | [v], depth, turns + 1, rest, _, hdepth, _ => by
    rw [printElems] at hdepth ⊢
    rw [skipElems, skipValue_print v hdepth (ends_cons (by simp) _)]
    rfl
  | v :: w :: elems, depth, turns + 1, rest, _, hdepth, hturns => by
    rw [printElems_cons] at hdepth ⊢
    rw [List.length_append, List.length_cons] at hdepth
    rw [List.append_assoc, List.cons_append, skipElems,
      skipValue_print v (by omega) (ends_cons (by simp) _)]
    exact skipElems_print (w :: elems) (List.cons_ne_nil _ _) (by omega)
      (Nat.le_of_succ_le_succ hturns)

theorem skipFields_print : ∀ (fields : List (FieldName × JsonValue)) {depth turns : ℕ}
    {rest : List UInt8}, fields ≠ [] → (printFields fields).length ≤ depth →
    fields.length ≤ turns →
    skipFields (skipValue depth) turns (printFields fields ++ ch '\x7d' :: rest) = some rest
  | [], _, _, _, hne, _, _ => absurd rfl hne
  | _ :: _, _, 0, _, _, _, hturns => absurd hturns (Nat.not_succ_le_zero _)
  | [(name, v)], depth, turns + 1, rest, _, hdepth, _ => by
    rw [printFields] at hdepth
    simp only [List.length_cons, List.length_append] at hdepth
    have htext : printFields [(name, v)] ++ ch '\x7d' :: rest
        = ch '"' :: (name.bytes ++ ch '"' :: ch ':' :: (print v ++ ch '\x7d' :: rest)) := by
      rw [printFields, List.cons_append, List.append_assoc]
      rfl
    rw [htext, skipFields_entry, skipValue_print v (by omega) (ends_cons (by simp) _)]
    rfl
  | (name, v) :: field :: fields, depth, turns + 1, rest, _, hdepth, hturns => by
    rw [printFields_cons] at hdepth
    simp only [List.length_cons, List.length_append] at hdepth
    have htext : printFields ((name, v) :: field :: fields) ++ ch '\x7d' :: rest
        = ch '"' :: (name.bytes ++ ch '"' :: ch ':' ::
          (print v ++ ch ',' :: (printFields (field :: fields) ++ ch '\x7d' :: rest))) := by
      rw [printFields_cons]
      simp only [List.cons_append, List.append_assoc]
    rw [htext, skipFields_entry, skipValue_print v (by omega) (ends_cons (by simp) _)]
    exact skipFields_print (field :: fields) (List.cons_ne_nil _ _) (by omega)
      (Nat.le_of_succ_le_succ hturns)

end

end JsonScanner

end DaScript

import DaScript.Daslib.JsonLexer
import DaScript.Simulate.JsonDocument

/-!
# Daslib/JsonFixing — a repair of broken JSON

`try_fixing_broken_json` of `daslib/json.das`.  It goes from string to string, and what stands
behind a quote decides whether the string ends at it.
-/

namespace DaScript

open Text

namespace JsonFixing

/-! ## The pass -/

/-- **Where the pass stands**, with what it has still to read: up to the next string, at `label 0`,
or in nested quotes. -/
inductive Place
  | outside (rest : List UInt8)
  | inString (rest : List UInt8)
  | nested (rest : List UInt8)

def Place.rest : Place → List UInt8
  | .outside rest => rest
  | .inString rest => rest
  | .nested rest => rest

/-- What a turn writes and where it goes on; `throws` is an index past the end. -/
inductive Turn
  | goes (out : List UInt8) (next : Place)
  | done (out : List UInt8)
  | throws

/-- `while (j < lstr && is_white_space(int(str[j])))` -/
def skip (rest : List UInt8) : List UInt8 := rest.dropWhile Json.isWhiteSpace

/-- A closing bracket is first. -/
def closes (rest : List UInt8) : Bool := rest.head?.any fun c => c = ch '\x7d' || c = ch ']'

/-- Of these one may stand behind a string. -/
def closers : List UInt8 := text ":\x7d],"

/-- At a backslash, outside a string: `str[i + 1]` is read. -/
def turnEscape : List UInt8 → Turn
  | [] => .throws
  | u :: t =>
    if u = ch 'u' then .goes [] (.outside (t.dropWhile Json.isHex))
    else .goes [ch '\\'] (.outside (u :: t))

def turnOutside : List UInt8 → Turn
  | [] => .done []
  | c :: t =>
    if c = ch '"' then .goes [ch '"'] (.inString t)
    else if c = ch ',' ∧ closes (skip t) = true then .goes [] (.outside (skip t))
    else if c = ch '\\' then turnEscape t
    else .goes [c] (.outside t)

/-- At a quote in a string, before `t`: what is behind the blanks decides. -/
def turnQuote (t : List UInt8) : List UInt8 → Turn
  | [] => .done [ch '"']
  | d :: u =>
    if d ∈ closers then .goes [ch '"'] (.outside t)
    else if d = ch '+' ∧ (skip u).head? = some (ch '"') then
      .goes [ch ' '] (.inString (skip u).tail)
    -- a comma is missing
    else if t.head?.any Json.isWhiteSpace then .goes [ch '"', ch ','] (.outside t)
    else .goes [ch '`'] (.nested t)

def turnString : List UInt8 → Turn
  | [] => .done [ch '"']
  | c :: t => if c ≠ ch '"' then .goes [c] (.inString t) else turnQuote t (skip t)

def turnNested : List UInt8 → Turn
  | [] => .done [ch '`', ch '"']
  | c :: t => if c ≠ ch '"' then .goes [c] (.nested t) else .goes [ch '`'] (.inString t)

def turn : Place → Turn
  | .outside rest => turnOutside rest
  | .inString rest => turnString rest
  | .nested rest => turnNested rest

theorem length_skip_le (rest : List UInt8) : (skip rest).length ≤ rest.length :=
  (List.dropWhile_suffix _).length_le

theorem turnEscape_shorter {rest : List UInt8} {out : List UInt8} {next : Place}
    (h : turnEscape rest = .goes out next) : next.rest.length ≤ rest.length := by
  rcases rest with - | ⟨u, t⟩
  · cases h
  rw [turnEscape] at h
  split_ifs at h
  · cases h
    exact Nat.le_succ_of_le (List.dropWhile_suffix _).length_le
  · cases h
    exact Nat.le_refl _

theorem turnOutside_shorter {rest : List UInt8} {out : List UInt8} {next : Place}
    (h : turnOutside rest = .goes out next) : next.rest.length < rest.length := by
  rcases rest with - | ⟨c, t⟩
  · cases h
  rw [turnOutside] at h
  split_ifs at h
  · cases h
    exact Nat.lt_succ_self _
  · cases h
    exact Nat.lt_succ_of_le (length_skip_le t)
  · exact Nat.lt_succ_of_le (turnEscape_shorter h)
  · cases h
    exact Nat.lt_succ_self _

theorem turnQuote_shorter {t rest : List UInt8} (hrest : rest.length ≤ t.length)
    {out : List UInt8} {next : Place} (h : turnQuote t rest = .goes out next) :
    next.rest.length ≤ t.length := by
  rcases rest with - | ⟨d, u⟩
  · cases h
  rw [turnQuote] at h
  split_ifs at h
  · cases h
    exact Nat.le_refl _
  · cases h
    have htail := (List.tail_suffix (skip u)).length_le.trans (length_skip_le u)
    exact htail.trans (Nat.le_of_succ_le hrest)
  · cases h
    exact Nat.le_refl _
  · cases h
    exact Nat.le_refl _

theorem turnString_shorter {rest : List UInt8} {out : List UInt8} {next : Place}
    (h : turnString rest = .goes out next) : next.rest.length < rest.length := by
  rcases rest with - | ⟨c, t⟩
  · cases h
  rw [turnString] at h
  split_ifs at h
  · cases h
    exact Nat.lt_succ_self _
  · exact Nat.lt_succ_of_le (turnQuote_shorter (length_skip_le t) h)

theorem turnNested_shorter {rest : List UInt8} {out : List UInt8} {next : Place}
    (h : turnNested rest = .goes out next) : next.rest.length < rest.length := by
  rcases rest with - | ⟨c, t⟩
  · cases h
  rw [turnNested] at h
  split_ifs at h
  all_goals
    cases h
    exact Nat.lt_succ_self _

theorem turn_shorter {p next : Place} {out : List UInt8} (h : turn p = .goes out next) :
    next.rest.length < p.rest.length := by
  cases p with
  | outside rest => exact turnOutside_shorter h
  | inString rest => exact turnString_shorter h
  | nested rest => exact turnNested_shorter h

/-- What is written from a place on; `none` is an exception. -/
def fixFrom (p : Place) : Option (List UInt8) :=
  match _hturn : turn p with
  | .goes out next => (fixFrom next).map (out ++ ·)
  | .done out => some out
  | .throws => none
termination_by p.rest.length
decreasing_by exact turn_shorter ‹_›

def tryFixingBrokenJson (bad : List UInt8) : Option (List UInt8) := fixFrom (.outside bad)

theorem fixFrom_goes {p next : Place} {out : List UInt8} (h : turn p = .goes out next) :
    fixFrom p = (fixFrom next).map (out ++ ·) := by
  rw [fixFrom]
  split <;> simp_all

theorem fixFrom_done {p : Place} {out : List UInt8} (h : turn p = .done out) :
    fixFrom p = some out := by
  rw [fixFrom]
  split <;> simp_all

theorem fixFrom_throws {p : Place} (h : turn p = .throws) : fixFrom p = none := by
  rw [fixFrom]
  split <;> simp_all

/-! ## Whether it returns -/

/-- One turn leads from a place to the next. -/
def Goes (p next : Place) : Prop := ∃ out, turn p = .goes out next

theorem turn_throws_iff {p : Place} : turn p = .throws ↔ p = .outside [ch '\\'] := by
  refine ⟨fun h => ?_, fun h => by rw [h]; rfl⟩
  cases p with
  | outside rest =>
    rcases rest with - | ⟨c, t⟩
    · cases h
    rw [turn, turnOutside] at h
    split_ifs at h with hquote hcomma hback
    rcases t with - | ⟨u, t'⟩
    · rw [hback]
    rw [turnEscape] at h
    split_ifs at h
  | inString rest =>
    rcases rest with - | ⟨c, t⟩
    · cases h
    rw [turn, turnString] at h
    split_ifs at h
    rcases hs : skip t with - | ⟨d, u⟩
    · rw [hs] at h
      cases h
    rw [hs, turnQuote] at h
    split_ifs at h
  | nested rest =>
    rcases rest with - | ⟨c, t⟩
    · cases h
    rw [turn, turnNested] at h
    split_ifs at h

theorem fixFrom_eq_none_iff (p : Place) :
    fixFrom p = none ↔ Relation.ReflTransGen Goes p (.outside [ch '\\']) := by
  constructor
  · intro h
    induction hn : p.rest.length using Nat.strong_induction_on generalizing p with
    | _ n ih =>
      cases hturn : turn p with
      | goes out next =>
        rw [fixFrom_goes hturn, Option.map_eq_none_iff] at h
        exact (ih _ (hn ▸ turn_shorter hturn) next h rfl).head ⟨out, hturn⟩
      | done out =>
        rw [fixFrom_done hturn] at h
        cases h
      | throws => rw [turn_throws_iff.mp hturn]
  · intro h
    induction h using Relation.ReflTransGen.head_induction_on with
    | refl => exact fixFrom_throws rfl
    | head hgoes _ ih =>
      obtain ⟨out, hturn⟩ := hgoes
      rw [fixFrom_goes hturn, ih, Option.map_none]

/-! ## Documents -/

/-- **What a document means**: what its strings and its numerals stand for. -/
structure Reading where
  Text : Type
  Number : Type
  string : List UInt8 → Text
  number : List UInt8 → Number

/-- What is between the quotes, and a numeral, as they are. -/
def Reading.spelled : Reading := ⟨List UInt8, List UInt8, id, id⟩

variable {R : Reading}

/-- A JSON value. -/
inductive Value (R : Reading)
  | null
  | bool (b : Bool)
  | number (n : R.Number)
  | string (s : R.Text)
  | array (elems : List (Value R))
  | object (pairs : List (R.Text × Value R))

def Blank (w : List UInt8) : Prop := ∀ c ∈ w, Json.isWhiteSpace c = true

def Digits (ds : List UInt8) : Prop := ds ≠ [] ∧ ∀ d ∈ ds, isDigit d = true

/-- A numeral: a sign, digits with no zero in front of others, a fraction, an exponent. -/
def Numeral (num : List UInt8) : Prop :=
  ∃ sign int frac exp, num = sign ++ (int ++ (frac ++ exp)) ∧
    (sign = [] ∨ sign = [ch '-']) ∧
    Digits int ∧ (int.head? = some (ch '0') → int = [ch '0']) ∧
    (frac = [] ∨ ∃ ds, Digits ds ∧ frac = ch '.' :: ds) ∧
    (exp = [] ∨ ∃ e sgn ds, (e = ch 'e' ∨ e = ch 'E') ∧
      (sgn = [] ∨ sgn = [ch '+'] ∨ sgn = [ch '-']) ∧ Digits ds ∧ exp = e :: (sgn ++ ds))

/-- **What may stand between the quotes**; an escaped quote only if it is allowed. -/
def Chars (quotes : Prop) (chars : List UInt8) : Prop :=
  JsonDocument.stringChars .plain chars = true ∧ (quotes ∨ ch '"' ∉ chars)

/-- A string, as it is written. -/
def quoted (chars : List UInt8) : List UInt8 := ch '"' :: (chars ++ [ch '"'])

mutual

/-- **The text of a value**, with no blanks around it. -/
inductive Denotes (quotes : Prop) : List UInt8 → Value R → Prop
  | null : Denotes quotes (text "null") .null
  | true : Denotes quotes (text "true") (.bool Bool.true)
  | false : Denotes quotes (text "false") (.bool Bool.false)
  | number {num} (h : Numeral num) : Denotes quotes num (.number (R.number num))
  | string {chars} (h : Chars quotes chars) :
      Denotes quotes (quoted chars) (.string (R.string chars))
  | emptyArray {w} (hw : Blank w) : Denotes quotes (ch '[' :: (w ++ [ch ']'])) (.array [])
  | array {t elems} (h : Elements quotes t elems) :
      Denotes quotes (ch '[' :: (t ++ [ch ']'])) (.array elems)
  | emptyObject {w} (hw : Blank w) :
      Denotes quotes (ch '\x7b' :: (w ++ [ch '\x7d'])) (.object [])
  | object {t pairs} (h : Pairs quotes t pairs) :
      Denotes quotes (ch '\x7b' :: (t ++ [ch '\x7d'])) (.object pairs)

/-- The elements of an array. -/
inductive Elements (quotes : Prop) : List UInt8 → List (Value R) → Prop
  | last {w t w₁ v} (hw : Blank w) (h : Denotes quotes t v) (hw₁ : Blank w₁) :
      Elements quotes (w ++ (t ++ w₁)) [v]
  | more {w t w₁ v ts vs} (hw : Blank w) (h : Denotes quotes t v) (hw₁ : Blank w₁)
      (hs : Elements quotes ts vs) : Elements quotes (w ++ (t ++ (w₁ ++ ch ',' :: ts))) (v :: vs)

/-- The pairs of an object. -/
inductive Pairs (quotes : Prop) : List UInt8 → List (R.Text × Value R) → Prop
  | last {w key w₁ w₂ t w₃ v} (hw : Blank w) (hkey : Chars quotes key) (hw₁ : Blank w₁)
      (hw₂ : Blank w₂) (h : Denotes quotes t v) (hw₃ : Blank w₃) :
      Pairs quotes (w ++ (quoted key ++ (w₁ ++ ch ':' :: (w₂ ++ (t ++ w₃)))))
        [(R.string key, v)]
  | more {w key w₁ w₂ t w₃ v ts pairs} (hw : Blank w) (hkey : Chars quotes key)
      (hw₁ : Blank w₁) (hw₂ : Blank w₂) (h : Denotes quotes t v) (hw₃ : Blank w₃)
      (hs : Pairs quotes ts pairs) :
      Pairs quotes (w ++ (quoted key ++ (w₁ ++ ch ':' :: (w₂ ++ (t ++ (w₃ ++ ch ',' :: ts))))))
        ((R.string key, v) :: pairs)

end

/-- **A JSON document** and its value. -/
def Document (quotes : Prop) (doc : List UInt8) (v : Value R) : Prop :=
  ∃ w t w', doc = w ++ (t ++ w') ∧ Blank w ∧ Denotes quotes t v ∧ Blank w'

/-! ## Documents come through -/

/-- **A text comes through as it is**, before others. -/
def Through (t rest : List UInt8) : Prop :=
  fixFrom (.outside (t ++ rest)) = (fixFrom (.outside rest)).map (t ++ ·)

/-- Outside a string the byte is only copied. -/
def Neutral (c : UInt8) : Prop := c ≠ ch '"' ∧ c ≠ ch ',' ∧ c ≠ ch '\\'

/-- One of `: } ] ,` is next, behind blanks. -/
def Followed (rest : List UInt8) : Prop := ∃ c ∈ (skip rest).head?, c ∈ closers

/-- No closing bracket is next. -/
def Begins (t : List UInt8) : Prop := ∀ rest, closes (skip (t ++ rest)) = false

theorem Through.append {t₁ t₂ rest : List UInt8} (h₁ : Through t₁ (t₂ ++ rest))
    (h₂ : Through t₂ rest) : Through (t₁ ++ t₂) rest := by
  rw [Through, List.append_assoc, h₁, h₂, Option.map_map]
  congr 1
  funext out
  exact (List.append_assoc t₁ t₂ out).symm

theorem through_nil (rest : List UInt8) : Through [] rest := by
  rw [Through]
  exact (Option.map_id' (x := fixFrom (.outside rest))).symm

theorem through_cons {c : UInt8} {t rest : List UInt8} (hc : Through [c] (t ++ rest))
    (ht : Through t rest) : Through (c :: t) rest := hc.append ht

theorem through_byte {c : UInt8} (hc : Neutral c) (rest : List UInt8) : Through [c] rest := by
  obtain ⟨hquote, hcomma, hback⟩ := hc
  refine fixFrom_goes ?_
  rw [turn, List.singleton_append, turnOutside, if_neg hquote, if_neg fun h => hcomma h.1,
    if_neg hback]

theorem through_neutral {t : List UInt8} (h : ∀ c ∈ t, Neutral c) (rest : List UInt8) :
    Through t rest := by
  induction t with
  | nil => exact through_nil rest
  | cons c t ih =>
    obtain ⟨hc, ht⟩ := List.forall_mem_cons.mp h
    exact through_cons (through_byte hc _) (ih ht)

theorem through_letters {t : List UInt8}
    (h : t.all (fun c => decide (c ≠ ch '"' ∧ c ≠ ch ',' ∧ c ≠ ch '\\')) = true)
    (rest : List UInt8) : Through t rest :=
  through_neutral (fun c hc =>
    show _ ∧ _ from of_decide_eq_true (List.all_eq_true.mp h c hc)) rest

theorem through_comma {rest : List UInt8} (h : closes (skip rest) = false) :
    Through [ch ','] rest := by
  refine fixFrom_goes ?_
  rw [turn, List.singleton_append, turnOutside, if_neg (by decide),
    if_neg fun hc => absurd hc.2 (Bool.eq_false_iff.mp h), if_neg (by decide)]

theorem fixFrom_inString {chars : List UInt8} (h : ch '"' ∉ chars) (rest : List UInt8) :
    fixFrom (.inString (chars ++ rest)) = (fixFrom (.inString rest)).map (chars ++ ·) := by
  induction chars with
  | nil => exact (Option.map_id' (x := fixFrom (.inString rest))).symm
  | cons c chars ih =>
    rw [List.mem_cons, not_or] at h
    obtain ⟨hc, hchars⟩ := h
    have hturn : turn (.inString (c :: (chars ++ rest)))
        = .goes [c] (.inString (chars ++ rest)) := by
      rw [turn, turnString, if_pos (Ne.symm hc)]
    rw [List.cons_append, fixFrom_goes hturn, ih hchars, Option.map_map]
    rfl

theorem fixFrom_quoted {chars : List UInt8} (h : ch '"' ∉ chars) (rest : List UInt8) :
    fixFrom (.outside (quoted chars ++ rest))
      = (fixFrom (.inString (ch '"' :: rest))).map fun out => ch '"' :: (chars ++ out) := by
  have hopen : turn (.outside (quoted chars ++ rest))
      = .goes [ch '"'] (.inString (chars ++ ch '"' :: rest)) := by
    rw [quoted, List.cons_append, List.append_assoc]
    rfl
  rw [fixFrom_goes hopen, fixFrom_inString h, Option.map_map]
  rfl

theorem through_quoted {chars rest : List UInt8} (h : ch '"' ∉ chars) (hrest : Followed rest) :
    Through (quoted chars) rest := by
  obtain ⟨c, hc, hcloser⟩ := hrest
  have hclose : turn (.inString (ch '"' :: rest)) = .goes [ch '"'] (.outside rest) := by
    obtain ⟨u, hu⟩ := List.head?_eq_some_iff.mp (Option.mem_def.mp hc)
    rw [turn, turnString, if_neg (not_not.mpr rfl), hu, turnQuote, if_pos hcloser]
  rw [Through, fixFrom_quoted h, fixFrom_goes hclose, Option.map_map]
  congr 1
  funext out
  exact congrArg _ (List.append_assoc chars [ch '"'] out).symm

theorem skip_blank {w : List UInt8} (hw : Blank w) (rest : List UInt8) :
    skip (w ++ rest) = skip rest := List.dropWhile_append_of_pos hw

theorem fixFrom_quoted_end {chars w : List UInt8} (h : ch '"' ∉ chars) (hw : Blank w) :
    fixFrom (.outside (quoted chars ++ w)) = some (quoted chars) := by
  have hclose : turn (.inString (ch '"' :: w)) = .done [ch '"'] := by
    have hskip : skip w = [] := by
      rw [← List.append_nil w, skip_blank hw]
      rfl
    rw [turn, turnString, if_neg (not_not.mpr rfl), hskip, turnQuote]
  rw [fixFrom_quoted h, fixFrom_done hclose]
  rfl

/-! ### Blanks and numerals -/

theorem neutral_of_blank {c : UInt8} (h : Json.isWhiteSpace c = true) : Neutral c := by
  refine ⟨?_, ?_, ?_⟩
  all_goals
    rintro rfl
    exact absurd h (by decide)

theorem through_blank {w : List UInt8} (hw : Blank w) (rest : List UInt8) : Through w rest :=
  through_neutral (fun c hc => neutral_of_blank (hw c hc)) rest

theorem Followed.blank {w rest : List UInt8} (hw : Blank w) (h : Followed rest) :
    Followed (w ++ rest) := by
  rwa [Followed, skip_blank hw]

theorem followed_cons {c : UInt8} (hc : c ∈ closers) (rest : List UInt8) :
    Followed (c :: rest) := by
  have hall : closers.all (fun c => !Json.isWhiteSpace c) = true := rfl
  have hwhite : Json.isWhiteSpace c = false :=
    (Bool.not_eq_true' _).mp (List.all_eq_true.mp hall c hc)
  refine ⟨c, ?_, hc⟩
  rw [skip, List.dropWhile_cons_of_neg (Bool.eq_false_iff.mp hwhite)]
  rfl

theorem begins_cons {c : UInt8} (hwhite : Json.isWhiteSpace c = false)
    (hc : c ≠ ch '\x7d' ∧ c ≠ ch ']') (t : List UInt8) : Begins (c :: t) := by
  intro rest
  rw [List.cons_append, skip, List.dropWhile_cons_of_neg (Bool.eq_false_iff.mp hwhite), closes,
    List.head?_cons, Option.any_some, decide_eq_false hc.1, decide_eq_false hc.2]
  rfl

theorem Begins.append {t : List UInt8} (h : Begins t) (u : List UInt8) : Begins (t ++ u) := by
  intro rest
  rw [List.append_assoc]
  exact h _

theorem Begins.blank {w t : List UInt8} (hw : Blank w) (h : Begins t) : Begins (w ++ t) := by
  intro rest
  rw [List.append_assoc, skip_blank hw]
  exact h rest

/-- A byte of a numeral. -/
def NumeralByte (c : UInt8) : Prop := isDigit c = true ∨ c ∈ text "+-.eE"

theorem NumeralByte.ne {c d : UInt8} (h : NumeralByte c)
    (hd : isDigit d = false ∧ d ∉ text "+-.eE") : c ≠ d := by
  rintro rfl
  rcases h with h | h
  · rw [hd.1] at h
    cases h
  · exact hd.2 h

theorem NumeralByte.neutral {c : UInt8} (h : NumeralByte c) : Neutral c :=
  ⟨h.ne (by decide), h.ne (by decide), h.ne (by decide)⟩

theorem NumeralByte.not_white {c : UInt8} (h : NumeralByte c) : Json.isWhiteSpace c = false := by
  rw [Json.isWhiteSpace, decide_eq_false (h.ne (by decide)), decide_eq_false (h.ne (by decide)),
    decide_eq_false (h.ne (by decide)), decide_eq_false (h.ne (by decide))]
  rfl

theorem Numeral.bytes {num : List UInt8} (h : Numeral num) :
    num ≠ [] ∧ ∀ c ∈ num, NumeralByte c := by
  obtain ⟨sign, int, frac, exp, rfl, hsign, hint, -, hfrac, hexp⟩ := h
  refine ⟨List.append_ne_nil_of_right_ne_nil _ (List.append_ne_nil_of_left_ne_nil hint.1 _), ?_⟩
  simp only [List.forall_mem_append]
  refine ⟨?_, fun c hc => .inl (hint.2 c hc), ?_, ?_⟩
  · rcases hsign with rfl | rfl
    · exact fun c hc => absurd hc List.not_mem_nil
    · exact List.forall_mem_singleton.mpr (.inr (by decide))
  · rcases hfrac with rfl | ⟨ds, hds, rfl⟩
    · exact fun c hc => absurd hc List.not_mem_nil
    · exact List.forall_mem_cons.mpr ⟨.inr (by decide), fun c hc => .inl (hds.2 c hc)⟩
  · rcases hexp with rfl | ⟨e, sgn, ds, he, hsgn, hds, rfl⟩
    · exact fun c hc => absurd hc List.not_mem_nil
    · refine List.forall_mem_cons.mpr ⟨?_, List.forall_mem_append.mpr
        ⟨?_, fun c hc => .inl (hds.2 c hc)⟩⟩
      · rcases he with rfl | rfl
        all_goals exact .inr (by decide)
      · rcases hsgn with rfl | rfl | rfl
        · exact fun c hc => absurd hc List.not_mem_nil
        all_goals exact List.forall_mem_singleton.mpr (.inr (by decide))

/-! ### Values -/

theorem Denotes.begins {quotes : Prop} {t : List UInt8} {v : Value R} (h : Denotes quotes t v) :
    Begins t := by
  cases h with
  | number hnum =>
    obtain ⟨hne, hbytes⟩ := hnum.bytes
    obtain ⟨c, num, rfl⟩ := List.exists_cons_of_ne_nil hne
    have hc := hbytes c List.mem_cons_self
    exact begins_cons hc.not_white ⟨hc.ne (by decide), hc.ne (by decide)⟩ num
  | null | true | false | string | emptyArray | array | emptyObject | object =>
    exact begins_cons (by decide) (by decide) _

theorem Elements.begins {quotes : Prop} {t : List UInt8} {elems : List (Value R)}
    (h : Elements quotes t elems) : Begins t := by
  cases h with
  | last hw hv => exact (hv.begins.append _).blank hw
  | more hw hv => exact (hv.begins.append _).blank hw

theorem Pairs.begins {quotes : Prop} {t : List UInt8} {pairs : List (R.Text × Value R)}
    (h : Pairs quotes t pairs) : Begins t := by
  cases h with
  | last hw => exact ((begins_cons (by decide) (by decide) _).append _).blank hw
  | more hw => exact ((begins_cons (by decide) (by decide) _).append _).blank hw

theorem through_key {key w w₁ w₂ t rest : List UInt8} (hw : Blank w) (hkey : Chars False key)
    (hw₁ : Blank w₁) (hw₂ : Blank w₂) (ht : Through t rest) :
    Through (w ++ (quoted key ++ (w₁ ++ ch ':' :: (w₂ ++ t)))) rest := by
  have hcolon : Neutral (ch ':') := by unfold Neutral; decide
  refine (through_blank hw _).append (Through.append ?_ ((through_blank hw₁ _).append
    (through_cons (through_byte hcolon _) ((through_blank hw₂ _).append ht))))
  refine through_quoted (hkey.2.resolve_left id) ?_
  rw [List.append_assoc]
  exact (followed_cons (by decide) _).blank hw₁

theorem through_more {t rest : List UInt8} (hbegins : Begins t) (h : Through t rest) :
    Through (ch ',' :: t) rest := through_cons (through_comma (hbegins rest)) h

mutual

theorem Denotes.through {t : List UInt8} {v : Value R} (h : Denotes False t v)
    {rest : List UInt8} (hrest : t.head? = some (ch '"') → Followed rest) : Through t rest := by
  cases h with
  | null | true | false => exact through_letters rfl _
  | number hnum => exact through_neutral (fun c hc => (hnum.bytes.2 c hc).neutral) _
  | string hchars => exact through_quoted (hchars.2.resolve_left id) (hrest rfl)
  | emptyArray hw =>
    exact through_cons (through_byte (by unfold Neutral; decide) _)
      ((through_blank hw _).append (through_byte (by unfold Neutral; decide) _))
  | array h =>
    exact through_cons (through_byte (by unfold Neutral; decide) _)
      ((h.through (followed_cons (by decide) _)).append
        (through_byte (by unfold Neutral; decide) _))
  | emptyObject hw =>
    exact through_cons (through_byte (by unfold Neutral; decide) _)
      ((through_blank hw _).append (through_byte (by unfold Neutral; decide) _))
  | object h =>
    exact through_cons (through_byte (by unfold Neutral; decide) _)
      ((h.through (followed_cons (by decide) _)).append
        (through_byte (by unfold Neutral; decide) _))

theorem Elements.through {t : List UInt8} {elems : List (Value R)} (h : Elements False t elems)
    {rest : List UInt8} (hrest : Followed rest) : Through t rest := by
  cases h with
  | last hw hv hw₁ =>
    exact (through_blank hw _).append
      ((hv.through fun _ => hrest.blank hw₁).append (through_blank hw₁ _))
  | more hw hv hw₁ hs =>
    refine (through_blank hw _).append ((hv.through fun _ => ?_).append
      ((through_blank hw₁ _).append (through_more hs.begins (hs.through hrest))))
    rw [List.append_assoc]
    exact (followed_cons (by decide) _).blank hw₁

theorem Pairs.through {t : List UInt8} {pairs : List (R.Text × Value R)}
    (h : Pairs False t pairs) {rest : List UInt8} (hrest : Followed rest) : Through t rest := by
  cases h with
  | last hw hkey hw₁ hw₂ hv hw₃ =>
    exact through_key hw hkey hw₁ hw₂
      ((hv.through fun _ => hrest.blank hw₃).append (through_blank hw₃ _))
  | more hw hkey hw₁ hw₂ hv hw₃ hs =>
    refine through_key hw hkey hw₁ hw₂ ((hv.through fun _ => ?_).append
      ((through_blank hw₃ _).append (through_more hs.begins (hs.through hrest))))
    rw [List.append_assoc]
    exact (followed_cons (by decide) _).blank hw₃

end

theorem Denotes.quoted_of_head {quotes : Prop} {t : List UInt8} {v : Value R}
    (h : Denotes quotes t v) (hstring : t.head? = some (ch '"')) :
    ∃ chars, t = quoted chars ∧ Chars quotes chars := by
  cases h with
  | string hchars => exact ⟨_, rfl, hchars⟩
  | number hnum =>
    have hc := hnum.bytes.2 _ (List.mem_of_mem_head? hstring)
    exact absurd rfl (hc.ne (d := ch '"') (by decide))
  | null | true | false | emptyArray | array | emptyObject | object =>
    exact absurd (Option.some.inj hstring) (by decide)

mutual

theorem Denotes.mono {quotes quotes' : Prop} (hq : quotes → quotes') {t : List UInt8}
    {v : Value R} (h : Denotes quotes t v) : Denotes quotes' t v := by
  cases h with
  | null => exact .null
  | true => exact .true
  | false => exact .false
  | number hnum => exact .number hnum
  | string hchars => exact .string ⟨hchars.1, hchars.2.imp_left hq⟩
  | emptyArray hw => exact .emptyArray hw
  | array h => exact .array (h.mono hq)
  | emptyObject hw => exact .emptyObject hw
  | object h => exact .object (h.mono hq)

theorem Elements.mono {quotes quotes' : Prop} (hq : quotes → quotes') {t : List UInt8}
    {elems : List (Value R)} (h : Elements quotes t elems) : Elements quotes' t elems := by
  cases h with
  | last hw hv hw₁ => exact .last hw (hv.mono hq) hw₁
  | more hw hv hw₁ hs => exact .more hw (hv.mono hq) hw₁ (hs.mono hq)

theorem Pairs.mono {quotes quotes' : Prop} (hq : quotes → quotes') {t : List UInt8}
    {pairs : List (R.Text × Value R)} (h : Pairs quotes t pairs) : Pairs quotes' t pairs := by
  cases h with
  | last hw hkey hw₁ hw₂ hv hw₃ =>
    exact .last hw ⟨hkey.1, hkey.2.imp_left hq⟩ hw₁ hw₂ (hv.mono hq) hw₃
  | more hw hkey hw₁ hw₂ hv hw₃ hs =>
    exact .more hw ⟨hkey.1, hkey.2.imp_left hq⟩ hw₁ hw₂ (hv.mono hq) hw₃ (hs.mono hq)

end

theorem fix_document {doc : List UInt8} {v : Value R} (h : Document False doc v) :
    ∃ out, tryFixingBrokenJson doc = some out ∧ out <+: doc ∧ Document True out v := by
  obtain ⟨w, t, w', rfl, hw, ht, hw'⟩ := h
  have ht' : Denotes True t v := ht.mono fun h => h.elim
  by_cases hstring : t.head? = some (ch '"')
  · obtain ⟨chars, rfl, hchars⟩ := ht.quoted_of_head hstring
    refine ⟨w ++ quoted chars, ?_, ⟨w', List.append_assoc _ _ _⟩, w, quoted chars, [], ?_, hw, ht',
      fun c hc => absurd hc List.not_mem_nil⟩
    · rw [tryFixingBrokenJson, through_blank hw, fixFrom_quoted_end (hchars.2.resolve_left id) hw',
        Option.map_some]
    · rw [List.append_nil]
  · have hall : Through (w ++ (t ++ w')) [] :=
      (through_blank hw _).append ((ht.through fun h => absurd h hstring).append
        (through_blank hw' _))
    have hend : fixFrom (.outside []) = some [] := fixFrom_done rfl
    refine ⟨w ++ (t ++ w'), ?_, List.prefix_refl _, w, t, w', rfl, hw, ht', hw'⟩
    rwa [Through, hend, Option.map_some, List.append_nil] at hall

theorem not_document_backtick {quotes : Prop} {rest : List UInt8} {v : Value R} :
    ¬Document quotes (ch '"' :: ch 'a' :: ch '\\' :: ch '`' :: rest) v := by
  rintro ⟨w, t, w', hout, hw, ht, -⟩
  have hnil : w = [] := by
    rcases w with - | ⟨c, w⟩
    · rfl
    · obtain ⟨rfl, -⟩ := List.cons.inj hout
      exact absurd (hw _ List.mem_cons_self) (by decide)
  subst hnil
  have hhead : t.head? = some (ch '"') := by
    rcases t with - | ⟨c, t⟩
    · exact absurd (ht.begins [ch ']']) (by decide)
    · exact congrArg some (List.cons.inj hout).1.symm
  obtain ⟨chars, rfl, hchars, -⟩ := ht.quoted_of_head hhead
  have hin : chars ++ (ch '"' :: w') = ch 'a' :: ch '\\' :: ch '`' :: rest :=
    (List.append_cons chars _ w').trans (List.cons.inj hout).2.symm
  -- the string is no shorter than this, since the next byte would be its quote
  rcases chars with - | ⟨c₁, - | ⟨c₂, - | ⟨c₃, chars⟩⟩⟩
  · exact absurd (List.cons.inj hin).1 (by decide)
  · exact absurd (List.cons.inj (List.cons.inj hin).2).1 (by decide)
  · exact absurd (List.cons.inj (List.cons.inj (List.cons.inj hin).2).2).1 (by decide)
  · obtain ⟨rfl, hin₁⟩ := List.cons.inj hin
    obtain ⟨rfl, hin₂⟩ := List.cons.inj hin₁
    obtain ⟨rfl, -⟩ := List.cons.inj hin₂
    cases hchars

end JsonFixing

end DaScript

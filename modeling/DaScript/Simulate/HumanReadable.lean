import Mathlib.Data.List.TakeWhile
import DaScript.Machinery.Text

/-!
# Simulate/HumanReadable — laying out a JSON text

`human_readable_json` of `simulate/json_print.cpp` breaks lines behind brackets and commas and
indents them.  It tells strings from the rest by two flags, which are those of a reader of JSON as
long as no string has a raw newline in it.

So only whitespace outside strings comes and goes (`compact_human_readable_json`).
-/

namespace DaScript

open Text

namespace HumanReadable

/-- The locals of `human_readable_json`; `tab` is the number of blanks in it. -/
structure Formatter where
  result : List UInt8
  tab : ℕ
  inString : Bool
  nextIsEscape : Bool
  deriving DecidableEq, Repr

/-- A newline, and the indentation. -/
def newline (tab : ℕ) : List UInt8 := 10 :: List.replicate tab 32

/-- The indentation behind a closing bracket. -/
def outdent (tab : ℕ) : ℕ := if 2 ≤ tab then tab - 2 else tab

namespace Formatter

/-- One character that is no newline. -/
def character (f : Formatter) (c : UInt8) : Formatter :=
  if !f.inString && (c = ch '[' || c = ch '\x7b') then
    { f with result := f.result ++ c :: newline (f.tab + 2), tab := f.tab + 2 }
  else if !f.inString && (c = ch ']' || c = ch '\x7d') then
    { f with result := f.result ++ (newline (outdent f.tab) ++ [c]), tab := outdent f.tab }
  else if !f.inString && c = ch ',' then
    { f with result := f.result ++ c :: newline f.tab }
  else if f.inString && c = ch '\\' && !f.nextIsEscape then
    { f with result := f.result ++ [c], nextIsEscape := true }
  else if c = ch '"' then
    if f.nextIsEscape then { f with result := f.result ++ [c], nextIsEscape := false }
    else { f with result := f.result ++ [c], inString := !f.inString }
  else { f with result := f.result ++ [c], nextIsEscape := false }

/-- The characters up to a newline. -/
def line (f : Formatter) : List UInt8 → Formatter × List UInt8
  | [] => (f, [])
  | c :: str => if c = 10 then (f, c :: str) else (f.character c).line str

/-- The loop over the lines; every turn but the last takes a newline at least. -/
def lines : ℕ → Formatter → List UInt8 → Formatter
  | 0, f, _ => f
  | _ + 1, f, [] => f
  | turns + 1, f, c :: str =>
    match f.line ((c :: str).dropWhile (· = 32)) with
    | (f, []) => f
    | (f, rest) =>
      lines turns { f with result := f.result ++ newline f.tab } (rest.dropWhile (· = 10))

end Formatter

def human_readable_json (str : List UInt8) : List UInt8 :=
  (Formatter.lines str.length ⟨[], 0, false, false⟩ str).result

/-! ## What a reader of JSON sees -/

/-- In a string, and behind a backslash. -/
structure Lexical where
  inString : Bool
  escaped : Bool
  deriving DecidableEq, Repr

namespace Lexical

/-- A character is read. -/
def read (l : Lexical) (c : UInt8) : Lexical :=
  if l.inString then
    if l.escaped then ⟨true, false⟩
    else if c = ch '\\' then ⟨true, true⟩
    else if c = ch '"' then ⟨false, false⟩
    else ⟨true, false⟩
  else ⟨c = ch '"', false⟩

/-- A text is read. -/
def readAll (l : Lexical) (str : List UInt8) : Lexical := str.foldl read l

end Lexical

/-- Whitespace of JSON. -/
def isSpace (c : UInt8) : Bool := c = 32 || c = 9 || c = 10 || c = 13

/-- **The text without insignificant whitespace.** -/
def compact (l : Lexical) : List UInt8 → List UInt8
  | [] => []
  | c :: str =>
    if !l.inString && isSpace c then compact (l.read c) str else c :: compact (l.read c) str

/-- What stands in strings, in one text after the other. -/
def inStrings (l : Lexical) : List UInt8 → List UInt8
  | [] => []
  | c :: str =>
    if l.inString then c :: inStrings (l.read c) str else inStrings (l.read c) str

/-- No string has a raw newline in it. -/
def NoRawNewline (l : Lexical) : List UInt8 → Prop
  | [] => True
  | c :: str => (l.inString = true → c ≠ 10) ∧ NoRawNewline (l.read c) str

instance decidableNoRawNewline : ∀ l str, Decidable (NoRawNewline l str)
  | _, [] => isTrue trivial
  | l, c :: str =>
    have := decidableNoRawNewline (l.read c) str
    inferInstanceAs (Decidable ((l.inString = true → c ≠ 10) ∧ NoRawNewline (l.read c) str))

/-- Outside of strings, at the begin of a text. -/
abbrev outside : Lexical := ⟨false, false⟩

theorem compact_append (l : Lexical) (a b : List UInt8) :
    compact l (a ++ b) = compact l a ++ compact (l.readAll a) b := by
  induction a generalizing l with
  | nil => rfl
  | cons c a ih =>
    rw [List.cons_append, compact, compact, ih]
    split_ifs <;> rfl

theorem noRawNewline_append {l : Lexical} {a b : List UInt8} :
    NoRawNewline l (a ++ b) ↔ NoRawNewline l a ∧ NoRawNewline (l.readAll a) b := by
  induction a generalizing l with
  | nil => exact (true_and _).symm.to_iff
  | cons c a ih =>
    rw [List.cons_append, NoRawNewline, NoRawNewline, ih, and_assoc]
    rfl

theorem read_space {c : UInt8} (hc : isSpace c = true) : outside.read c = outside := by
  have hquote : c ≠ ch '"' := by
    rintro rfl
    cases hc
  rw [Lexical.read, if_neg Bool.false_ne_true, decide_eq_false hquote]

theorem compact_spaces {a : List UInt8} (ha : ∀ c ∈ a, isSpace c = true) :
    compact outside a = [] ∧ outside.readAll a = outside := by
  induction a with
  | nil => exact ⟨rfl, rfl⟩
  | cons c a ih =>
    obtain ⟨hc, ha⟩ := List.forall_mem_cons.mp ha
    obtain ⟨hcompact, hread⟩ := ih ha
    rw [compact, hc, Lexical.readAll, List.foldl_cons, read_space hc]
    exact ⟨hcompact, hread⟩

theorem dropWhile_spaces {w : UInt8} (hw : isSpace w = true) (str : List UInt8) :
    ∃ a, str = a ++ str.dropWhile (· = w) ∧ ∀ c ∈ a, isSpace c = true := by
  refine ⟨str.takeWhile (· = w), List.takeWhile_append_dropWhile.symm, fun c hc => ?_⟩
  have hcw := List.mem_takeWhile_imp hc
  rwa [of_decide_eq_true hcw]

theorem isSpace_newline (tab : ℕ) : ∀ c ∈ newline tab, isSpace c = true := by
  intro c hc
  rcases List.mem_cons.mp hc with rfl | hc
  · rfl
  · rw [List.eq_of_mem_replicate hc]
    rfl

/-! ## What is written -/

/-- **What is written reads as what was read**: whitespace apart, and to the same state. -/
structure Same (l : Lexical) (read written : List UInt8) : Prop where
  compact : HumanReadable.compact l written = HumanReadable.compact l read
  readAll : l.readAll written = l.readAll read

theorem Same.refl (l : Lexical) (a : List UInt8) : Same l a a := ⟨rfl, rfl⟩

theorem Same.append {l : Lexical} {a a' b b' : List UInt8} (h : Same l a a')
    (h' : Same (l.readAll a) b b') : Same l (a ++ b) (a' ++ b') where
  compact := by rw [compact_append, compact_append, h.compact, h.readAll, h'.compact]
  readAll := by
    have hread := h'.readAll
    rw [← h.readAll] at hread
    rw [Lexical.readAll, List.foldl_append, Lexical.readAll, List.foldl_append]
    exact hread.trans (by rw [h.readAll]; rfl)

theorem Same.spaces {a b : List UInt8} (ha : ∀ c ∈ a, isSpace c = true)
    (hb : ∀ c ∈ b, isSpace c = true) : Same outside a b where
  compact := (compact_spaces hb).1.trans (compact_spaces ha).1.symm
  readAll := (compact_spaces hb).2.trans (compact_spaces ha).2.symm

theorem readAll_of_ne {c : UInt8} (hc : c ≠ ch '"') : outside.readAll [c] = outside := by
  rw [Lexical.readAll, List.foldl_cons, List.foldl_nil, Lexical.read, if_neg Bool.false_ne_true,
    decide_eq_false hc]

theorem readAll_inString {c : UInt8} (hescape : c ≠ ch '\\') (hquote : c ≠ ch '"') :
    Lexical.readAll ⟨true, false⟩ [c] = ⟨true, false⟩ := by
  rw [Lexical.readAll, List.foldl_cons, List.foldl_nil, Lexical.read, if_pos rfl,
    if_neg Bool.false_ne_true, if_neg hescape, if_neg hquote]

theorem isSpace_nil : ∀ c ∈ ([] : List UInt8), isSpace c = true :=
  fun _ h => absurd h List.not_mem_nil

theorem Same.padded {c : UInt8} (hc : c ≠ ch '"') {pre post : List UInt8}
    (hpre : ∀ c ∈ pre, isSpace c = true) (hpost : ∀ c ∈ post, isSpace c = true) :
    Same outside [c] (pre ++ c :: post) := by
  have hbefore : Same outside [] pre := Same.spaces (by simp) hpre
  have hafter : Same (outside.readAll [c]) [] post := by
    rw [readAll_of_ne hc]
    exact Same.spaces (by simp) hpost
  exact hbefore.append ((Same.refl outside [c]).append hafter)

namespace Formatter

/-- The flags, as a reader has them. -/
def lexical (f : Formatter) : Lexical := ⟨f.inString, f.nextIsEscape⟩

/-- The flag of an escape is down outside of strings. -/
def Sane (f : Formatter) : Prop := f.inString = false → f.nextIsEscape = false

/-- What is appended for what is read. -/
structure Writes (f : Formatter) (str : List UInt8) (f' : Formatter) : Prop where
  result : ∃ out, f'.result = f.result ++ out ∧ Same f.lexical str out
  lexical : f'.lexical = f.lexical.readAll str
  sane : f'.Sane

theorem writes_character {f : Formatter} (hf : f.Sane) (c : UInt8) :
    f.Writes [c] (f.character c) := by
  obtain ⟨result, tab, inString, nextIsEscape⟩ := f
  cases inString with
  | false =>
    obtain rfl : nextIsEscape = false := hf rfl
    unfold character
    simp only [Bool.not_false, Bool.true_and, Bool.false_and]
    split_ifs with hopen hclose hcomma hescape hquote
    · have hc : c ≠ ch '"' := by
        rintro rfl
        revert hopen
        decide
      exact ⟨⟨_, rfl, Same.padded hc isSpace_nil (isSpace_newline _)⟩,
        (readAll_of_ne hc).symm, fun _ => rfl⟩
    · have hc : c ≠ ch '"' := by
        rintro rfl
        revert hclose
        decide
      exact ⟨⟨_, rfl, Same.padded hc (isSpace_newline _) isSpace_nil⟩,
        (readAll_of_ne hc).symm, fun _ => rfl⟩
    · have hc : c ≠ ch '"' := by
        rintro rfl
        revert hcomma
        decide
      exact ⟨⟨_, rfl, Same.padded hc isSpace_nil (isSpace_newline _)⟩,
        (readAll_of_ne hc).symm, fun _ => rfl⟩
    · exact hescape.elim
    · subst hquote
      exact ⟨⟨_, rfl, Same.refl _ _⟩, rfl, fun _ => rfl⟩
    · exact ⟨⟨_, rfl, Same.refl _ _⟩, (readAll_of_ne hquote).symm, fun _ => rfl⟩
  | true =>
    unfold character
    simp only [Bool.not_true, Bool.false_and, Bool.true_and, Bool.false_eq_true, if_false]
    cases nextIsEscape with
    | true =>
      simp only [Bool.not_true, Bool.and_false, Bool.false_eq_true, if_false, if_true, ite_self]
      exact ⟨⟨[c], rfl, Same.refl _ _⟩, rfl, fun _ => rfl⟩
    | false =>
      simp only [Bool.not_false, Bool.and_true, Bool.false_eq_true, if_false, decide_eq_true_eq]
      split_ifs with hescape hquote
      · subst hescape
        exact ⟨⟨_, rfl, Same.refl _ _⟩, rfl, fun h => by cases h⟩
      · subst hquote
        exact ⟨⟨_, rfl, Same.refl _ _⟩, rfl, fun _ => rfl⟩
      · exact ⟨⟨_, rfl, Same.refl _ _⟩, (readAll_inString hescape hquote).symm, fun _ => rfl⟩

theorem Writes.refl {f : Formatter} (hf : f.Sane) : f.Writes [] f :=
  ⟨⟨[], (List.append_nil _).symm, Same.refl _ _⟩, rfl, hf⟩

theorem Writes.trans {f g h : Formatter} {a b : List UInt8} (hfg : f.Writes a g)
    (hgh : g.Writes b h) : f.Writes (a ++ b) h := by
  obtain ⟨out, hout, hsame⟩ := hfg.result
  obtain ⟨out', hout', hsame'⟩ := hgh.result
  refine ⟨⟨out ++ out', ?_, ?_⟩, ?_, hgh.sane⟩
  · rw [hout', hout, List.append_assoc]
  · rw [hfg.lexical] at hsame'
    exact hsame.append hsame'
  · rw [hgh.lexical, hfg.lexical, Lexical.readAll, Lexical.readAll, Lexical.readAll,
      List.foldl_append]

theorem writes_line {f : Formatter} (hf : f.Sane) (str : List UInt8) :
    ∃ taken, str = taken ++ (f.line str).2 ∧ f.Writes taken (f.line str).1 ∧
      ∀ c ∈ (f.line str).2.head?, c = 10 := by
  induction str generalizing f with
  | nil => exact ⟨[], rfl, Writes.refl hf, fun c h => by cases h⟩
  | cons c str ih =>
    rw [line]
    split_ifs with hc
    · exact ⟨[], rfl, Writes.refl hf, fun c' h => by rwa [← Option.mem_some.mp h]⟩
    · have hfirst := writes_character hf c
      obtain ⟨taken, hstr, hwrites, hhead⟩ := ih hfirst.sane
      exact ⟨c :: taken, congrArg _ hstr, hfirst.trans hwrites, hhead⟩

theorem Writes.spaces {f : Formatter} (hf : f.lexical = outside) {a b : List UInt8}
    (ha : ∀ c ∈ a, isSpace c = true) (hb : ∀ c ∈ b, isSpace c = true) :
    f.Writes a { f with result := f.result ++ b } := by
  refine ⟨⟨b, rfl, ?_⟩, ?_, fun _ => congrArg Lexical.escaped hf⟩
  · rw [hf]
    exact Same.spaces ha hb
  · rw [hf, (compact_spaces ha).2]
    exact hf

theorem writes_lines {turns : ℕ} {f : Formatter} {str : List UInt8} (hturns : str.length ≤ turns)
    (hf : f.lexical = outside) (hstr : NoRawNewline outside str) :
    f.Writes str (lines turns f str) := by
  have hsane : f.Sane := fun _ => congrArg Lexical.escaped hf
  induction turns generalizing f str with
  | zero =>
    rw [List.eq_nil_of_length_eq_zero (Nat.le_zero.mp hturns)]
    exact Writes.refl hsane
  | succ turns ih =>
    cases str with
    | nil => exact Writes.refl hsane
    | cons c str =>
      -- the blanks at the begin of the line, what the line takes of the rest, and the newlines
      obtain ⟨blanks, hblanks, hspaces⟩ := dropWhile_spaces (w := 32) rfl (c :: str)
      have hstart := Writes.spaces hf hspaces isSpace_nil
      rw [List.append_nil] at hstart
      rw [lines]
      generalize (c :: str).dropWhile (· = 32) = tail at hblanks ⊢
      obtain ⟨taken, htaken, hline, hhead⟩ := writes_line hsane tail
      rcases hl : f.line tail with ⟨g, _ | ⟨c', rest⟩⟩
      all_goals rw [hl] at htaken hline hhead
      · rw [hblanks, htaken, List.append_nil]
        exact hstart.trans hline
      · obtain rfl : c' = 10 := hhead c' rfl
        have hg := hstart.trans hline
        have hwhole : c :: str = (blanks ++ taken) ++ 10 :: rest := by
          rw [hblanks, htaken, List.append_assoc]
        rw [hwhole, noRawNewline_append, ← hf, ← hg.lexical] at hstr
        have hout : g.lexical = outside := by
          have hstring : g.inString = false :=
            Bool.eq_false_iff.mpr fun h => hstr.2.1 h rfl
          rw [lexical, hstring, hg.sane hstring]
        obtain ⟨newlines, hnewlines, hspaces'⟩ := dropWhile_spaces (w := 10) rfl (10 :: rest)
        have hbreak := Writes.spaces hout hspaces' (isSpace_newline g.tab)
        have hrest : NoRawNewline outside ((10 :: rest).dropWhile (· = 10)) := by
          have hnext := hstr.2
          rw [hnewlines, hout] at hnext
          rw [← (compact_spaces hspaces').2]
          exact (noRawNewline_append.mp (hnext : NoRawNewline outside _)).2
        have hlength : ((10 :: rest).dropWhile (· = 10)).length ≤ turns := by
          have hdrop : (rest.dropWhile (· = 10)).length ≤ rest.length :=
            (List.dropWhile_suffix _).length_le
          have hcount := congrArg List.length hwhole
          rw [List.length_append, List.length_cons, List.length_cons] at hcount
          rw [List.length_cons] at hturns
          rw [List.dropWhile_cons_of_pos rfl]
          omega
        have hlines := (hg.trans hbreak).trans (ih hlength hout hrest hbreak.sane)
        rw [List.append_assoc, ← hnewlines, ← hwhole] at hlines
        exact hlines

end Formatter

theorem inStrings_compact (l : Lexical) (str : List UInt8) :
    inStrings l (compact l str) = inStrings l str := by
  induction str generalizing l with
  | nil => rfl
  | cons c str ih =>
    obtain ⟨inString, escaped⟩ := l
    rw [compact]
    cases inString with
    | true =>
      rw [if_neg (by simp), inStrings, if_pos rfl, inStrings, if_pos rfl, ih]
    | false =>
      split_ifs with hspace
      · have hread : Lexical.read ⟨false, escaped⟩ c = outside :=
          read_space (by simpa using hspace)
        rw [inStrings, if_neg Bool.false_ne_true, hread, ← ih outside]
        cases compact outside str <;> rfl
      · rw [inStrings, if_neg Bool.false_ne_true, inStrings, if_neg Bool.false_ne_true, ih]

/-- **Only whitespace outside of strings comes and goes**: without it the text is the same, and so
is what stands in its strings. -/
theorem compact_human_readable_json {str : List UInt8} (hstr : NoRawNewline outside str) :
    compact outside (human_readable_json str) = compact outside str ∧
      inStrings outside (human_readable_json str) = inStrings outside str := by
  obtain ⟨out, hout, hsame⟩ :=
    (Formatter.writes_lines le_rfl (f := ⟨[], 0, false, false⟩) rfl hstr).result
  have hresult : human_readable_json str = out := hout
  rw [hresult]
  exact ⟨hsame.compact, by
    rw [← inStrings_compact outside out, ← inStrings_compact outside str]
    exact congrArg _ hsame.compact⟩

theorem compact_human_readable_json_array :
    compact outside (human_readable_json (text "[ \"\\\"\\\\,[\",1]"))
        = compact outside (text "[ \"\\\"\\\\,[\",1]") ∧
      inStrings outside (human_readable_json (text "[ \"\\\"\\\\,[\",1]"))
        = inStrings outside (text "[ \"\\\"\\\\,[\",1]") :=
  compact_human_readable_json (by decide)

end HumanReadable

end DaScript

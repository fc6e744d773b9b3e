import DaScript.Machinery.Searching
import DaScript.Machinery.Text

/-!
# Daslib/Regex — the regular expression tree and its match functions

`ReNode`, `CharSet`, the `re_match2_…` functions and `regex_match` of `daslib/regex.das`.  Each node
of the tree decides what to try, and goes on through its `next`, which `re_assign_next` sets from
the top down.  Here `next` is an argument — where the chain of `next` pointers leads.

A subject is the bytes before its terminator; `length(str)` is an `int`, so that distances between
pointers into it are too.  Captures — `tail` and `groups` — are written by matching and not read by
it.
-/

namespace DaScript

open Searching Text

/-- `CharSet = uint[8]`, bit by bit. -/
abbrev CharSet := BitVec 256

/-- **The tree.**  `char` is a text of at least one byte; `group` has the `index` and the name that
`re_group` leaves; `repeated` has `min_rep` and `max_rep`. -/
inductive ReNode
  | char (first : UInt8) (others : List UInt8)
  | set (cset : CharSet)
  | any
  | eos
  | bos
  | group (index : ℤ) (text : List UInt8) (subexpr : ReNode)
  | plus (lazy : Bool) (subexpr : ReNode)
  | star (lazy : Bool) (subexpr : ReNode)
  | question (lazy : Bool) (subexpr : ReNode)
  | concat (left right : ReNode)
  | union (all : List ReNode)
  | repeated (minRep maxRep : ℤ) (lazy : Bool) (subexpr : ReNode)
  | wordBoundary
  | nonWordBoundary
  | lookahead (subexpr : ReNode)
  | negativeLookahead (subexpr : ReNode)

/-- The nodes of which `re_match2_repeat` tries one more at the end of the subject. -/
def ReNode.zeroWidth : ReNode → Bool
  | .eos | .bos | .wordBoundary | .nonWordBoundary => true
  | _ => false

/-- `Regex`, compiled. -/
structure Regex where
  root : ReNode
  earlyOut : CharSet
  canEarlyOut : Bool
  caseInsensitive : Bool
  dotAll : Bool

namespace Regex

/-! ## Characters and sets of them -/

def isCharInSet (c : UInt8) (cset : CharSet) : Bool := cset.getLsbD c.toNat

def isWordCharacter (c : UInt8) : Bool :=
  (ch 'a' ≤ c && c ≤ ch 'z') || (ch 'A' ≤ c && c ≤ ch 'Z') || (ch '0' ≤ c && c ≤ ch '9') ||
    c = ch '_'

def ciLower (c : UInt8) : UInt8 := if ch 'A' ≤ c ∧ c ≤ ch 'Z' then c + 32 else c

/-- An `int`. -/
def int32 (i : ℤ) : ℤ := i.bmod (2 ^ 32)

/-! ## The match functions -/

section

variable (regex : Regex) (s : List UInt8) (fuel : ℕ)

/-- How `caseInsensitive` compares. -/
def fold (c : UInt8) : UInt8 := if regex.caseInsensitive then ciLower c else c

/-- `re_match2_char` and `re_match2_char_ci`, which for a text of one byte are
`re_match2_single_char` and `re_match2_single_char_ci`. -/
def reMatch2Char (text : List UInt8) : Search := fun next str =>
  if s.length ≤ str then .null
  else if ((s.drop str).take text.length).map regex.fold = text.map regex.fold then
    proceed next (str + text.length)
  else .null

/-- One byte of a set. -/
def setStep (cset : CharSet) (str : ℕ) : Found :=
  match s[str]? with
  | some c => if isCharInSet c cset then .pos (str + 1) else .null
  | none => .null

def reMatch2Set (cset : CharSet) : Search := fun next str =>
  (setStep s cset str).andThen (proceed next)

def reMatch2Any : Search := fun next str =>
  match s[str]? with
  | some c => if !regex.dotAll && c = ch '\n' then .null else proceed next (str + 1)
  | none => .null

def reMatch2Eos : Search := fun next str =>
  if str < s.length then .null else proceed next str

def reMatch2Bos : Search := fun next str => if str ≠ 0 then .null else proceed next str

/-- `prev_is_word != curr_is_word` -/
def atWordBoundary (str : ℕ) : Bool :=
  (decide (str ≠ 0) && (s[str - 1]?.any isWordCharacter)) != s[str]?.any isWordCharacter

def reMatch2WordBoundary : Search := fun next str =>
  if atWordBoundary s str then proceed next str else .null

def reMatch2NonWordBoundary : Search := fun next str =>
  if atWordBoundary s str then .null else proceed next str

def reMatch2Union : List Search → Search
  | [], _, _ => .null
  | sub :: all, next, str => (sub next str).orElse (reMatch2Union all next str)

def reMatch2Concat (left right : Search) : Search := fun next str => left (some (right next)) str

def reMatch2Group (nsub : Search) : Search := nsub

def reMatch2Question (nsub : Search) : Search := fun next str =>
  ((nsub none str).orElse (.pos str)).andThen (proceed next)

def reMatch2QuestionLazy (nsub : Search) : Search := fun next str =>
  match next with
  | some node2 => (node2 str).orElse ((nsub none str).andThen node2)
  | none =>
    match nsub none str with
    | .hang => .hang
    | _ => .pos str

def reMatch2Plus (nsub : Search) : Search := fun next str =>
  if s.length ≤ str then .null
  else (nsub none str).andThen fun osym =>
    match next with
    | some node2 => fewestFirst (nsub none) node2 fuel osym
    | none => takeAll (nsub none) fuel osym

def reMatch2PlusSet (cset : CharSet) : Search := fun next str =>
  (setStep s cset str).andThen fun osym =>
    match next with
    | some node2 => fewestFirst (setStep s cset) node2 fuel osym
    | none => takeAll (setStep s cset) fuel osym

def reMatch2PlusLazy (nsub : Search) : Search := fun next str =>
  if s.length ≤ str then .null
  else (nsub none str).andThen fun osym =>
    match next with
    | some node2 => fewestFirst (nsub none) node2 fuel osym
    | none => .pos osym

def reMatch2Star (nsub : Search) : Search := fun next str =>
  match next with
  | some node2 => fewestFirst (nsub none) node2 fuel str
  | none => takeAll (nsub none) fuel str

def reMatch2StarLazy (nsub : Search) : Search := fun next str =>
  match next with
  | some node2 => fewestFirst (nsub none) node2 fuel str
  | none => .pos str

/-- `*ofs == 0u8` and the part repeated is none of those that hold at the end too. -/
def endsRepeat (zeroWidth : Bool) (ofs : ℕ) : Bool := s.length ≤ ofs && !zeroWidth

/-- How often the second loop of `re_match2_repeat` goes round. -/
def remaining (minRep maxRep : ℤ) : ℕ :=
  if maxRep = -1 then fuel else (int32 (maxRep - minRep)).toNat

def reMatch2Repeat (zeroWidth : Bool) (minRep maxRep : ℤ) (nsub : Search) : Search :=
  fun next str =>
    (exactly (endsRepeat s zeroWidth) (nsub none) minRep.toNat str).andThen fun ofs =>
      match next with
      | some node2 =>
        match positions (nsub none) (maxRep ≠ -1) (remaining fuel minRep maxRep) ofs [ofs] with
        | some reached => tryEach node2 reached
        | none => .hang
      | none => furthest (nsub none) (maxRep ≠ -1) (remaining fuel minRep maxRep) ofs

/-- How often the second loop of `re_match2_repeat_lazy` goes round: `range(remaining + 1)`. -/
def remainingLazy (minRep maxRep : ℤ) : ℕ :=
  if maxRep = -1 then fuel else (int32 (int32 (maxRep - minRep) + 1)).toNat

def reMatch2RepeatLazy (zeroWidth : Bool) (minRep maxRep : ℤ) (nsub : Search) : Search :=
  fun next str =>
    (exactly (endsRepeat s zeroWidth) (nsub none) minRep.toNat str).andThen fun ofs =>
      match next with
      | some node2 =>
        nearest (nsub none) node2 (maxRep ≠ -1) (remainingLazy fuel minRep maxRep) ofs
      | none => .pos ofs

def reMatch2Lookahead (nsub : Search) : Search := fun next str =>
  (nsub none str).andThen fun _ => proceed next str

def reMatch2NegativeLookahead (nsub : Search) : Search := fun next str =>
  match nsub none str with
  | .pos _ => .null
  | .null => proceed next str
  | .hang => .hang

end

/-! ## Matching -/

section

variable (regex : Regex) (s : List UInt8) (fuel : ℕ)

mutual

/-- **What a node matches**: the function that `re_assign_match_functions` gives it. -/
def matchNode : ReNode → Search
  | .char first others => reMatch2Char regex s (first :: others)
  | .set cset => reMatch2Set s cset
  | .any => reMatch2Any regex s
  | .eos => reMatch2Eos s
  | .bos => reMatch2Bos
  | .group _ _ subexpr => reMatch2Group (matchNode subexpr)
  | .plus lazy subexpr =>
    if lazy then reMatch2PlusLazy s fuel (matchNode subexpr)
    else
      match subexpr with
      | .set cset => reMatch2PlusSet s fuel cset
      | _ => reMatch2Plus s fuel (matchNode subexpr)
  | .star lazy subexpr =>
    if lazy then reMatch2StarLazy fuel (matchNode subexpr)
    else reMatch2Star fuel (matchNode subexpr)
  | .question lazy subexpr =>
    if lazy then reMatch2QuestionLazy (matchNode subexpr)
    else reMatch2Question (matchNode subexpr)
  | .concat left right => reMatch2Concat (matchNode left) (matchNode right)
  | .union all => reMatch2Union (matchNodes all)
  | .repeated minRep maxRep lazy subexpr =>
    if lazy then
      reMatch2RepeatLazy s fuel subexpr.zeroWidth minRep maxRep (matchNode subexpr)
    else reMatch2Repeat s fuel subexpr.zeroWidth minRep maxRep (matchNode subexpr)
  | .wordBoundary => reMatch2WordBoundary s
  | .nonWordBoundary => reMatch2NonWordBoundary s
  | .lookahead subexpr => reMatch2Lookahead (matchNode subexpr)
  | .negativeLookahead subexpr => reMatch2NegativeLookahead (matchNode subexpr)

def matchNodes : List ReNode → List Search
  | [] => []
  | node :: nodes => matchNode node :: matchNodes nodes

end

/-- `invoke(root.fun2, regex, root, cstr)` -/
def matchAt (str : ℕ) : Found := matchNode regex s fuel regex.root none str

/-- `regex_match`: the end of the match or -1, `none` if a loop goes on. -/
def regexMatch (offset : ℕ) : Option ℤ :=
  if s = [] then some (-1)
  else
    match matchAt regex s fuel offset with
    | .pos k => some k
    | .null => some (-1)
    | .hang => none

end

theorem reMatch2PlusSet_eq (s : List UInt8) (fuel : ℕ) (cset : CharSet) :
    reMatch2PlusSet s fuel cset = reMatch2Plus s fuel (reMatch2Set s cset) := by
  have hbody : reMatch2Set s cset none = setStep s cset := by
    funext str
    rw [reMatch2Set]
    cases setStep s cset str <;> rfl
  funext next str
  rw [reMatch2PlusSet, reMatch2Plus, hbody]
  by_cases hle : s.length ≤ str
  · rw [if_pos hle, setStep, List.getElem?_eq_none hle, Found.andThen_null]
  · rw [if_neg hle]

theorem matchNode_plus (regex : Regex) (s : List UInt8) (fuel : ℕ) (subexpr : ReNode) :
    matchNode regex s fuel (.plus false subexpr)
      = reMatch2Plus s fuel (matchNode regex s fuel subexpr) := by
  cases subexpr with
  | set cset => exact reMatch2PlusSet_eq s fuel cset
  | _ => rfl

end Regex

end DaScript

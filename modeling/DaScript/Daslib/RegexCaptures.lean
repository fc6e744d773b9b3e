import DaScript.Daslib.RegexNul

/-!
# Daslib/RegexCaptures — what matching leaves in `groups`

`re_match2_group` and the `tail` of a node, of `daslib/regex.das`.  A node that is done sets its
`tail`, and a group reads the tail of its body when all that is next has matched too.

Nothing is taken back: what an attempt records stays when it is given up, and a group sets no tail
of its own.  `stale` marks a run in which that happens.  A group goes by the `id` of its node here;
`re_assign_groups` numbers the groups in the order of these.
-/

namespace DaScript.Regex

open Searching (Found)
open Text

namespace Captures

/-! ## Memory -/

/-- A range that is written to `groups`; null stops nowhere. -/
structure Capture where
  node : ℕ
  start : ℕ
  stop : Option ℕ
  deriving DecidableEq, Repr

/-- The `tail` of a node, null at first, and whether the node set it when it matched last. -/
structure Tail where
  value : Option ℕ
  own : Bool

/-- **What matching changes**: the tails and `groups`, which is here all that was written to it.
`stale` is no part of the code; it tells that an attempt given up has left a range, or that a tail
was read that was not set. -/
structure Memory where
  tails : ℕ → Tail
  log : List Capture
  stale : Bool

namespace Memory

/-- A regex that was compiled just now. -/
def fresh : Memory := ⟨fun _ => ⟨none, false⟩, [], false⟩

/-- The ranges of a group, the last one last. -/
def ranges (m : Memory) (group : ℕ) : List (ℕ × Option ℕ) :=
  (m.log.filter fun c => c.node = group).map fun c => (c.start, c.stop)

/-- `regex.groups[index]._0`, which is `range(0)` at first. -/
def range (m : Memory) (group : ℕ) : ℕ × Option ℕ := (m.ranges group).getLast?.getD (0, some 0)

/-- `node.tail = pos` -/
def setTail (m : Memory) (id pos : ℕ) : Memory :=
  { m with tails := Function.update m.tails id ⟨some pos, true⟩ }

/-- `node.tail = sub.tail` -/
def copyTail (m : Memory) (id sub : ℕ) : Memory :=
  { m with tails := Function.update m.tails id (m.tails sub) }

/-- The node has matched, and its tail is not where. -/
def loseTail (m : Memory) (id : ℕ) : Memory :=
  { m with tails := Function.update m.tails id ⟨(m.tails id).value, false⟩ }

/-- `regex.groups[node.index]._0 = range(int(str - regex.match), int(tail - regex.match))` -/
def record (m : Memory) (id sub str : ℕ) : Memory :=
  { m with
    log := m.log ++ [⟨id, str, (m.tails sub).value⟩]
    stale := m.stale || !(m.tails sub).own }

/-- All since `log` is given up. -/
def since (m : Memory) (log : List Capture) : Memory :=
  { m with stale := m.stale || decide (m.log ≠ log) }

@[simp] theorem tails_setTail (m : Memory) (id pos : ℕ) :
    (m.setTail id pos).tails id = ⟨some pos, true⟩ := Function.update_self _ _ _

@[simp] theorem tails_copyTail (m : Memory) (id sub : ℕ) :
    (m.copyTail id sub).tails id = m.tails sub := Function.update_self _ _ _

theorem tails_copyTail_of_ne {i id : ℕ} (h : i ≠ id) (m : Memory) (sub : ℕ) :
    (m.copyTail id sub).tails i = m.tails i := Function.update_of_ne h _ _

@[simp] theorem tails_loseTail (m : Memory) (id : ℕ) : ((m.loseTail id).tails id).own = false := by
  simp [loseTail]

theorem tails_loseTail_of_ne {i id : ℕ} (h : i ≠ id) (m : Memory) :
    (m.loseTail id).tails i = m.tails i := Function.update_of_ne h _ _

end Memory

open Memory

/-! ## Searches with a memory -/

abbrev Result := Found × Memory

/-- What is to follow. -/
abbrev Next := Option (ℕ → Memory → Result)

abbrev Search := Next → ℕ → Memory → Result

def andThen (r : Result) (f : ℕ → Memory → Result) : Result :=
  match r with
  | (.pos k, m) => f k m
  | (.null, m) => (.null, m)
  | (.hang, m) => (.hang, m)

def orElse (r : Result) (f : Memory → Result) : Result :=
  match r with
  | (.null, m) => f m
  | (.pos k, m) => (.pos k, m)
  | (.hang, m) => (.hang, m)

def proceed (next : Next) (pos : ℕ) (m : Memory) : Result :=
  match next with
  | some node2 => node2 pos m
  | none => (.pos pos, m)

/-! ### Loops -/

def fewestFirst (id : ℕ) (body next : ℕ → Memory → Result) : ℕ → ℕ → Memory → Result
  | 0, _, m => (.hang, m)
  | fuel + 1, ofs, m =>
    orElse (next ofs (m.setTail id ofs)) fun m' =>
      andThen (body ofs (m'.since m.log)) (fewestFirst id body next fuel)

def takeAll (id : ℕ) (body : ℕ → Memory → Result) : ℕ → ℕ → Memory → Result
  | 0, _, m => (.hang, m)
  | fuel + 1, ofs, m =>
    match body ofs m with
    | (.null, m') => (.pos ofs, (m'.since m.log).setTail id ofs)
    | (.hang, m') => (.hang, m')
    | (.pos osym, m') => takeAll id body fuel osym m'

def exactly (blocked : ℕ → Bool) (body : ℕ → Memory → Result) : ℕ → ℕ → Memory → Result
  | 0, ofs, m => (.pos ofs, m)
  | n + 1, ofs, m =>
    if blocked ofs then (.null, m) else andThen (body ofs m) (exactly blocked body n)

/-- The positions, and what was in the log at each. -/
def positions (body : ℕ → Memory → Result) (bounded : Bool) :
    ℕ → ℕ → Memory → List (ℕ × List Capture) → Option (List (ℕ × List Capture)) × Memory
  | 0, _, m, reached => (if bounded then some reached else none, m)
  | n + 1, ofs, m, reached =>
    match body ofs m with
    | (.null, m') => (some reached, m')
    | (.hang, m') => (none, m')
    | (.pos osym, m') =>
      if osym = ofs then (some reached, m')
      else positions body bounded n osym m' ((osym, m'.log) :: reached)

def tryEach (id : ℕ) (next : ℕ → Memory → Result) : List (ℕ × List Capture) → Memory → Result
  | [], m => (.null, m)
  | (pos, log) :: rest, m =>
    orElse (next pos ((m.since log).setTail id pos)) (tryEach id next rest)

def furthest (id : ℕ) (body : ℕ → Memory → Result) (bounded : Bool) : ℕ → ℕ → Memory → Result
  | 0, ofs, m => if bounded then (.pos ofs, m.setTail id ofs) else (.hang, m)
  | n + 1, ofs, m =>
    match body ofs m with
    | (.null, m') => (.pos ofs, (m'.since m.log).setTail id ofs)
    | (.hang, m') => (.hang, m')
    | (.pos osym, m') =>
      if osym = ofs then (.pos ofs, (m'.since m.log).setTail id ofs)
      else furthest id body bounded n osym m'

def nearest (id : ℕ) (body next : ℕ → Memory → Result) (bounded : Bool) :
    ℕ → ℕ → Memory → Result
  | 0, _, m => (if bounded then .null else .hang, m)
  | n + 1, ofs, m =>
    orElse (next ofs (m.setTail id ofs)) fun m' =>
      if bounded && n = 0 then (.null, m')
      else andThen (body ofs (m'.since m.log)) fun osym m₁ =>
        if osym = ofs then (.null, m₁) else nearest id body next bounded n osym m₁

/-! ### Nodes -/

section

variable (s : List UInt8) (fuel id : ℕ)

/-- A node that only looks at the subject sets its tail and goes on: `re_match2_char`, `_set`,
`_any`, `_eos`, `_bos`, `_word_boundary` and `_non_word_boundary`. -/
def reMatch2Leaf (look : Searching.Search) : Search := fun next str m =>
  andThen (look none str, m) fun tail m => proceed next tail (m.setTail id tail)

def reMatch2Union : List (ℕ × Search) → Search
  | [], _, _, m => (.null, m)
  | (subId, sub) :: all, next, str, m =>
    orElse (andThen (sub next str m) fun osub m => (.pos osub, m.copyTail id subId)) fun m' =>
      reMatch2Union all next str (m'.since m.log)

def reMatch2Concat (rightId : ℕ) (left right : Search) : Search := fun next str m =>
  andThen (left (some (right next)) str m) fun oleft m => (.pos oleft, m.copyTail id rightId)

/-- `re_match2_group`, which leaves its own tail as it is. -/
def reMatch2Group (index : ℤ) (nsub : Search) : Search := fun next str m =>
  andThen (nsub next str m) fun osub m =>
    (.pos osub, (if 0 ≤ index then m.record id (id + 1) str else m).loseTail id)

def reMatch2Question (nsub : Search) : Search := fun next str m =>
  andThen (orElse (nsub none str m) fun m' => (.pos str, m'.since m.log)) fun tail m =>
    proceed next tail (m.setTail id tail)

/-- `re_match2_question_lazy`, which returns `str` where nothing is next, whatever the tail. -/
def reMatch2QuestionLazy (nsub : Search) : Search := fun next str m =>
  match next with
  | some node2 =>
    orElse (node2 str (m.setTail id str)) fun m' =>
      andThen (nsub none str (m'.since m.log)) fun tail m => node2 tail (m.setTail id tail)
  | none =>
    match nsub none str m with
    | (.hang, m') => (.hang, m')
    | (.null, m') => (.pos str, (m'.since m.log).loseTail id)
    | (.pos tail, m') => (.pos str, ((m'.since m.log).setTail id tail).loseTail id)

def reMatch2Plus (body : ℕ → Memory → Result) : Search := fun next str m =>
  if s.length ≤ str then (.null, m)
  else andThen (body str m) fun osym m =>
    match next with
    | some node2 => fewestFirst id body node2 fuel osym m
    | none => takeAll id body fuel osym m

def reMatch2PlusLazy (body : ℕ → Memory → Result) : Search := fun next str m =>
  if s.length ≤ str then (.null, m)
  else andThen (body str m) fun osym m =>
    match next with
    | some node2 => fewestFirst id body node2 fuel osym m
    | none => (.pos osym, m.setTail id osym)

def reMatch2Star (body : ℕ → Memory → Result) : Search := fun next str m =>
  match next with
  | some node2 => fewestFirst id body node2 fuel str m
  | none => takeAll id body fuel str m

def reMatch2StarLazy (body : ℕ → Memory → Result) : Search := fun next str m =>
  match next with
  | some node2 => fewestFirst id body node2 fuel str m
  | none => (.pos str, m.setTail id str)

def reMatch2Repeat (zeroWidth : Bool) (minRep maxRep : ℤ) (body : ℕ → Memory → Result) : Search :=
  fun next str m =>
    andThen (exactly (endsRepeat s zeroWidth) body minRep.toNat str m) fun ofs m =>
      match next with
      | some node2 =>
        match positions body (maxRep ≠ -1) (remaining fuel minRep maxRep) ofs m [(ofs, m.log)] with
        | (some reached, m') => tryEach id node2 reached m'
        | (none, m') => (.hang, m')
      | none => furthest id body (maxRep ≠ -1) (remaining fuel minRep maxRep) ofs m

def reMatch2RepeatLazy (zeroWidth : Bool) (minRep maxRep : ℤ) (body : ℕ → Memory → Result) :
    Search := fun next str m =>
  andThen (exactly (endsRepeat s zeroWidth) body minRep.toNat str m) fun ofs m =>
    match next with
    | some node2 =>
      nearest id body node2 (maxRep ≠ -1) (remainingLazy fuel minRep maxRep) ofs m
    | none => (.pos ofs, m.setTail id ofs)

def reMatch2Lookahead (nsub : Search) : Search := fun next str m =>
  andThen (nsub none str m) fun _ m => proceed next str (m.setTail id str)

def reMatch2NegativeLookahead (nsub : Search) : Search := fun next str m =>
  match nsub none str m with
  | (.pos _, m') => (.null, m')
  | (.null, m') => proceed next str ((m'.since m.log).setTail id str)
  | (.hang, m') => (.hang, m')

end

mutual

/-- How many nodes `visit_top_down` numbers. -/
def size : ReNode → ℕ
  | .group _ _ subexpr | .plus _ subexpr | .star _ subexpr | .question _ subexpr
  | .repeated _ _ _ subexpr | .lookahead subexpr | .negativeLookahead subexpr => size subexpr + 1
  | .concat left right => size left + size right + 1
  | .union all => sizes all + 1
  | .char _ _ | .set _ | .any | .eos | .bos | .wordBoundary | .nonWordBoundary => 1

def sizes : List ReNode → ℕ
  | [] => 0
  | node :: nodes => size node + sizes nodes

end

section

variable (regex : Regex) (s : List UInt8) (fuel : ℕ)

/-- What is repeated; `re_match2_plus_set` looks at the set itself. -/
def plusBody (subexpr : ReNode) (nsub : Search) : ℕ → Memory → Result :=
  match subexpr with
  | .set cset => fun str m => (setStep s cset str, m)
  | _ => nsub none

mutual

/-- **What a node matches**, and what it leaves, under its `id`. -/
def matchNode : ReNode → ℕ → Search
  | .group index _ subexpr, id => reMatch2Group id index (matchNode subexpr (id + 1))
  | .plus lazy subexpr, id =>
    if lazy then reMatch2PlusLazy s fuel id (matchNode subexpr (id + 1) none)
    else reMatch2Plus s fuel id (plusBody s subexpr (matchNode subexpr (id + 1)))
  | .star lazy subexpr, id =>
    if lazy then reMatch2StarLazy fuel id (matchNode subexpr (id + 1) none)
    else reMatch2Star fuel id (matchNode subexpr (id + 1) none)
  | .question lazy subexpr, id =>
    if lazy then reMatch2QuestionLazy id (matchNode subexpr (id + 1))
    else reMatch2Question id (matchNode subexpr (id + 1))
  | .concat left right, id =>
    reMatch2Concat id (id + 1 + size left) (matchNode left (id + 1))
      (matchNode right (id + 1 + size left))
  | .union all, id => reMatch2Union id (matchNodes all (id + 1))
  | .repeated minRep maxRep lazy subexpr, id =>
    if lazy then
      reMatch2RepeatLazy s fuel id subexpr.zeroWidth minRep maxRep
        (matchNode subexpr (id + 1) none)
    else
      reMatch2Repeat s fuel id subexpr.zeroWidth minRep maxRep (matchNode subexpr (id + 1) none)
  | .lookahead subexpr, id => reMatch2Lookahead id (matchNode subexpr (id + 1))
  | .negativeLookahead subexpr, id => reMatch2NegativeLookahead id (matchNode subexpr (id + 1))
  | .char first others, id => reMatch2Leaf id (reMatch2Char regex s (first :: others))
  | .set cset, id => reMatch2Leaf id (reMatch2Set s cset)
  | .any, id => reMatch2Leaf id (reMatch2Any regex s)
  | .eos, id => reMatch2Leaf id (reMatch2Eos s)
  | .bos, id => reMatch2Leaf id reMatch2Bos
  | .wordBoundary, id => reMatch2Leaf id (reMatch2WordBoundary s)
  | .nonWordBoundary, id => reMatch2Leaf id (reMatch2NonWordBoundary s)

def matchNodes : List ReNode → ℕ → List (ℕ × Search)
  | [], _ => []
  | node :: nodes, id => (id, matchNode node id) :: matchNodes nodes (id + size node)

end

/-- `invoke(regex.root.fun2, regex, regex.root, regex.match + offset)` -/
def matchFrom (offset : ℕ) (m : Memory) : Result :=
  matchNode regex s fuel regex.root 0 none offset m

end

/-! ## Matches with their captures -/

/-- The ranges of each group, the last one last. -/
abbrev Caps := ℕ → List (ℕ × Option ℕ)

namespace Caps

def nil : Caps := fun _ => []

def append (c₁ c₂ : Caps) : Caps := fun g => c₁ g ++ c₂ g

def single (id i j : ℕ) : Caps := fun g => if g = id then [(i, some j)] else []

end Caps

/-- So many steps, and their captures. -/
def TimesWith (R : ℕ → ℕ → Caps → Prop) : ℕ → ℕ → ℕ → Caps → Prop
  | 0, i, j, c => j = i ∧ c = .nil
  | n + 1, i, j, c => ∃ k c₁ c₂, R i k c₁ ∧ TimesWith R n k j c₂ ∧ c = c₁.append c₂

section

variable (regex : Regex) (s : List UInt8)

mutual

/-- **A match of a node, and the texts its groups consume in it.** -/
def Derives : ReNode → ℕ → ℕ → ℕ → Caps → Prop
  | .group index _ subexpr, id, i, j, c => ∃ c', Derives subexpr (id + 1) i j c' ∧
      c = if 0 ≤ index then c'.append (.single id i j) else c'
  | .plus _ subexpr, id, i, j, c => ∃ n, 1 ≤ n ∧ TimesWith (Derives subexpr (id + 1)) n i j c
  | .star _ subexpr, id, i, j, c => ∃ n, TimesWith (Derives subexpr (id + 1)) n i j c
  | .question _ subexpr, id, i, j, c => (j = i ∧ c = .nil) ∨ Derives subexpr (id + 1) i j c
  | .concat left right, id, i, j, c => ∃ k c₁ c₂, Derives left (id + 1) i k c₁ ∧
      Derives right (id + 1 + size left) k j c₂ ∧ c = c₁.append c₂
  | .union all, id, i, j, c => DerivesOne all (id + 1) i j c
  | .repeated minRep maxRep _ subexpr, id, i, j, c =>
    ∃ n, Counted minRep maxRep n ∧ TimesWith (Derives subexpr (id + 1)) n i j c
  | .lookahead subexpr, id, i, j, c => (∃ k, Derives subexpr (id + 1) i k c) ∧ j = i
  | .negativeLookahead _, _, i, j, c => j = i ∧ c = .nil
  | .char first others, _, i, j, c => Matches regex s false (.char first others) i j ∧ c = .nil
  | .set cset, _, i, j, c => Matches regex s false (.set cset) i j ∧ c = .nil
  | .any, _, i, j, c => Matches regex s false .any i j ∧ c = .nil
  | .eos, _, i, j, c => Matches regex s false .eos i j ∧ c = .nil
  | .bos, _, i, j, c => Matches regex s false .bos i j ∧ c = .nil
  | .wordBoundary, _, i, j, c => Matches regex s false .wordBoundary i j ∧ c = .nil
  | .nonWordBoundary, _, i, j, c => Matches regex s false .nonWordBoundary i j ∧ c = .nil

def DerivesOne : List ReNode → ℕ → ℕ → ℕ → Caps → Prop
  | [], _, _, _, _ => False
  | node :: nodes, id, i, j, c =>
    Derives node id i j c ∨ DerivesOne nodes (id + size node) i j c

end

end

end Captures

end DaScript.Regex

import Mathlib.Tactic

/-!
# Jobs/Channel — what a channel and a stream do with their items

`Channel` and `Stream` in `module_builtin_jobque.cpp`.  Both have a pipe of items and a count of the
producers that are still at work, and each of their functions holds the lock from its begin to its
end, but for `pop`, which waits under one lock and takes under another.

So a pop may find no item although producers are at work, if another thread took it in between.
This is the one way it can happen: a run in which no step empties the pipe there ends every pop
rightly.  An item is a `Feature` for a channel, which keeps the last one in `tail`, and an array of
bytes for a stream.
-/

namespace DaScript

/-- The items of a `Channel` or a `Stream`, with `mRemaining` of its `JobStatus`. -/
structure Pipe (T : Type) where
  pipe : List T
  mRemaining : BitVec 32

namespace Pipe

variable {T : Type}

def push (p : Pipe T) (item : T) : Pipe T := { p with pipe := p.pipe ++ [item] }

def pushBatch (p : Pipe T) (items : List T) : Pipe T := items.foldl push p

def continueWaiting (p : Pipe T) : Bool := p.mRemaining > 0 && p.pipe.isEmpty

/-- `pop` after it has waited: what its block is given, if there is an item. -/
def pop (p : Pipe T) : Option T × Pipe T :=
  match p.pipe with
  | [] => (none, p)
  | item :: rest => (some item, { p with pipe := rest })

/-- `tryPop`; `none` where it returns `false`. -/
def tryPop (p : Pipe T) : Option (T × Pipe T) :=
  match p.pipe with
  | [] => none
  | item :: rest => some (item, { p with pipe := rest })

/-- `popWithTimeout`, where it has waited or timed out; `none` where it returns `false`. -/
def popWithTimeout (p : Pipe T) : Option (T × Pipe T) :=
  if !p.pipe.isEmpty || p.mRemaining ≤ 0 then
    match p.pipe with
    | [] => none
    | item :: rest => some (item, { p with pipe := rest })
  else none

def gather (p : Pipe T) : List T × Pipe T := (p.pipe, { p with pipe := [] })

def notify (p : Pipe T) : Bool × Pipe T :=
  if p.mRemaining = 0 then (false, p) else (true, { p with mRemaining := p.mRemaining - 1 })

def append (p : Pipe T) (size : BitVec 32) : Pipe T :=
  { p with mRemaining := p.mRemaining + size }

end Pipe

/-- A critical section, and for `pop` the thread that is in it. -/
inductive PipeStep (T : Type)
  | push (item : T)
  | pushBatch (items : List T)
  | popWait (thread : ℕ)
  | popTake (thread : ℕ)
  | tryPop
  | popWithTimeout
  | gather
  | notify
  | append (size : BitVec 32)

/-- A pipe with the threads that use it: those whose `pop` has waited and not yet taken, and what
happened so far. -/
structure PipeSystem (T : Type) where
  pipe : Pipe T
  between : Finset ℕ
  /-- The items pushed, in order. -/
  pushed : List T
  /-- The items that left, in order. -/
  left : List T
  /-- The pipes a `pop` gave its block no item from. -/
  ended : List (Pipe T)

namespace PipeSystem

variable {T : Type}

/-- `Channel ( ctx, count )` -/
def start (count : BitVec 32) : PipeSystem T := ⟨⟨[], count⟩, ∅, [], [], []⟩

/-- Items leave, and this is left. -/
def leave (s : PipeSystem T) (items : List T) (p : Pipe T) : PipeSystem T :=
  { s with pipe := p, left := s.left ++ items }

/-- One critical section; `none` where the thread is not there. -/
def step (s : PipeSystem T) : PipeStep T → Option (PipeSystem T)
  | .push item => some { s with pipe := s.pipe.push item, pushed := s.pushed ++ [item] }
  | .pushBatch items => some { s with pipe := s.pipe.pushBatch items, pushed := s.pushed ++ items }
  | .popWait thread =>
    if thread ∈ s.between then none
    -- the thread yields, and waits again
    else if s.pipe.continueWaiting then some s
    else some { s with between := insert thread s.between }
  | .popTake thread =>
    if thread ∈ s.between then
      let s' := { s with between := s.between.erase thread }
      match s.pipe.pop with
      | (some item, p) => some (s'.leave [item] p)
      | (none, p) => some { s' with pipe := p, ended := s.pipe :: s.ended }
    else none
  | .tryPop =>
    match s.pipe.tryPop with
    | some (item, p) => some (s.leave [item] p)
    | none => some s
  | .popWithTimeout =>
    match s.pipe.popWithTimeout with
    | some (item, p) => some (s.leave [item] p)
    | none => some s
  | .gather => some (s.leave s.pipe.gather.1 s.pipe.gather.2)
  | .notify => some { s with pipe := s.pipe.notify.2 }
  | .append size => some { s with pipe := s.pipe.append size }

/-- The runs of any threads, whose steps meet `P`. -/
inductive Runs (P : PipeSystem T → PipeStep T → Prop) : PipeSystem T → Prop
  | start (count : BitVec 32) : Runs P (start count)
  | step {s s' : PipeSystem T} {a : PipeStep T} (hrun : Runs P s) (hmeets : P s a)
      (hstep : s.step a = some s') : Runs P s'

/-- **Every item is delivered once**, in order, and a pop ends only at the end. -/
structure Delivers (s : PipeSystem T) : Prop where
  order : s.pushed = s.left ++ s.pipe.pipe
  ended : ∀ p ∈ s.ended, p.pipe = [] ∧ p.mRemaining = 0

/-- **What the code needs of a step**: while a pop is between its sections, no other thread takes
the last item before `mRemaining` is 0, nor raises `mRemaining` where there is no item. -/
def Leaves (s : PipeSystem T) : PipeStep T → Prop
  | .popTake thread => s.pipe.pipe.length = 1 → s.pipe.mRemaining ≠ 0 → s.between ⊆ {thread}
  | .tryPop => s.pipe.pipe.length = 1 → s.pipe.mRemaining ≠ 0 → s.between = ∅
  | .popWithTimeout => s.pipe.pipe.length = 1 → s.pipe.mRemaining ≠ 0 → s.between = ∅
  | .gather => s.pipe.pipe ≠ [] → s.pipe.mRemaining ≠ 0 → s.between = ∅
  | .append size => s.pipe.pipe = [] → s.pipe.mRemaining + size ≠ 0 → s.between = ∅
  | _ => True

/-! ## Order -/

theorem pipe_pushBatch (items : List T) :
    ∀ p : Pipe T, (p.pushBatch items).pipe = p.pipe ++ items ∧
      (p.pushBatch items).mRemaining = p.mRemaining := by
  induction items with
  | nil => exact fun p => ⟨(List.append_nil _).symm, rfl⟩
  | cons item rest ih =>
    intro p
    obtain ⟨hpipe, hremaining⟩ := ih (p.push item)
    refine ⟨hpipe.trans ?_, hremaining⟩
    rw [Pipe.push, List.append_assoc]
    rfl

theorem continueWaiting_iff {p : Pipe T} :
    p.continueWaiting = true ↔ p.pipe = [] ∧ p.mRemaining ≠ 0 := by
  rw [Pipe.continueWaiting, Bool.and_eq_true, List.isEmpty_iff, decide_eq_true_iff, and_comm]
  exact and_congr_right fun _ => BitVec.pos_iff_ne_zero _

theorem popWithTimeout_eq (p : Pipe T) : p.popWithTimeout = p.tryPop := by
  unfold Pipe.popWithTimeout Pipe.tryPop
  cases p.pipe with
  | nil => exact ite_self _
  | cons item rest => rfl

/-- Items leave at the begin of the pipe. -/
def Takes (s : PipeSystem T) (a : PipeStep T) (s' : PipeSystem T) : Prop :=
  ∃ items rest between, s.pipe.pipe = items ++ rest ∧ between ⊆ s.between ∧
    s' = ⟨⟨rest, s.pipe.mRemaining⟩, between, s.pushed, s.left ++ items, s.ended⟩ ∧
      (s.Leaves a → rest = [] → s.pipe.mRemaining ≠ 0 → between = ∅ ∨ items = [])

theorem Takes.same (s : PipeSystem T) (a : PipeStep T) : s.Takes a s := by
  refine ⟨[], s.pipe.pipe, s.between, rfl, subset_refl _, ?_, fun _ _ _ => Or.inr rfl⟩
  rw [List.append_nil]

theorem takes_tryPop {s s' : PipeSystem T} (hstep : s.step .tryPop = some s') :
    s.Takes .tryPop s' := by
  rw [step, Pipe.tryPop] at hstep
  cases hpipe : s.pipe.pipe with
  | nil =>
    rw [hpipe] at hstep
    obtain rfl := Option.some.inj hstep
    exact .same s _
  | cons item rest =>
    rw [hpipe] at hstep
    obtain rfl := Option.some.inj hstep
    refine ⟨[item], rest, s.between, hpipe, subset_refl _, rfl, ?_⟩
    rintro hleaves rfl hremaining
    exact .inl (hleaves (by rw [hpipe]; rfl) hremaining)

theorem step_popWithTimeout (s : PipeSystem T) : s.step .popWithTimeout = s.step .tryPop := by
  rw [step, step, popWithTimeout_eq]

theorem step_cases {s s' : PipeSystem T} {a : PipeStep T} (hstep : s.step a = some s') :
    (∃ items, s' = ⟨⟨s.pipe.pipe ++ items, s.pipe.mRemaining⟩, s.between, s.pushed ++ items,
        s.left, s.ended⟩) ∨
      s.Takes a s' ∨
      (∃ remaining, s' = { s with pipe := ⟨s.pipe.pipe, remaining⟩ } ∧
        (s.Leaves a → s.pipe.pipe = [] → remaining ≠ 0 →
          s.between = ∅ ∨ s.pipe.mRemaining ≠ 0)) ∨
      (∃ thread, s' = { s with between := insert thread s.between } ∧
        s.pipe.continueWaiting = false) ∨
      ∃ thread ∈ s.between, s.pipe.pipe = [] ∧
        s' = { s with between := s.between.erase thread, ended := s.pipe :: s.ended } := by
  cases a with
  | push item =>
    obtain rfl := Option.some.inj hstep
    exact .inl ⟨[item], rfl⟩
  | pushBatch items =>
    obtain rfl := Option.some.inj hstep
    obtain ⟨hpipe, hremaining⟩ := pipe_pushBatch items s.pipe
    refine .inl ⟨items, ?_⟩
    rw [← hpipe, ← hremaining]
  | popWait thread =>
    rw [step] at hstep
    split_ifs at hstep with hthread hwait
    · obtain rfl := Option.some.inj hstep
      exact .inr (.inl (.same s _))
    · obtain rfl := Option.some.inj hstep
      exact .inr (.inr (.inr (.inl ⟨thread, rfl, eq_false_of_ne_true hwait⟩)))
  | popTake thread =>
    rw [step] at hstep
    split_ifs at hstep with hthread
    unfold Pipe.pop at hstep
    cases hpipe : s.pipe.pipe with
    | nil =>
      rw [hpipe] at hstep
      obtain rfl := Option.some.inj hstep
      exact .inr (.inr (.inr (.inr ⟨thread, hthread, rfl, rfl⟩)))
    | cons item rest =>
      rw [hpipe] at hstep
      obtain rfl := Option.some.inj hstep
      refine .inr (.inl ⟨[item], rest, _, hpipe, Finset.erase_subset thread _, rfl, ?_⟩)
      rintro hleaves rfl hremaining
      have hsub : s.between ⊆ {thread} := hleaves (by rw [hpipe]; rfl) hremaining
      refine .inl (Finset.eq_empty_of_forall_notMem fun u hu => ?_)
      exact Finset.ne_of_mem_erase hu (Finset.mem_singleton.mp (hsub (Finset.mem_of_mem_erase hu)))
  | tryPop => exact .inr (.inl (takes_tryPop hstep))
  | popWithTimeout => exact .inr (.inl (takes_tryPop (step_popWithTimeout s ▸ hstep)))
  | gather =>
    obtain rfl := Option.some.inj hstep
    refine .inr (.inl ⟨s.pipe.pipe, [], _, (List.append_nil _).symm, subset_refl _, rfl, ?_⟩)
    intro hleaves _ hremaining
    by_cases hpipe : s.pipe.pipe = []
    · exact .inr hpipe
    · exact .inl (hleaves hpipe hremaining)
  | notify =>
    obtain rfl := Option.some.inj hstep
    unfold Pipe.notify
    split
    next hzero => exact .inr (.inr (.inl ⟨_, rfl, fun _ _ hne => absurd hzero hne⟩))
    next hzero => exact .inr (.inr (.inl ⟨_, rfl, fun _ _ _ => .inr hzero⟩))
  | append size =>
    obtain rfl := Option.some.inj hstep
    exact .inr (.inr (.inl ⟨_, rfl, fun hleaves hpipe hne => .inl (hleaves hpipe hne)⟩))

/-! ## Runs -/

theorem step_order {s s' : PipeSystem T} {a : PipeStep T}
    (horder : s.pushed = s.left ++ s.pipe.pipe) (hstep : s.step a = some s') :
    s'.pushed = s'.left ++ s'.pipe.pipe := by
  rcases step_cases hstep with ⟨items, rfl⟩ | ⟨items, rest, between, hpipe, -, rfl, -⟩ |
    ⟨remaining, rfl, -⟩ | ⟨thread, rfl, -⟩ | ⟨thread, -, -, rfl⟩
  · dsimp only
    rw [horder, List.append_assoc]
  · dsimp only
    rw [horder, hpipe, List.append_assoc]
  all_goals exact horder

/-- A pop that is between its sections would not wait. -/
def Settled (s : PipeSystem T) : Prop := s.between.Nonempty → s.pipe.continueWaiting = false

theorem settled_iff {s : PipeSystem T} :
    s.Settled ↔ (s.pipe.pipe = [] → s.pipe.mRemaining ≠ 0 → s.between = ∅) := by
  rw [Settled, Finset.nonempty_iff_ne_empty, ← Bool.not_eq_true, continueWaiting_iff]
  tauto

theorem step_settled {s s' : PipeSystem T} {a : PipeStep T} (hsettled : s.Settled)
    (hleaves : s.Leaves a) (hstep : s.step a = some s') : s'.Settled := by
  rw [settled_iff] at hsettled ⊢
  rcases step_cases hstep with ⟨items, rfl⟩ | ⟨items, rest, between, hpipe, hsub, rfl, htakes⟩ |
    ⟨remaining, rfl, hcount⟩ | ⟨thread, rfl, hwait⟩ | ⟨thread, -, -, rfl⟩
  · exact fun hpipe => hsettled (List.append_eq_nil_iff.mp hpipe).1
  · rintro rfl hremaining
    rcases htakes hleaves rfl hremaining with hempty | rfl
    · exact hempty
    · exact Finset.subset_empty.mp (hsettled hpipe hremaining ▸ hsub)
  · intro hpipe hremaining
    rcases hcount hleaves hpipe hremaining with hempty | hne
    · exact hempty
    · exact hsettled hpipe hne
  · intro hpipe hremaining
    rw [← Bool.not_eq_true, continueWaiting_iff] at hwait
    exact absurd ⟨hpipe, hremaining⟩ hwait
  · intro hpipe hremaining
    dsimp only
    rw [hsettled hpipe hremaining]
    rfl

theorem step_ended {s s' : PipeSystem T} {a : PipeStep T} (hsettled : s.Settled)
    (hended : ∀ p ∈ s.ended, p.pipe = [] ∧ p.mRemaining = 0) (hstep : s.step a = some s') :
    ∀ p ∈ s'.ended, p.pipe = [] ∧ p.mRemaining = 0 := by
  rcases step_cases hstep with ⟨items, rfl⟩ | ⟨items, rest, between, -, -, rfl, -⟩ |
    ⟨remaining, rfl, -⟩ | ⟨thread, rfl, -⟩ | ⟨thread, hthread, hpipe, rfl⟩
  iterate 4 exact hended
  intro p hp
  rcases List.mem_cons.mp hp with rfl | hp
  · refine ⟨hpipe, by_contra fun hremaining => ?_⟩
    rw [settled_iff.mp hsettled hpipe hremaining] at hthread
    cases hthread
  · exact hended p hp

theorem Runs.delivers_settled {s : PipeSystem T} (hrun : Runs Leaves s) :
    s.Delivers ∧ s.Settled := by
  induction hrun with
  | start count =>
    refine ⟨⟨rfl, fun _ hp => absurd hp List.not_mem_nil⟩, ?_⟩
    rintro ⟨thread, hthread⟩
    cases hthread
  | step hrun hleaves hstep ih =>
    exact ⟨⟨step_order ih.1.order hstep, step_ended ih.2 ih.1.ended hstep⟩,
      step_settled ih.2 hleaves hstep⟩

end PipeSystem

end DaScript

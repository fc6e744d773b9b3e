import Mathlib.Data.List.ReduceOption
import Mathlib.Data.List.TakeWhile
import Mathlib.Tactic

/-!
# Jobs/JobQue — a queue of jobs, its threads, and the thread that waits for them

`misc/job_que.cpp`.  Jobs are pushed by any thread and taken by the worker threads, the first of the
highest priority first; `EvalOnMainThread` keeps a job for the main thread instead.  A run is a
sequence of critical sections, of any threads.

A job is a number, that of its push.  Between its sections the main thread runs the jobs of
`EvalMainThreadJobs`, which may wait in turn.  `isEmpty(true)` is one section: no job starts or ends
while it holds `mFifoMutex`.
-/

namespace DaScript

/-- `Job`, by its number. -/
abbrev Job := ℕ

/-- `JobPriority`, by its value. -/
abbrev JobPriority := ℤ

structure JobEntry where
  function : Job
  priority : JobPriority

structure JobQue where
  mFifo : List JobEntry
  mJobsRunning : ℕ
  mEvalMainThread : List Job

namespace JobQue

/-- `submit`; `lower_bound` is the first entry of a lower priority. -/
def submit (q : JobQue) (job : Job) (priority : JobPriority) : JobQue :=
  { q with mFifo := q.mFifo.takeWhile (fun lhs => lhs.priority ≥ priority) ++
      ⟨job, priority⟩ :: q.mFifo.dropWhile fun lhs => lhs.priority ≥ priority }

def push (q : JobQue) (job : Job) (priority : JobPriority) : JobQue := q.submit job priority

def evalOnMainThread (q : JobQue) (expr : Job) : JobQue :=
  { q with mEvalMainThread := q.mEvalMainThread ++ [expr] }

/-- The first section of `job`: the front of the queue; `none` where it is empty. -/
def takeJob (q : JobQue) : Option (JobEntry × JobQue) :=
  match q.mFifo with
  | [] => none
  | front :: rest => some (front, { q with mFifo := rest, mJobsRunning := q.mJobsRunning + 1 })

/-- The last section of `job`. -/
def endJob (q : JobQue) : JobQue := { q with mJobsRunning := q.mJobsRunning - 1 }

/-- The section of `EvalMainThreadJobs`: what it is going to run. -/
def swapJobs (q : JobQue) : List Job × JobQue :=
  (q.mEvalMainThread, { q with mEvalMainThread := [] })

def isEmpty (q : JobQue) (includingMainThreadJobs : Bool) : Bool :=
  let queueIsEmpty := q.mJobsRunning == 0 && q.mFifo.length == 0
  if includingMainThreadJobs then queueIsEmpty && q.mEvalMainThread.isEmpty else queueIsEmpty

end JobQue

/-- Where the main thread is, in `wait` (with the jobs pushed before it was called) or in
`EvalMainThreadJobs`. -/
inductive Frame
  /-- `while ( !isEmpty(true) )` -/
  | waitOuter (before : ℕ)
  /-- `while ( !isEmpty() )` -/
  | waitInner (before : ℕ)
  /-- before `swap(results, mEvalMainThread)` -/
  | swap
  /-- `for ( auto & job : results )`, in a job or between two -/
  | loop (current : Option Job) (results : List Job)

namespace Frame

/-- The jobs it has taken and not finished. -/
def jobs : Frame → List Job
  | loop current results => current.toList ++ results
  | _ => []

/-- The job it runs. -/
def current : Frame → List Job
  | loop current _ => current.toList
  | _ => []

/-- The jobs pushed before a `wait`. -/
def before : Frame → ℕ
  | waitOuter before => before
  | waitInner before => before
  | _ => 0

end Frame

/-- What there is when a `wait` returns. -/
structure Return where
  /-- The jobs pushed before it was called. -/
  before : ℕ
  /-- Who pushed each job. -/
  parents : List (Option Job)
  finished : List Job
  /-- What the calls of `EvalMainThreadJobs` around it have taken and not finished. -/
  enclosing : List Job

/-- A queue with its threads, and what happened so far, the last first. -/
structure JobSystem where
  que : JobQue
  /-- What each worker runs. -/
  threads : List (Option Job)
  main : List Frame
  /-- Who pushed each job: a job, or a thread that runs none. -/
  parents : List (Option Job)
  started : List Job
  finished : List Job
  /-- The entries taken, each with the queue it was taken from. -/
  taken : List (JobEntry × List JobEntry)
  returned : List Return

/-- A critical section, or what the main thread does between two. -/
inductive JobStep
  | push (parent : Option Job) (priority : JobPriority)
  | evalOnMainThread (parent : Option Job)
  | take (thread : ℕ)
  | finish (thread : ℕ)
  | callWait
  | callEval
  | main

namespace JobSystem

/-- `JobQue()` -/
def start (threadCount : ℕ) : JobSystem :=
  ⟨⟨[], 0, []⟩, List.replicate threadCount none, [], [], [], [], [], []⟩

/-- Who pushes is running, or is no job. -/
def Running (s : JobSystem) : Option Job → Prop
  | none => True
  | some job => some job ∈ s.threads ∨ ∃ results rest, s.main = .loop (some job) results :: rest

/-- The main thread runs its program, or a job of it. -/
def calls : List Frame → Bool
  | [] => true
  | .loop (some _) _ :: _ => true
  | _ => false

/-- What the main thread does next. -/
def mainStep (s : JobSystem) : Option JobSystem :=
  match s.main with
  | [] => none
  | .waitOuter before :: rest =>
    if s.que.isEmpty true then
      some { s with main := rest,
                    returned := ⟨before, s.parents, s.finished, rest.flatMap Frame.jobs⟩ ::
                      s.returned }
    else some { s with main := .waitInner before :: rest }
  | .waitInner before :: rest =>
    if s.que.isEmpty false then some { s with main := .swap :: .waitOuter before :: rest }
    else some s
  | .swap :: rest =>
    some { s with que := s.que.swapJobs.2, main := .loop none s.que.swapJobs.1 :: rest }
  | .loop none [] :: rest => some { s with main := rest }
  | .loop none (job :: results) :: rest =>
    some { s with main := .loop (some job) results :: rest, started := job :: s.started }
  | .loop (some job) results :: rest =>
    some { s with main := .loop none results :: rest, finished := job :: s.finished }

/-- One step of a thread; `none` where it is not there. -/
def step (s : JobSystem) : JobStep → Option JobSystem
  | .push parent priority =>
    some { s with que := s.que.push s.parents.length priority, parents := s.parents ++ [parent] }
  | .evalOnMainThread parent =>
    some { s with que := s.que.evalOnMainThread s.parents.length,
                  parents := s.parents ++ [parent] }
  | .take thread =>
    match s.threads[thread]? with
    | some none =>
      match s.que.takeJob with
      -- it timed out, and waits again
      | none => some s
      | some (front, que) =>
        some { s with que := que, threads := s.threads.set thread (some front.function),
                      started := front.function :: s.started,
                      taken := (front, s.que.mFifo) :: s.taken }
    | _ => none
  | .finish thread =>
    match s.threads[thread]? with
    | some (some job) =>
      some { s with que := s.que.endJob, threads := s.threads.set thread none,
                    finished := job :: s.finished }
    | _ => none
  | .callWait =>
    if calls s.main then some { s with main := .waitOuter s.parents.length :: s.main } else none
  | .callEval => if calls s.main then some { s with main := .swap :: s.main } else none
  | .main => s.mainStep

/-- What a step asks: who pushes is running. -/
def Asks (s : JobSystem) : JobStep → Prop
  | .push parent _ => s.Running parent
  | .evalOnMainThread parent => s.Running parent
  | _ => True

/-- The runs of any number of worker threads, before shutdown. -/
inductive Runs : JobSystem → Prop
  | start (threadCount : ℕ) : Runs (start threadCount)
  | step {s s' : JobSystem} {a : JobStep} (hrun : Runs s) (hasks : s.Asks a)
      (hstep : s.step a = some s') : Runs s'

/-! ## What it is for -/

/-- Every job that there is, where it is. -/
def jobs (s : JobSystem) : Multiset Job :=
  ((s.que.mFifo.map JobEntry.function : List Job) : Multiset Job) +
    (s.threads.reduceOption : Multiset Job) + (s.que.mEvalMainThread : Multiset Job) +
    (s.main.flatMap Frame.jobs : Multiset Job) + (s.finished : Multiset Job)

/-- A job that another pushed, or a job that one pushed that it pushed. -/
def Descends (parents : List (Option Job)) : Job → Job → Prop :=
  Relation.ReflTransGen fun parent job => parents[job]? = some (some parent)

/-- **The queue keeps its promises.** -/
structure Keeps (s : JobSystem) : Prop where
  /-- No job is started twice. -/
  once : s.started.Nodup
  /-- No job is lost: each is queued, running, kept for the main thread, or finished. -/
  kept : s.jobs = Multiset.range s.parents.length
  /-- What is taken has the highest priority, and is the oldest of that priority. -/
  first : ∀ r ∈ s.taken, ∀ e ∈ r.2, e.priority ≤ r.1.priority ∧
    (e.priority = r.1.priority → r.1.function ≤ e.function)
  /-- When a `wait` returns, every job pushed before it and all that these pushed has finished,
  but for those of the `EvalMainThreadJobs` calls around it. -/
  barrier : ∀ r ∈ s.returned, ∀ root < r.before, ∀ job, Descends r.parents root job →
    job ∈ r.finished ∨ job ∈ r.enclosing

end JobSystem

end DaScript

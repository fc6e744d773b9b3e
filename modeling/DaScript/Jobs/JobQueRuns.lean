import DaScript.Jobs.JobQue

/-!
# Jobs/JobQueRuns — what a queue of jobs keeps over any interleaving

`Consistent` says where the jobs are, and how the queue is sorted; every step keeps it.  That
`isEmpty(true)` holds then means that no job is queued, run by a worker or kept for the main thread:
what is left are the jobs of the frames below the `wait` that asks.
-/

namespace DaScript

/-- An entry that is taken before another. -/
def JobEntry.Ahead (e e' : JobEntry) : Prop :=
  e'.priority < e.priority ∨ e'.priority = e.priority ∧ e.function < e'.function

namespace JobQue

/-! ## The queue -/

theorem perm_submit (q : JobQue) (job : Job) (priority : JobPriority) :
    (q.submit job priority).mFifo.Perm (⟨job, priority⟩ :: q.mFifo) := by
  refine List.perm_middle.trans (List.Perm.cons _ ?_)
  rw [List.takeWhile_append_dropWhile]

theorem priority_lt_of_mem_dropWhile {fifo : List JobEntry} {priority : JobPriority}
    (hsorted : fifo.Pairwise JobEntry.Ahead) :
    ∀ e ∈ fifo.dropWhile fun lhs => lhs.priority ≥ priority, e.priority < priority := by
  induction hsorted with
  | nil => exact fun _ he => absurd he List.not_mem_nil
  | @cons front rest hfront hrest ih =>
    rw [List.dropWhile_cons]
    split
    · exact ih
    next hlt =>
      have hlt : front.priority < priority := by simpa using hlt
      intro e he
      rcases List.mem_cons.mp he with rfl | he
      · exact hlt
      · rcases hfront e he with h | ⟨h, -⟩
        · exact h.trans hlt
        · exact h.trans_lt hlt

theorem pairwise_submit {q : JobQue} {job : Job} (hsorted : q.mFifo.Pairwise JobEntry.Ahead)
    (hnew : ∀ e ∈ q.mFifo, e.function < job) (priority : JobPriority) :
    (q.submit job priority).mFifo.Pairwise JobEntry.Ahead := by
  have hlow : ∀ e ∈ q.mFifo.dropWhile fun lhs => lhs.priority ≥ priority, e.priority < priority :=
    priority_lt_of_mem_dropWhile hsorted
  have hsplit := hsorted
  rw [← List.takeWhile_append_dropWhile (p := fun lhs => lhs.priority ≥ priority) (l := q.mFifo),
    List.pairwise_append] at hsplit
  obtain ⟨htake, hdrop, hboth⟩ := hsplit
  refine List.pairwise_append.mpr ⟨htake, List.pairwise_cons.mpr ⟨?_, hdrop⟩, ?_⟩
  · exact fun e he => .inl (hlow e he)
  · intro e he e' he'
    rcases List.mem_cons.mp he' with rfl | he'
    · have hge : e.priority ≥ priority := by simpa using List.mem_takeWhile_imp he
      have hfun : e.function < job := hnew e ((List.takeWhile_subset _) he)
      rcases hge.lt_or_eq with hgt | heq
      · exact .inl hgt
      · exact .inr ⟨heq, hfun⟩
    · exact hboth e he e' he'

theorem front_first {front : JobEntry} {rest : List JobEntry}
    (hsorted : (front :: rest).Pairwise JobEntry.Ahead) :
    ∀ e ∈ front :: rest, e.priority ≤ front.priority ∧
      (e.priority = front.priority → front.function ≤ e.function) := by
  intro e he
  rcases List.mem_cons.mp he with rfl | he
  · exact ⟨le_rfl, fun _ => le_rfl⟩
  · rcases (List.pairwise_cons.mp hsorted).1 e he with h | ⟨h, hlt⟩
    · exact ⟨h.le, fun heq => absurd heq h.ne⟩
    · exact ⟨h.le, fun _ => hlt.le⟩

theorem isEmpty_true {q : JobQue} (h : q.isEmpty true = true) :
    q.mJobsRunning = 0 ∧ q.mFifo = [] ∧ q.mEvalMainThread = [] := by
  unfold isEmpty at h
  rw [if_pos rfl, Bool.and_eq_true, Bool.and_eq_true, beq_iff_eq, beq_iff_eq,
    List.length_eq_zero_iff, List.isEmpty_iff] at h
  exact ⟨h.1.1, h.1.2, h.2⟩

end JobQue

namespace JobSystem

variable {s s' : JobSystem}

/-! ## What a step can do -/

theorem take_cases {thread : ℕ} (hstep : s.step (.take thread) = some s') :
    s' = s ∨ ∃ front rest, s.threads[thread]? = some none ∧ s.que.mFifo = front :: rest ∧
      s' = { s with que := { s.que with mFifo := rest, mJobsRunning := s.que.mJobsRunning + 1 },
                    threads := s.threads.set thread (some front.function),
                    started := front.function :: s.started,
                    taken := (front, front :: rest) :: s.taken } := by
  rw [JobSystem.step, JobQue.takeJob] at hstep
  cases hthread : s.threads[thread]? with
  | none =>
    rw [hthread] at hstep
    cases hstep
  | some a =>
    rw [hthread] at hstep
    cases a with
    | some job => cases hstep
    | none =>
      cases hfifo : s.que.mFifo with
      | nil =>
        rw [hfifo] at hstep
        exact .inl (Option.some.inj hstep).symm
      | cons front rest =>
        rw [hfifo] at hstep
        exact .inr ⟨front, rest, rfl, rfl, (Option.some.inj hstep).symm⟩

theorem finish_cases {thread : ℕ} (hstep : s.step (.finish thread) = some s') :
    ∃ job, s.threads[thread]? = some (some job) ∧
      s' = { s with que := s.que.endJob, threads := s.threads.set thread none,
                    finished := job :: s.finished } := by
  rw [JobSystem.step] at hstep
  cases hthread : s.threads[thread]? with
  | none =>
    rw [hthread] at hstep
    cases hstep
  | some a =>
    rw [hthread] at hstep
    cases a with
    | none => cases hstep
    | some job => exact ⟨job, rfl, (Option.some.inj hstep).symm⟩

theorem call_cases {a : JobStep} (ha : a = .callWait ∨ a = .callEval)
    (hstep : s.step a = some s') :
    ∃ f : Frame, f.jobs = [] ∧ f.current = [] ∧ f.before ≤ s.parents.length ∧
      s' = { s with main := f :: s.main } := by
  rcases ha with rfl | rfl
  all_goals
    rw [JobSystem.step] at hstep
    split_ifs at hstep
  · exact ⟨_, rfl, rfl, le_rfl, (Option.some.inj hstep).symm⟩
  · exact ⟨_, rfl, rfl, Nat.zero_le _, (Option.some.inj hstep).symm⟩

/-! ## The jobs of the workers -/

/-- What the workers run, but for one. -/
def others (threads : List (Option Job)) (thread : ℕ) : Multiset Job :=
  ((threads.take thread).reduceOption : Multiset Job) +
    ((threads.drop (thread + 1)).reduceOption : Multiset Job)

theorem reduceOption_set {threads : List (Option Job)} {thread : ℕ}
    (hlt : thread < threads.length) (a : Option Job) :
    ((threads.set thread a).reduceOption : Multiset Job) =
      (a.toList : Multiset Job) + others threads thread := by
  rw [List.set_eq_take_append_cons_drop, if_pos hlt, List.reduceOption_append, others,
    ← Multiset.coe_add]
  cases a with
  | none =>
    rw [List.reduceOption_cons_of_none]
    exact (zero_add _).symm
  | some job =>
    rw [List.reduceOption_cons_of_some, ← Multiset.cons_coe, Multiset.add_cons]
    exact (Multiset.singleton_add job _).symm

theorem reduceOption_eq {threads : List (Option Job)} {thread : ℕ} {a : Option Job}
    (ha : threads[thread]? = some a) :
    (threads.reduceOption : Multiset Job) =
      (a.toList : Multiset Job) + others threads thread := by
  obtain ⟨hlt, rfl⟩ := List.getElem?_eq_some_iff.mp ha
  rw [← reduceOption_set hlt, List.set_getElem_self]

/-! ## What every step keeps -/

/-- **Where the jobs are**, and how the queue is sorted. -/
structure Consistent (s : JobSystem) : Prop where
  jobs : s.jobs = Multiset.range s.parents.length
  started : (s.started : Multiset Job) = (s.threads.reduceOption : Multiset Job) +
    (s.main.flatMap Frame.current : Multiset Job) + (s.finished : Multiset Job)
  running : s.que.mJobsRunning = Multiset.card (s.threads.reduceOption : Multiset Job)
  sorted : s.que.mFifo.Pairwise JobEntry.Ahead
  before : ∀ f ∈ s.main, f.before ≤ s.parents.length

theorem Consistent.fifo_lt (h : s.Consistent) : ∀ e ∈ s.que.mFifo,
    e.function < s.parents.length := by
  intro e he
  rw [← Multiset.mem_range, ← h.jobs, JobSystem.jobs]
  have hmem : e.function ∈ ((s.que.mFifo.map JobEntry.function : List Job) : Multiset Job) :=
    Multiset.mem_coe.mpr (List.mem_map_of_mem he)
  simp only [Multiset.mem_add]
  exact .inl (.inl (.inl (.inl hmem)))

theorem Consistent.before_head (h : s.Consistent) {f : Frame} {rest : List Frame}
    (hmain : s.main = f :: rest) : f.before ≤ s.parents.length :=
  h.before f (hmain ▸ List.mem_cons_self ..)

theorem Consistent.before_cons (h : s.Consistent) {f g : Frame} {rest : List Frame}
    (hmain : s.main = g :: rest) (hf : f.before ≤ s.parents.length) :
    ∀ f' ∈ f :: rest, f'.before ≤ s.parents.length :=
  List.forall_mem_cons.mpr ⟨hf, fun f' hf' => h.before f' (hmain ▸ List.mem_cons_of_mem _ hf')⟩

theorem Consistent.frames (h : s.Consistent) {main : List Frame}
    (hjobs : main.flatMap Frame.jobs = s.main.flatMap Frame.jobs)
    (hcurrent : main.flatMap Frame.current = s.main.flatMap Frame.current)
    (hbefore : ∀ f ∈ main, f.before ≤ s.parents.length) (returned : List Return) :
    Consistent { s with main := main, returned := returned } where
  jobs := by rw [← h.jobs, JobSystem.jobs, JobSystem.jobs, hjobs]
  started := by rw [h.started, hcurrent]
  running := h.running
  sorted := h.sorted
  before := hbefore

theorem Consistent.call (h : s.Consistent) {f : Frame} (hjobs : f.jobs = [])
    (hcurrent : f.current = []) (hbefore : f.before ≤ s.parents.length) :
    Consistent { s with main := f :: s.main } :=
  h.frames (by rw [List.flatMap_cons, hjobs]; rfl) (by rw [List.flatMap_cons, hcurrent]; rfl)
    (List.forall_mem_cons.mpr ⟨hbefore, h.before⟩) s.returned

theorem Consistent.push (h : s.Consistent) (parent : Option Job) (priority : JobPriority) :
    Consistent { s with que := s.que.push s.parents.length priority,
                        parents := s.parents ++ [parent] } where
  jobs := by
    have hperm := Multiset.coe_eq_coe.mpr
      ((s.que.perm_submit s.parents.length priority).map JobEntry.function)
    rw [List.length_append, List.length_singleton, Multiset.range_succ, ← h.jobs, JobSystem.jobs,
      JobSystem.jobs]
    dsimp only [JobQue.push]
    rw [hperm, List.map_cons, ← Multiset.cons_coe, ← Multiset.singleton_add,
      ← Multiset.singleton_add]
    dsimp only [JobQue.submit]
    abel
  started := h.started
  running := h.running
  sorted := JobQue.pairwise_submit h.sorted h.fifo_lt priority
  before f hf := by
    rw [List.length_append]
    exact (h.before f hf).trans (Nat.le_add_right ..)

theorem Consistent.evalOnMainThread (h : s.Consistent) (parent : Option Job) :
    Consistent { s with que := s.que.evalOnMainThread s.parents.length,
                        parents := s.parents ++ [parent] } where
  jobs := by
    rw [List.length_append, List.length_singleton, Multiset.range_succ, ← h.jobs, JobSystem.jobs,
      JobSystem.jobs]
    dsimp only [JobQue.evalOnMainThread]
    rw [← Multiset.coe_add, Multiset.coe_singleton, ← Multiset.singleton_add]
    abel
  started := h.started
  running := h.running
  sorted := h.sorted
  before f hf := by
    rw [List.length_append]
    exact (h.before f hf).trans (Nat.le_add_right ..)

theorem Consistent.take (h : s.Consistent) {thread : ℕ} (hidle : s.threads[thread]? = some none)
    {front : JobEntry} {rest : List JobEntry} (hfifo : s.que.mFifo = front :: rest)
    (taken : List (JobEntry × List JobEntry)) :
    Consistent { s with que := { s.que with mFifo := rest,
                                            mJobsRunning := s.que.mJobsRunning + 1 },
                        threads := s.threads.set thread (some front.function),
                        started := front.function :: s.started, taken := taken } := by
  have hlt := (List.getElem?_eq_some_iff.mp hidle).1
  have hset := reduceOption_set hlt (some front.function)
  have hbusy := reduceOption_eq hidle
  simp only [Option.toList, Multiset.coe_nil, zero_add, Multiset.coe_singleton] at hset hbusy
  refine ⟨?_, ?_, ?_, ?_, h.before⟩
  · rw [← h.jobs, JobSystem.jobs, JobSystem.jobs]
    dsimp only
    rw [hset, hbusy, hfifo, List.map_cons, ← Multiset.cons_coe, ← Multiset.singleton_add]
    abel
  · dsimp only
    rw [hset, ← Multiset.cons_coe, h.started, hbusy, ← Multiset.singleton_add]
    abel
  · dsimp only
    rw [hset, Multiset.card_add, Multiset.card_singleton, h.running, hbusy, add_comm]
  · have hsorted := h.sorted
    rw [hfifo] at hsorted
    exact (List.pairwise_cons.mp hsorted).2

theorem Consistent.finish (h : s.Consistent) {thread : ℕ} {job : Job}
    (hjob : s.threads[thread]? = some (some job)) :
    Consistent { s with que := s.que.endJob, threads := s.threads.set thread none,
                        finished := job :: s.finished } := by
  have hlt := (List.getElem?_eq_some_iff.mp hjob).1
  have hset := reduceOption_set hlt none
  have hbusy := reduceOption_eq hjob
  simp only [Option.toList, Multiset.coe_nil, zero_add, Multiset.coe_singleton] at hset hbusy
  refine ⟨?_, ?_, ?_, h.sorted, h.before⟩
  · rw [← h.jobs, JobSystem.jobs, JobSystem.jobs]
    dsimp only [JobQue.endJob]
    rw [hset, hbusy, ← Multiset.cons_coe, ← Multiset.singleton_add]
    abel
  · dsimp only
    rw [h.started, hset, hbusy, ← Multiset.cons_coe, ← Multiset.singleton_add]
    abel
  · dsimp only [JobQue.endJob]
    rw [hset, h.running, hbusy, Multiset.card_add, Multiset.card_singleton, Nat.add_sub_cancel_left]

theorem Consistent.swap (h : s.Consistent) {rest : List Frame} (hmain : s.main = .swap :: rest) :
    Consistent { s with que := s.que.swapJobs.2, main := .loop none s.que.swapJobs.1 :: rest } := by
  refine ⟨?_, ?_, h.running, h.sorted, h.before_cons hmain (Nat.zero_le _)⟩
  · rw [← h.jobs, JobSystem.jobs, JobSystem.jobs]
    dsimp only [JobQue.swapJobs]
    rw [hmain, List.flatMap_cons, List.flatMap_cons, ← Multiset.coe_add, ← Multiset.coe_add]
    simp only [Frame.jobs, Option.toList, List.nil_append, Multiset.coe_nil]
    abel
  · have hstarted := h.started
    rw [hmain] at hstarted
    exact hstarted

theorem Consistent.startJob (h : s.Consistent) {job : Job} {results : List Job} {rest : List Frame}
    (hmain : s.main = .loop none (job :: results) :: rest) :
    Consistent { s with main := .loop (some job) results :: rest,
                        started := job :: s.started } := by
  refine ⟨?_, ?_, h.running, h.sorted, h.before_cons hmain (Nat.zero_le _)⟩
  · have hjobs := h.jobs
    rw [JobSystem.jobs, hmain] at hjobs
    exact hjobs
  · dsimp only
    rw [← Multiset.cons_coe, h.started, hmain, List.flatMap_cons, List.flatMap_cons,
      ← Multiset.singleton_add, ← Multiset.coe_add, ← Multiset.coe_add]
    simp only [Frame.current, Option.toList, Multiset.coe_nil, Multiset.coe_singleton]
    abel

theorem Consistent.finishJob (h : s.Consistent) {job : Job} {results : List Job}
    {rest : List Frame} (hmain : s.main = .loop (some job) results :: rest) :
    Consistent { s with main := .loop none results :: rest, finished := job :: s.finished } := by
  refine ⟨?_, ?_, h.running, h.sorted, h.before_cons hmain (Nat.zero_le _)⟩
  · rw [← h.jobs, JobSystem.jobs, JobSystem.jobs]
    dsimp only
    rw [hmain, List.flatMap_cons, List.flatMap_cons, ← Multiset.cons_coe, ← Multiset.coe_add,
      ← Multiset.coe_add]
    simp only [Frame.jobs, Option.toList, List.nil_append, List.cons_append, ← Multiset.cons_coe,
      ← Multiset.singleton_add]
    abel
  · dsimp only
    rw [h.started, hmain, List.flatMap_cons, List.flatMap_cons, ← Multiset.cons_coe,
      ← Multiset.coe_add, ← Multiset.coe_add]
    simp only [Frame.current, Option.toList, Multiset.coe_nil, Multiset.coe_singleton,
      ← Multiset.singleton_add]
    abel

theorem Consistent.mainStep (h : s.Consistent) (hstep : s.mainStep = some s') : s'.Consistent := by
  have htail : ∀ {f : Frame} {rest : List Frame}, s.main = f :: rest →
      ∀ f ∈ rest, f.before ≤ s.parents.length :=
    fun hmain f hf => h.before f (hmain ▸ List.mem_cons_of_mem _ hf)
  unfold JobSystem.mainStep at hstep
  split at hstep
  · cases hstep
  next before rest hmain =>
    split_ifs at hstep
    · obtain rfl := Option.some.inj hstep
      exact h.frames (by rw [hmain]; rfl) (by rw [hmain]; rfl) (htail hmain) _
    · obtain rfl := Option.some.inj hstep
      have hbefore : before ≤ s.parents.length := h.before_head hmain
      exact h.frames (by rw [hmain]; rfl) (by rw [hmain]; rfl)
        (h.before_cons (f := .waitInner before) hmain hbefore) _
  next before rest hmain =>
    split_ifs at hstep
    · obtain rfl := Option.some.inj hstep
      have hbefore : before ≤ s.parents.length := h.before_head hmain
      exact h.frames (by rw [hmain]; rfl) (by rw [hmain]; rfl) (List.forall_mem_cons.mpr
        ⟨Nat.zero_le _, h.before_cons (f := .waitOuter before) hmain hbefore⟩) _
    · obtain rfl := Option.some.inj hstep
      exact h
  next rest hmain =>
    obtain rfl := Option.some.inj hstep
    exact h.swap hmain
  next rest hmain =>
    obtain rfl := Option.some.inj hstep
    exact h.frames (by rw [hmain]; rfl) (by rw [hmain]; rfl) (htail hmain) _
  next job results rest hmain =>
    obtain rfl := Option.some.inj hstep
    exact h.startJob hmain
  next job results rest hmain =>
    obtain rfl := Option.some.inj hstep
    exact h.finishJob hmain

theorem Consistent.step (h : s.Consistent) {a : JobStep} (hstep : s.step a = some s') :
    s'.Consistent := by
  cases a with
  | push parent priority =>
    obtain rfl := Option.some.inj hstep
    exact h.push parent priority
  | evalOnMainThread parent =>
    obtain rfl := Option.some.inj hstep
    exact h.evalOnMainThread parent
  | take thread =>
    rcases take_cases hstep with rfl | ⟨front, rest, hidle, hfifo, rfl⟩
    · exact h
    · exact h.take hidle hfifo _
  | finish thread =>
    obtain ⟨job, hjob, rfl⟩ := finish_cases hstep
    exact h.finish hjob
  | callWait =>
    obtain ⟨f, hjobs, hcurrent, hbefore, rfl⟩ := call_cases (.inl rfl) hstep
    exact h.call hjobs hcurrent hbefore
  | callEval =>
    obtain ⟨f, hjobs, hcurrent, hbefore, rfl⟩ := call_cases (.inr rfl) hstep
    exact h.call hjobs hcurrent hbefore
  | main => exact h.mainStep hstep

/-! ## What is taken, and what a wait returns with -/

theorem mainStep_cases (hstep : s.mainStep = some s') : s'.taken = s.taken ∧
    (s'.returned = s.returned ∨ ∃ before rest, s.main = .waitOuter before :: rest ∧
      s.que.isEmpty true = true ∧ s'.returned =
        ⟨before, s.parents, s.finished, rest.flatMap Frame.jobs⟩ :: s.returned) := by
  unfold JobSystem.mainStep at hstep
  split at hstep
  · cases hstep
  next before rest hmain =>
    split_ifs at hstep with hempty
    · obtain rfl := Option.some.inj hstep
      exact ⟨rfl, .inr ⟨before, rest, hmain, hempty, rfl⟩⟩
    · obtain rfl := Option.some.inj hstep
      exact ⟨rfl, .inl rfl⟩
  next =>
    split_ifs at hstep <;> obtain rfl := Option.some.inj hstep <;> exact ⟨rfl, .inl rfl⟩
  all_goals
    obtain rfl := Option.some.inj hstep
    exact ⟨rfl, .inl rfl⟩

theorem step_records {a : JobStep} (hstep : s.step a = some s') :
    (s'.taken = s.taken ∨ ∃ front rest, s.que.mFifo = front :: rest ∧
      s'.taken = (front, front :: rest) :: s.taken) ∧
    (s'.returned = s.returned ∨ ∃ before rest, s.main = .waitOuter before :: rest ∧
      s.que.isEmpty true = true ∧ s'.returned =
        ⟨before, s.parents, s.finished, rest.flatMap Frame.jobs⟩ :: s.returned) := by
  cases a with
  | push parent priority =>
    obtain rfl := Option.some.inj hstep
    exact ⟨.inl rfl, .inl rfl⟩
  | evalOnMainThread parent =>
    obtain rfl := Option.some.inj hstep
    exact ⟨.inl rfl, .inl rfl⟩
  | take thread =>
    rcases take_cases hstep with rfl | ⟨front, rest, -, hfifo, rfl⟩
    · exact ⟨.inl rfl, .inl rfl⟩
    · exact ⟨.inr ⟨front, rest, hfifo, rfl⟩, .inl rfl⟩
  | finish thread =>
    obtain ⟨job, -, rfl⟩ := finish_cases hstep
    exact ⟨.inl rfl, .inl rfl⟩
  | callWait =>
    obtain ⟨f, -, -, -, rfl⟩ := call_cases (.inl rfl) hstep
    exact ⟨.inl rfl, .inl rfl⟩
  | callEval =>
    obtain ⟨f, -, -, -, rfl⟩ := call_cases (.inr rfl) hstep
    exact ⟨.inl rfl, .inl rfl⟩
  | main => exact ⟨.inl (mainStep_cases hstep).1, (mainStep_cases hstep).2⟩

theorem Consistent.finished_or (h : s.Consistent) (hempty : s.que.isEmpty true = true) :
    ∀ job < s.parents.length, job ∈ s.finished ∨ job ∈ s.main.flatMap Frame.jobs := by
  intro job hjob
  obtain ⟨hrunning, hfifo, hmain⟩ := JobQue.isEmpty_true hempty
  have hbusy : (s.threads.reduceOption : Multiset Job) = 0 :=
    Multiset.card_eq_zero.mp (h.running.symm.trans hrunning)
  have hmem : job ∈ s.jobs := h.jobs ▸ Multiset.mem_range.mpr hjob
  rw [JobSystem.jobs, hfifo, hmain, hbusy] at hmem
  simp only [List.map_nil, Multiset.coe_nil, zero_add, Multiset.mem_add, Multiset.mem_coe] at hmem
  exact hmem.symm

theorem lt_of_descends {parents : List (Option Job)} {root job : Job}
    (hroot : root < parents.length) (hdesc : Descends parents root job) :
    job < parents.length := by
  rcases hdesc.cases_tail with rfl | ⟨parent, -, hparent⟩
  · exact hroot
  · exact (List.getElem?_eq_some_iff.mp hparent).1

theorem step_returned (h : s.Consistent) {a : JobStep} (hstep : s.step a = some s') :
    s'.returned = s.returned ∨ ∃ r, s'.returned = r :: s.returned ∧
      ∀ root < r.before, ∀ job, Descends r.parents root job →
        job ∈ r.finished ∨ job ∈ r.enclosing := by
  rcases (step_records hstep).2 with heq | ⟨before, rest, hmain, hempty, heq⟩
  · exact .inl heq
  · refine .inr ⟨_, heq, fun root hroot job hdesc => ?_⟩
    have hbefore : before ≤ s.parents.length := h.before_head hmain
    have hjob := h.finished_or hempty job (lt_of_descends (hroot.trans_le hbefore) hdesc)
    rw [hmain] at hjob
    exact hjob

theorem Runs.consistent_keeps (hrun : Runs s) : s.Consistent ∧
    (∀ r ∈ s.taken, ∀ e ∈ r.2, e.priority ≤ r.1.priority ∧
      (e.priority = r.1.priority → r.1.function ≤ e.function)) ∧
    ∀ r ∈ s.returned, ∀ root < r.before, ∀ job, Descends r.parents root job →
      job ∈ r.finished ∨ job ∈ r.enclosing := by
  induction hrun with
  | start threadCount =>
    refine ⟨⟨?_, ?_, ?_, List.Pairwise.nil, ?_⟩, ?_, ?_⟩
    · simp [JobSystem.jobs, JobSystem.start, List.reduceOption_replicate_none]
    · simp [JobSystem.start, List.reduceOption_replicate_none]
    · simp [JobSystem.start, List.reduceOption_replicate_none]
    all_goals exact fun _ hr => absurd hr List.not_mem_nil
  | step hrun hasks hstep ih =>
    obtain ⟨hcons, htaken, hreturned⟩ := ih
    refine ⟨hcons.step hstep, ?_, ?_⟩
    · rcases (step_records hstep).1 with heq | ⟨front, rest, hfifo, heq⟩
      · rwa [heq]
      · have hsorted := hcons.sorted
        rw [hfifo] at hsorted
        rw [heq]
        exact List.forall_mem_cons.mpr ⟨JobQue.front_first hsorted, htaken⟩
    · rcases step_returned hcons hstep with heq | ⟨r, heq, hr⟩
      · rwa [heq]
      · rw [heq]
        exact List.forall_mem_cons.mpr ⟨hr, hreturned⟩

theorem current_sublist (main : List Frame) :
    (main.flatMap Frame.current).Sublist (main.flatMap Frame.jobs) := by
  induction main with
  | nil => exact List.Sublist.refl _
  | cons f rest ih =>
    rw [List.flatMap_cons, List.flatMap_cons]
    refine List.Sublist.append ?_ ih
    cases f with
    | loop current results => exact List.sublist_append_left ..
    | _ => exact List.Sublist.refl _

theorem Consistent.nodup_started (h : s.Consistent) : s.started.Nodup := by
  rw [← Multiset.coe_nodup]
  refine Multiset.nodup_of_le (t := s.jobs) ?_ (h.jobs ▸ Multiset.nodup_range _)
  have hcurrent : (s.main.flatMap Frame.current : Multiset Job) ≤ s.main.flatMap Frame.jobs :=
    Multiset.coe_le.mpr (current_sublist s.main).subperm
  rw [h.started, JobSystem.jobs]
  refine add_le_add_left (add_le_add ?_ hcurrent) _
  rw [add_assoc, add_left_comm]
  exact Multiset.le_add_right ..

/-- **The queue of jobs**: no job is started twice or lost, the oldest job of the highest priority
is taken, and a wait is a barrier. -/
theorem keeps_of_runs (hrun : Runs s) : s.Keeps := by
  obtain ⟨hcons, htaken, hreturned⟩ := hrun.consistent_keeps
  exact ⟨hcons.nodup_started, hcons.jobs, htaken, hreturned⟩

theorem keeps_of_runs_wait :
    ∃ s, Runs s ∧ s.Keeps ∧ s.finished = [1, 0] ∧ s.returned.length = 1 := by
  have h₁ : Runs _ := .step (a := .push none 0) (.start 1) trivial rfl
  have h₂ : Runs _ := .step (a := .take 0) h₁ trivial rfl
  have h₃ : Runs _ := .step (a := .evalOnMainThread (some 0)) h₂
    (.inl (List.mem_cons_self ..)) rfl
  have h₄ : Runs _ := .step (a := .finish 0) h₃ trivial rfl
  have h₅ : Runs _ := .step (a := .callWait) h₄ trivial rfl
  -- not all is empty, but no worker is busy
  have h₆ : Runs _ := .step (a := .main) h₅ trivial rfl
  have h₇ : Runs _ := .step (a := .main) h₆ trivial rfl
  have h₈ : Runs _ := .step (a := .main) h₇ trivial rfl
  -- the job of the main thread
  have h₉ : Runs _ := .step (a := .main) h₈ trivial rfl
  have h₁₀ : Runs _ := .step (a := .main) h₉ trivial rfl
  have h₁₁ : Runs _ := .step (a := .main) h₁₀ trivial rfl
  have h₁₂ : Runs _ := .step (a := .main) h₁₁ trivial rfl
  exact ⟨_, h₁₂, keeps_of_runs h₁₂, rfl, rfl⟩

theorem wait_in_job_not_barrier :
    ¬ ∀ s, Runs s → ∀ r ∈ s.returned, ∀ root < r.before, ∀ job, Descends r.parents root job →
      job ∈ r.finished := by
  intro h
  have h₁ : Runs _ := .step (a := .push none 0) (.start 1) trivial rfl
  have h₂ : Runs _ := .step (a := .take 0) h₁ trivial rfl
  have h₃ : Runs _ := .step (a := .evalOnMainThread (some 0)) h₂
    (.inl (List.mem_cons_self ..)) rfl
  have h₄ : Runs _ := .step (a := .evalOnMainThread (some 0)) h₃
    (.inl (List.mem_cons_self ..)) rfl
  have h₅ : Runs _ := .step (a := .finish 0) h₄ trivial rfl
  -- the main thread takes both jobs, and the first one waits
  have h₆ : Runs _ := .step (a := .callEval) h₅ trivial rfl
  have h₇ : Runs _ := .step (a := .main) h₆ trivial rfl
  have h₈ : Runs _ := .step (a := .main) h₇ trivial rfl
  have h₉ : Runs _ := .step (a := .callWait) h₈ trivial rfl
  have h₁₀ : Runs _ := .step (a := .main) h₉ trivial rfl
  have hfinished : 2 ∈ [0] := h _ h₁₀ _ (List.mem_cons_self ..) 0 (by decide) 2
    (Relation.ReflTransGen.single rfl)
  revert hfinished
  decide

end JobSystem

end DaScript

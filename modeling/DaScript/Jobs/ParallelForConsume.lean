import DaScript.Jobs.ParallelFor

/-!
# Jobs/ParallelForConsume — a range in chunks, that the caller consumes

`JobQue::parallel_for_with_consume` of `misc/job_que.cpp`.  The number of chunks is rounded down,
and each is of `step` indices: what is left behind the last belongs to none.

A worker runs `chunk` and leaves the consuming of it in a queue, which the caller takes as it is
and goes through, until it has counted all chunks.
-/

namespace DaScript.ParallelForConsume

open ParallelFor (int div int_eq_ok div_eq_ok)

/-! ## The plan -/

/-- **What a call does**: nothing; all of it on its own thread; or so many jobs. -/
inductive Plan
  | nothing
  | alone (range : ℤ × ℤ)
  | shared (submitted : List (ℤ × ℤ))
  deriving DecidableEq, Repr

/-- The arguments of every call of `chunk`, and of `consume`. -/
def Plan.chunks : Plan → List (ℤ × ℤ)
  | nothing => []
  | alone range => [range]
  | shared submitted => submitted

/-- `i0` and `i1` of job `ch`. -/
def jobRange (from' to' step : ℤ) (ch : ℕ) : Except Fault (ℤ × ℤ) := do
  let offset ← int (ch * step)
  let i0 ← int (from' + offset)
  let i1 ← int (i0 + step)
  pure (i0, min i1 to')

def parallelForWithConsume (mThreadCount from' to' chunkCount step : ℤ) : Except Fault Plan :=
  if to' ≤ from' then pure .nothing
  else do
    let chunkCount ← (if chunkCount = -1 then int (mThreadCount * 4) else pure chunkCount)
    let length ← int (to' - from')
    let chunkSize ← div length chunkCount
    let step := max chunkSize step
    let length ← int (to' - from')
    let numChunks ← div length step
    if numChunks = 1 then pure (.alone (from', to'))
    else do
      let submitted ← (List.range numChunks.toNat).mapM (jobRange from' to' step)
      pure (.shared submitted)

/-- How many indices a chunk has. -/
def grain (mThreadCount from' to' chunkCount step : ℤ) : ℤ :=
  max ((to' - from').tdiv (if chunkCount = -1 then mThreadCount * 4 else chunkCount)) step

/-! ## Each index once -/

/-- How many of the ranges an index is in. -/
def times (ranges : Multiset (ℤ × ℤ)) (i : ℤ) : ℕ :=
  (ranges.filter fun r => r.1 ≤ i ∧ i < r.2).card

/-- **Every index of `[lo, hi)` exactly once**, and no other. -/
def Exactly (lo hi : ℤ) (ranges : Multiset (ℤ × ℤ)) : Prop :=
  ∀ i, times ranges i = if lo ≤ i ∧ i < hi then 1 else 0

theorem times_add (ranges ranges' : Multiset (ℤ × ℤ)) (i : ℤ) :
    times (ranges + ranges') i = times ranges i + times ranges' i := by
  rw [times, Multiset.filter_add, Multiset.card_add]
  rfl

theorem times_singleton (r : ℤ × ℤ) (i : ℤ) :
    times {r} i = if r.1 ≤ i ∧ i < r.2 then 1 else 0 := by
  rw [times, Multiset.filter_singleton]
  split_ifs <;> rfl

theorem exactly_singleton (lo hi : ℤ) : Exactly lo hi {(lo, hi)} := times_singleton (lo, hi)

theorem exactly_zero {lo hi : ℤ} (h : hi ≤ lo) : Exactly lo hi 0 := by
  intro i
  rw [if_neg (by omega)]
  rfl

theorem exactly_jobs (from' : ℤ) {step : ℤ} (hstep : 0 ≤ step) (n : ℕ) :
    Exactly from' (from' + n * step) (ParallelFor.jobs from' step n : Multiset (ℤ × ℤ)) := by
  induction n with
  | zero => exact exactly_zero (by simp)
  | succ n ih =>
    intro i
    have hjobs : (ParallelFor.jobs from' step (n + 1) : Multiset (ℤ × ℤ)) =
        ParallelFor.jobs from' step n + {(from' + n * step, from' + n * step + step)} := by
      simp [ParallelFor.jobs, List.range_succ, ← Multiset.coe_add]
    have hnext : from' + (n + 1 : ℕ) * step = from' + n * step + step := by
      push_cast
      ring
    have hmid : from' ≤ from' + n * step := by
      have := mul_nonneg (Int.natCast_nonneg n) hstep
      omega
    rw [hjobs, times_add, ih, times_singleton, hnext]
    dsimp only
    split_ifs <;> omega

theorem Exactly.end_unique {lo mid hi : ℤ} {ranges : Multiset (ℤ × ℤ)} (hlo : lo ≤ mid)
    (hhi : mid ≤ hi) (h : Exactly lo mid ranges) (h' : Exactly lo hi ranges) : mid = hi := by
  by_contra hne
  have hlast := (h (hi - 1)).symm.trans (h' (hi - 1))
  rw [if_neg (by omega), if_pos (by omega)] at hlast
  exact absurd hlast (by decide)

/-! ## What a plan covers -/

/-- The ways a call goes, and how much of the range it covers. -/
inductive Planned (from' to' size : ℤ) : Plan → Prop
  | nothing (h : to' ≤ from') : Planned from' to' size .nothing
  | alone (hlow : size ≤ to' - from') (hhigh : to' - from' < 2 * size) :
    Planned from' to' size (.alone (from', to'))
  | shared (n : ℕ) (h : from' < to') (hn : n ≠ 1) (hle : n * size ≤ to' - from')
    (hlt : to' - from' < (n + 1) * size) :
    Planned from' to' size (.shared (ParallelFor.jobs from' size n))

theorem jobRange_eq_ok {from' to' step : ℤ} {ch : ℕ} {r : ℤ × ℤ}
    (h : jobRange from' to' step ch = .ok r) :
    r = (from' + ch * step, min (from' + ch * step + step) to') := by
  obtain ⟨offset, hoffset, h⟩ := bind_eq_ok.mp h
  obtain ⟨i0, hi0, h⟩ := bind_eq_ok.mp h
  obtain ⟨i1, hi1, h⟩ := bind_eq_ok.mp h
  obtain rfl := Except.ok.inj h
  obtain rfl := int_eq_ok hoffset
  obtain rfl := int_eq_ok hi0
  obtain rfl := int_eq_ok hi1
  rfl

theorem mapM_jobRange {from' to' step : ℤ} {l : List ℕ} {rs : List (ℤ × ℤ)}
    (h : l.mapM (jobRange from' to' step) = .ok rs) :
    rs = l.map fun ch : ℕ => (from' + ch * step, min (from' + ch * step + step) to') := by
  induction l generalizing rs with
  | nil =>
    obtain rfl := Except.ok.inj h
    rfl
  | cons ch l ih =>
    rw [List.mapM_cons] at h
    obtain ⟨r, hr, h⟩ := bind_eq_ok.mp h
    obtain ⟨rs', hrs, h⟩ := bind_eq_ok.mp h
    obtain rfl := Except.ok.inj h
    rw [List.map_cons, ← ih hrs, jobRange_eq_ok hr]

theorem jobs_uncut {from' to' step : ℤ} (hstep : 0 ≤ step) {n : ℕ}
    (hle : n * step ≤ to' - from') :
    ((List.range n).map fun ch : ℕ => (from' + ch * step, min (from' + ch * step + step) to')) =
      ParallelFor.jobs from' step n := by
  refine List.map_congr_left fun ch hch => ?_
  have hch : (ch : ℤ) + 1 ≤ n := by
    have := List.mem_range.mp hch
    omega
  have := mul_le_mul_of_nonneg_right hch hstep
  rw [min_eq_left (by linarith)]

theorem parallelForWithConsume_planned {mThreadCount from' to' chunkCount step : ℤ} {plan : Plan}
    (hstep : 1 ≤ step)
    (h : parallelForWithConsume mThreadCount from' to' chunkCount step = .ok plan) :
    Planned from' to' (grain mThreadCount from' to' chunkCount step) plan := by
  rw [parallelForWithConsume] at h
  by_cases hempty : to' ≤ from'
  · rw [if_pos hempty] at h
    obtain rfl := Except.ok.inj h
    exact .nothing hempty
  rw [if_neg hempty] at h
  obtain ⟨count, hcount, h⟩ := bind_eq_ok.mp h
  obtain ⟨length, hlength, h⟩ := bind_eq_ok.mp h
  obtain ⟨chunkSize, hchunkSize, h⟩ := bind_eq_ok.mp h
  dsimp only at h
  obtain ⟨length', hlength', h⟩ := bind_eq_ok.mp h
  obtain ⟨numChunks, hnumChunks, h⟩ := bind_eq_ok.mp h
  rw [int_eq_ok hlength] at hchunkSize
  rw [int_eq_ok hlength'] at hnumChunks
  have hcount : count = if chunkCount = -1 then mThreadCount * 4 else chunkCount := by
    split_ifs at hcount ⊢
    · exact int_eq_ok hcount
    · exact (Except.ok.inj hcount).symm
  have hgrain : grain mThreadCount from' to' chunkCount step = max chunkSize step := by
    rw [grain, ← hcount, div_eq_ok hchunkSize]
  have hsize : 0 < max chunkSize step := lt_max_of_lt_right hstep
  have hnum := div_eq_ok hnumChunks
  rw [Int.tdiv_eq_ediv_of_nonneg (by omega)] at hnum
  have hle := Int.ediv_mul_le (to' - from') hsize.ne'
  have hlt := Int.lt_ediv_add_one_mul_self (to' - from') hsize
  rw [← hnum] at hle hlt
  have hnonneg : 0 ≤ numChunks := hnum ▸ Int.ediv_nonneg (by omega) hsize.le
  rw [hgrain]
  by_cases hone : numChunks = 1
  · rw [if_pos hone] at h
    obtain rfl := Except.ok.inj h
    rw [hone] at hle hlt
    exact .alone (by linarith) (by linarith)
  · rw [if_neg hone] at h
    obtain ⟨submitted, hsubmitted, h⟩ := bind_eq_ok.mp h
    obtain rfl := Except.ok.inj h
    have hnat : (numChunks.toNat : ℤ) = numChunks := Int.toNat_of_nonneg hnonneg
    rw [mapM_jobRange hsubmitted, jobs_uncut hsize.le (by rwa [hnat])]
    exact .shared _ (by omega) (by omega) (by rwa [hnat]) (by rwa [hnat])

/-- **All of the range belongs to a chunk**: there is none; the chunks are as long as it; or it is
longer than one, and shorter than two. -/
def Whole (from' to' size : ℤ) : Prop :=
  from' = to' ∨ size ∣ to' - from' ∨ size ≤ to' - from' ∧ to' - from' < 2 * size

theorem Planned.exactly_iff {from' to' size : ℤ} {plan : Plan} (hrange : from' ≤ to')
    (hsize : 0 < size) (h : Planned from' to' size plan) :
    Exactly from' to' plan.chunks ↔ Whole from' to' size := by
  cases h with
  | nothing h => exact ⟨fun _ => .inl (by omega), fun _ => exactly_zero h⟩
  | alone hlow hhigh => exact ⟨fun _ => .inr (.inr ⟨hlow, hhigh⟩), fun _ => exactly_singleton _ _⟩
  | shared n h hn hle hlt =>
    have hcover := exactly_jobs from' hsize.le n
    constructor
    · intro hexactly
      have hend := hcover.end_unique (by nlinarith) (by linarith) hexactly
      exact .inr (.inl ⟨n, by linarith⟩)
    · intro hwhole
      have hend : from' + n * size = to' := by
        rcases hwhole with rfl | ⟨m, hm⟩ | ⟨hlow, hhigh⟩
        · exact absurd h (lt_irrefl _)
        · have hnm : (n : ℤ) = m := by
            have hle' : (n : ℤ) * size ≤ m * size := by linarith
            have hlt' : m * size < (n + 1) * size := by linarith
            have := le_of_mul_le_mul_right hle' hsize
            have := lt_of_mul_lt_mul_right hlt' hsize.le
            omega
          rw [hnm]
          linarith
        · have hone : (n : ℤ) = 1 := by
            have hle' : (n : ℤ) * size < 2 * size := by linarith
            have hlt' : 1 * size < (n + 1) * size := by linarith
            have := lt_of_mul_lt_mul_right hle' hsize.le
            have := lt_of_mul_lt_mul_right hlt' hsize.le
            omega
          exact absurd (by exact_mod_cast hone) hn
      exact hend ▸ hcover

/-! ## The threads -/

/-- Where the thread that called `parallel_for_with_consume` is. -/
inductive Caller
  | start
  /-- between `chunk(from, to)` and `consume(from, to)` -/
  | consume
  /-- before the section in which it takes the queue -/
  | loop
  /-- in what it took -/
  | batch
  | returned
  deriving DecidableEq, Repr

/-- In the loop, before it or within it. -/
def Caller.looping : Caller → Bool
  | .loop | .batch => true
  | .start | .consume | .returned => false

/-- A call, with its jobs and what has run. -/
structure Call where
  caller : Caller
  chunksRemaining : ℤ
  queued : Multiset (ℤ × ℤ)
  /-- Taken by a worker, before `chunk(i0, i1)`. -/
  taken : Multiset (ℤ × ℤ)
  /-- Before the section in which it is left for the caller. -/
  finishing : Multiset (ℤ × ℤ)
  producerFifoJobs : List (ℤ × ℤ)
  consumerFifoJobs : List (ℤ × ℤ)
  /-- What `chunk` was passed, in any thread. -/
  ran : Multiset (ℤ × ℤ)
  /-- What `consume` was passed. -/
  consumed : Multiset (ℤ × ℤ)

namespace Call

/-- Before the call. -/
def start : Call := ⟨.start, 0, 0, 0, 0, [], [], 0, 0⟩

/-- **What the threads do**, one section, chunk or consumption at a time.  That a wait of
`mSleepMs` passes with nothing in the queue changes nothing, and is no step. -/
inductive Step (plan : Plan) : Call → Call → Prop
  | skip {s : Call} (hcaller : s.caller = .start) (h : plan = .nothing) :
    Step plan s { s with caller := .returned }
  | own {s : Call} {r : ℤ × ℤ} (hcaller : s.caller = .start) (h : plan = .alone r) :
    Step plan s { s with ran := r ::ₘ s.ran, caller := .consume }
  | consume {s : Call} {r : ℤ × ℤ} (hcaller : s.caller = .consume) (h : plan = .alone r) :
    Step plan s { s with consumed := r ::ₘ s.consumed, caller := .returned }
  | submit {s : Call} {submitted : List (ℤ × ℤ)} (hcaller : s.caller = .start)
    (h : plan = .shared submitted) :
    Step plan s { s with queued := submitted, chunksRemaining := submitted.length, caller := .loop }
  | take {s : Call} {r : ℤ × ℤ} {rest : Multiset (ℤ × ℤ)} (h : s.queued = r ::ₘ rest) :
    Step plan s { s with queued := rest, taken := r ::ₘ s.taken }
  | chunk {s : Call} {r : ℤ × ℤ} {rest : Multiset (ℤ × ℤ)} (h : s.taken = r ::ₘ rest) :
    Step plan s { s with taken := rest, finishing := r ::ₘ s.finishing, ran := r ::ₘ s.ran }
  | push {s : Call} {r : ℤ × ℤ} {rest : Multiset (ℤ × ℤ)} (h : s.finishing = r ::ₘ rest) :
    Step plan s { s with finishing := rest, producerFifoJobs := s.producerFifoJobs ++ [r] }
  | swap {s : Call} (hcaller : s.caller = .loop) (h : 0 < s.chunksRemaining)
    (hjobs : s.producerFifoJobs ≠ []) :
    Step plan s { s with producerFifoJobs := [], consumerFifoJobs := s.producerFifoJobs,
                         caller := .batch }
  | job {s : Call} {r : ℤ × ℤ} {rest : List (ℤ × ℤ)} (hcaller : s.caller = .batch)
    (h : s.consumerFifoJobs = r :: rest) :
    Step plan s { s with consumerFifoJobs := rest, consumed := r ::ₘ s.consumed,
                         chunksRemaining := s.chunksRemaining - 1 }
  | again {s : Call} (hcaller : s.caller = .batch) (h : s.consumerFifoJobs = []) :
    Step plan s { s with caller := .loop }
  | leave {s : Call} (hcaller : s.caller = .loop) (h : s.chunksRemaining ≤ 0) :
    Step plan s { s with caller := .returned }

/-- The states of a call, over any interleaving. -/
def Reachable (plan : Plan) : Call → Prop := Relation.ReflTransGen (Step plan) start

/-- **A run of a call**: at each moment a step of some thread, or none. -/
structure Run (plan : Plan) (run : ℕ → Call) : Prop where
  start : run 0 = start
  next : ∀ i, Step plan (run i) (run (i + 1)) ∨ run (i + 1) = run i

/-- The scheduler stops no thread for ever: where one can always go on, one does. -/
def Fair (plan : Plan) (run : ℕ → Call) : Prop :=
  ∀ i, (∀ j ≥ i, ∃ s, Step plan (run j) s) → ∃ j ≥ i, Step plan (run j) (run (j + 1))

/-- What is somewhere between the submission and its consumption, or past it. -/
def jobs (s : Call) : Multiset (ℤ × ℤ) :=
  s.queued + s.taken + s.finishing + s.producerFifoJobs + s.consumerFifoJobs + s.consumed

end Call

/-- The jobs there are, from where the caller is. -/
def Plan.jobsBy (plan : Plan) : Caller → Multiset (ℤ × ℤ)
  | .start | .consume => 0
  | .loop | .batch | .returned => plan.chunks

/-- What the caller has run, and not consumed. -/
def Plan.ownBy (plan : Plan) : Caller → Multiset (ℤ × ℤ)
  | .consume => plan.chunks
  | .start | .loop | .batch | .returned => 0

namespace Call

/-- **Where the jobs are**, and what `chunksRemaining` counts. -/
structure Consistent (plan : Plan) (s : Call) : Prop where
  jobs : s.jobs = plan.jobsBy s.caller
  ran : s.ran = s.finishing + s.producerFifoJobs + s.consumerFifoJobs + s.consumed
    + plan.ownBy s.caller
  counted : s.caller.looping = true → s.chunksRemaining + s.consumed.card = plan.chunks.length
  idle : s.caller ≠ .batch → s.consumerFifoJobs = []
  returned : s.caller = .returned → s.consumed = (plan.chunks : Multiset (ℤ × ℤ))

theorem Consistent.start (plan : Plan) : Consistent plan start where
  jobs := rfl
  ran := rfl
  counted h := (Bool.false_ne_true h).elim
  idle _ := rfl
  returned h := by cases h

theorem consumed_le (s : Call) : s.consumed ≤ s.jobs := Multiset.le_add_left _ _

theorem Consistent.step {plan : Plan} {s s' : Call} (hs : Consistent plan s)
    (h : Step plan s s') : Consistent plan s' := by
  obtain ⟨hjobs, hran, hcounted, hidle, hreturned⟩ := hs
  cases h with
  | skip hcaller h =>
    subst h
    rw [hcaller] at hjobs hran
    refine ⟨hjobs, hran, fun h => (Bool.false_ne_true h).elim, fun _ => ?_, fun _ => ?_⟩
    · exact hidle (by rw [hcaller]; decide)
    · exact Multiset.le_zero.mp (s.consumed_le.trans_eq hjobs)
  | own hcaller h =>
    subst h
    rw [hcaller] at hjobs hran
    refine ⟨hjobs, ?_, fun h => (Bool.false_ne_true h).elim, fun _ => ?_, fun h => by cases h⟩
    · simp only [Plan.ownBy, add_zero] at hran ⊢
      rw [hran, ← Multiset.singleton_add, add_comm]
      rfl
    · exact hidle (by rw [hcaller]; decide)
  | consume hcaller h =>
    subst h
    rw [hcaller] at hjobs hran
    have hzero : s.consumed = 0 := Multiset.le_zero.mp (s.consumed_le.trans_eq hjobs)
    have hall : ∀ r, r ::ₘ s.consumed = {r} := fun r => by rw [hzero]; rfl
    refine ⟨?_, ?_, fun h => (Bool.false_ne_true h).elim, fun _ => ?_, fun _ => hall _⟩
    · simp only [Call.jobs, Plan.jobsBy] at hjobs ⊢
      rw [Multiset.add_cons, hjobs]
      rfl
    · simp only [Plan.ownBy, add_zero] at hran ⊢
      rw [hran, Multiset.add_cons, ← Multiset.singleton_add, add_comm]
      rfl
    · exact hidle (by rw [hcaller]; decide)
  | submit hcaller h =>
    subst h
    rw [hcaller] at hjobs hran
    have hzero := hjobs
    simp only [Call.jobs, Plan.jobsBy, add_eq_zero] at hzero
    obtain ⟨⟨⟨⟨⟨-, htaken⟩, hfinishing⟩, hproducer⟩, hconsumer⟩, hconsumed⟩ := hzero
    refine ⟨?_, hran, fun _ => ?_, fun _ => ?_, fun h => by cases h⟩
    · simp only [Call.jobs, Plan.jobsBy, Plan.chunks, htaken, hfinishing, hproducer, hconsumer,
        hconsumed, add_zero]
    · simp [hconsumed, Plan.chunks]
    · exact hidle (by rw [hcaller]; decide)
  | take h =>
    refine ⟨?_, hran, hcounted, hidle, hreturned⟩
    rw [← hjobs]
    simp only [Call.jobs, h, Multiset.cons_add, Multiset.add_cons]
  | chunk h =>
    refine ⟨?_, ?_, hcounted, hidle, hreturned⟩
    · rw [← hjobs]
      simp only [Call.jobs, h, Multiset.cons_add, Multiset.add_cons]
    · simp only [hran, Multiset.cons_add]
  | @push r rest h =>
    have hpush : (↑(s.producerFifoJobs ++ [r]) : Multiset (ℤ × ℤ)) = r ::ₘ s.producerFifoJobs := by
      rw [← Multiset.coe_add, add_comm]
      rfl
    refine ⟨?_, ?_, hcounted, hidle, hreturned⟩
    · rw [← hjobs]
      simp only [Call.jobs, h, hpush, Multiset.cons_add, Multiset.add_cons]
    · simp only [hran, h, hpush, Multiset.cons_add, Multiset.add_cons]
  | swap hcaller _ _ =>
    have hnone : s.consumerFifoJobs = [] := hidle (by rw [hcaller]; decide)
    rw [hcaller] at hjobs hran
    refine ⟨?_, ?_, fun _ => hcounted (hcaller ▸ rfl), fun h => absurd rfl h, fun h => by cases h⟩
    · simp only [Call.jobs, hnone, Multiset.coe_nil, add_zero] at hjobs ⊢
      exact hjobs
    · simp only [hnone, Multiset.coe_nil, add_zero] at hran ⊢
      exact hran
  | @job r rest hcaller h =>
    refine ⟨?_, ?_, fun _ => ?_, fun hne => absurd hcaller hne, fun h => ?_⟩
    · rw [← hjobs]
      simp only [Call.jobs, h, ← Multiset.cons_coe, Multiset.cons_add, Multiset.add_cons]
    · simp only [hran, h, ← Multiset.cons_coe, Multiset.cons_add, Multiset.add_cons]
    · have := hcounted (hcaller ▸ rfl)
      simp only [Multiset.card_cons]
      push_cast
      omega
    · exact absurd (hcaller.symm.trans h) (by decide)
  | again hcaller h =>
    rw [hcaller] at hjobs hran
    exact ⟨hjobs, hran, fun _ => hcounted (hcaller ▸ rfl), fun _ => h, fun h => by cases h⟩
  | leave hcaller h =>
    have hcount := hcounted (hcaller ▸ rfl)
    rw [hcaller] at hjobs hran
    refine ⟨hjobs, hran, fun h => (Bool.false_ne_true h).elim, fun _ => ?_, fun _ => ?_⟩
    · exact hidle (by rw [hcaller]; decide)
    · refine Multiset.eq_of_le_of_card_le (s.consumed_le.trans_eq hjobs) ?_
      simp only [Multiset.coe_card]
      omega

theorem Consistent.of_reachable {plan : Plan} {s : Call} (h : Reachable plan s) :
    Consistent plan s := by
  induction h with
  | refl => exact .start plan
  | tail _ hstep ih => exact ih.step hstep

theorem Consistent.consumed_le_ran {plan : Plan} {s : Call} (hs : Consistent plan s) :
    s.consumed ≤ s.ran := by
  rw [hs.ran]
  exact (Multiset.le_add_left _ _).trans (Multiset.le_add_right _ _)

theorem Consistent.returned_ran {plan : Plan} {s : Call} (hs : Consistent plan s)
    (hreturned : s.caller = .returned) :
    s.ran = (plan.chunks : Multiset (ℤ × ℤ)) ∧ s.consumed = (plan.chunks : Multiset (ℤ × ℤ)) := by
  have hconsumed := hs.returned hreturned
  have hjobs := hs.jobs
  have hran := hs.ran
  rw [hreturned] at hjobs hran
  have hrest : s.queued + s.taken + s.finishing + s.producerFifoJobs + s.consumerFifoJobs = 0 := by
    have : s.queued + s.taken + s.finishing + s.producerFifoJobs + s.consumerFifoJobs
        + s.consumed = 0 + s.consumed := by
      rw [zero_add]
      exact hjobs.trans hconsumed.symm
    exact add_right_cancel this
  simp only [add_eq_zero] at hrest
  refine ⟨?_, hconsumed⟩
  rw [hran, hrest.1.1.2, hrest.1.2, hrest.2, hconsumed]
  simp [Plan.ownBy]

/-! ## The loop ends -/

theorem Consistent.exists_step {plan : Plan} {s : Call} (hs : Consistent plan s)
    (hshape : s.caller = .consume → ∃ r, plan = .alone r) (hreturned : s.caller ≠ .returned) :
    ∃ s', Step plan s s' := by
  cases hcaller : s.caller with
  | start =>
    cases hplan : plan with
    | nothing => exact ⟨_, .skip hcaller rfl⟩
    | alone r => exact ⟨_, .own hcaller rfl⟩
    | shared submitted => exact ⟨_, .submit hcaller rfl⟩
  | consume =>
    obtain ⟨r, hplan⟩ := hshape hcaller
    exact ⟨_, .consume hcaller hplan⟩
  | returned => exact absurd hcaller hreturned
  | batch =>
    cases hconsumer : s.consumerFifoJobs with
    | nil => exact ⟨_, .again hcaller hconsumer⟩
    | cons r rest => exact ⟨_, .job hcaller hconsumer⟩
  | loop =>
    by_cases hremaining : s.chunksRemaining ≤ 0
    · exact ⟨_, .leave hcaller hremaining⟩
    by_cases hproducer : s.producerFifoJobs = []
    · rcases s.queued.empty_or_exists_mem with hqueued | ⟨r, hr⟩
      · rcases s.taken.empty_or_exists_mem with htaken | ⟨r, hr⟩
        · rcases s.finishing.empty_or_exists_mem with hfinishing | ⟨r, hr⟩
          · -- all chunks are consumed, and none remains
            have hjobs := congrArg Multiset.card hs.jobs
            have hcounted := hs.counted (hcaller ▸ rfl)
            have hidle := hs.idle (by rw [hcaller]; decide)
            rw [hcaller] at hjobs
            simp only [Call.jobs, hqueued, htaken, hfinishing, hproducer, hidle, Plan.jobsBy,
              Multiset.coe_nil, zero_add, Multiset.coe_card] at hjobs
            omega
          · exact ⟨_, .push (Multiset.exists_cons_of_mem hr).choose_spec⟩
        · exact ⟨_, .chunk (Multiset.exists_cons_of_mem hr).choose_spec⟩
      · exact ⟨_, .take (Multiset.exists_cons_of_mem hr).choose_spec⟩
    · exact ⟨_, .swap hcaller (not_le.mp hremaining) hproducer⟩

/-- What the caller has before it, apart from the chunks. -/
def rank (plan : Plan) : Caller → ℕ
  | .start => 6 * plan.chunks.length + 3
  | .batch => 2
  | .consume | .loop => 1
  | .returned => 0

/-- **How much there is to do.** -/
def work (plan : Plan) (s : Call) : ℕ :=
  rank plan s.caller + 6 * s.queued.card + 5 * s.taken.card + 4 * s.finishing.card
    + 3 * s.producerFifoJobs.length + s.consumerFifoJobs.length

theorem work_lt {plan : Plan} {s s' : Call} (h : Step plan s s') : work plan s' < work plan s := by
  cases h with
  | skip hcaller h | own hcaller h | consume hcaller h =>
    simp only [work, hcaller, rank]
    omega
  | submit hcaller h =>
    subst h
    simp only [work, hcaller, rank, Plan.chunks, Multiset.coe_card]
    omega
  | take h | chunk h =>
    simp only [work, h, Multiset.card_cons]
    omega
  | push h =>
    simp only [work, h, Multiset.card_cons, List.length_append, List.length_singleton]
    omega
  | swap hcaller _ hjobs =>
    have := List.length_pos_iff.mpr hjobs
    simp only [work, hcaller, rank, List.length_nil]
    omega
  | job hcaller h =>
    simp only [work, h, List.length_cons]
    omega
  | again hcaller h | leave hcaller h =>
    simp only [work, hcaller, rank]
    omega

theorem alone_of_reachable {plan : Plan} {s : Call} (h : Reachable plan s)
    (hcaller : s.caller = .consume) : ∃ r, plan = .alone r := by
  induction h with
  | refl => cases hcaller
  | tail _ hstep ih =>
    cases hstep with
    | own _ h => exact ⟨_, h⟩
    | take _ | chunk _ | push _ | job _ _ => exact ih hcaller
    | skip _ _ | consume _ _ | submit _ _ | swap _ _ _ | again _ _ | leave _ _ => cases hcaller

theorem exists_step {plan : Plan} {s : Call} (h : Reachable plan s)
    (hreturned : s.caller ≠ .returned) : ∃ s', Step plan s s' :=
  (Consistent.of_reachable h).exists_step (alone_of_reachable h) hreturned

theorem exists_returned {plan : Plan} {s : Call} (h : Reachable plan s) :
    ∃ s', Reachable plan s' ∧ s'.caller = .returned := by
  induction hwork : work plan s using Nat.strong_induction_on generalizing s with
  | _ n ih =>
    by_cases hreturned : s.caller = .returned
    · exact ⟨s, h, hreturned⟩
    · obtain ⟨s', hstep⟩ := exists_step h hreturned
      exact ih _ (hwork ▸ work_lt hstep) (h.tail hstep) rfl

theorem Run.reachable {plan : Plan} {run : ℕ → Call} (h : Run plan run) (i : ℕ) :
    Reachable plan (run i) := by
  induction i with
  | zero =>
    rw [h.start]
    exact .refl
  | succ i ih =>
    rcases h.next i with hstep | hsame
    · exact ih.tail hstep
    · rwa [hsame]

theorem Run.work_antitone {plan : Plan} {run : ℕ → Call} (h : Run plan run) :
    Antitone fun i => work plan (run i) := by
  refine antitone_nat_of_succ_le fun i => ?_
  rcases h.next i with hstep | hsame
  · exact (work_lt hstep).le
  · rw [hsame]

theorem Run.returns {plan : Plan} {run : ℕ → Call} (h : Run plan run) (hfair : Fair plan run) :
    ∃ i, (run i).caller = .returned := by
  by_contra hnever
  simp only [not_exists] at hnever
  have hnone : ∀ n i, work plan (run i) = n → False := by
    intro n
    induction n using Nat.strong_induction_on with
    | _ n ih =>
      intro i hi
      obtain ⟨j, hj, hstep⟩ := hfair i fun j _ => exists_step (h.reachable j) (hnever j)
      have hle : work plan (run j) ≤ work plan (run i) := h.work_antitone hj
      exact ih _ (hi ▸ (work_lt hstep).trans_le hle) (j + 1) rfl
  exact hnone _ 0 rfl

end Call

/-- **What is promised**: whatever the order of steps, nothing is consumed before it has run; when
the call has returned, each index has been passed to `chunk` and to `consume` exactly once; and it
does return. -/
def Covers (plan : Plan) (from' to' : ℤ) : Prop :=
  (∀ s, Call.Reachable plan s → s.consumed ≤ s.ran ∧
    (s.caller = .returned → Exactly from' to' s.ran ∧ Exactly from' to' s.consumed)) ∧
    ∀ run, Call.Run plan run → Call.Fair plan run → ∃ i, (run i).caller = .returned

theorem covers_iff_exactly (plan : Plan) (from' to' : ℤ) :
    Covers plan from' to' ↔ Exactly from' to' plan.chunks := by
  constructor
  · rintro ⟨hstates, -⟩
    obtain ⟨s, hs, hreturned⟩ := @Call.exists_returned plan _ .refl
    rw [← ((Call.Consistent.of_reachable hs).returned_ran hreturned).1]
    exact ((hstates s hs).2 hreturned).1
  · intro hexactly
    refine ⟨fun s hs => ?_, fun run hrun hfair => hrun.returns hfair⟩
    have hconsistent := Call.Consistent.of_reachable hs
    refine ⟨hconsistent.consumed_le_ran, fun hreturned => ?_⟩
    obtain ⟨hran, hconsumed⟩ := hconsistent.returned_ran hreturned
    exact ⟨hran ▸ hexactly, hconsumed ▸ hexactly⟩

/-- **`parallel_for_with_consume` covers its range exactly where the chunks make it up.** -/
theorem parallelForWithConsume_covers (mThreadCount from' to' chunkCount step : ℤ)
    (hrange : from' ≤ to') (hstep : 1 ≤ step) (plan : Plan)
    (h : parallelForWithConsume mThreadCount from' to' chunkCount step = .ok plan) :
    Covers plan from' to' ↔
      Whole from' to' (grain mThreadCount from' to' chunkCount step) := by
  rw [covers_iff_exactly]
  exact (parallelForWithConsume_planned hstep h).exactly_iff hrange (lt_max_of_lt_right hstep)

theorem parallelForWithConsume_covers_ten :
    Covers (.shared [(0, 2), (2, 4), (4, 6), (6, 8), (8, 10)]) 0 10 :=
  (parallelForWithConsume_covers 1 0 10 (-1) 1 (by decide) (by decide) _ (by decide)).mpr
    (.inr (.inl (by decide)))

theorem parallelForWithConsume_misses :
    parallelForWithConsume 1 0 10 3 1 = .ok (.shared [(0, 3), (3, 6), (6, 9)]) ∧
      ¬ Covers (.shared [(0, 3), (3, 6), (6, 9)]) 0 10 := by
  refine ⟨by decide, fun h => ?_⟩
  have hlast := (covers_iff_exactly _ _ _).mp h 9
  exact absurd hlast (by decide)

end DaScript.ParallelForConsume

import DaScript.Foundations.Machine

/-!
# Jobs/ParallelFor — a range in chunks, for the threads of the queue and the caller

`JobQue::parallel_for` and `JobStatus` of `misc/job_que.cpp`.  All chunks but the caller's are of
`step` indices and become jobs; the caller keeps what is left, which is a share of one thread or
less than a step more.

`Wait` returns when as many jobs have notified as `Clear` was told.
-/

namespace DaScript.ParallelFor

/-! ## The plan -/

/-- An `int` that is computed; what overflows is undefined. -/
def int (x : ℤ) : Except Fault ℤ :=
  if -2 ^ 31 ≤ x ∧ x < 2 ^ 31 then .ok x else .error (.undefined "signed overflow")

/-- `a / b` of an `int`. -/
def div (a b : ℤ) : Except Fault ℤ :=
  if b = 0 then .error (.undefined "division by zero") else int (a.tdiv b)

/-- **What a call of `parallel_for` does**: the arguments of `chunk` in the jobs it submits, those
of the call on its own thread, and the count that `status.Clear` gets. -/
structure Plan where
  submitted : List (ℤ × ℤ)
  own : Option (ℤ × ℤ)
  cleared : Option ℕ
  deriving DecidableEq, Repr

/-- The arguments of every call of `chunk`. -/
def Plan.ranges (plan : Plan) : List (ℤ × ℤ) := plan.submitted ++ plan.own.toList

/-- The arguments of `chunk` in job `ch`. -/
def jobRange (from' step : ℤ) (ch : ℕ) : Except Fault (ℤ × ℤ) := do
  let offset ← int (ch * step)
  let i0 ← int (from' + offset)
  let i1 ← int (i0 + step)
  pure (i0, i1)

def parallelFor (mThreadCount from' to' chunkCount step : ℤ) : Except Fault Plan :=
  if to' ≤ from' then pure ⟨[], none, none⟩
  else do
    let chunkCount ← (if chunkCount = -1 then int (mThreadCount * 4) else pure chunkCount)
    let length ← int (to' - from')
    let rounded ← int (length + 1)
    let chunkSize ← div rounded chunkCount
    let step := max chunkSize step
    let total ← int (length + step)
    let numChunks ← div total step
    if numChunks = 1 then pure ⟨[], some (from', to'), none⟩
    else do
      let share ← int (numChunks + mThreadCount)
      let threads ← int (mThreadCount + 1)
      let share ← div share threads
      let onMainThread := max share 1
      let onThreads ← int (numChunks - onMainThread)
      let submitted ← (List.range onThreads.toNat).mapM (jobRange from' step)
      let offset ← int (onThreads * step)
      let rest ← int (from' + offset)
      pure ⟨submitted, some (rest, to'), some onThreads.toNat⟩

/-! ## Tiles -/

/-- **Ranges that make up a range**, each index in one of them. -/
structure Tiles (lo hi : ℤ) (ranges : List (ℤ × ℤ)) : Prop where
  inside : ∀ r ∈ ranges, lo ≤ r.1 ∧ r.2 ≤ hi
  apart : ranges.Pairwise fun r r' => Set.Ico r.1 r.2 ∩ Set.Ico r'.1 r'.2 = ∅
  union : ⋃ r ∈ ranges, Set.Ico r.1 r.2 = Set.Ico lo hi

section Tiles

variable {lo mid hi : ℤ} {ranges : List (ℤ × ℤ)}

theorem tiles_nil (h : hi ≤ lo) : Tiles lo hi [] := by
  refine ⟨by simp, List.Pairwise.nil, ?_⟩
  simp [Set.Ico_eq_empty_of_le h]

theorem Tiles.snoc (h : Tiles lo mid ranges) (hlo : lo ≤ mid) (hhi : mid ≤ hi) :
    Tiles lo hi (ranges ++ [(mid, hi)]) := by
  refine ⟨fun r hr => ?_, List.pairwise_append.mpr ⟨h.apart, List.pairwise_singleton _ _, ?_⟩, ?_⟩
  · rcases List.mem_append.mp hr with hr | hr
    · exact ⟨(h.inside r hr).1, (h.inside r hr).2.trans hhi⟩
    · obtain rfl := List.mem_singleton.mp hr
      exact ⟨hlo, le_rfl⟩
  · intro r hr r' hr'
    obtain rfl := List.mem_singleton.mp hr'
    exact (Set.Ico_disjoint_Ico.mpr (by simp [(h.inside r hr).2])).inter_eq
  · have hunion : ⋃ r ∈ ranges ++ [(mid, hi)], Set.Ico r.1 r.2
        = (⋃ r ∈ ranges, Set.Ico r.1 r.2) ∪ Set.Ico mid hi := by
      ext x
      simp only [Set.mem_iUnion, Set.mem_union, List.mem_append, List.mem_singleton, exists_prop,
        or_and_right, exists_or, exists_eq_left]
    rw [hunion, h.union, Set.Ico_union_Ico_eq_Ico hlo hhi]

/-- The ranges of so many jobs. -/
def jobs (from' step : ℤ) (n : ℕ) : List (ℤ × ℤ) :=
  (List.range n).map fun ch : ℕ => (from' + ch * step, from' + ch * step + step)

theorem tiles_jobs (from' : ℤ) {step : ℤ} (hstep : 0 ≤ step) (n : ℕ) :
    Tiles from' (from' + n * step) (jobs from' step n) := by
  induction n with
  | zero => exact tiles_nil (by simp)
  | succ n ih =>
    rw [jobs, List.range_succ, List.map_append, List.map_singleton]
    have hnext : from' + n * step + step = from' + (n + 1 : ℕ) * step := by
      push_cast
      ring
    rw [hnext]
    exact ih.snoc (by nlinarith) (by rw [← hnext]; omega)

end Tiles

/-! ## The chunks cover the range -/

theorem int_eq_ok {x y : ℤ} (h : int x = .ok y) : y = x := by
  rw [int] at h
  split_ifs at h
  exact (Except.ok.inj h).symm

theorem jobRange_eq_ok {from' step : ℤ} {ch : ℕ} {r : ℤ × ℤ} (h : jobRange from' step ch = .ok r) :
    r = (from' + ch * step, from' + ch * step + step) := by
  obtain ⟨offset, hoffset, h⟩ := bind_eq_ok.mp h
  obtain ⟨i0, hi0, h⟩ := bind_eq_ok.mp h
  obtain ⟨i1, hi1, h⟩ := bind_eq_ok.mp h
  obtain rfl := Except.ok.inj h
  obtain rfl := int_eq_ok hoffset
  obtain rfl := int_eq_ok hi0
  obtain rfl := int_eq_ok hi1
  rfl

theorem mapM_jobRange {from' step : ℤ} {l : List ℕ} {rs : List (ℤ × ℤ)}
    (h : l.mapM (jobRange from' step) = .ok rs) :
    rs = l.map fun ch : ℕ => (from' + ch * step, from' + ch * step + step) := by
  induction l generalizing rs with
  | nil =>
    obtain rfl := Except.ok.inj h
    rfl
  | cons ch l ih =>
    rw [List.mapM_cons] at h
    obtain ⟨r, hr, h⟩ := bind_eq_ok.mp h
    obtain ⟨rs', hrs, h⟩ := bind_eq_ok.mp h
    obtain rfl := Except.ok.inj h
    rw [List.map_cons, ← ih hrs, jobRange_eq_ok hr]

/-- The three ways a call goes. -/
inductive Planned (from' to' : ℤ) : Plan → Prop
  | nothing (h : to' ≤ from') : Planned from' to' ⟨[], none, none⟩
  | alone (h : from' < to') : Planned from' to' ⟨[], some (from', to'), none⟩
  | shared (step : ℤ) (n : ℕ) (hstep : 0 < step) (hn : from' + n * step ≤ to') :
    Planned from' to' ⟨jobs from' step n, some (from' + n * step, to'), some n⟩

theorem div_eq_ok {a b y : ℤ} (h : div a b = .ok y) : y = a.tdiv b := by
  rw [div] at h
  split_ifs at h
  exact int_eq_ok h

theorem share_bounds {numChunks mThreadCount : ℤ} (hthreads : 1 ≤ mThreadCount)
    (hchunks : 2 ≤ numChunks) :
    max ((numChunks + mThreadCount).tdiv (mThreadCount + 1)) 1 ≤ numChunks - 1 := by
  rw [Int.tdiv_eq_ediv_of_nonneg (by omega)]
  refine max_le ?_ (by omega)
  refine Int.le_sub_one_of_lt (Int.ediv_lt_of_lt_mul (by omega) ?_)
  nlinarith

theorem chunks_bounds {length step : ℤ} (hlength : 0 < length) (hstep : 0 < step) :
    1 ≤ (length + step).tdiv step ∧ ((length + step).tdiv step - 1) * step ≤ length := by
  rw [Int.tdiv_eq_ediv_of_nonneg (by omega), Int.add_ediv_of_dvd_right (dvd_refl step),
    Int.ediv_self hstep.ne', add_sub_cancel_right]
  exact ⟨by have := Int.ediv_nonneg hlength.le hstep.le; omega, Int.ediv_mul_le _ hstep.ne'⟩

theorem parallelFor_planned {mThreadCount from' to' chunkCount step : ℤ} {plan : Plan}
    (hthreads : 1 ≤ mThreadCount) (hstep : 1 ≤ step)
    (h : parallelFor mThreadCount from' to' chunkCount step = .ok plan) :
    Planned from' to' plan := by
  rw [parallelFor] at h
  by_cases hempty : to' ≤ from'
  · rw [if_pos hempty] at h
    obtain rfl := Except.ok.inj h
    exact .nothing hempty
  rw [if_neg hempty] at h
  obtain ⟨chunkCount, -, h⟩ := bind_eq_ok.mp h
  obtain ⟨length, hlength, h⟩ := bind_eq_ok.mp h
  obtain ⟨rounded, -, h⟩ := bind_eq_ok.mp h
  obtain ⟨chunkSize, -, h⟩ := bind_eq_ok.mp h
  dsimp only at h
  obtain ⟨total, htotal, h⟩ := bind_eq_ok.mp h
  obtain ⟨numChunks, hnumChunks, h⟩ := bind_eq_ok.mp h
  have hnumChunks := div_eq_ok hnumChunks
  rw [int_eq_ok htotal, int_eq_ok hlength] at hnumChunks
  have hsize : 0 < max chunkSize step := lt_max_of_lt_right hstep
  obtain ⟨hpos, hreach⟩ := chunks_bounds (sub_pos.mpr (not_le.mp hempty)) hsize
  rw [← hnumChunks] at hpos hreach
  by_cases hone : numChunks = 1
  · rw [if_pos hone] at h
    obtain rfl := Except.ok.inj h
    exact .alone (not_le.mp hempty)
  rw [if_neg hone] at h
  obtain ⟨sum, hsum, h⟩ := bind_eq_ok.mp h
  obtain ⟨threads, hthreads', h⟩ := bind_eq_ok.mp h
  obtain ⟨share, hshare, h⟩ := bind_eq_ok.mp h
  obtain ⟨onThreads, honThreads, h⟩ := bind_eq_ok.mp h
  obtain ⟨submitted, hsubmitted, h⟩ := bind_eq_ok.mp h
  obtain ⟨offset, hoffset, h⟩ := bind_eq_ok.mp h
  obtain ⟨rest, hrest, h⟩ := bind_eq_ok.mp h
  obtain rfl := Except.ok.inj h
  have hmost := share_bounds hthreads (by omega : 2 ≤ numChunks)
  rw [← int_eq_ok hsum, ← int_eq_ok hthreads', ← div_eq_ok hshare] at hmost
  have honThreads := int_eq_ok honThreads
  have hnat : (onThreads.toNat : ℤ) = onThreads := Int.toNat_of_nonneg (by omega)
  have hle : onThreads * max chunkSize step ≤ (numChunks - 1) * max chunkSize step :=
    mul_le_mul_of_nonneg_right (by omega) (by omega)
  have hbefore : from' + onThreads.toNat * max chunkSize step ≤ to' := by
    rw [hnat]
    omega
  have hshared := Planned.shared _ _ hsize hbefore
  rwa [hnat, jobs, ← mapM_jobRange hsubmitted, ← int_eq_ok hoffset, ← int_eq_ok hrest] at hshared

theorem Planned.tiles {from' to' : ℤ} {plan : Plan} (h : Planned from' to' plan) :
    Tiles from' to' plan.ranges := by
  cases h with
  | nothing h => exact tiles_nil h
  | alone h => exact (tiles_nil le_rfl).snoc le_rfl h.le
  | shared step n hstep hn =>
    refine (tiles_jobs from' hstep.le n).snoc ?_ hn
    have := mul_nonneg (Int.natCast_nonneg n) hstep.le
    omega

theorem Planned.cleared {from' to' : ℤ} {plan : Plan} (h : Planned from' to' plan) :
    plan.cleared.getD 0 = plan.submitted.length ∧ (plan.cleared = none → plan.submitted = []) := by
  cases h with
  | nothing _ => exact ⟨rfl, fun _ => rfl⟩
  | alone _ => exact ⟨rfl, fun _ => rfl⟩
  | shared step n _ _ => exact ⟨by simp [jobs], fun h => by cases h⟩

/-! ## The threads -/

/-- Where the thread that called `parallel_for` is. -/
inductive Caller
  /-- before `status.Clear` -/
  | clear
  /-- before the section in which it submits -/
  | submit
  /-- before its own chunk -/
  | own
  /-- in `Wait` -/
  | wait
  | returned
  deriving DecidableEq, Repr

/-- The `status` of a call, with its jobs and what has run. -/
structure Call where
  mRemaining : ℕ
  caller : Caller
  queued : Multiset (ℤ × ℤ)
  /-- Taken by a worker, before `chunk(i0, i1)`. -/
  taken : Multiset (ℤ × ℤ)
  /-- Before `status.Notify()`. -/
  notifying : Multiset (ℤ × ℤ)
  notified : Multiset (ℤ × ℤ)
  /-- The chunks that have run, in any thread. -/
  ran : Multiset (ℤ × ℤ)

namespace Call

/-- `JobStatus status;` -/
def start : Call := ⟨0, .clear, 0, 0, 0, 0, 0⟩

/-- `Notify`; the other result is whether it counted. -/
def notify (mRemaining : ℕ) : Bool × ℕ :=
  if mRemaining = 0 then (false, mRemaining) else (true, mRemaining - 1)

/-- **What the threads do**, one section or chunk at a time.  A worker takes a job in any order:
which one is `mFifo`'s affair. -/
inductive Step (plan : Plan) : Call → Call → Prop
  | clear {s : Call} {count : ℕ} (hcaller : s.caller = .clear) (h : plan.cleared = some count) :
    Step plan s { s with mRemaining := count, caller := .submit }
  | skip {s : Call} (hcaller : s.caller = .clear) (h : plan.cleared = none) :
    Step plan s { s with caller := .own }
  | submit {s : Call} (hcaller : s.caller = .submit) :
    Step plan s { s with queued := plan.submitted, caller := .own }
  | own {s : Call} (hcaller : s.caller = .own) :
    Step plan s { s with ran := plan.own.toList + s.ran, caller := .wait }
  | wait {s : Call} (hcaller : s.caller = .wait) (h : s.mRemaining = 0) :
    Step plan s { s with caller := .returned }
  | take {s : Call} {r : ℤ × ℤ} {rest : Multiset (ℤ × ℤ)} (h : s.queued = r ::ₘ rest) :
    Step plan s { s with queued := rest, taken := r ::ₘ s.taken }
  | chunk {s : Call} {r : ℤ × ℤ} {rest : Multiset (ℤ × ℤ)} (h : s.taken = r ::ₘ rest) :
    Step plan s { s with taken := rest, notifying := r ::ₘ s.notifying, ran := r ::ₘ s.ran }
  | notify {s : Call} {r : ℤ × ℤ} {rest : Multiset (ℤ × ℤ)} (h : s.notifying = r ::ₘ rest) :
    Step plan s { s with notifying := rest, notified := r ::ₘ s.notified,
                         mRemaining := (Call.notify s.mRemaining).2 }

/-- The states of a call, over any interleaving. -/
def Reachable (plan : Plan) : Call → Prop := Relation.ReflTransGen (Step plan) start

/-- The jobs that have been submitted. -/
def jobs (s : Call) : Multiset (ℤ × ℤ) := s.queued + s.taken + s.notifying + s.notified

end Call

/-- The jobs there are, from where the caller is. -/
def Plan.jobsBy (plan : Plan) : Caller → Multiset (ℤ × ℤ)
  | .clear | .submit => 0
  | .own | .wait | .returned => plan.submitted

/-- The notifications that `mRemaining` was set to wait for. -/
def Plan.countBy (plan : Plan) : Caller → ℕ
  | .clear => 0
  | .submit | .own | .wait | .returned => plan.submitted.length

/-- What the caller has run. -/
def Plan.ownBy (plan : Plan) : Caller → Multiset (ℤ × ℤ)
  | .clear | .submit | .own => 0
  | .wait | .returned => plan.own.toList

namespace Call

/-- **Where the jobs are**, and what `mRemaining` counts. -/
structure Consistent (plan : Plan) (s : Call) : Prop where
  jobs : s.jobs = plan.jobsBy s.caller
  counted : s.mRemaining + s.notified.card = plan.countBy s.caller
  ran : s.ran = s.notifying + s.notified + plan.ownBy s.caller
  returned : s.caller = .returned → s.mRemaining = 0

theorem Consistent.start (plan : Plan) : Consistent plan start where
  jobs := rfl
  counted := rfl
  ran := rfl
  returned h := by cases h

theorem Consistent.remaining_pos {plan : Plan} {s : Call} (hs : Consistent plan s) {r : ℤ × ℤ}
    (hr : r ∈ s.notifying) : 0 < s.mRemaining := by
  have hmem : r ∈ plan.jobsBy s.caller := by
    rw [← hs.jobs]
    exact Multiset.mem_add.mpr (.inl (Multiset.mem_add.mpr (.inr hr)))
  have hcount : plan.countBy s.caller = (plan.jobsBy s.caller).card := by
    cases hcaller : s.caller with
    | clear | submit =>
      rw [hcaller] at hmem
      exact absurd hmem (Multiset.notMem_zero r)
    | own | wait | returned => rfl
  have hpos : 0 < s.notifying.card := Multiset.card_pos_iff_exists_mem.mpr ⟨r, hr⟩
  have hcard := hs.counted
  rw [hcount, ← hs.jobs, Call.jobs] at hcard
  simp only [Multiset.card_add] at hcard
  omega

theorem Consistent.step {plan : Plan} {s s' : Call}
    (hcleared : plan.cleared.getD 0 = plan.submitted.length ∧
      (plan.cleared = none → plan.submitted = []))
    (hs : Consistent plan s) (h : Step plan s s') : Consistent plan s' := by
  obtain ⟨hjobs, hcounted, hran, hreturned⟩ := hs
  cases h with
  | clear hcaller h =>
    rw [hcaller] at hjobs hcounted hran
    rw [h, Option.getD_some] at hcleared
    have hnone : s.notified.card = 0 := by
      have := hcounted
      simp only [Plan.countBy] at this
      omega
    refine ⟨hjobs, ?_, hran, fun h => by cases h⟩
    simp only [Plan.countBy]
    rw [hnone, hcleared.1, add_zero]
  | skip hcaller h =>
    rw [hcaller] at hjobs hcounted hran
    have hnil := hcleared.2 h
    refine ⟨hjobs.trans ?_, hcounted.trans ?_, hran, fun h => by cases h⟩
    · simp [Plan.jobsBy, hnil]
    · simp [Plan.countBy, hnil]
  | submit hcaller =>
    rw [hcaller] at hjobs hcounted hran
    have hzero : s.taken + s.notifying + s.notified = 0 := by
      have := hjobs
      simp only [Call.jobs, Plan.jobsBy, add_eq_zero] at this
      simp [this]
    refine ⟨?_, hcounted, hran, fun h => by cases h⟩
    simp only [Call.jobs, Plan.jobsBy]
    rw [add_assoc, add_assoc, ← add_assoc s.taken, hzero, add_zero]
  | own hcaller =>
    rw [hcaller] at hjobs hcounted hran
    refine ⟨hjobs, hcounted, ?_, fun h => by cases h⟩
    simp only [Plan.ownBy] at hran ⊢
    rw [hran, add_zero, add_comm]
  | wait hcaller h =>
    rw [hcaller] at hjobs hcounted hran
    exact ⟨hjobs, hcounted, hran, fun _ => h⟩
  | take h =>
    refine ⟨?_, hcounted, hran, hreturned⟩
    rw [← hjobs]
    simp only [Call.jobs, h, Multiset.cons_add, Multiset.add_cons]
  | chunk h =>
    refine ⟨?_, hcounted, ?_, hreturned⟩
    · rw [← hjobs]
      simp only [Call.jobs, h, Multiset.cons_add, Multiset.add_cons]
    · simp only [hran, Multiset.cons_add]
  | notify h =>
    have hpos := Consistent.remaining_pos ⟨hjobs, hcounted, hran, hreturned⟩
      (h ▸ Multiset.mem_cons_self _ _)
    have hnotify : (Call.notify s.mRemaining).2 = s.mRemaining - 1 := by
      rw [Call.notify, if_neg hpos.ne']
    refine ⟨?_, ?_, ?_, fun hcaller => absurd (hreturned hcaller) hpos.ne'⟩
    · rw [← hjobs]
      simp only [Call.jobs, h, Multiset.cons_add, Multiset.add_cons]
    · simp only [hnotify, Multiset.card_cons]
      omega
    · simp only [hran, h, Multiset.cons_add, Multiset.add_cons]

theorem Consistent.of_reachable {plan : Plan}
    (hcleared : plan.cleared.getD 0 = plan.submitted.length ∧
      (plan.cleared = none → plan.submitted = [])) {s : Call} (h : Reachable plan s) :
    Consistent plan s := by
  induction h with
  | refl => exact .start plan
  | tail _ hstep ih => exact ih.step hcleared hstep

theorem Consistent.returned_ran {plan : Plan} {s : Call} (hs : Consistent plan s)
    (hreturned : s.caller = .returned) :
    s.notified = (plan.submitted : Multiset (ℤ × ℤ)) ∧
      s.ran = (plan.ranges : Multiset (ℤ × ℤ)) := by
  obtain ⟨hjobs, hcounted, hran, hzero⟩ := hs
  rw [hzero hreturned, hreturned, zero_add] at hcounted
  rw [hreturned] at hjobs hran
  have hle : s.notified ≤ plan.submitted := by
    rw [← show s.jobs = plan.submitted from hjobs]
    exact Multiset.le_add_left _ _
  have hall : s.notified = plan.submitted :=
    Multiset.eq_of_le_of_card_le hle (by rw [hcounted]; exact le_rfl)
  have hnone : s.notifying = 0 := by
    have hcard := congrArg Multiset.card hjobs
    simp only [Call.jobs, Multiset.card_add, hall, Plan.jobsBy] at hcard
    exact Multiset.card_eq_zero.mp (by omega)
  refine ⟨hall, ?_⟩
  rw [hran, hnone, hall, zero_add]
  exact Multiset.coe_add _ _

end Call

/-- **`parallel_for` covers its range exactly**: the chunks are disjoint, and together they are the
range; `Clear` gets the number of jobs; no job notifies twice, and `Wait` returns when each has and
when every chunk has run. -/
theorem parallelFor_covers (mThreadCount from' to' chunkCount step : ℤ)
    (hthreads : 1 ≤ mThreadCount) (hstep : 1 ≤ step) (plan : Plan)
    (h : parallelFor mThreadCount from' to' chunkCount step = .ok plan) :
    Tiles from' to' plan.ranges ∧
      plan.cleared.getD 0 = plan.submitted.length ∧
      (plan.cleared = none → plan.submitted = []) ∧
      ∀ s, Call.Reachable plan s → s.notified ≤ plan.submitted ∧
        (s.caller = .returned → s.notified = (plan.submitted : Multiset (ℤ × ℤ)) ∧
          s.ran = (plan.ranges : Multiset (ℤ × ℤ))) := by
  have hplanned := parallelFor_planned hthreads hstep h
  obtain ⟨hcount, hnone⟩ := hplanned.cleared
  refine ⟨hplanned.tiles, hcount, hnone, fun s hs => ?_⟩
  have hconsistent := Call.Consistent.of_reachable ⟨hcount, hnone⟩ hs
  refine ⟨?_, hconsistent.returned_ran⟩
  have hle : s.notified ≤ plan.jobsBy s.caller := by
    rw [← hconsistent.jobs]
    exact Multiset.le_add_left _ _
  refine hle.trans ?_
  cases s.caller with
  | clear | submit => exact Multiset.zero_le _
  | own | wait | returned => exact le_rfl

theorem parallelFor_covers_ten : ∃ plan, parallelFor 3 0 10 (-1) 1 = .ok plan ∧
    plan.submitted.length = 8 ∧ plan.own = some (8, 10) ∧ Tiles 0 10 plan.ranges :=
  ⟨⟨[(0, 1), (1, 2), (2, 3), (3, 4), (4, 5), (5, 6), (6, 7), (7, 8)], some (8, 10), some 8⟩,
    by decide, rfl, rfl,
    (parallelFor_covers 3 0 10 (-1) 1 (by decide) (by decide) _ (by decide)).1⟩

end DaScript.ParallelFor

import DaScript.Simulate.QsortAskedSafe

/-!
# Simulate/QsortAskedRuns — a sort is safe unless the scans cross

A turn of the sort is safe from a state where the scans do not cross, and fails from one where they
do; a block that always answers a question in the same way never lets them.
-/

namespace DaScript.QsortAsked

open Checked Qsort
open Arrays (Permutes)

variable {σ α : Type} {cmp : σ → α → α → Bool × σ} {nel : ℕ} {lo hi : ℕ} {wide : Bool}
  {st st₀ : σ × (ℕ → α)}

/-! ## One turn -/

variable (cmp) in
theorem find_run (hlo : lo < hi) (hnel : hi < nel) (st : σ × (ℕ → α)) (pivot : α) :
    ∃ first last s', find cmp nel pivot lo hi st = some ((first, last), (s', st.2)) ∧
      (lo < first ∧ first ≤ hi + 1) ∧ lo < last ∧ last ≤ hi := by
  have hkeeps : Keeps (fun a => a = st.2) (find cmp nel pivot lo hi) _ := keeps_find hlo hnel
  obtain ⟨fl, ⟨s', a'⟩, hrun, rfl, hfl⟩ := hkeeps.run rfl
  exact ⟨fl.1, fl.2, s', hrun, hfl⟩

theorem blockPartition_eq (hnel : lo < nel) {first last : ℕ} {s' : σ}
    (hfind : find cmp nel (st.2 lo) lo hi st = some ((first, last), (s', st.2))) :
    blockPartition cmp nel false lo hi st =
      (if first ≥ last then partitionTail cmp nel (st.2 lo) lo first last
      else do
        Checked.swap nel first last
        partitionTail cmp nel (st.2 lo) lo (first + 1) last) (s', st.2) := by
  unfold blockPartition
  rw [if_neg Bool.false_ne_true]
  have hread : Checked.read nel lo st = some (st.2 lo, st) := if_pos hnel
  exact (bind_of_some hread).trans (bind_of_some hfind)

theorem blockPartition_run (hlo : lo < hi) (hnel : hi < nel) (hwrap : nel < 2 ^ 64)
    (hcross : ¬ Crosses cmp nel lo hi st) :
    ∃ p st', blockPartition cmp nel false lo hi st = some (p, st') ∧
      Permutes lo (hi + 1) st.2 st'.2 ∧ lo ≤ p ∧ p ≤ hi := by
  obtain ⟨first, last, s', hfind, hfirst, hlast⟩ := find_run cmp hlo hnel st (st.2 lo)
  have hfit : first ≤ last + 1 := not_lt.mp fun h => hcross ⟨first, last, _, hfind, h⟩
  rw [blockPartition_eq (by omega) hfind]
  split
  next hge =>
    have htail : Total _ (partitionTail cmp nel (st.2 lo) lo first last) _ :=
      total_partitionTail ⟨hfirst.1, hfit⟩ hlast.2 hnel hwrap.le
    obtain ⟨p, s'', a'', hrun, hperm, hp⟩ := htail s' st.2 (.refl _ _ _)
    exact ⟨p, (s'', a''), hrun, hperm, hp⟩
  next hless =>
    have hswap : Permutes (lo + 1) (hi + 1) st.2 (Arrays.swap st.2 first last) :=
      .of_swap st.2 (by omega) (by omega)
    have htail : Total _ (partitionTail cmp nel (st.2 lo) lo (first + 1) last) _ :=
      total_partitionTail ⟨by omega, by omega⟩ hlast.2 hnel hwrap.le
    obtain ⟨p, s'', a'', hrun, hperm, hp⟩ := htail s' _ hswap
    refine ⟨p, (s'', a''), ?_, hperm, hp⟩
    exact (bind_of_some (if_pos (show first < nel ∧ last < nel by omega))).trans hrun

theorem blockPartition_fails (hlo : lo < hi) (hnel : hi < nel) (hwrap : nel < 2 ^ 64)
    (hcross : Crosses cmp nel lo hi st) : blockPartition cmp nel false lo hi st = none := by
  obtain ⟨first, last, st', hfind, hcross⟩ := hcross
  obtain ⟨first', last', s', hfind', hfirst, -⟩ := find_run cmp hlo hnel st (st.2 lo)
  obtain ⟨⟨rfl, rfl⟩, -⟩ : (first = first' ∧ last = last') ∧ st' = (s', st.2) := by
    rw [hfind'] at hfind
    simpa [eq_comm] using hfind
  rw [blockPartition_eq (by omega) hfind', if_pos (by omega)]
  exact partitionTail_fails hcross (by omega) hwrap _

theorem keeps_compareSwap {a₀ : ℕ → α} {i j : ℕ} (hi' : lo ≤ i ∧ i < hi) (hj : lo ≤ j ∧ j < hi)
    (hnel : hi ≤ nel) :
    Keeps (Permutes lo hi a₀) (compareSwap cmp nel i j) fun _ => True := by
  refine (keeps_less (by omega) (by omega)).bind fun b _ => ?_
  split
  · exact keeps_swap hi' hj hnel
  · exact .pure trivial

theorem keeps_medianOf3 {a₀ : ℕ → α} (hlo : lo < hi) (hnel : hi < nel) :
    Keeps (Permutes lo (hi + 1) a₀) (medianOf3 cmp nel lo hi) fun _ => True :=
  (keeps_compareSwap (by omega) (by omega) hnel).bind fun _ _ =>
    (keeps_compareSwap (by omega) (by omega) hnel).bind fun _ _ =>
      (keeps_compareSwap (by omega) (by omega) hnel).bind fun _ _ =>
        keeps_swap (by omega) (by omega) hnel

theorem partition_run (hlo : lo < hi) (hnel : hi < nel) (hwrap : nel < 2 ^ 64)
    (hcross : wide = false → 128 ≤ hi - lo → ¬ Crosses cmp nel lo hi st) :
    ∃ p st', partition cmp nel wide lo hi st = some (p, st') ∧
      Permutes lo (hi + 1) st.2 st'.2 ∧ lo ≤ p ∧ p ≤ hi := by
  unfold partition
  split
  next hlarge =>
    cases wide with
    | true => exact (keeps_hoarePartition hlo hnel).run (.refl _ _ _)
    | false => exact blockPartition_run hlo hnel hwrap (hcross rfl hlarge)
  next => exact (keeps_hoarePartition hlo hnel).run (.refl _ _ _)

/-- The frames are inside the array. -/
def Inside (nel : ℕ) (frames : List Qsort.Frame) : Prop := ∀ f ∈ frames, f.lo ≤ f.hi ∧ f.hi < nel

theorem inside_sides {f : Qsort.Frame} {p : ℕ} {stack frames : List Qsort.Frame}
    (h : Inside nel (f :: stack)) (hp : f.lo ≤ p ∧ p ≤ f.hi) (hframes : frames.Perm (sides f p)) :
    Inside nel (frames ++ stack) := by
  intro g hg
  have hf := h f List.mem_cons_self
  rcases List.mem_append.mp hg with hg | hg
  · rw [hframes.mem_iff, sides, List.mem_append] at hg
    rcases hg with hg | hg
    · split_ifs at hg
      · obtain rfl := List.mem_singleton.mp hg
        dsimp only
        omega
      · cases hg
    · split_ifs at hg
      · obtain rfl := List.mem_singleton.mp hg
        dsimp only
        omega
      · cases hg
  · exact h g (List.mem_cons_of_mem _ hg)

theorem sortStep_run {f : Qsort.Frame} {stack : List Qsort.Frame} (hf : f.lo < f.hi)
    (hinside : Inside nel (f :: stack)) (hhalved : Halved nel (f :: stack)) (hwrap : nel < 2 ^ 64)
    (hcross : ¬ Crossing cmp nel wide st (f :: stack)) :
    ∃ frames st', sortStep cmp nel wide f stack st = some (frames, st') ∧
      Permutes 0 nel st.2 st'.2 ∧ Inside nel frames ∧ Halved nel frames ∧
      turns frames < turns (f :: stack) := by
  have hnel := (hinside f List.mem_cons_self).2
  have hstack : Inside nel stack := fun g hg => hinside g (List.mem_cons_of_mem _ hg)
  have hturns : turns stack < turns (f :: stack) := by
    dsimp only [turns]
    omega
  have hrefl := Permutes.refl f.lo (f.hi + 1) st.2
  unfold sortStep
  split
  · have hkeeps : Keeps (Permutes f.lo (f.hi + 1) st.2)
        (insertionTail cmp nel f.lo (f.hi - f.lo)) fun _ => True :=
      keeps_insertionTail hnel _ (by omega)
    obtain ⟨_, st', hrun, hperm, -⟩ := hkeeps.run hrefl
    exact ⟨stack, st', (bind_of_some hrun).trans rfl, hperm.mono (by omega) (by omega), hstack,
      hhalved.2, hturns⟩
  · split
    · have hkeeps : Keeps (Permutes f.lo (f.lo + (f.hi - f.lo + 1)) st.2)
          (heapsortHelper cmp nel wide f.lo (f.hi - f.lo + 1)) fun _ => True :=
        keeps_heapsortHelper wide (by omega)
      obtain ⟨_, st', hrun, hperm, -⟩ := hkeeps.run (.refl _ _ _)
      exact ⟨stack, st', (bind_of_some hrun).trans rfl, hperm.mono (by omega) (by omega), hstack,
        hhalved.2, hturns⟩
    · next hdepth =>
      have hkeeps : Keeps (Permutes f.lo (f.hi + 1) st.2) (medianOf3 cmp nel f.lo f.hi) _ :=
        keeps_medianOf3 hf hnel
      obtain ⟨_, st', hmedian, hperm, -⟩ := hkeeps.run hrefl
      obtain ⟨p, st'', hpart, hperm', hp⟩ := partition_run hf hnel hwrap
        fun hwide hlarge h => hcross ⟨hwide, hdepth, hlarge, st', hmedian, h⟩
      obtain ⟨frames, hsplit, hframes, hhalved', hless⟩ := split_spec hf hp hhalved hwrap
      refine ⟨_, st'', (bind_of_some hmedian).trans ((bind_of_some hpart).trans ?_),
        (hperm.trans hperm').mono (by omega) (by omega), inside_sides hinside hp hframes, hhalved',
        hless⟩
      rw [hsplit]
      rfl

theorem sortStep_fails {f : Qsort.Frame} {stack : List Qsort.Frame} (hnel : f.hi < nel)
    (hwrap : nel < 2 ^ 64) (hcross : Crossing cmp nel wide st (f :: stack)) :
    sortStep cmp nel wide f stack st = none := by
  obtain ⟨rfl, hdepth, hlarge, st', hmedian, hcross⟩ := hcross
  unfold sortStep
  rw [if_neg (by omega), if_neg hdepth, bind_of_some hmedian]
  refine bind_fails fun p st'' hpart => ?_
  rw [partition, if_pos hlarge, blockPartition_fails (by omega) hnel hwrap hcross] at hpart
  cases hpart

/-! ## All turns -/

/-- What is before a turn of a run that started. -/
structure Ready (nel : ℕ) (frames : List Qsort.Frame) : Prop where
  inside : Inside nel frames
  halved : Halved nel frames

theorem ready_start (h : 1 < nel) : Ready nel [⟨0, nel - 1, maxDepth nel⟩] where
  inside := by
    intro f hf
    obtain rfl := List.mem_singleton.mp hf
    dsimp only
    omega
  halved := ⟨by dsimp only [Qsort.Frame.size, List.length_nil]; omega, trivial⟩

theorem sortTurn_run {frames : List Qsort.Frame} (h : Ready nel frames) (hwrap : nel < 2 ^ 64)
    (hcross : ¬ Crossing cmp nel wide st frames) :
    (frames = [] ∧ sortTurn cmp nel wide frames st = some (.inr (), st)) ∨
      ∃ frames' st', sortTurn cmp nel wide frames st = some (.inl frames', st') ∧
        Permutes 0 nel st.2 st'.2 ∧ Ready nel frames' ∧ turns frames' < turns frames := by
  cases frames with
  | nil => exact .inl ⟨rfl, rfl⟩
  | cons f stack =>
    refine .inr ?_
    unfold sortTurn
    dsimp only
    split
    next hf =>
      obtain ⟨frames, st', hrun, hperm, hinside, hhalved, hless⟩ :=
        sortStep_run hf h.inside h.halved hwrap hcross
      exact ⟨frames, st', (bind_of_some hrun).trans rfl, hperm, ⟨hinside, hhalved⟩, hless⟩
    next =>
      refine ⟨stack, st, rfl, .refl _ _ _, ⟨fun g hg => h.inside g (List.mem_cons_of_mem _ hg),
        h.halved.2⟩, ?_⟩
      dsimp only [turns]
      omega

theorem sortLoop_run (hwrap : nel < 2 ^ 64) (hsteady : Steady cmp nel wide st₀) :
    ∀ (n : ℕ) (frames : List Qsort.Frame) (st : σ × (ℕ → α)), turns frames < n →
    Reaches cmp nel wide st₀ frames st → Ready nel frames →
    ∃ st', loop (sortTurn cmp nel wide) n frames st = some ((), st') ∧
      Permutes 0 nel st.2 st'.2 := by
  intro n
  induction n with
  | zero => exact fun _ _ h => absurd h (Nat.not_lt_zero _)
  | succ n ih =>
    intro frames st hturns hreaches hready
    rcases sortTurn_run hready hwrap (hsteady frames st hreaches) with
      ⟨-, hturn⟩ | ⟨frames', st', hturn, hperm, hready', hless⟩
    · exact ⟨st, (bind_of_some hturn).trans rfl, .refl _ _ _⟩
    · obtain ⟨st'', hrun, hperm'⟩ := ih frames' st' (by omega) (.turn hreaches hturn) hready'
      exact ⟨st'', (bind_of_some hturn).trans hrun, hperm.trans hperm'⟩

theorem Reaches.completes {frames : List Qsort.Frame} (h : Reaches cmp nel wide st₀ frames st)
    (hsafe : Safe cmp nel wide st₀) :
    ∃ n st', loop (sortTurn cmp nel wide) n frames st = some ((), st') := by
  induction h with
  | start h =>
    obtain ⟨st', hrun, -⟩ := hsafe
    rw [qsort, if_neg (by omega)] at hrun
    exact ⟨_, st', hrun⟩
  | turn _ hturn ih =>
    obtain ⟨n, st', hrun⟩ := ih
    cases n with
    | zero => cases hrun
    | succ n =>
      rw [loop, bind_of_some hturn] at hrun
      exact ⟨n, st', hrun⟩

theorem Reaches.ready {frames : List Qsort.Frame} (h : Reaches cmp nel wide st₀ frames st)
    (hwrap : nel < 2 ^ 64) (hcross : ∀ frames st, Reaches cmp nel wide st₀ frames st →
      Ready nel frames → ¬ Crossing cmp nel wide st frames) : Ready nel frames := by
  induction h with
  | start h => exact ready_start h
  | @turn frames frames' st st' hreaches hturn ih =>
    rcases sortTurn_run ih hwrap (hcross frames st hreaches ih) with
      ⟨-, hturn'⟩ | ⟨frames'', st'', hturn', -, hready, -⟩
    · rw [hturn'] at hturn
      cases hturn
    · rw [hturn'] at hturn
      cases hturn
      exact hready

theorem Reaches.not_crossing {frames : List Qsort.Frame}
    (hreaches : Reaches cmp nel wide st₀ frames st) (hready : Ready nel frames)
    (hwrap : nel < 2 ^ 64) (hsafe : Safe cmp nel wide st₀) :
    ¬ Crossing cmp nel wide st frames := by
  intro hcross
  obtain ⟨n, st', hrun⟩ := hreaches.completes hsafe
  cases n with
  | zero => cases hrun
  | succ n =>
    cases frames with
    | nil => exact hcross
    | cons f stack =>
      have hnel := (hready.inside f List.mem_cons_self).2
      have hlarge := hcross.2.2.1
      have hturn : sortTurn cmp nel wide (f :: stack) st = none := by
        rw [sortTurn, if_pos (by omega), bind_fails]
        intro frames' st'' hstep
        rw [sortStep_fails hnel hwrap hcross] at hstep
        cases hstep
      rw [loop, bind_fails] at hrun
      · cases hrun
      · intro r st'' hturn'
        rw [hturn] at hturn'
        cases hturn'

theorem steady_of_safe (hwrap : nel < 2 ^ 64) (hsafe : Safe cmp nel wide st) :
    Steady cmp nel wide st := fun _ _ hreaches =>
  hreaches.not_crossing (hreaches.ready hwrap fun _ _ hreaches' hready =>
    hreaches'.not_crossing hready hwrap hsafe) hwrap hsafe

/-! ## A block that answers a question always in the same way -/

section Same

variable {f : α → α → Bool} {a : ℕ → α} {pivot : α}

theorem keeps_isAbove_same (hsame : ∀ s x y, (cmp s x y).1 = f x y) {i : ℕ} (hi' : i < nel) :
    Keeps (fun b => b = a) (isAbove cmp nel pivot i) fun b => b = f pivot (a i) := by
  rintro s b rfl
  exact ⟨_, _, b, (bind_of_some (if_pos hi')).trans rfl, rfl, hsame _ _ _⟩

theorem keeps_findFirst_same (hsame : ∀ s x y, (cmp s x y).1 = f x y) (hlo : lo < hi)
    (hnel : hi < nel) :
    Keeps (fun b => b = a) (findFirst cmp nel pivot hi (lo + 1)) fun first =>
      first ≤ hi + 1 ∧ ∀ k, lo < k → k < first → f pivot (a k) = false := by
  refine Keeps.loop (fun first => first ≤ hi + 1 ∧ ∀ k, lo < k → k < first → f pivot (a k) = false)
    (fun first => hi + 1 - first) (fun first h => ?_) ⟨by omega, fun k hk hk' => by omega⟩
    (by omega)
  split
  next hle =>
    refine (keeps_isAbove_same hsame (by omega)).bind fun above habove => ?_
    cases above with
    | true => exact .pure h
    | false =>
      refine .pure ⟨⟨by omega, fun k hk hk' => ?_⟩, by omega⟩
      rcases Nat.lt_succ_iff_lt_or_eq.mp hk' with hlt | rfl
      · exact h.2 k hk hlt
      · exact habove.symm
  next => exact .pure h

theorem keeps_findLast_same (hsame : ∀ s x y, (cmp s x y).1 = f x y) (hlo : lo < hi)
    (hnel : hi < nel) :
    Keeps (fun b => b = a) (findLast cmp nel pivot lo hi) fun last =>
      lo < last ∧ last ≤ hi ∧ ∀ k, last < k → k ≤ hi → f pivot (a k) = true := by
  refine Keeps.loop (fun last => lo < last ∧ last ≤ hi ∧ ∀ k, last < k → k ≤ hi →
    f pivot (a k) = true) (fun last => last) (fun last h => ?_)
    ⟨hlo, le_rfl, fun k hk hk' => by omega⟩ (by omega)
  refine (keeps_isAbove_same hsame (by omega)).bind fun above habove => ?_
  split
  next hyes =>
    split
    · exact .pure h
    · refine (Keeps.sub (by omega)).bind fun k hk => .pure ⟨⟨by omega, by omega, ?_⟩, by omega⟩
      intro k' hk' hle
      rcases Nat.eq_or_lt_of_le (show last ≤ k' by omega) with rfl | hlt
      · exact habove.symm.trans hyes
      · exact h.2.2 k' hlt hle
  next => exact .pure h

theorem not_crosses_same (hsame : ∀ s x y, (cmp s x y).1 = f x y) (hlo : lo < hi)
    (hnel : hi < nel) : ¬ Crosses cmp nel lo hi st := by
  have hfind : Keeps (fun b => b = st.2) (find cmp nel (st.2 lo) lo hi) fun fl =>
      fl.1 ≤ fl.2 + 1 := by
    refine (keeps_findFirst_same hsame hlo hnel).bind fun first hfirst => ?_
    dsimp only
    by_cases hless : first < hi
    · rw [if_pos hless]
      refine (keeps_findLast_same hsame hlo hnel).bind fun last hlast => .pure ?_
      dsimp only
      by_contra hcross
      -- the element before `first` would be above the pivot, and not
      have hno := hfirst.2 (first - 1) (by omega) (by omega)
      have hyes := hlast.2.2 (first - 1) (by omega) (by omega)
      rw [hno] at hyes
      cases hyes
    · rw [if_neg hless]
      exact .pure hfirst.1
  rintro ⟨first, last, st', hrun, hcross⟩
  obtain ⟨fl, st'', hrun', -, hle⟩ := hfind.run rfl
  rw [hrun] at hrun'
  cases hrun'
  dsimp only at hle
  omega

theorem steady_of_same (hsame : ∀ s x y, (cmp s x y).1 = f x y) (hwrap : nel < 2 ^ 64)
    (st : σ × (ℕ → α)) : Steady cmp nel wide st := by
  have hnot : ∀ frames st', Reaches cmp nel wide st frames st' → Ready nel frames →
      ¬ Crossing cmp nel wide st' frames := by
    rintro frames st' - hready hcross
    cases frames with
    | nil => exact hcross
    | cons f stack =>
      obtain ⟨-, -, hlarge, st'', -, hcross⟩ := hcross
      exact not_crosses_same hsame (by omega) (hready.inside _ List.mem_cons_self).2 hcross
  exact fun frames st' hreaches => hnot frames st' hreaches (hreaches.ready hwrap hnot)

end Same

/-! ## Safety -/

/-- **A sort is safe exactly if in no turn of it the scans cross**: whatever the block answers, it
comes to its end within its array and its stack. -/
theorem safe_iff_steady (cmp : σ → α → α → Bool × σ) (wide : Bool) (hwrap : nel < 2 ^ 64)
    (st : σ × (ℕ → α)) : Safe cmp nel wide st ↔ Steady cmp nel wide st := by
  constructor
  · exact steady_of_safe hwrap
  · intro hsteady
    unfold Safe qsort
    split
    · exact ⟨st, rfl, .refl _ _ _⟩
    · refine sortLoop_run hwrap hsteady _ _ st ?_ (.start (by omega)) (ready_start (by omega))
      dsimp only [turns, Qsort.Frame.size]
      omega

theorem safe_iff_steady_yes :
    Safe (fun (_ : Unit) (_ _ : ℕ) => (true, ())) 2000 false ((), fun i => i) :=
  (safe_iff_steady _ false (by decide) _).mpr
    (steady_of_same (f := fun _ _ => true) (fun _ _ _ => rfl) (by decide) _)

/-- Five times no, and then yes. -/
def fickle (asked : ℕ) (_ _ : ℕ) : Bool × ℕ := (decide (5 ≤ asked), asked + 1)

set_option maxRecDepth 20000 in
theorem fickle_crossing : Crossing fickle 129 false (0, fun i => i)
    [⟨0, 129 - 1, maxDepth 129⟩] := by
  refine ⟨rfl, ?_, by decide, _, rfl, 3, 1, _, rfl, by decide⟩
  rw [maxDepth]
  exact Nat.succ_ne_zero _

theorem fickle_not_safe : 129 < 2 ^ 64 ∧ ¬ Safe fickle 129 false (0, fun i => i) := by
  refine ⟨by decide, fun hsafe => ?_⟩
  have hready : Ready 129 [⟨0, 129 - 1, maxDepth 129⟩] := ready_start (by decide)
  exact Reaches.not_crossing (.start (by decide)) hready (by decide) hsafe fickle_crossing

end DaScript.QsortAsked

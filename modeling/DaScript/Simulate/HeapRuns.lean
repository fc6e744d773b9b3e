import DaScript.Simulate.HeapCollect

/-!
# Simulate/HeapRuns — whole runs of the persistent heap

A run is any sequence of the heap's operations, each `free` and `reallocate` being given a block
that is held and the size it was asked for with; between two of them the program may write what it
likes.  Every state a run reaches tracks what the callers hold (`Reach.tracks`), and from that
follows what they may rely on (`Sound`).
-/

open Function

namespace DaScript

open Bitmap Block

/-- The operations of a heap, and the program writing to memory. -/
inductive HeapOp
  | allocate (size : ℕ)
  | free (b : Block)
  | reallocate (b : Block) (size : ℕ)
  | reset
  | collect (marks : List Block)
  | setInitialSize (size : ℕ)
  | setGrowFunction (fn : ℕ → ℕ)
  | write (mem : Memory)

namespace MemoryModel

/-- **One operation**, and what the callers hold before and after it.  Calls that stop the process
have no step. -/
inductive Step : MemoryModel → List Block → HeapOp → MemoryModel → List Block → Prop
  | null {m L posix} {m' : MemoryModel} (hcall : m.allocate posix 0 = .ok (none, m')) :
      Step m L (.allocate 0) m' L
  | allocate {m L posix size p} {m' : MemoryModel} (hp : Honest m.held posix) (hpos : 0 < size)
      (hsize : size < 2 ^ 64) (hcall : m.allocate posix size = .ok (some p, m')) :
      Step m L (.allocate size) m' (⟨p, size⟩ :: L)
  | free {m L b r} {m' : MemoryModel} (hb : b ∈ L) (hcall : m.free b.ptr b.size = .ok (r, m')) :
      Step m L (.free b) m' (L.erase b)
  | reallocate {m L posix b size p} {m' : MemoryModel} (hp : Honest m.held posix) (hb : b ∈ L)
      (hsize : size < 2 ^ 64)
      (hcall : m.reallocate posix (some b.ptr) b.size size = .ok (some p, m')) :
      Step m L (.reallocate b size) m' (⟨p, size⟩ :: L.erase b)
  | reset {m L} : Step m L .reset m.reset []
  | collect {m L mark posix marks r} {m' : MemoryModel}
      (hmark : mark = heapMark ∨ mark = stringMark)
      (hmarks : ∀ b ∈ marks, b ∈ L) (hcall : collect mark posix marks m = .ok (r, m')) :
      Step m L (.collect marks) m' (L.filter (· ∈ marks))
  | setInitialSize {m L size} : Step m L (.setInitialSize size) (m.setInitialSize size) L
  | setGrowFunction {m L fn} : Step m L (.setGrowFunction fn) (m.setGrowFunction fn) L
  | write {m L mem} : Step m L (.write mem) { m with mem := mem } L

/-- **The states runs reach** when every step of theirs meets `ok`. -/
inductive Reach (ok : MemoryModel → List Block → HeapOp → Prop) : MemoryModel → List Block → Prop
  | start {mask max mem} (hmask : mask = 15 ∨ mask = 3) (hmax : max = maxShoe ∨ max = 0) :
      Reach ok (new mask max mem) []
  | step {m L op m' L'} (h : Reach ok m L) (hok : ok m L op) (hstep : Step m L op m' L') :
      Reach ok m' L'

/-- Any step will do. -/
def anyStep (_ : MemoryModel) (_ : List Block) (_ : HeapOp) : Prop := True

variable {m m' : MemoryModel} {L L' : List Block} {op : HeapOp}

/-! ## Steps keep track -/

theorem tracks_new {mask max : ℕ} {mem : Memory} (hmask : mask = 15 ∨ mask = 3)
    (hmax : max = maxShoe ∨ max = 0) : Tracks (new mask max mem) [] := by
  have hdecks : (new mask max mem).shoe.decks = [] := by simp [new, Shoe.new, Shoe.decks]
  have hheld : (new mask max mem).held = [] := by rw [held, hdecks]; rfl
  refine ⟨⟨hmask, hmax, ?_, ?_, ?_, ?_, ?_⟩, ?_, ?_⟩
  · exact fun si _ d hd => absurd hd List.not_mem_nil
  · exact fun d hd => absurd (hdecks ▸ hd) List.not_mem_nil
  · exact fun b hb => absurd hb List.not_mem_nil
  · rw [hheld]
    exact List.Pairwise.nil
  · exact fun b hb => absurd (hheld ▸ hb) List.not_mem_nil
  · exact fun b hb => absurd hb List.not_mem_nil
  · rw [blocks, hdecks]
    exact List.Perm.nil

theorem collect_step (T : Tracks m L)
    {mark : MemoryModel → ℕ → ℕ → Except Fault (Bool × MemoryModel)}
    (hmark : mark = heapMark ∨ mark = stringMark) {posix : Posix} {marks : List Block}
    (hmarks : ∀ b ∈ marks, b ∈ L) {r : List Bool}
    (hcall : collect mark posix marks m = .ok (r, m')) :
    Tracks m' (L.filter (· ∈ marks)) ∧ Same m m' ∧ m'.mem = m.mem ∧
      m'.totalAllocated = ((L.filter (· ∈ marks)).map fun b => (m.extent b).size).sum := by
  obtain ⟨m₁, hbegin, -⟩ := bind_eq_ok.mp hcall
  have hspec := collect_spec mark T (by
    rcases hmark with rfl | rfl
    · exact fun K _ hb => heapMark_spec T K hb
    · exact fun K _ hb => stringMark_spec T K hb) hmarks hbegin
  obtain ⟨m'', hm'', T', hsame, hmem, -, htotal⟩ := hspec
  obtain ⟨-, rfl⟩ := Prod.mk.inj (Except.ok.inj (hm''.symm.trans hcall))
  exact ⟨T', hsame, hmem, htotal⟩

theorem Step.tracks (h : Step m L op m' L') (T : Tracks m L) : Tracks m' L' ∧ Same m m' := by
  cases h with
  | null hcall =>
    obtain ⟨-, rfl⟩ := Prod.mk.inj (Except.ok.inj hcall)
    exact ⟨T, rfl, rfl⟩
  | allocate hp hpos hsize hcall =>
    rcases T.allocate hp hpos hsize with ⟨e, -, he⟩ | ⟨p, m'', hm'', T', hsame, -, -⟩
    · rw [hcall] at he
      cases he
    · obtain ⟨hp', rfl⟩ := Prod.mk.inj (Except.ok.inj (hcall.symm.trans hm''))
      exact ⟨Option.some.inj hp' ▸ T', hsame⟩
  | free hb hcall =>
    obtain ⟨m'', hm'', T', hsame, -, -⟩ := T.free hb
    obtain ⟨-, rfl⟩ := Prod.mk.inj (Except.ok.inj (hcall.symm.trans hm''))
    exact ⟨T', hsame⟩
  | reallocate hp hb hsize hcall =>
    rcases T.reallocate hp hb hsize with ⟨e, -, he⟩ | ⟨p, m'', hm'', hmoved⟩
    · rw [hcall] at he
      cases he
    · obtain ⟨hp', rfl⟩ := Prod.mk.inj (Except.ok.inj (hcall.symm.trans hm''))
      exact ⟨Option.some.inj hp' ▸ hmoved.tracks, hmoved.same⟩
  | reset => exact ⟨T.reset, rfl, rfl⟩
  | collect hmark hmarks hcall =>
    obtain ⟨T', hsame, -, -⟩ := collect_step T hmark hmarks hcall
    exact ⟨T', hsame⟩
  | setInitialSize => exact ⟨T.congr ⟨rfl, rfl⟩ rfl rfl, rfl, rfl⟩
  | setGrowFunction => exact ⟨T.congr ⟨rfl, rfl⟩ rfl rfl, rfl, rfl⟩
  | write => exact ⟨T.congr ⟨rfl, rfl⟩ rfl rfl, rfl, rfl⟩

theorem Reach.tracks {ok : MemoryModel → List Block → HeapOp → Prop} (h : Reach ok m L) :
    Tracks m L := by
  induction h with
  | start hmask hmax => exact tracks_new hmask hmax
  | step _ _ hstep ih => exact (hstep.tracks ih).1

/-! ## What the callers may rely on -/

/-- Where a block that is held lies: in a slot of one deck, or on its own. -/
def Houses (m : MemoryModel) (b : Block) : Prop :=
  (alignUp 15 b.size ≤ maxShoe ∧ ∃ d ∈ m.shoe.decks, d.size = alignUp 15 b.size ∧
      ⟨b.ptr, alignUp 15 b.size⟩ ∈ d.slots ∧ Within ⟨b.ptr, alignUp 15 b.size⟩ d.area) ∨
    ⟨b.ptr, m.aligned b⟩ ∈ m.bigStuff

/-- **What the callers of a heap may rely on** while they hold `L`. -/
structure Sound (m : MemoryModel) (L : List Block) : Prop where
  /-- what they hold lies apart -/
  apart : L.Pairwise Apart
  /-- in a deck, or on its own -/
  housed : ∀ b ∈ L, m.Houses b
  /-- the decks' counters are right -/
  counted : ∀ d ∈ m.shoe.decks, d.allocated = popcount d.bits (d.total / 32)
  /-- what they are given, they did not hold -/
  fresh : ∀ posix, Honest m.held posix → ∀ size < 2 ^ 64, ∀ p m',
    m.allocate posix size = .ok (some p, m') → ∀ b ∈ L, p ≠ b.ptr ∧ Apart ⟨p, size⟩ b
  /-- what they give back is taken -/
  freed : ∀ b ∈ L, ∃ m', m.free b.ptr b.size = .ok (true, m')
  /-- what they move keeps its bytes, and the rest stays -/
  moved : ∀ posix, Honest m.held posix → ∀ b ∈ L, ∀ size < 2 ^ 64, ∀ p m',
    m.reallocate posix (some b.ptr) b.size size = .ok (p, m') →
      ∃ q, p = some q ∧ (∀ i < min b.size size, m'.mem (q + i) = m.mem (b.ptr + i)) ∧
        ∀ c ∈ L, ∀ i < c.size, m'.mem (c.ptr + i) = m.mem (c.ptr + i)
  /-- no search of a deck comes to nothing -/
  found : ∀ posix, Honest m.held posix → ∀ size < 2 ^ 64,
    m.allocate posix size ≠ .error Deck.noBits ∧
    ∀ b ∈ L, m.reallocate posix (some b.ptr) b.size size ≠ .error Deck.noBits

theorem Tracks.within (T : Tracks m L) {b : Block} (hb : b ∈ L) : Within b (m.extent b) := by
  have := T.aligned_bounds hb
  exact ⟨le_rfl, by change b.ptr + b.size ≤ b.ptr + (m.extent b).size; omega⟩

theorem Tracks.bounds (T : Tracks m L) {b : Block} (hb : b ∈ L) :
    0 < b.size ∧ b.ptr + b.size ≤ addressSpace := by
  have hspace := (T.wf.blocks_space (T.extent_mem hb)).2.2
  have hend : b.ptr + b.size ≤ b.ptr + (m.extent b).size := (T.within hb).2
  exact ⟨(T.sizes b hb).1, hend.trans hspace⟩

theorem Tracks.houses (T : Tracks m L) {b : Block} (hb : b ∈ L) : m.Houses b := by
  have h := T.wf
  obtain ⟨hpos, -⟩ := T.sizes b hb
  obtain ⟨-, hround⟩ := mark_size h hpos (T.size_le hb)
  have hmem := T.extent_mem hb
  by_cases hsmall : alignUp m.alignMask b.size ≤ m.maxShoeAllocation
  · have hext : m.extent b = ⟨b.ptr, alignUp 15 b.size⟩ := by
      rw [extent, if_pos hsmall, hround hsmall]
    have hle : alignUp 15 b.size ≤ m.maxShoeAllocation :=
      (mark_size h hpos (T.size_le hb)).1.mpr hsmall
    rw [hext] at hmem
    obtain ⟨si, hsi, hsize, hslot⟩ := h.small_of_mem hmem hle
    obtain ⟨d, hd, hbd⟩ := List.mem_flatMap.mp hslot
    have hdecks : d ∈ m.shoe.decks := Shoe.mem_decks.mpr ⟨si, hsi, hd⟩
    refine Or.inl ⟨?_, d, hdecks, ?_, hbd, (h.deck_ok hdecks).within hbd⟩
    · rcases h.shoe_max with hmax | hmax <;> omega
    · rw [(h.chain si hsi d hd).2]
      exact hsize.symm
  · have hext : m.extent b = ⟨b.ptr, alignUp m.alignMask b.size⟩ := by
      rw [extent, if_neg hsmall]
    rw [hext] at hmem
    exact Or.inr (h.big_of_mem hmem (Nat.not_le.mp hsmall))

theorem Moved.bytes (T : Tracks m L) {b c : Block} (hb : b ∈ L) (hm : Moved m m' L b c) :
    (∀ i < min b.size c.size, m'.mem (c.ptr + i) = m.mem (b.ptr + i)) ∧
      ∀ d ∈ L, ∀ i < d.size, m'.mem (d.ptr + i) = m.mem (d.ptr + i) := by
  have hcL : c ∈ c :: L.erase b := List.mem_cons_self ..
  have hcb := hm.tracks.aligned_bounds hcL
  have hext : m'.extent = m.extent := hm.same.extent_eq
  have haligned : m'.aligned = m.aligned := by
    funext x
    rw [aligned, aligned, hm.same.mask]
  rw [hext, haligned] at hcb
  have hbb := T.aligned_bounds hb
  constructor
  · intro i hi
    rw [hm.mem]
    exact memcpy_of_mem _ (by omega)
  · intro d hd i hi
    rw [hm.mem]
    refine memcpy_of_notMem _ ?_
    have hdd := T.aligned_bounds hd
    rcases hm.apart d hd with hcd | hdc
    · change c.ptr + (m.extent c).size ≤ d.ptr at hcd
      right
      omega
    · change d.ptr + (m.extent d).size ≤ c.ptr at hdc
      left
      omega

theorem Tracks.sound (T : Tracks m L) : Sound m L := by
  refine ⟨?_, fun b hb => T.houses hb, fun d hd => (T.wf.deck_ok hd).allocated_eq, ?_, ?_, ?_, ?_⟩
  · exact T.apart.imp_of_mem fun hb hc h => h.mono (T.within hb) (T.within hc)
  · intro posix hp size hsize p m' hcall b hb
    have hpos : 0 < size := by
      refine Nat.pos_of_ne_zero fun h0 => ?_
      rw [h0] at hcall
      cases hcall
    rcases T.allocate hp hpos hsize with ⟨e, -, he⟩ | ⟨q, m'', hm'', T', hsame, -, -⟩
    · rw [hcall] at he
      cases he
    obtain ⟨hp', rfl⟩ := Prod.mk.inj (Except.ok.inj (hcall.symm.trans hm''))
    obtain rfl := Option.some.inj hp'
    have hnew := (List.pairwise_cons.mp T'.apart).1 b hb
    rw [hsame.extent_eq] at hnew
    have hwithin := T'.within (List.mem_cons_self ..)
    rw [hsame.extent_eq] at hwithin
    have hapart := hnew.mono hwithin (T.within hb)
    exact ⟨hapart.ptr_ne hpos (T.sizes b hb).1, hapart⟩
  · intro b hb
    obtain ⟨m', hm', -⟩ := T.free hb
    exact ⟨m', hm'⟩
  · intro posix hp b hb size hsize p m' hcall
    rcases T.reallocate hp hb hsize with ⟨e, -, he⟩ | ⟨q, m'', hm'', hmoved⟩
    · rw [hcall] at he
      cases he
    obtain ⟨hp', rfl⟩ := Prod.mk.inj (Except.ok.inj (hcall.symm.trans hm''))
    obtain ⟨hkept, hrest⟩ := hmoved.bytes T hb
    exact ⟨q, hp', hkept, hrest⟩
  · intro posix hp size hsize
    constructor
    · intro hcall
      rcases Nat.eq_zero_or_pos size with h0 | hpos
      · rw [h0] at hcall
        cases hcall
      rcases T.allocate hp hpos hsize with ⟨e, hne, he⟩ | ⟨q, m'', hm'', -⟩
      · exact hne (Except.error.inj (he.symm.trans hcall))
      · rw [hcall] at hm''
        cases hm''
    · intro b hb hcall
      rcases T.reallocate hp hb hsize with ⟨e, hne, he⟩ | ⟨q, m'', hm'', -⟩
      · exact hne (Except.error.inj (he.symm.trans hcall))
      · rw [hcall] at hm''
        cases hm''

/-- **The persistent heap never hands out overlapping or live memory**: in every state of every run,
whatever the grow function and whatever the system answers. -/
theorem reach_sound (h : Reach anyStep m L) : Sound m L := h.tracks.sound

/-- A system with one free block. -/
def onePage : Posix := fun n => if n ≤ 2 ^ 20 then some 4096 else none

theorem honest_onePage : Honest [] onePage := by
  intro n p hp
  rw [onePage] at hp
  split_ifs at hp with hn
  obtain rfl := Option.some.inj hp
  rw [addressSpace]
  exact ⟨by omega, by omega, by omega, fun b hb => absurd hb List.not_mem_nil⟩

theorem reach_sound_one : ∃ p m,
    (new 15 maxShoe fun _ => 0).allocate onePage 100 = .ok (some p, m) ∧ Sound m [⟨p, 100⟩] := by
  obtain ⟨p, m, hcall⟩ : ∃ p m,
    (new 15 maxShoe fun _ => 0).allocate onePage 100 = .ok (some p, m) := ⟨_, _, rfl⟩
  exact ⟨p, m, hcall, reach_sound (.step (.start (Or.inl rfl) (Or.inl rfl)) trivial
    (.allocate honest_onePage (by decide) (by decide) hcall))⟩

/-! ## Collections -/

/-- **A collection frees exactly the blocks that were not marked.**  Each first mark of a block says
so and no other does; the blocks that are left are out where they were with the bytes they had, no
mark is left in a big block's size, and the callers may rely on the heap as before. -/
theorem reach_collect (h : Reach anyStep m L) {marks : List Block} (hmarks : ∀ b ∈ marks, b ∈ L)
    {posix : Posix} {m₁ : MemoryModel} (hbegin : m.beginMark posix = .ok m₁) :
    ∃ m', collect heapMark posix marks m
        = .ok (marks.mapIdx fun i b => decide (b ∉ marks.take i), m') ∧
      ((L.filter (· ∈ marks)).map m.extent).Perm m'.blocks ∧ m'.mem = m.mem ∧
      (∀ d ∈ m'.shoe.decks, d.allocated = popcount d.bits (d.total / 32)) ∧
      (∀ b ∈ m'.bigStuff, b.size &&& pageGcMask = 0) ∧
      Sound m' (L.filter (· ∈ marks)) ∧ Reach anyStep m' (L.filter (· ∈ marks)) := by
  have T := h.tracks
  obtain ⟨m', hm', T', hsame, hmem, hbig, -⟩ :=
    collect_spec heapMark T (fun K _ hb => heapMark_spec T K hb) hmarks hbegin
  refine ⟨m', hm', hsame.extent_eq ▸ T'.blocks, hmem, T'.sound.counted, fun b hb => ?_, T'.sound,
    .step h trivial (.collect (Or.inl rfl) hmarks hm')⟩
  refine unmarked_and ?_
  have := (T.wf.blocks_space (List.mem_append_right _ (hbig b hb))).2.2
  rw [addressSpace] at this
  rw [pageGcMask]
  omega

theorem reach_collect_one : ∃ p m m',
    (new 15 maxShoe fun _ => 0).allocate onePage 100 = .ok (some p, m) ∧
    collect heapMark onePage [⟨p, 100⟩, ⟨p, 100⟩] m = .ok ([true, false], m') ∧
    Sound m' [⟨p, 100⟩] := by
  obtain ⟨p, m, hcall, m₁, hbegin⟩ : ∃ p m,
      (new 15 maxShoe fun _ => 0).allocate onePage 100 = .ok (some p, m) ∧
      ∃ m₁, m.beginMark onePage = .ok m₁ := ⟨_, _, rfl, _, rfl⟩
  have hmarks : ∀ b ∈ [(⟨p, 100⟩ : Block), ⟨p, 100⟩], b ∈ [(⟨p, 100⟩ : Block)] := by simp
  obtain ⟨m', hm', -, -, -, -, hsound, -⟩ :=
    reach_collect (.step (.start (Or.inl rfl) (Or.inl rfl)) trivial
      (.allocate honest_onePage (by decide) (by decide) hcall)) hmarks hbegin
  refine ⟨p, m, m', hcall, ?_, ?_⟩
  · simpa using hm'
  · simpa using hsound

end MemoryModel

end DaScript

import DaScript.Simulate.StringHeapSteps

/-!
# Simulate/StringHeapRuns — whole runs of the string heaps

A run is any sequence of the calls a program makes: strings are allocated and freed, recognized,
collected, and dropped all together by `reset`; in between the program may write wherever no
interned string lies.  The intern map is right in every state of a run whose steps are `Kept`: a
`reset` finds the map empty, and where a string is taken for as long as `strlen` says it is.
-/

open Function

namespace DaScript

open Block

/-- The calls of a program, and the program writing to memory. -/
inductive StringOp
  | allocateString (text : Option ℕ) (length : ℕ)
  | freeString (b : Block)
  | recognize (str : Option ℕ)
  | collect (marks : List Block)
  | reset
  | setIntern (enable : Bool)
  | write (mem : Memory)

namespace StringHeap

open StringSet

/-- **One call**, and the strings that are held before and after it, as blocks of their length and
one more.  Calls that stop the process have no step. -/
inductive Step {σ : Type} [LawfulHeap σ] :
    StringHeap σ → List Block → StringOp → StringHeap σ → List Block → Prop
  | again {s : StringHeap σ} {L posix text length p s'} (hagain : s.again text length = some p)
      (hcall : s.implAllocateString posix text length = .ok (some p, s')) :
      Step s L (.allocateString text length) s' L
  | allocateString {s : StringHeap σ} {L posix text length r s'}
      (hp : Honest (LawfulHeap.held s.heap) posix) (hlength : length < 2 ^ 64)
      (hagain : s.again text length = none)
      (hcall : s.implAllocateString posix text length = .ok (r, s')) :
      Step s L (.allocateString text length) s' (r.elim L fun p => ⟨p, length + 1⟩ :: L)
  | freeString {s : StringHeap σ} {L b s'} (hb : b ∈ L)
      (hcall : s.implFreeString b.ptr (b.size - 1) = .ok s') :
      Step s L (.freeString b) s' (L.erase b)
  | recognize {s : StringHeap σ} {L str s'} (hcall : s.recognize str = .ok s') :
      Step s L (.recognize str) s' L
  | reset {s : StringHeap σ} {L} : Step s L .reset s.reset []
  | setIntern {s : StringHeap σ} {L enable} : Step s L (.setIntern enable) (s.setIntern enable) L
  | write {s : StringHeap σ} {L mem}
      (hkeep : ∀ e ∈ s.internMap, bytes mem e.ptr e.length = bytes s.mem e.ptr e.length) :
      Step s L (.write mem) { s with heap := HeapAllocator.setMem s.heap mem } L

/-- **One call of a persistent heap**, which collects as well. -/
inductive PersistentStep :
    StringHeap PersistentHeap → List Block → StringOp →
      StringHeap PersistentHeap → List Block → Prop
  | call {s L op s' L'} (h : Step s L op s' L') : PersistentStep s L op s' L'
  | collect {s L posix marks r s'} (hmarks : ∀ b ∈ marks, b ∈ L)
      (hcall : s.collect posix marks = .ok (r, s')) :
      PersistentStep s L (.collect marks) s' (L.filter (· ∈ marks))

/-- **The states runs reach** when every step of theirs meets `ok`. -/
inductive Reach {σ : Type} (start : StringHeap σ → Prop)
    (step : StringHeap σ → List Block → StringOp → StringHeap σ → List Block → Prop)
    (ok : StringHeap σ → List Block → StringOp → Prop) : StringHeap σ → List Block → Prop
  | start {s} (h : start s) : Reach start step ok s []
  | step {s L op s' L'} (h : Reach start step ok s L) (hok : ok s L op)
      (hstep : step s L op s' L') : Reach start step ok s' L'

/-- A persistent heap nothing has been allocated on yet. -/
def PersistentStart (s : StringHeap PersistentHeap) : Prop :=
  ∃ counters max customGrow initialSize mem, (max = maxShoe ∨ max = 0) ∧
    s = ⟨⟨counters, { MemoryModel.new 3 max mem with
      customGrow := customGrow, initialSize := initialSize }⟩, [], false⟩

/-- A linear heap nothing has been allocated on yet. -/
def LinearStart (s : StringHeap LinearHeap) : Prop :=
  ∃ counters customGrow initialSize mem, initialSize ≤ uint32Max ∧
    s = ⟨⟨counters, { LinearChunks.new 3 mem with
      customGrow := customGrow, initialSize := initialSize }⟩, [], false⟩

/-- Any step will do. -/
def anyStep {σ : Type} (_ : StringHeap σ) (_ : List Block) (_ : StringOp) : Prop := True

variable {σ : Type} [LawfulHeap σ]

/-- **The steps the intern map survives**: no size wraps where the heap does not look, a pointer is
recognized only if it is a string that is held and as long as `strlen` says on 32 bits, what stays
in a collection is as long as that as well, and nothing is interned at a reset. -/
def Kept (s : StringHeap σ) (L : List Block) : StringOp → Prop
  | .allocateString _ length => LawfulHeap.sized σ ((length + 1) % 2 ^ 64)
  | .recognize (some str) => s.needIntern = true → ∀ n heap, strlen s.mem str = .ok n →
      HeapAllocator.isOwnPtr s.heap str (alignUp 15 (n % 2 ^ 32 + 1)) = .ok (true, heap) →
      s.internMap.find s.mem ⟨str, n % 2 ^ 32⟩ = none → ⟨str, n % 2 ^ 32 + 1⟩ ∈ L
  | .collect marks => s.needIntern = true → ∀ b ∈ marks, ∀ n, strlen s.mem b.ptr = .ok n →
      n % 2 ^ 32 + 1 = b.size
  | .reset => s.internMap = []
  | _ => True

/-- **A string heap in order**, while the strings `L` are held. -/
structure Interned (s : StringHeap σ) (L : List Block) : Prop where
  tracks : LawfulHeap.Tracks s.heap L
  off : s.needIntern = false → s.internMap = []
  right : Right s.mem L s.internMap

variable {s s' : StringHeap σ} {L L' : List Block} {op : StringOp}

/-! ## Steps keep it in order -/

theorem bytes_writeString {mem : Memory} {str length p n k : ℕ} {text : Option ℕ}
    (hspace : str + length < 2 ^ 64) (hn : n ≤ k) (hapart : Apart ⟨str, length + 1⟩ ⟨p, k⟩) :
    bytes (writeString mem str text length) p n = bytes mem p n := by
  refine bytes_congr fun i hi => ?_
  have hout : p + i < str ∨ str + length < p + i := by
    rcases hapart with h | h
    · change str + (length + 1) ≤ p at h
      omega
    · change p + k ≤ str at h
      omega
  rw [writeString, Nat.mod_eq_of_lt hspace, update_of_ne (by omega)]
  cases text with
  | none => rfl
  | some text => exact memcpy_of_notMem _ (by omega)

theorem again_mem {text : Option ℕ} {length p : ℕ} (hagain : s.again text length = some p) :
    length ≤ uint32Max ∧ ∃ t e, text = some t ∧
      s.internMap.find s.mem ⟨t, length % 2 ^ 32⟩ = some e ∧ e.ptr = p := by
  rw [again] at hagain
  split_ifs at hagain with hok
  obtain ⟨t, rfl, hfind⟩ := Option.bind_eq_some_iff.mp hagain
  obtain ⟨e, he, rfl⟩ := Option.map_eq_some_iff.mp hfind
  exact ⟨(of_decide_eq_true hok).2, t, e, rfl, he, rfl⟩

theorem again_state {posix : Posix} {text : Option ℕ} {length p : ℕ} {r : Option ℕ}
    (hagain : s.again text length = some p)
    (hcall : s.implAllocateString posix text length = .ok (r, s')) : s' = s := by
  rw [implAllocateString] at hcall
  by_cases h0 : length = 0
  · rw [if_pos h0] at hcall
    exact (Prod.mk.inj (Except.ok.inj hcall)).2.symm
  · rw [if_neg h0, hagain] at hcall
    exact (Prod.mk.inj (Except.ok.inj hcall)).2.symm

omit [LawfulHeap σ] in
theorem remember_right {mem : Memory} {str length : ℕ} {text : Option ℕ} (hL : ∀ b ∈ L, b ∈ L')
    (hstr : ⟨str, length + 1⟩ ∈ L') (hright : Right mem L s.internMap) :
    Right mem L' (s.remember mem str text length) := by
  rw [StringHeap.remember]
  split_ifs with hok
  · have hshort : length ≤ uint32Max := (of_decide_eq_true hok.1).2
    have hmod : length % 2 ^ 32 = length := by
      rw [uint32Max] at hshort
      exact Nat.mod_eq_of_lt (by omega)
    rw [hmod]
    exact (hright.mono hL).insert (fun _ => hstr) hshort
  · exact hright.mono hL

theorem Interned.allocateString (h : s.Interned L) {posix : Posix}
    (hp : Honest (LawfulHeap.held s.heap) posix) {text : Option ℕ} {length : ℕ}
    (hlength : length < 2 ^ 64) (hagain : s.again text length = none)
    (hsized : LawfulHeap.sized σ ((length + 1) % 2 ^ 64)) {r : Option ℕ}
    (hcall : s.implAllocateString posix text length = .ok (r, s')) :
    s'.Interned (r.elim L fun p => ⟨p, length + 1⟩ :: L) := by
  rw [implAllocateString] at hcall
  by_cases h0 : length = 0
  · rw [if_pos h0] at hcall
    obtain ⟨rfl, rfl⟩ := Prod.mk.inj (Except.ok.inj hcall)
    exact h
  rw [if_neg h0, hagain] at hcall
  obtain ⟨⟨str, heap⟩, halloc, hcall⟩ := bind_eq_ok.mp hcall
  obtain ⟨T, hmem⟩ := LawfulHeap.allocate h.tracks hp (Nat.mod_lt _ (by omega)) hsized halloc
  cases str with
  | none =>
    obtain ⟨rfl, rfl⟩ := Prod.mk.inj (Except.ok.inj hcall)
    refine ⟨T, h.off, ?_⟩
    change Right (HeapAllocator.mem heap) L s.internMap
    rw [hmem]
    exact h.right
  | some str =>
    obtain ⟨rfl, rfl⟩ := Prod.mk.inj (Except.ok.inj hcall)
    -- a string of no bytes at all is not handed out
    obtain ⟨hpos, hspace⟩ := LawfulHeap.bounds T _ (List.mem_cons_self ..)
    change 0 < (length + 1) % 2 ^ 64 at hpos
    change str + (length + 1) % 2 ^ 64 ≤ addressSpace at hspace
    change LawfulHeap.Tracks heap (⟨str, (length + 1) % 2 ^ 64⟩ :: L) at T
    rw [show (length + 1) % 2 ^ 64 = length + 1 by omega] at T hspace
    rw [addressSpace] at hspace
    have hnew := (List.pairwise_cons.mp (LawfulHeap.apart T)).1
    obtain ⟨T', hmem'⟩ :=
      LawfulHeap.written T (writeString (HeapAllocator.mem heap) str text length)
    have hright : Right (writeString (HeapAllocator.mem heap) str text length) L s.internMap := by
      refine h.right.congr fun e he => ?_
      rw [bytes_writeString (by omega) (Nat.le_succ _) (hnew (block e) (h.right.live e he)), hmem]
      rfl
    refine ⟨T', fun hoff => ?_, ?_⟩
    · have hno : ¬ s.internOk length = true := fun hok => by
        have := (of_decide_eq_true hok).1
        change s.needIntern = false at hoff
        rw [hoff] at this
        cases this
      change s.remember _ str text length = []
      rw [StringHeap.remember, if_neg fun hok => hno hok.1]
      exact h.off hoff
    · change Right (HeapAllocator.mem _) _ _
      rw [hmem']
      exact remember_right (fun b hb => List.mem_cons_of_mem _ hb) (List.mem_cons_self ..) hright

theorem Interned.freeString (h : s.Interned L) {b : Block} (hb : b ∈ L)
    (hcall : s.implFreeString b.ptr (b.size - 1) = .ok s') : s'.Interned (L.erase b) := by
  obtain ⟨heap, hfree, hcall⟩ := bind_eq_ok.mp hcall
  obtain rfl := Except.ok.inj hcall
  obtain ⟨hpos, hspace⟩ := LawfulHeap.bounds h.tracks b hb
  rw [addressSpace] at hspace
  rw [show (b.size - 1 + 1) % 2 ^ 64 = b.size by omega] at hfree
  obtain ⟨T, hmem⟩ := LawfulHeap.free h.tracks hb hfree
  refine ⟨T, fun hoff => ?_, ?_⟩
  · change (if _ then _ else s.internMap) = _
    split_ifs
    · rw [StringSet.erase, h.off hoff]
      rfl
    · exact h.off hoff
  · change Right (HeapAllocator.mem heap) _ (if _ then _ else s.internMap)
    rw [hmem]
    split_ifs with hok
    · have hshort : b.size - 1 ≤ uint32Max := (of_decide_eq_true hok).2
      rw [uint32Max] at hshort
      rw [Nat.mod_eq_of_lt (show b.size - 1 < 2 ^ 32 by omega)]
      exact h.right.erase
    · -- too long a string, or no interning: there is no entry to erase
      refine h.right.drop fun e he hblock => hok ?_
      have hshort := h.right.short e he
      have hlen : e.length + 1 = b.size := congrArg Block.size hblock
      refine decide_eq_true ⟨?_, by omega⟩
      by_contra hno
      rw [h.off (Bool.eq_false_iff.mpr hno)] at he
      exact absurd he List.not_mem_nil

theorem Interned.recognize (h : s.Interned L) {str : Option ℕ} (hok : Kept s L (.recognize str))
    (hcall : s.recognize str = .ok s') : s'.Interned L := by
  cases str with
  | none => exact Except.ok.inj hcall ▸ h
  | some str =>
    obtain ⟨n, hn, hcall⟩ := bind_eq_ok.mp hcall
    by_cases hon : s.needIntern = true
    · rw [if_pos hon] at hcall
      obtain ⟨⟨own, heap⟩, hown, hcall⟩ := bind_eq_ok.mp hcall
      obtain rfl := Except.ok.inj hcall
      obtain ⟨T, hmem⟩ := LawfulHeap.own h.tracks hown
      refine ⟨T, fun hoff => absurd hon (Bool.eq_false_iff.mp hoff), ?_⟩
      change Right (HeapAllocator.mem heap) L (if _ then _ else s.internMap)
      rw [hmem]
      split_ifs with htrue
      · refine h.right.insert (fun hnone => hok hon n heap hn (htrue ▸ hown) hnone) ?_
        change n % 2 ^ 32 ≤ uint32Max
        rw [uint32Max]
        omega
      · exact h.right
    · rw [if_neg hon] at hcall
      exact Except.ok.inj hcall ▸ h

theorem Step.interned (hstep : Step s L op s' L') (hok : Kept s L op) (h : s.Interned L) :
    s'.Interned L' := by
  cases hstep with
  | again hagain hcall =>
    obtain rfl := again_state hagain hcall
    exact h
  | allocateString hp hlength hagain hcall => exact h.allocateString hp hlength hagain hok hcall
  | freeString hb hcall => exact h.freeString hb hcall
  | recognize hcall => exact h.recognize hok hcall
  | reset =>
    refine ⟨(LawfulHeap.dropped h.tracks).1, fun _ => hok, ?_⟩
    change Right _ [] s.internMap
    rw [show s.internMap = [] from hok]
    exact Right.nil
  | @setIntern enable =>
    cases enable with
    | true => exact ⟨h.tracks, fun hoff => Bool.noConfusion hoff, h.right⟩
    | false => exact ⟨h.tracks, fun _ => rfl, Right.nil⟩
  | @write mem hkeep =>
    obtain ⟨T, hmem⟩ := LawfulHeap.written h.tracks mem
    refine ⟨T, h.off, ?_⟩
    change Right (HeapAllocator.mem _) L s.internMap
    rw [hmem]
    exact h.right.congr hkeep

/-! ## Collections -/

theorem mem_strings {m : MemoryModel} (hm : m.WellFormed) {p : ℕ} (hp : p ∈ m.strings) :
    ∃ b ∈ m.blocks, b.ptr = p := by
  rcases List.mem_append.mp hp with hp | hp
  · obtain ⟨d, hd, hp⟩ := List.mem_flatMap.mp hp
    obtain ⟨i, hi, hp⟩ := List.mem_flatMap.mp hp
    obtain ⟨j, hj, rfl⟩ := List.mem_map.mp hp
    obtain ⟨hj, hset⟩ := List.mem_filter.mp hj
    have hi := List.mem_range.mp hi
    have hj := List.mem_range.mp hj
    have htotal := (hm.deck_ok hd).total_words
    have hbit : Bitmap.bit d.bits (i * 32 + j) = true := by
      have hne := of_decide_eq_true hset
      rw [Ne, Bitmap.and_flag_eq_zero hj, Bool.not_eq_false] at hne
      rw [Bitmap.bit, show (i * 32 + j) / 32 = i by omega, show (i * 32 + j) % 32 = j by omega]
      exact hne
    refine ⟨d.slot (i * 32 + j), List.mem_append_left _ (List.mem_flatMap.mpr ⟨d, hd, ?_⟩), rfl⟩
    exact Deck.mem_slots.mpr ⟨_, by omega, hbit, rfl⟩
  · obtain ⟨b, hb, rfl⟩ := List.mem_map.mp hp
    exact ⟨b, List.mem_append_right _ hb, rfl⟩

theorem collect_eq {s s' : StringHeap PersistentHeap} {posix : Posix} {marks : List Block}
    {r : List Bool} (hcall : s.collect posix marks = .ok (r, s')) :
    ∃ m, MemoryModel.collect MemoryModel.stringMark posix marks s.heap.model = .ok (r, m) ∧
      s'.heap.model = m ∧ s'.needIntern = s.needIntern ∧
      (s.needIntern = false → s'.internMap = s.internMap) ∧
      (s.needIntern = true → insertAll m.mem m.strings [] = .ok s'.internMap) := by
  obtain ⟨m₁, hbegin, hcall⟩ := bind_eq_ok.mp hcall
  obtain ⟨⟨firsts, m₂⟩, hmarks, hcall⟩ := bind_eq_ok.mp hcall
  obtain ⟨s₃, hsweep, hcall⟩ := bind_eq_ok.mp hcall
  obtain ⟨rfl, rfl⟩ := Prod.mk.inj (Except.ok.inj hcall)
  obtain ⟨m₃, hm₃, hcall⟩ := bind_eq_ok.mp hsweep
  have hrun : MemoryModel.collect MemoryModel.stringMark posix marks s.heap.model
      = .ok (firsts, m₃) :=
    bind_eq_ok.mpr ⟨m₁, hbegin, bind_eq_ok.mpr ⟨(firsts, m₂), hmarks,
      bind_eq_ok.mpr ⟨m₃, hm₃, rfl⟩⟩⟩
  refine ⟨m₃, hrun, ?_⟩
  change (if s.needIntern = true then _ else _) = _ at hcall
  split_ifs at hcall with hon
  · obtain ⟨internMap, hmap, hcall⟩ := bind_eq_ok.mp hcall
    obtain rfl := Except.ok.inj hcall
    exact ⟨rfl, rfl, fun hoff => absurd hon (Bool.eq_false_iff.mp hoff), fun _ => hmap⟩
  · obtain rfl := Except.ok.inj hcall
    exact ⟨rfl, rfl, fun _ => rfl, fun hon' => absurd hon' hon⟩

theorem Interned.collect {s s' : StringHeap PersistentHeap} (h : s.Interned L) {posix : Posix}
    {marks : List Block} (hmarks : ∀ b ∈ marks, b ∈ L) (hok : Kept s L (.collect marks))
    {r : List Bool} (hcall : s.collect posix marks = .ok (r, s')) :
    s'.Interned (L.filter (· ∈ marks)) := by
  obtain ⟨m, hrun, hmodel, hintern, hoff, hon⟩ := collect_eq hcall
  obtain ⟨T, -, hmem, -⟩ := MemoryModel.collect_step h.tracks (Or.inr rfl) hmarks hrun
  refine ⟨show s'.heap.model.Tracks _ from hmodel ▸ T, fun hoff' => ?_, ?_⟩
  · rw [hintern] at hoff'
    rw [hoff hoff']
    exact h.off hoff'
  · change Right s'.heap.model.mem _ _
    rw [hmodel]
    by_cases hneed : s.needIntern = true
    · refine Right.insertAll (fun p hp n hn => ?_) Right.nil (hon hneed)
      obtain ⟨c, hc, rfl⟩ := mem_strings T.wf hp
      obtain ⟨b, hb, rfl⟩ := List.mem_map.mp (T.blocks.mem_iff.mpr hc)
      -- a string that is still held is a marked one
      have hbm : b ∈ marks := of_decide_eq_true (List.mem_filter.mp hb).2
      rw [hmem] at hn
      change strlen s.heap.model.mem b.ptr = _ at hn
      rw [hok hneed b hbm n hn]
      exact hb
    · rw [hoff (Bool.eq_false_iff.mpr hneed), h.off (Bool.eq_false_iff.mpr hneed)]
      exact Right.nil

/-! ## What the callers may rely on -/

/-- `p` is a string that is held, and it is `str` or has its text as far as `strncmp` reads. -/
def Answers (s : StringHeap σ) (L : List Block) (str length p : ℕ) : Prop :=
  ∃ n, ⟨p, n + 1⟩ ∈ L ∧ (p = str ∨ n = length ∧ strncmp s.mem p str length = 0)

/-- **What the callers of a string heap may rely on** while the strings `L` are held. -/
structure Sound (s : StringHeap σ) (L : List Block) : Prop where
  /-- an entry is a string that is held, with the bytes it was entered by -/
  live : ∀ e ∈ s.internMap, ⟨e.ptr, e.length + 1⟩ ∈ L ∧ bytes s.mem e.ptr e.length = e.text
  /-- what `intern` finds is held -/
  intern : ∀ str length p, s.intern str length = .ok (some p) → s.Answers L str length p
  /-- what `impl_allocateString` hands out is held, or apart from all that is -/
  allocated : ∀ posix, Honest (LawfulHeap.held s.heap) posix → ∀ text length p s',
    length < 2 ^ 64 → LawfulHeap.sized σ ((length + 1) % 2 ^ 64) →
    s.implAllocateString posix text length = .ok (some p, s') →
      (∃ str, text = some str ∧ s.Answers L str length p) ∨ ∀ b ∈ L, Apart ⟨p, length + 1⟩ b

theorem Interned.answers (h : s.Interned L) {str length : ℕ} (hlength : length ≤ uint32Max)
    {e : InternEntry} (hfind : s.internMap.find s.mem ⟨str, length % 2 ^ 32⟩ = some e) :
    s.Answers L str length e.ptr := by
  rw [uint32Max] at hlength
  rw [Nat.mod_eq_of_lt (by omega)] at hfind
  obtain ⟨hlive, hsame⟩ := h.right.find hfind
  exact ⟨e.length, hlive, hsame⟩

theorem Interned.sound (h : s.Interned L) : s.Sound L := by
  refine ⟨fun e he => ⟨h.right.live e he, h.right.text e he⟩, ?_, ?_⟩
  · intro str length p hcall
    rw [StringHeap.intern] at hcall
    split_ifs at hcall with hon hlength
    · obtain ⟨e, he, rfl⟩ := Option.map_eq_some_iff.mp (Except.ok.inj hcall)
      exact h.answers hlength he
    · cases Except.ok.inj hcall
  · intro posix hp text length p s' hlength hsized hcall
    cases hagain : s.again text length with
    | some q =>
      obtain ⟨hshort, str, e, rfl, he, rfl⟩ := again_mem hagain
      rw [implAllocateString, hagain] at hcall
      split_ifs at hcall
      · cases Except.ok.inj hcall
      · obtain ⟨hq, -⟩ := Prod.mk.inj (Except.ok.inj hcall)
        obtain rfl := Option.some.inj hq
        exact Or.inl ⟨str, rfl, h.answers hshort he⟩
    | none =>
      have h' := h.allocateString hp hlength hagain hsized hcall
      exact Or.inr (List.pairwise_cons.mp (LawfulHeap.apart h'.tracks)).1

/-! ## Runs -/

theorem PersistentStart.interned {s : StringHeap PersistentHeap} (h : PersistentStart s) :
    s.Interned [] := by
  obtain ⟨counters, max, customGrow, initialSize, mem, hmax, rfl⟩ := h
  have T : (MemoryModel.new 3 max mem).Tracks [] := MemoryModel.tracks_new (Or.inr rfl) hmax
  exact ⟨T.congr ⟨rfl, rfl⟩ rfl rfl, fun _ => rfl, Right.nil⟩

theorem LinearStart.interned {s : StringHeap LinearHeap} (h : LinearStart s) :
    s.Interned [] := by
  obtain ⟨counters, customGrow, initialSize, mem, hinit, rfl⟩ := h
  exact ⟨⟨⟨⟨Or.inr rfl, hinit, by simp [LinearChunks.new], .nil, by simp [LinearChunks.new]⟩,
    by simp, .nil, by simp⟩, rfl⟩, fun _ => rfl, Right.nil⟩

theorem PersistentStep.interned {s s' : StringHeap PersistentHeap}
    (hstep : PersistentStep s L op s' L') (hok : Kept s L op) (h : s.Interned L) :
    s'.Interned L' := by
  cases hstep with
  | call hcall => exact hcall.interned hok h
  | collect hmarks hcall => exact h.collect hmarks hok hcall

omit [LawfulHeap σ] in
theorem Reach.invariant {start : StringHeap σ → Prop}
    {step : StringHeap σ → List Block → StringOp → StringHeap σ → List Block → Prop}
    {ok : StringHeap σ → List Block → StringOp → Prop} {I : StringHeap σ → List Block → Prop}
    (hstart : ∀ s, start s → I s [])
    (hstep : ∀ s L op s' L', step s L op s' L' → ok s L op → I s L → I s' L')
    (h : Reach start step ok s L) : I s L := by
  induction h with
  | start h => exact hstart _ h
  | step _ hok hs ih => exact hstep _ _ _ _ _ hs hok ih

/-- **The intern map never dangles** in runs whose steps are kept: on the persistent heap and on
the linear one, its entries are strings that are held and have the bytes they were entered by, and
no pointer is handed out to memory that was given back or is another string's. -/
theorem reach_interned (L : List Block) :
    (∀ s, Reach PersistentStart PersistentStep Kept s L → s.Sound L) ∧
      ∀ s, Reach LinearStart Step Kept s L → s.Sound L := by
  constructor
  · intro s h
    exact (h.invariant (I := Interned) (fun _ => PersistentStart.interned)
      fun _ _ _ _ _ hs hok => hs.interned hok).sound
  · intro s h
    exact (h.invariant (I := Interned) (fun _ => LinearStart.interned)
      fun _ _ _ _ _ hs hok => hs.interned hok).sound

/-! ## The text `"a"` -/

/-- A process with `"a"` at address 100. -/
def letterA : Memory := fun a => if a = 100 then 97 else 0

/-- A persistent heap in it. -/
def onePersistent : StringHeap PersistentHeap :=
  ⟨⟨⟨0, 0, 0, 0⟩, MemoryModel.new 3 maxShoe letterA⟩, [], false⟩

/-- A linear heap in it. -/
def oneLinear : StringHeap LinearHeap := ⟨⟨⟨0, 0, 0, 0⟩, LinearChunks.new 3 letterA⟩, [], false⟩

theorem onePersistent_start : PersistentStart onePersistent :=
  ⟨_, _, none, 0, letterA, Or.inl rfl, rfl⟩

theorem oneLinear_start : LinearStart oneLinear := ⟨_, none, 0, letterA, by decide, rfl⟩

theorem reach_interned_one :
    (∃ p s, (onePersistent.setIntern true).implAllocateString MemoryModel.onePage (some 100) 1
        = .ok (some p, s) ∧ s.Sound [⟨p, 2⟩]) ∧
      ∃ p s, (oneLinear.setIntern true).implAllocateString MemoryModel.onePage (some 100) 1
        = .ok (some p, s) ∧ s.Sound [⟨p, 2⟩] := by
  constructor
  · obtain ⟨p, s, hcall⟩ : ∃ p s, (onePersistent.setIntern true).implAllocateString
      MemoryModel.onePage (some 100) 1 = .ok (some p, s) := ⟨_, _, rfl⟩
    have hkept : (onePersistent.setIntern true).Kept [] (.allocateString (some 100) 1) := trivial
    refine ⟨p, s, hcall, (reach_interned _).1 s (.step (.step (.start onePersistent_start) ?_
      (.call .setIntern)) hkept
      (.call (.allocateString MemoryModel.honest_onePage (by decide) rfl hcall)))⟩
    exact trivial
  · obtain ⟨p, s, hcall⟩ : ∃ p s, (oneLinear.setIntern true).implAllocateString
      MemoryModel.onePage (some 100) 1 = .ok (some p, s) := ⟨_, _, rfl⟩
    have hkept : (oneLinear.setIntern true).Kept [] (.allocateString (some 100) 1) :=
      show (1 + 1) % 2 ^ 64 + 3 < 2 ^ 64 by decide
    refine ⟨p, s, hcall, (reach_interned _).2 s (.step (.step (.start oneLinear_start) ?_
      .setIntern) hkept (.allocateString MemoryModel.honest_onePage (by decide) rfl hcall))⟩
    exact trivial

theorem reset_dangles :
    (∃ s, Reach PersistentStart PersistentStep anyStep s [] ∧
        ∃ p, s.intern 100 1 = .ok (some p)) ∧
      ∃ s, Reach LinearStart Step anyStep s [] ∧ ∃ p, s.intern 100 1 = .ok (some p) := by
  constructor
  · obtain ⟨p, s, hcall, hintern⟩ : ∃ p s, (onePersistent.setIntern true).implAllocateString
      MemoryModel.onePage (some 100) 1 = .ok (some p, s) ∧ s.reset.intern 100 1 = .ok (some p) :=
      ⟨_, _, rfl, rfl⟩
    refine ⟨s.reset, .step (.step (.step (.start onePersistent_start) trivial
      (.call .setIntern)) trivial (.call (.allocateString MemoryModel.honest_onePage (by decide) rfl
      hcall))) trivial (.call .reset), p, hintern⟩
  · obtain ⟨p, s, hcall, hintern⟩ : ∃ p s, (oneLinear.setIntern true).implAllocateString
      MemoryModel.onePage (some 100) 1 = .ok (some p, s) ∧ s.reset.intern 100 1 = .ok (some p) :=
      ⟨_, _, rfl, rfl⟩
    refine ⟨s.reset, .step (.step (.step (.start oneLinear_start) trivial .setIntern) trivial
      (.allocateString MemoryModel.honest_onePage (by decide) rfl hcall)) trivial .reset, p,
      hintern⟩

end StringHeap

end DaScript

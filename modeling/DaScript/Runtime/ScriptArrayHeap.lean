import DaScript.Runtime.ScriptArrayOps
import DaScript.Simulate.HeapRuns

/-!
# Runtime/ScriptArrayHeap — arrays on the persistent heap

`ArrayHeap` asks of a heap what the persistent one gives (`PersistentHeap.arrayHeap`): the block of
an array is held, so moving it keeps its bytes, and allocating another one changes none.
-/

namespace DaScript.PersistentHeap

variable {h h' : PersistentHeap} {L : List Block} {b : Block} {posix : Posix}

/-- The block and the memory a heap call ends with. -/
def answer (call : Except Fault (Option ℕ × PersistentHeap)) : Option (ℕ × Memory) :=
  match call with
  | .ok (some p, h) => some (p, h.model.mem)
  | _ => none

theorem answer_eq_some {call : Except Fault (Option ℕ × PersistentHeap)} {p : ℕ} {mem : Memory}
    (hans : answer call = some (p, mem)) :
    ∃ h', call = .ok (some p, h') ∧ h'.model.mem = mem := by
  rcases call with e | ⟨_ | q, h'⟩
  · exact nomatch hans
  · exact nomatch hans
  · obtain ⟨rfl, rfl⟩ := Prod.mk.inj (Option.some.inj hans)
    exact ⟨h', rfl, rfl⟩

theorem implAllocate_keeps (T : h.model.Tracks L) (hp : Honest h.model.held posix)
    {size p : ℕ} (hpos : 0 < size) (hsize : size < 2 ^ 64)
    (hcall : h.implAllocate posix size = .ok (some p, h')) :
    p ≠ 0 ∧ p + size ≤ addressSpace ∧
      h'.model.mem = h.model.mem := by
  unfold implAllocate at hcall
  split_ifs at hcall with hadm
  · obtain ⟨⟨q, m⟩, hm, heq⟩ := bind_eq_ok.mp hcall
    obtain ⟨rfl, rfl⟩ := Prod.mk.inj (Except.ok.inj heq)
    rcases T.allocate hp hpos hsize with ⟨e, -, herr⟩ | ⟨p', m', hm', T', -, hmem, -⟩
    · rw [herr] at hm
      exact nomatch hm
    · obtain ⟨hq, rfl⟩ := Prod.mk.inj (Except.ok.inj (hm'.symm.trans hm))
      obtain rfl := Option.some.inj hq
      have hin : (⟨p', size⟩ : Block) ∈ ⟨p', size⟩ :: L := List.mem_cons_self ..
      exact ⟨(T'.wf.blocks_space (T'.extent_mem hin)).1, (T'.bounds hin).2, hmem⟩
  · exact nomatch hcall

theorem implReallocate_moves (T : h.model.Tracks L) (hp : Honest h.model.held posix) (hb : b ∈ L)
    {size p : ℕ} (hsize : size < 2 ^ 64)
    (hcall : h.implReallocate posix (some b.ptr) b.size size = .ok (some p, h')) :
    p ≠ 0 ∧ p + size ≤ addressSpace ∧
      ∀ i < b.size, i < size → h'.model.mem (p + i) = h.model.mem (b.ptr + i) := by
  unfold implReallocate at hcall
  dsimp only at hcall
  split_ifs at hcall with hadm
  · obtain ⟨⟨q, m⟩, hm, heq⟩ := bind_eq_ok.mp hcall
    obtain ⟨rfl, rfl⟩ := Prod.mk.inj (Except.ok.inj heq)
    rcases T.reallocate hp hb hsize with ⟨e, -, herr⟩ | ⟨p', m', hm', hmoved⟩
    · rw [herr] at hm
      exact nomatch hm
    · obtain ⟨hq, rfl⟩ := Prod.mk.inj (Except.ok.inj (hm'.symm.trans hm))
      obtain rfl := Option.some.inj hq
      have hin : (⟨p', size⟩ : Block) ∈ ⟨p', size⟩ :: L.erase b := List.mem_cons_self ..
      refine ⟨(hmoved.tracks.wf.blocks_space (hmoved.tracks.extent_mem hin)).1,
        (hmoved.tracks.bounds hin).2, fun i hi hi' => ?_⟩
      exact (hmoved.bytes T hb).1 i (lt_min hi hi')
  · exact nomatch hcall

/-- **The persistent heap, as an array sees it** that holds the block `b`. -/
def arrayHeap (h : PersistentHeap) (posix : Posix) (verySafeContext : Bool)
    (T : h.model.Tracks L) (hp : Honest h.model.held posix) (hb : b ∈ L) :
    ArrayHeap h.model.mem b where
  verySafeContext := verySafeContext
  reallocate := fun size =>
    if size < 2 ^ 64 then answer (h.implReallocate posix (some b.ptr) b.size size) else none
  allocate := fun size =>
    if 0 < size ∧ size < 2 ^ 64 then answer (h.implAllocate posix size) else none
  reallocate_moves := fun hans => by
    split_ifs at hans with hsize
    · obtain ⟨h', hcall, rfl⟩ := answer_eq_some hans
      exact implReallocate_moves T hp hb hsize hcall
  allocate_keeps := fun hans => by
    split_ifs at hans with hsize
    · obtain ⟨h', hcall, rfl⟩ := answer_eq_some hans
      obtain ⟨hnull, hspace, hmem⟩ := implAllocate_keeps T hp hsize.1 hsize.2 hcall
      exact ⟨hnull, hspace, fun i _ => by rw [hmem]⟩

end DaScript.PersistentHeap

import Mathlib.Tactic

/-!
# Misc/HandleRegistry — objects behind handles that are safe to reuse

`misc/handle_registry.h`.  A handle is the generation of a slot and its index plus one.  Releasing
a slot raises its generation and puts it on the free list, which runs through the slots.

What a slot points to is of any type.  `held` is what a registry is for: a handle has the object it
was acquired with until it is released.
-/

namespace DaScript

structure Handle where
  value : BitVec 64
  deriving DecidableEq

namespace Handle

/-- `uint32_t(h.value & 0xFFFFFFFFu) - 1` -/
def idx (h : Handle) : BitVec 32 := h.value.setWidth 32 - 1

/-- `uint32_t(h.value >> 32)` -/
def gen (h : Handle) : BitVec 32 := (h.value >>> 32).setWidth 32

/-- `( uint64_t(s.generation) << 32 ) | uint64_t(idx + 1)` -/
def of (generation idx : BitVec 32) : Handle :=
  ⟨generation.setWidth 64 <<< 32 ||| (idx + 1).setWidth 64⟩

end Handle

structure Slot (T : Type) where
  ptr : Option T
  generation : BitVec 32
  nextFree : BitVec 32
  inUse : Bool

structure HandleRegistry (T : Type) where
  slots : List (Slot T)
  freeHead : BitVec 32

namespace HandleRegistry

variable {T : Type}

/-- The registry that begins. -/
def empty : HandleRegistry T := ⟨[], 0⟩

/-- `slots.emplace_back()` -/
def emplaceBack : Slot T := ⟨none, 1, 0, false⟩

/-- `acquire`; `none` where a slot is out of range. -/
def acquire (r : HandleRegistry T) (p : Option T) : Option (Handle × HandleRegistry T) :=
  match p with
  | none => some (⟨0⟩, r)
  | some p =>
    if r.freeHead ≠ 0 then
      let idx := r.freeHead - 1
      r.slots[idx.toNat]?.map fun s => (.of s.generation idx,
        { slots := r.slots.set idx.toNat ⟨some p, s.generation, 0, true⟩, freeHead := s.nextFree })
    else
      let idx := BitVec.ofNat 32 r.slots.length
      (r.slots ++ [emplaceBack])[idx.toNat]?.map fun s => (.of s.generation idx,
        { slots := (r.slots ++ [emplaceBack]).set idx.toNat ⟨some p, s.generation, 0, true⟩,
          freeHead := r.freeHead })

/-- The slot of a handle that is alive. -/
def slot (r : HandleRegistry T) (h : Handle) : Option (Slot T) :=
  if h.value = 0 then none
  else r.slots[h.idx.toNat]?.filter fun s => s.inUse ∧ s.generation = h.gen

def release (r : HandleRegistry T) (h : Handle) : Bool × HandleRegistry T :=
  match r.slot h with
  | none => (false, r)
  | some s => (true,
    { slots := r.slots.set h.idx.toNat ⟨none, s.generation + 1, r.freeHead, false⟩,
      freeHead := h.idx + 1 })

def lookup (r : HandleRegistry T) (h : Handle) : Option T := (r.slot h).bind Slot.ptr

def isAlive (r : HandleRegistry T) (h : Handle) : Bool := (r.slot h).isSome

/-! ## What it is for -/

/-- What happened: what a call was given, and what it returned. -/
inductive Event (T : Type)
  | acquire (p : Option T) (h : Handle)
  | release (h : Handle) (released : Bool)

/-- **What a handle has**, after what happened, the last first: what it was acquired with, unless it
has been released since. -/
def held : List (Event T) → Handle → Option T
  | [], _ => none
  | .acquire none _ :: events, h => held events h
  | .acquire (some p) h' :: events, h => if h' = h then some p else held events h
  | .release h' _ :: events, h => if h' = h then none else held events h

/-- The handles that were issued. -/
def issued : List (Event T) → List Handle
  | .acquire (some _) h :: events => h :: issued events
  | _ :: events => issued events
  | [] => []

/-- How often a slot was released. -/
def releases (i : BitVec 32) : List (Event T) → ℕ
  | .release h true :: events => releases i events + if h.idx = i then 1 else 0
  | _ :: events => releases i events
  | [] => 0

/-- What happens in a run of calls. -/
inductive Runs : HandleRegistry T → List (Event T) → Prop
  | empty : Runs empty []
  | acquire {r r' : HandleRegistry T} {events : List (Event T)} {p : Option T} {h : Handle}
      (hrun : Runs r events) (hcall : r.acquire p = some (h, r')) :
      Runs r' (.acquire p h :: events)
  | release {r : HandleRegistry T} {events : List (Event T)} (hrun : Runs r events) (h : Handle) :
      Runs (r.release h).2 (.release h (r.release h).1 :: events)

/-- The free list, from where it begins. -/
inductive FreeList (slots : List (Slot T)) : BitVec 32 → List (BitVec 32) → Prop
  | nil : FreeList slots 0 []
  | cons {i : BitVec 32} {s : Slot T} {rest : List (BitVec 32)} (hs : slots[i.toNat]? = some s)
      (hunused : s.inUse = false) (hne : i + 1 ≠ 0) (hrest : FreeList slots s.nextFree rest) :
      FreeList slots (i + 1) (i :: rest)

/-! ## Handles -/

theorem idx_of (generation idx : BitVec 32) : (Handle.of generation idx).idx = idx := by
  have h : (generation.setWidth 64 <<< 32 ||| (idx + 1).setWidth 64).setWidth 32 = idx + 1 := by
    refine BitVec.eq_of_getLsbD_eq fun j hj => ?_
    simp [hj]
  rw [Handle.idx, Handle.of, h, BitVec.add_sub_cancel]

theorem gen_of (generation idx : BitVec 32) : (Handle.of generation idx).gen = generation := by
  refine BitVec.eq_of_getLsbD_eq fun j hj => ?_
  have hlt : 32 + j < 64 := by omega
  simp [Handle.gen, Handle.of, hj, hlt]

theorem of_gen_idx (h : Handle) : Handle.of h.gen h.idx = h := by
  obtain ⟨value⟩ := h
  rw [Handle.of, Handle.gen, Handle.idx, BitVec.sub_add_cancel]
  refine congrArg Handle.mk (BitVec.eq_of_getLsbD_eq fun j hj => ?_)
  by_cases hlow : j < 32
  · simp [hj, hlow]
  · have hsub : j - 32 < 32 := by omega
    have hback : 32 + (j - 32) = j := by omega
    simp [hj, hlow, hsub, hback]

theorem value_of_ne_zero {generation idx : BitVec 32} (hidx : idx + 1 ≠ 0) :
    (Handle.of generation idx).value ≠ 0 := by
  intro h
  have hidx' := idx_of generation idx
  rw [Handle.idx, h] at hidx'
  exact hidx (by rw [← hidx']; rfl)

end HandleRegistry

end DaScript

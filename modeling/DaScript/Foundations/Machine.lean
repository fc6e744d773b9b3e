import Mathlib.Data.Nat.Bitwise
import Mathlib.Tactic

/-!
# Foundations/Machine — faults and 64-bit counters

What the C++ code can do instead of returning, and the few `uint64_t` operations whose wrap-around
matters.  Counters are natural numbers; a counter that could wrap goes through `dec64`.
-/

namespace DaScript

/-- **How a call ends when it does not return.** -/
inductive Fault
  /-- `Context::throw_error_at`: a script error, which a script may recover from -/
  | throw (msg : String)
  /-- a failed `DAS_VERIFYF`: the process stops -/
  | verify (msg : String)
  /-- a failed `DAS_ASSERT`: the process stops -/
  | assert (msg : String)
  /-- `DAS_FATAL_ERROR`: the process stops -/
  | fatal (msg : String)
  /-- the named null pointer is followed: the process stops -/
  | null (pointer : String)
  /-- the named loop never ends -/
  | hang (loop : String)
  /-- what C++ leaves undefined: a signed overflow, a write outside the block -/
  | undefined (what : String)
  deriving DecidableEq, Repr

/-- **The outcome of a call that works on a state** — the state is there whether or not the call
returns. -/
inductive Outcome (σ α : Type*)
  | ok (a : α) (s : σ)
  | error (e : Fault) (s : σ)
  deriving DecidableEq, Repr

/-- The state a call leaves behind. -/
def Outcome.state {σ α : Type*} : Outcome σ α → σ
  | .ok _ s => s
  | .error _ s => s

@[simp] theorem Outcome.state_ok {σ α : Type*} (a : α) (s : σ) : (Outcome.ok a s).state = s := rfl

@[simp] theorem Outcome.state_error {σ α : Type*} (e : Fault) (s : σ) :
    (Outcome.error e s : Outcome σ α).state = s := rfl

/-- One call after another. -/
def Outcome.bind {σ α β : Type*} (x : Outcome σ α) (f : α → σ → Outcome σ β) : Outcome σ β :=
  match x with
  | .ok a s => f a s
  | .error e s => .error e s

@[simp] theorem Outcome.bind_ok {σ α β : Type*} (a : α) (s : σ) (f : α → σ → Outcome σ β) :
    (Outcome.ok a s).bind f = f a s := rfl

@[simp] theorem Outcome.bind_error {σ α β : Type*} (e : Fault) (s : σ) (f : α → σ → Outcome σ β) :
    (Outcome.error e s : Outcome σ α).bind f = .error e s := rfl

theorem Outcome.bind_eq_ok {σ α β : Type*} {x : Outcome σ α} {f : α → σ → Outcome σ β} {b : β}
    {t : σ} : x.bind f = .ok b t ↔ ∃ a s, x = .ok a s ∧ f a s = .ok b t := by
  cases x with
  | error e s => simp
  | ok a s => simp [and_assoc]

theorem bind_eq_ok {ε α β : Type} {x : Except ε α} {f : α → Except ε β} {b : β} :
    x >>= f = .ok b ↔ ∃ a, x = .ok a ∧ f a = .ok b := by
  cases x with
  | error e => simp [bind, Except.bind]
  | ok a => simp [bind, Except.bind]

/-- `x--` on a `uint64_t`. -/
def dec64 (x : ℕ) : ℕ := if x = 0 then 2 ^ 64 - 1 else x - 1

theorem dec64_of_pos {x : ℕ} (h : 0 < x) : dec64 x = x - 1 := if_neg (by omega)

theorem two_pow_and_pred (e : ℕ) : 2 ^ e &&& (2 ^ e - 1) = 0 := by
  rw [Nat.and_two_pow_sub_one_eq_mod, Nat.mod_self]

end DaScript

import Mathlib.Tactic

/-!
# Machinery/Layout — parts laid out one behind the other

Each part of a composite begins at the next multiple of its alignment.
-/

namespace DaScript.Layout

/-- The next multiple of an alignment. -/
def roundUp (x align : ℕ) : ℕ := (x + (align - 1)) / align * align

section RoundUp

variable {x y align : ℕ}

theorem dvd_roundUp (x align : ℕ) : align ∣ roundUp x align := Dvd.intro_left _ rfl

theorem le_roundUp (halign : 0 < align) : x ≤ roundUp x align := by
  have hdiv := Nat.div_add_mod (x + (align - 1)) align
  have hmod := Nat.mod_lt (x + (align - 1)) halign
  rw [roundUp, Nat.mul_comm]
  omega

theorem roundUp_mono (align : ℕ) (hxy : x ≤ y) : roundUp x align ≤ roundUp y align :=
  Nat.mul_le_mul_right _ (Nat.div_le_div_right (by omega))

end RoundUp

/-- A part: its size, and its alignment. -/
structure Item where
  size : ℕ
  align : ℕ

/-- Where the parts begin. -/
def offsets : ℕ → List Item → List ℕ
  | _, [] => []
  | start, p :: rest => roundUp start p.align :: offsets (roundUp start p.align + p.size) rest

/-- Where they stop. -/
def stop : ℕ → List Item → ℕ
  | start, [] => start
  | start, p :: rest => stop (roundUp start p.align + p.size) rest

variable {start start' : ℕ} {parts more : List Item}

theorem stop_append : ∀ (start : ℕ) (parts : List Item),
    stop start (parts ++ more) = stop (stop start parts) more
  | _, [] => rfl
  | start, p :: rest => stop_append (roundUp start p.align + p.size) rest

theorem stop_mono (hstart : start ≤ start') : ∀ parts : List Item,
    stop start parts ≤ stop start' parts := by
  intro parts
  induction parts generalizing start start' with
  | nil => exact hstart
  | cons p rest ih => exact ih (Nat.add_le_add_right (roundUp_mono _ hstart) _)

theorem le_stop (hpos : ∀ p ∈ parts, 0 < p.align) : start ≤ stop start parts := by
  induction parts generalizing start with
  | nil => exact le_rfl
  | cons p rest ih =>
    rw [stop]
    have hle := le_roundUp (x := start) (hpos p (List.mem_cons_self ..))
    have hrest : roundUp start p.align + p.size ≤ stop (roundUp start p.align + p.size) rest :=
      ih fun q hq => hpos q (List.mem_cons_of_mem _ hq)
    omega

theorem length_offsets : ∀ (start : ℕ) (parts : List Item),
    (offsets start parts).length = parts.length
  | _, [] => rfl
  | start, p :: rest => congrArg Nat.succ (length_offsets (roundUp start p.align + p.size) rest)

/-- **Laid out**: parts at multiples of their alignment, one behind the other. -/
inductive Laid : ℕ → List Item → List ℕ → ℕ → Prop
  | nil {start till : ℕ} (h : start ≤ till) : Laid start [] [] till
  | cons {start till offset : ℕ} {p : Item} {rest : List Item} {offs : List ℕ}
      (hstart : start ≤ offset) (hdvd : p.align ∣ offset)
      (hrest : Laid (offset + p.size) rest offs till) :
      Laid start (p :: rest) (offset :: offs) till

theorem laid_offsets (hpos : ∀ p ∈ parts, 0 < p.align) :
    Laid start parts (offsets start parts) (stop start parts) := by
  induction parts generalizing start with
  | nil => exact .nil le_rfl
  | cons p rest ih =>
    exact .cons (le_roundUp (hpos p (List.mem_cons_self ..))) (dvd_roundUp _ _)
      (ih fun q hq => hpos q (List.mem_cons_of_mem _ hq))

theorem Laid.mono {till till' : ℕ} {offs : List ℕ} (h : Laid start parts offs till)
    (htill : till ≤ till') : Laid start parts offs till' := by
  induction h with
  | nil h => exact .nil (h.trans htill)
  | cons hstart hdvd hrest ih => exact .cons hstart hdvd (ih htill)

theorem Laid.append {o till till' : ℕ} {offs offs' : List ℕ} (h : Laid start parts offs till)
    (h' : Laid o more offs' till') (hle : till ≤ o) :
    Laid start (parts ++ more) (offs ++ offs') till' := by
  induction h with
  | nil h =>
    cases h' with
    | nil h'' => exact .nil ((h.trans hle).trans h'')
    | cons hstart hdvd hrest => exact .cons ((h.trans hle).trans hstart) hdvd hrest
  | cons hstart hdvd hrest ih => exact .cons hstart hdvd (ih hle)

end DaScript.Layout

import DaScript.Machinery.Arrays

/-!
# Machinery/Checked — programs on an array that is checked

A program reads and writes an array within a bound, and asks questions of someone who may answer as
he likes: he keeps a state of his own.  It fails at a place that is not in the array, at a number
that would go below zero, and where a loop has not left within the turns it is given.

`Keeps K m Q`: from every array with `K`, and whatever is answered, `m` does not fail, `K` holds of
the array that it leaves, and `Q` of what it returns.
-/

namespace DaScript.Checked

/-- A program: the state of who answers, and the array. -/
abbrev Program (σ α : Type) := StateT (σ × (ℕ → α)) Option

variable {σ α β γ : Type}

/-- Nothing more. -/
def fail : Program σ α β := fun _ => none

/-- An entry. -/
def read (bound i : ℕ) : Program σ α α := fun (s, a) =>
  if i < bound then some (a i, (s, a)) else none

/-- An entry is set. -/
def write (bound i : ℕ) (x : α) : Program σ α Unit := fun (s, a) =>
  if i < bound then some ((), (s, Function.update a i x)) else none

/-- Two entries change places. -/
def swap (bound i j : ℕ) : Program σ α Unit := fun (s, a) =>
  if i < bound ∧ j < bound then some ((), (s, Arrays.swap a i j)) else none

/-- A question. -/
def ask (cmp : σ → α → α → Bool × σ) (x y : α) : Program σ α Bool := fun (s, a) =>
  some ((cmp s x y).1, ((cmp s x y).2, a))

/-- `x - y`, where it is not below zero. -/
def sub (x y : ℕ) : Program σ α ℕ := if y ≤ x then pure (x - y) else fail

/-- What there is. -/
def lift : Option β → Program σ α β
  | some x => pure x
  | none => fail

/-- **A loop**: a turn goes on with a value, or leaves with one. -/
def loop (body : β → Program σ α (β ⊕ γ)) : ℕ → β → Program σ α γ
  | 0, _ => fail
  | n + 1, x => do
    match ← body x with
    | .inl y => loop body n y
    | .inr z => pure z

section Bind

variable {m : Program σ α β} {f : β → Program σ α γ} {st st' : σ × (ℕ → α)} {x : β}

theorem bind_of_some (h : m st = some (x, st')) : (m >>= f) st = f x st' := by
  change (m st).bind (fun r => f r.1 r.2) = _
  rw [h]
  rfl

theorem bind_fails (h : ∀ x st', m st = some (x, st') → f x st' = none) : (m >>= f) st = none := by
  change (m st).bind (fun r => f r.1 r.2) = none
  cases hm : m st with
  | none => rfl
  | some r => exact h r.1 r.2 hm

end Bind

/-- **From arrays of one kind to arrays of another, whatever is answered.** -/
def Total (P : (ℕ → α) → Prop) (m : Program σ α β) (Q : β → (ℕ → α) → Prop) : Prop :=
  ∀ s a, P a → ∃ x s' a', m (s, a) = some (x, (s', a')) ∧ Q x a'

/-- **An array is kept as it is to be.** -/
def Keeps (K : (ℕ → α) → Prop) (m : Program σ α β) (Q : β → Prop) : Prop :=
  Total K m fun x a => K a ∧ Q x

section Total

variable {P P' : (ℕ → α) → Prop} {m : Program σ α β} {f : β → Program σ α γ}
  {Q Q' : β → (ℕ → α) → Prop} {R : γ → (ℕ → α) → Prop}

theorem Total.pure {x : β} (h : ∀ a, P a → Q x a) : Total P (pure x : Program σ α β) Q :=
  fun s a ha => ⟨x, s, a, rfl, h a ha⟩

theorem Total.bind (hm : Total P m Q) (hf : ∀ x, Total (Q x) (f x) R) : Total P (m >>= f) R := by
  intro s a ha
  obtain ⟨x, s', a', hrun, hx⟩ := hm s a ha
  obtain ⟨y, s'', a'', hrun', hy⟩ := hf x s' a' hx
  refine ⟨y, s'', a'', ?_, hy⟩
  change (m (s, a)).bind (fun r => f r.1 r.2) = _
  rw [hrun]
  exact hrun'

theorem Total.mono (h : Total P m Q) (hP : ∀ a, P' a → P a) (hQ : ∀ x a, Q x a → Q' x a) :
    Total P' m Q' := by
  intro s a ha
  obtain ⟨x, s', a', hrun, hx⟩ := h s a (hP a ha)
  exact ⟨x, s', a', hrun, hQ x a' hx⟩

theorem Total.of_fact {p : Prop} (h : p → Total P m Q) : Total (fun a => P a ∧ p) m Q :=
  fun _ _ ha => h ha.2 _ _ ha.1

theorem Total.read {bound i : ℕ} {Q : α → (ℕ → α) → Prop} (hi : i < bound)
    (h : ∀ a, P a → Q (a i) a) : Total P (read bound i : Program σ α α) Q :=
  fun s a ha => ⟨a i, s, a, if_pos hi, h a ha⟩

theorem Total.write {bound i : ℕ} {x : α} {Q : Unit → (ℕ → α) → Prop} (hi : i < bound)
    (h : ∀ a, P a → Q () (Function.update a i x)) :
    Total P (write bound i x : Program σ α Unit) Q :=
  fun s a ha => ⟨(), s, _, if_pos hi, h a ha⟩

theorem Total.swap {bound i j : ℕ} {Q : Unit → (ℕ → α) → Prop} (hij : i < bound ∧ j < bound)
    (h : ∀ a, P a → Q () (Arrays.swap a i j)) :
    Total P (swap bound i j : Program σ α Unit) Q :=
  fun s a ha => ⟨(), s, _, if_pos hij, h a ha⟩

theorem Total.ask (cmp : σ → α → α → Bool × σ) {x y : α} {Q : Bool → (ℕ → α) → Prop}
    (h : ∀ b a, P a → Q b a) : Total P (ask cmp x y) Q :=
  fun _ a ha => ⟨_, _, a, rfl, h _ a ha⟩

theorem Total.loop {body : β → Program σ α (β ⊕ γ)} (I : β → (ℕ → α) → Prop) (size : β → ℕ)
    (hbody : ∀ x, Total (I x) (body x) fun r a =>
      match r with
      | .inl y => I y a ∧ size y < size x
      | .inr z => R z a) :
    ∀ (n : ℕ) (x : β), size x < n → Total (I x) (loop body n x) R := by
  intro n
  induction n with
  | zero => exact fun x h => absurd h (Nat.not_lt_zero _)
  | succ n ih =>
    intro x hx
    refine (hbody x).bind fun r => ?_
    cases r with
    | inl y => exact .of_fact fun hless => ih y (by omega)
    | inr z => exact .pure fun a ha => ha

theorem Total.of_each (h : ∀ a, P a → Total (fun b => b = a) m Q) : Total P m Q :=
  fun s a ha => h a ha s a rfl

theorem Total.read_at {bound i : ℕ} {a : ℕ → α} {f : α → Program σ α γ} (hi : i < bound)
    (h : Total (fun b => b = a) (f (a i)) R) :
    Total (fun b => b = a) (Checked.read bound i >>= f) R := by
  refine Total.bind (.read (Q := fun x b => b = a ∧ x = a i) hi ?_) fun x => .of_fact ?_
  · rintro b rfl
    exact ⟨rfl, rfl⟩
  · rintro rfl
    exact h

theorem Total.write_at {bound i : ℕ} {x : α} {a : ℕ → α} {f : Unit → Program σ α γ}
    (hi : i < bound) (h : Total (fun b => b = Function.update a i x) (f ()) R) :
    Total (fun b => b = a) (Checked.write bound i x >>= f) R := by
  refine Total.bind (.write (Q := fun _ b => b = Function.update a i x) hi ?_) fun _ => h
  rintro b rfl
  rfl

end Total

section Keeps

variable {K : (ℕ → α) → Prop} {m : Program σ α β} {f : β → Program σ α γ} {Q Q' : β → Prop}
  {R : γ → Prop}

theorem Keeps.pure {x : β} (h : Q x) : Keeps K (pure x : Program σ α β) Q :=
  Total.pure fun _ ha => ⟨ha, h⟩

theorem Keeps.bind (hm : Keeps K m Q) (hf : ∀ x, Q x → Keeps K (f x) R) : Keeps K (m >>= f) R :=
  Total.bind hm fun x => .of_fact (hf x)

theorem Keeps.mono (h : Keeps K m Q) (hQ : ∀ x, Q x → Q' x) : Keeps K m Q' :=
  Total.mono h (fun _ ha => ha) fun x _ ha => ⟨ha.1, hQ x ha.2⟩

theorem Keeps.run (h : Keeps K m Q) {st : σ × (ℕ → α)} (hst : K st.2) :
    ∃ x st', m st = some (x, st') ∧ K st'.2 ∧ Q x := by
  obtain ⟨x, s', a', hrun, hK, hx⟩ := h st.1 st.2 hst
  exact ⟨x, (s', a'), hrun, hK, hx⟩

theorem Keeps.read {bound i : ℕ} (hi : i < bound) :
    Keeps K (read bound i : Program σ α α) fun _ => True :=
  Total.read hi fun _ ha => ⟨ha, trivial⟩

theorem Keeps.swap {bound i j : ℕ} (hij : i < bound ∧ j < bound)
    (h : ∀ a, K a → K (Arrays.swap a i j)) :
    Keeps K (swap bound i j : Program σ α Unit) fun _ => True :=
  Total.swap hij fun a ha => ⟨h a ha, trivial⟩

theorem Keeps.ask (cmp : σ → α → α → Bool × σ) {x y : α} :
    Keeps K (ask cmp x y) fun _ => True :=
  Total.ask cmp fun _ _ ha => ⟨ha, trivial⟩

theorem Keeps.sub {x y : ℕ} (hle : y ≤ x) :
    Keeps K (sub x y : Program σ α ℕ) fun z => z = x - y := by
  unfold Checked.sub
  rw [if_pos hle]
  exact .pure rfl

theorem Keeps.loop {body : β → Program σ α (β ⊕ γ)} (I : β → Prop) (size : β → ℕ)
    (hbody : ∀ x, I x → Keeps K (body x) fun r =>
      match r with
      | .inl y => I y ∧ size y < size x
      | .inr z => R z)
    {n : ℕ} {x : β} (hx : I x) (hn : size x < n) : Keeps K (loop body n x) R := by
  refine (Total.loop (R := fun z a => K a ∧ R z) (fun x a => K a ∧ I x) size (fun x => ?_) n x
    hn).mono (fun a ha => ⟨ha, hx⟩) fun _ _ ha => ha
  refine .of_fact fun hI => Total.mono (hbody x hI) (fun _ ha => ha) fun r a ha => ?_
  cases r with
  | inl y => exact ⟨⟨ha.1, ha.2.1⟩, ha.2.2⟩
  | inr z => exact ha

end Keeps

end DaScript.Checked

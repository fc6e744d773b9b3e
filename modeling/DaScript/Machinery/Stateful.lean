import Mathlib.Tactic

/-!
# Machinery/Stateful — computations that stop and keep their state

A computation of `EStateM` returns or stops, and either way leaves a state: what it did before it
stopped stays done.

`Spec P m Q E` says it of every `s`; `Moves R m` relates `s` to what is left of it.  Both have one
rule for each way to build `m`.
-/

namespace DaScript.Stateful

variable {ε σ α β : Type}

/-- The state that is left. -/
def left (m : EStateM ε σ α) (s : σ) : σ :=
  match m s with
  | .ok _ s' => s'
  | .error _ s' => s'

/-- What holds of the state that is left, and of what is returned. -/
def Spec (P : σ → Prop) (m : EStateM ε σ α) (Q : α → σ → Prop) (E : σ → Prop) : Prop :=
  ∀ s, P s → match m s with
    | .ok a s' => Q a s'
    | .error _ s' => E s'

/-- How the state that is left compares with the state before. -/
def Moves (R : σ → σ → Prop) (m : EStateM ε σ α) : Prop := ∀ s, R s (left m s)

/-- With what a computation stops. -/
def Stops (E : ε → Prop) (m : EStateM ε σ α) : Prop := ∀ s e s', m s = .error e s' → E e

theorem left_bind (m : EStateM ε σ α) (f : α → EStateM ε σ β) (s : σ) :
    left (m >>= f) s = match m s with
      | .ok a s' => left (f a) s'
      | .error _ s' => s' := by
  change left (EStateM.bind m f) s = _
  unfold left EStateM.bind
  cases m s <;> rfl

theorem bind_ok {m : EStateM ε σ α} {s s' : σ} {a : α} (h : m s = .ok a s')
    (f : α → EStateM ε σ β) : (m >>= f) s = f a s' := by
  change EStateM.bind m f s = _
  rw [EStateM.bind, h]

/-- Stops where a condition holds. -/
def stopIf (e : ε) (c : Prop) [Decidable c] : EStateM ε σ PUnit := if c then throw e else pure ⟨⟩

/-- Is done only where a condition holds. -/
def onlyIf (c : Prop) [Decidable c] (m : EStateM ε σ PUnit) : EStateM ε σ PUnit :=
  if c then m else pure ⟨⟩

/-- What is in an option, or stops. -/
def orStop (e : ε) : Option α → EStateM ε σ α
  | some a => pure a
  | none => throw e

/-! ## What holds afterwards -/

section Spec

variable {P : σ → Prop} {Q : α → σ → Prop} {R : β → σ → Prop} {E : σ → Prop}

theorem spec_pure (a : α) (h : ∀ s, P s → Q a s) : Spec P (pure a : EStateM ε σ α) Q E := h

theorem spec_modify {Q : PUnit → σ → Prop} (f : σ → σ) (h : ∀ s, P s → Q ⟨⟩ (f s)) :
    Spec P (modify f : EStateM ε σ PUnit) Q E := h

theorem spec_stopIf {e : ε} {c : Prop} [Decidable c] {f : PUnit → EStateM ε σ β}
    (hstop : c → ∀ s, P s → E s) (h : ¬c → Spec P (f ⟨⟩) R E) : Spec P (stopIf e c >>= f) R E := by
  unfold stopIf
  split
  next hc => exact hstop hc
  next hc => exact h hc

theorem spec_onlyIf {Q : PUnit → σ → Prop} {c : Prop} [Decidable c] {m : EStateM ε σ PUnit}
    (hm : c → Spec P m Q E) (h : ¬c → ∀ s, P s → Q ⟨⟩ s) : Spec P (onlyIf c m) Q E := by
  unfold onlyIf
  split
  next hc => exact hm hc
  next hc => exact spec_pure _ (h hc)

theorem spec_orStop {e : ε} {o : Option α} {f : α → EStateM ε σ β}
    (hstop : o = none → ∀ s, P s → E s) (h : ∀ a, o = some a → Spec P (f a) R E) :
    Spec P (orStop e o >>= f) R E := by
  cases o with
  | none => exact hstop rfl
  | some a => exact h a rfl

theorem spec_bind {m : EStateM ε σ α} {f : α → EStateM ε σ β}
    (hm : Spec P m Q E) (hf : ∀ a, Spec (Q a) (f a) R E) : Spec P (m >>= f) R E := by
  intro s hs
  have h := hm s hs
  change match EStateM.bind m f s with
    | .ok a s' => R a s'
    | .error _ s' => E s'
  unfold EStateM.bind
  cases hrun : m s with
  | ok a s' =>
    rw [hrun] at h
    exact hf a s' h
  | error e s' =>
    rw [hrun] at h
    exact h

theorem Spec.pre {P' : σ → Prop} {m : EStateM ε σ α} (h : Spec P m Q E) (hP : ∀ s, P' s → P s) :
    Spec P' m Q E := fun s hs => h s (hP s hs)

theorem Spec.stops {E' : σ → Prop} {m : EStateM ε σ α} (h : Spec P m Q E)
    (hE : ∀ s, E s → E' s) : Spec P m Q E' := by
  intro s hs
  have hrun := h s hs
  cases hm : m s with
  | ok a s' => rwa [hm] at hrun
  | error e s' =>
    rw [hm] at hrun
    exact hE s' hrun

theorem Spec.returns {Q' : α → σ → Prop} {m : EStateM ε σ α} (h : Spec P m Q E)
    (hQ : ∀ a s, Q a s → Q' a s) : Spec P m Q' E := by
  intro s hs
  have hrun := h s hs
  cases hm : m s with
  | ok a s' =>
    rw [hm] at hrun
    exact hQ a s' hrun
  | error e s' => rwa [hm] at hrun

theorem spec_get {f : σ → EStateM ε σ β}
    (hf : ∀ s, P s → Spec (fun s' => s' = s) (f s) R E) : Spec P (get >>= f) R E :=
  fun s hs => hf s hs s rfl

theorem spec_forM {I : List α → σ → Prop} {f : α → EStateM ε σ PUnit}
    (hf : ∀ a l, Spec (I (a :: l)) (f a) (fun _ => I l) E) (l : List α) :
    Spec (I l) (l.forM f) (fun _ => I []) E := by
  induction l with
  | nil => exact spec_pure _ fun s hs => hs
  | cons a l ih => exact spec_bind (hf a l) fun _ => ih

theorem Spec.left {m : EStateM ε σ α} (h : Spec P m (fun _ => E) E) {s : σ} (hs : P s) :
    E (left m s) := by
  have := h s hs
  unfold Stateful.left
  cases hrun : m s with
  | ok a s' => rwa [hrun] at this
  | error e s' => rwa [hrun] at this

theorem Spec.error {m : EStateM ε σ α} (h : Spec P m Q E) {s s' : σ} {e : ε} (hs : P s)
    (hm : m s = .error e s') : E s' := by
  have hrun := h s hs
  rwa [hm] at hrun

end Spec

/-! ## What changes -/

section Moves

variable {R : σ → σ → Prop}

theorem moves_bind [IsTrans σ R] {m : EStateM ε σ α} {f : α → EStateM ε σ β}
    (hm : Moves R m) (hf : ∀ a, Moves R (f a)) : Moves R (m >>= f) := by
  intro s
  have h := hm s
  rw [left_bind]
  unfold left at h
  cases hrun : m s with
  | ok a s' =>
    rw [hrun] at h
    exact trans_of R h (hf a s')
  | error e s' =>
    rw [hrun] at h
    exact h

theorem moves_of_spec {m : EStateM ε σ α}
    (h : ∀ s, Spec (fun s' => s' = s) m (fun _ => R s) (R s)) : Moves R m :=
  fun s => (h s).left rfl

theorem moves_modify (f : σ → σ) (h : ∀ s, R s (f s)) :
    Moves R (modify f : EStateM ε σ PUnit) := h

theorem Moves.spec {P Q E : σ → Prop} {m : EStateM ε σ α} (hm : Moves R m)
    (h : ∀ s s', P s → R s s' → Q s' ∧ E s') : Spec P m (fun _ => Q) E := by
  intro s hs
  have := h s _ hs (hm s)
  unfold left at this
  cases hrun : m s with
  | ok a s' =>
    rw [hrun] at this
    exact this.1
  | error e s' =>
    rw [hrun] at this
    exact this.2

theorem Moves.start {m : EStateM ε σ α} (hm : Moves R m) (w : σ) :
    Spec (fun s => s = w) m (fun _ => R w) (R w) := by
  refine hm.spec fun s s' hs hR => ?_
  subst hs
  exact ⟨hR, hR⟩

theorem Moves.after [IsTrans σ R] {m : EStateM ε σ α} (hm : Moves R m) (w : σ) :
    Spec (R w) m (fun _ => R w) (R w) :=
  hm.spec fun _ _ hs hR => ⟨trans_of R hs hR, trans_of R hs hR⟩

theorem Spec.frame {P E I : σ → Prop} {Q : α → σ → Prop} {m : EStateM ε σ α} (h : Spec P m Q E)
    (hm : Moves R m) (hI : ∀ s s', I s → R s s' → I s') :
    Spec (fun s => P s ∧ I s) m (fun a s => Q a s ∧ I s) E := by
  intro s hs
  have hrun := h s hs.1
  have hmove := hm s
  unfold Stateful.left at hmove
  cases hout : m s with
  | ok a s' =>
    rw [hout] at hrun hmove
    exact ⟨hrun, hI s s' hs.2 hmove⟩
  | error e s' => rwa [hout] at hrun

variable [Std.Refl R]

theorem moves_pure (a : α) : Moves R (pure a : EStateM ε σ α) := fun s => refl_of R s

theorem moves_throw (e : ε) : Moves R (throw e : EStateM ε σ α) := fun s => refl_of R s

theorem moves_get : Moves R (get : EStateM ε σ σ) := fun s => refl_of R s

theorem moves_stopIf (e : ε) (c : Prop) [Decidable c] :
    Moves R (stopIf e c : EStateM ε σ PUnit) := by
  unfold stopIf
  split
  · exact moves_throw e
  · exact moves_pure _

theorem moves_onlyIf (c : Prop) [Decidable c] {m : EStateM ε σ PUnit} (hm : Moves R m) :
    Moves R (onlyIf c m) := by
  unfold onlyIf
  split
  · exact hm
  · exact moves_pure _

theorem moves_orStop (e : ε) (o : Option α) : Moves R (orStop e o : EStateM ε σ α) := by
  cases o with
  | none => exact moves_throw e
  | some a => exact moves_pure a

theorem moves_forM [IsTrans σ R] {f : α → EStateM ε σ PUnit} (hf : ∀ a, Moves R (f a))
    (l : List α) : Moves R (l.forM f) := by
  induction l with
  | nil => exact moves_pure _
  | cons a l ih => exact moves_bind (hf a) fun _ => ih

end Moves

/-! ## Where it stops -/

section Stops

variable {E : ε → Prop}

theorem bind_error {m : EStateM ε σ α} {f : α → EStateM ε σ β} {s s' : σ} {e : ε}
    (h : (m >>= f) s = .error e s') :
    m s = .error e s' ∨ ∃ a t, m s = .ok a t ∧ f a t = .error e s' := by
  change EStateM.bind m f s = _ at h
  unfold EStateM.bind at h
  cases hm : m s with
  | ok a t =>
    rw [hm] at h
    exact .inr ⟨a, t, rfl, h⟩
  | error e' t =>
    rw [hm] at h
    obtain ⟨rfl, rfl⟩ := EStateM.Result.error.inj h
    exact .inl rfl

theorem orStop_error {e e' : ε} {o : Option α} {f : α → EStateM ε σ β} {s s' : σ}
    (h : (orStop e o >>= f) s = .error e' s') :
    (o = none ∧ e' = e ∧ s' = s) ∨ ∃ a, o = some a ∧ f a s = .error e' s' := by
  cases o with
  | none =>
    obtain ⟨rfl, rfl⟩ := EStateM.Result.error.inj h
    exact .inl ⟨rfl, rfl, rfl⟩
  | some a => exact .inr ⟨a, rfl, h⟩

theorem stopIf_error {e e' : ε} {c : Prop} [Decidable c] {f : PUnit → EStateM ε σ β}
    {s s' : σ} (h : (stopIf e c >>= f) s = .error e' s') :
    (c ∧ e' = e ∧ s' = s) ∨ ¬c ∧ f ⟨⟩ s = .error e' s' := by
  unfold stopIf at h
  split at h
  next hc =>
    obtain ⟨rfl, rfl⟩ := EStateM.Result.error.inj h
    exact .inl ⟨hc, rfl, rfl⟩
  next hc => exact .inr ⟨hc, h⟩

theorem onlyIf_error {e : ε} {c : Prop} [Decidable c] {m : EStateM ε σ PUnit} {s s' : σ}
    (h : onlyIf c m s = .error e s') : c ∧ m s = .error e s' := by
  unfold onlyIf at h
  split at h
  next hc => exact ⟨hc, h⟩
  next hc => cases h

theorem stops_bind {m : EStateM ε σ α} {f : α → EStateM ε σ β} (hm : Stops E m)
    (hf : ∀ a, Stops E (f a)) : Stops E (m >>= f) := by
  intro s e s' h
  rcases bind_error h with h | ⟨a, t, -, h⟩
  · exact hm s e s' h
  · exact hf a t e s' h

theorem stops_modify (f : σ → σ) : Stops E (modify f : EStateM ε σ PUnit) := by
  intro s e s' h
  cases h

theorem stops_get : Stops E (get : EStateM ε σ σ) := by
  intro s e s' h
  cases h

theorem stops_stopIf {e : ε} (he : E e) (c : Prop) [Decidable c] :
    Stops E (stopIf e c : EStateM ε σ PUnit) := by
  intro s e' s' h
  unfold stopIf at h
  split at h
  · exact (EStateM.Result.error.inj h).1 ▸ he
  · cases h

theorem stops_orStop {e : ε} (he : E e) (o : Option α) :
    Stops E (orStop e o : EStateM ε σ α) := by
  intro s e' s' h
  cases o with
  | none => exact (EStateM.Result.error.inj h).1 ▸ he
  | some a => cases h

theorem stops_onlyIf (c : Prop) [Decidable c] {m : EStateM ε σ PUnit} (hm : Stops E m) :
    Stops E (onlyIf c m) := fun s e s' h => hm s e s' (onlyIf_error h).2

end Stops

end DaScript.Stateful

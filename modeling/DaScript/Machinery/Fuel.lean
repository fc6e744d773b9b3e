import Mathlib.Tactic

/-!
# Machinery/Fuel — computations that settle

A recursion that need not end is a function of how deep it may go, `Except (Option ε) α`: `none` is
an error too, and means that this was not deep enough.  It ends if the result settles.
-/

namespace DaScript.Fuel

variable {ε α β σ : Type} {post : α → Prop} {post' : β → Prop}

/-- Not for lack of fuel, and a value only with a property. -/
def Done (post : α → Prop) (r : Except (Option ε) α) : Prop :=
  match r with
  | .ok a => post a
  | .error e => e ≠ none

/-- **The result settles.** -/
def Settles (post : α → Prop) (f : ℕ → Except (Option ε) α) : Prop :=
  ∃ r, Done post r ∧ ∃ n, ∀ fuel ≥ n, f fuel = r

theorem Settles.ok {a : α} (h : post a) : Settles post fun _ => (.ok a : Except (Option ε) α) :=
  ⟨.ok a, h, 0, fun _ _ => rfl⟩

theorem Settles.fault (e : ε) : Settles post fun _ => (.error (some e) : Except (Option ε) α) :=
  ⟨.error (some e), by simp [Done], 0, fun _ _ => rfl⟩

theorem Settles.succ {f : ℕ → Except (Option ε) α} (h : Settles post fun fuel => f (fuel + 1)) :
    Settles post f := by
  obtain ⟨r, hr, n, hn⟩ := h
  refine ⟨r, hr, n + 1, fun fuel hfuel => ?_⟩
  obtain ⟨fuel, rfl⟩ := Nat.exists_eq_add_one_of_ne_zero (by omega : fuel ≠ 0)
  exact hn fuel (by omega)

theorem Settles.bind {f : ℕ → Except (Option ε) α} {g : ℕ → α → Except (Option ε) β}
    (hf : Settles post f) (hg : ∀ a, post a → Settles post' fun fuel => g fuel a) :
    Settles post' fun fuel => f fuel >>= g fuel := by
  obtain ⟨r, hr, n, hn⟩ := hf
  cases r with
  | error e =>
    refine ⟨.error e, hr, n, fun fuel hfuel => ?_⟩
    dsimp only
    rw [hn fuel hfuel]
    rfl
  | ok a =>
    obtain ⟨r', hr', n', hn'⟩ := hg a hr
    refine ⟨r', hr', max n n', fun fuel hfuel => ?_⟩
    dsimp only
    rw [hn fuel ((le_max_left _ _).trans hfuel)]
    exact hn' fuel ((le_max_right _ _).trans hfuel)

theorem Settles.foldlM {step : ℕ → σ → α → Except (Option ε) σ} {inv : σ → Prop} {l : List α}
    (h : ∀ a ∈ l, ∀ s, inv s → Settles inv fun fuel => step fuel s a) {s : σ} (hs : inv s) :
    Settles inv fun fuel => l.foldlM (step fuel) s := by
  induction l generalizing s with
  | nil => exact Settles.ok hs
  | cons a l ih =>
    simp only [List.foldlM_cons]
    exact (h a List.mem_cons_self s hs).bind fun s hs =>
      ih (fun b hb => h b (List.mem_cons_of_mem a hb)) hs

theorem Settles.enough {f : ℕ → Except (Option ε) α} (h : Settles post f) :
    ∃ n, ∀ fuel ≥ n, f fuel ≠ .error none := by
  obtain ⟨r, hr, n, hn⟩ := h
  refine ⟨n, fun fuel hfuel heq => ?_⟩
  obtain rfl := (hn fuel hfuel).symm.trans heq
  exact hr rfl

end DaScript.Fuel

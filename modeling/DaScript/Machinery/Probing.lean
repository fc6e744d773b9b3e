import DaScript.Machinery.KeyMap

/-!
# Machinery/Probing — linear probing over a ring of slots

An open-addressed table of `n` slots is searched from a key's home slot, one slot at a time, round
the ring.  A walk ends at an empty slot or at the key; a slot whose entry was erased is killed, not
emptied, so a walk that once passed over it still does.

The walks themselves (`scan`, `place`, `vacant`) take the step and what a slot looks like as
arguments, and fuel; with one unit per slot they answer whenever some slot ends the walk, and a
walk that is still going after a whole turn goes round for ever.
-/

namespace DaScript.Probing

/-! ## The ring -/

/-- The `d`-th slot a walk from `h` visits in a ring of `n`. -/
def slot (n h d : ℕ) : ℕ := (h + d) % n

/-- `next` steps round the ring of `n` slots. -/
def IsRing (next : ℕ → ℕ) (n : ℕ) : Prop := ∀ i < n, next i = (i + 1) % n

theorem slot_lt {n : ℕ} (hn : 0 < n) (h d : ℕ) : slot n h d < n := Nat.mod_lt _ hn

theorem slot_zero {n h : ℕ} (hh : h < n) : slot n h 0 = h := Nat.mod_eq_of_lt hh

theorem slot_next {next : ℕ → ℕ} {n h : ℕ} (hr : IsRing next n) (hh : h < n) (d : ℕ) :
    slot n (next h) d = slot n h (d + 1) := by
  rw [slot, slot, hr h hh, Nat.mod_add_mod, Nat.add_assoc, Nat.add_comm 1 d]

theorem exists_slot {n : ℕ} (h : ℕ) {j : ℕ} (hj : j < n) : ∃ d < n, slot n h d = j := by
  have hn : 0 < n := by omega
  have hh := Nat.mod_lt h hn
  refine ⟨(j + (n - h % n)) % n, Nat.mod_lt _ hn, ?_⟩
  have hsum : h + (j + (n - h % n)) = j + n * (h / n + 1) := by
    have := Nat.div_add_mod h n
    rw [Nat.mul_add, Nat.mul_one]
    omega
  rw [slot, Nat.add_mod_mod, hsum, Nat.add_mul_mod_self_left, Nat.mod_eq_of_lt hj]

theorem isRing_mask (e : ℕ) : IsRing (fun i => (i + 1) &&& (2 ^ e - 1)) (2 ^ e) :=
  fun i _ => Nat.and_two_pow_sub_one_eq_mod (i + 1) e

/-! ## Walks -/

/-- What a walk looking for one key makes of a slot. -/
inductive Seen
  | empty
  | killed
  | hit
  | miss
  deriving DecidableEq, Repr

/-- An empty slot and the key itself end a walk. -/
def Seen.stops : Seen → Bool
  | .empty => true
  | .hit => true
  | .killed => false
  | .miss => false

theorem Seen.stops_iff {x : Seen} : x.stops = true ↔ x = .empty ∨ x = .hit := by
  cases x <;> simp [stops]

/-- **Look a key up**: the slot of the key, or `none` at the first empty slot. -/
def scan (see : ℕ → Seen) (next : ℕ → ℕ) : ℕ → ℕ → Option (Option ℕ)
  | 0, _ => none
  | fuel + 1, i =>
    match see i with
    | .empty => some none
    | .hit => some (some i)
    | .killed => scan see next fuel (next i)
    | .miss => scan see next fuel (next i)

/-- Where an insertion puts its key. -/
inductive Place
  /-- the key is already there -/
  | found (i : ℕ)
  /-- an empty slot -/
  | empty (i : ℕ)
  /-- the first killed slot passed on the way to an empty one -/
  | killed (i : ℕ)
  deriving DecidableEq, Repr

/-- **Find a place for a key**, `spare` being the first killed slot passed so far. -/
def place (see : ℕ → Seen) (next : ℕ → ℕ) : ℕ → ℕ → Option ℕ → Option Place
  | 0, _, _ => none
  | fuel + 1, i, spare =>
    match see i with
    | .empty => some (spare.elim (.empty i) .killed)
    | .hit => some (.found i)
    | .killed => place see next fuel (next i) (some (spare.getD i))
    | .miss => place see next fuel (next i) spare

/-- The first free slot. -/
def vacant (free : ℕ → Bool) (next : ℕ → ℕ) : ℕ → ℕ → Option ℕ
  | 0, _ => none
  | fuel + 1, i => if free i then some i else vacant free next fuel (next i)

section Walks

variable {see : ℕ → Seen} {next : ℕ → ℕ} {n h d : ℕ}

theorem exists_first_stop {p : ℕ → Bool} (hex : ∃ i < n, p i = true) (h : ℕ) :
    ∃ d < n, p (slot n h d) = true ∧ ∀ e < d, p (slot n h e) = false := by
  obtain ⟨i, hi, hp⟩ := hex
  obtain ⟨d, hd, rfl⟩ := exists_slot h hi
  have hd' : ∃ d, p (slot n h d) = true := ⟨d, hp⟩
  refine ⟨Nat.find hd', lt_of_le_of_lt (Nat.find_min' hd' hp) hd, Nat.find_spec hd', ?_⟩
  intro e he
  simpa using Nat.find_min hd' he

theorem scan_of_stop (hr : IsRing next n) (hh : h < n)
    (hstop : (see (slot n h d)).stops = true)
    (hpass : ∀ e < d, (see (slot n h e)).stops = false) {fuel : ℕ} (hf : d < fuel) :
    scan see next fuel h
      = some (if see (slot n h d) = .hit then some (slot n h d) else none) := by
  induction d generalizing h fuel with
  | zero =>
    obtain ⟨fuel, rfl⟩ : ∃ f, fuel = f + 1 := ⟨fuel - 1, by omega⟩
    rw [slot_zero hh] at hstop ⊢
    rcases Seen.stops_iff.mp hstop with hs | hs <;> simp [scan, hs]
  | succ d ih =>
    obtain ⟨fuel, rfl⟩ : ∃ f, fuel = f + 1 := ⟨fuel - 1, by omega⟩
    have hnext : next h < n := by rw [hr h hh]; exact Nat.mod_lt _ (by omega)
    have h0 := hpass 0 (by omega)
    rw [slot_zero hh] at h0
    have hstep : scan see next (fuel + 1) h = scan see next fuel (next h) := by
      rw [scan]
      cases hs : see h <;> simp_all [Seen.stops]
    rw [hstep, ih hnext (by rwa [slot_next hr hh])
      (fun e he => by rw [slot_next hr hh]; exact hpass _ (by omega)) (by omega),
      slot_next hr hh]

theorem scan_spec (hr : IsRing next n) (hh : h < n) (hex : ∃ i < n, (see i).stops = true) :
    ∃ r, scan see next n h = some r ∧ ∃ d < n, (∀ e < d, (see (slot n h e)).stops = false) ∧
      ((r = none ∧ see (slot n h d) = .empty) ∨
        (r = some (slot n h d) ∧ see (slot n h d) = .hit)) := by
  obtain ⟨d, hd, hstop, hpass⟩ := exists_first_stop hex h
  refine ⟨_, scan_of_stop hr hh hstop hpass hd, d, hd, hpass, ?_⟩
  rcases Seen.stops_iff.mp hstop with hs | hs <;> simp [hs]

theorem scan_eq_none (hr : IsRing next n) (hno : ∀ i < n, (see i).stops = false) (fuel : ℕ) :
    h < n → scan see next fuel h = none := by
  induction fuel generalizing h with
  | zero => exact fun _ => rfl
  | succ fuel ih =>
    intro hh
    have hnext : next h < n := by rw [hr h hh]; exact Nat.mod_lt _ (by omega)
    have hstep : scan see next (fuel + 1) h = scan see next fuel (next h) := by
      have h0 := hno h hh
      rw [scan]
      cases hs : see h <;> simp_all [Seen.stops]
    rw [hstep, ih hnext]

theorem place_of_stop (hr : IsRing next n) (hh : h < n)
    (hstop : (see (slot n h d)).stops = true)
    (hpass : ∀ e < d, (see (slot n h e)).stops = false) {fuel : ℕ} (hf : d < fuel)
    (spare : Option ℕ) :
    (see (slot n h d) = .hit ∧ place see next fuel h spare = some (.found (slot n h d))) ∨
    (see (slot n h d) = .empty ∧
      ((spare = none ∧ place see next fuel h spare = some (.empty (slot n h d))) ∨
       (∃ j, place see next fuel h spare = some (.killed j) ∧
        (spare = some j ∨
          (spare = none ∧ ∃ e < d, j = slot n h e ∧ see (slot n h e) = .killed))))) := by
  induction d generalizing h fuel spare with
  | zero =>
    obtain ⟨fuel, rfl⟩ : ∃ f, fuel = f + 1 := ⟨fuel - 1, by omega⟩
    rw [slot_zero hh] at hstop ⊢
    rcases Seen.stops_iff.mp hstop with hs | hs
    · refine Or.inr ⟨hs, ?_⟩
      cases spare <;> simp [place, hs]
    · exact Or.inl ⟨hs, by simp [place, hs]⟩
  | succ d ih =>
    obtain ⟨fuel, rfl⟩ : ∃ f, fuel = f + 1 := ⟨fuel - 1, by omega⟩
    have hnext : next h < n := by rw [hr h hh]; exact Nat.mod_lt _ (by omega)
    have h0 := hpass 0 (by omega)
    rw [slot_zero hh] at h0
    have hf' : d < fuel := by omega
    have ih' := fun sp => ih hnext (by rwa [slot_next hr hh])
      (fun e he => by rw [slot_next hr hh]; exact hpass _ (by omega)) hf' sp
    simp only [slot_next hr hh] at ih'
    -- the slot at `h` is a miss or a killed one; only a killed one changes the spare
    cases hs : see h with
    | empty => simp [hs, Seen.stops] at h0
    | hit => simp [hs, Seen.stops] at h0
    | miss =>
      have hstep : place see next (fuel + 1) h spare = place see next fuel (next h) spare := by
        rw [place, hs]
      rw [hstep]
      rcases ih' spare with hfound | ⟨hempty, hnone | ⟨j, hj, hsp | ⟨hsp, e, he, hje, hke⟩⟩⟩
      · exact Or.inl hfound
      · exact Or.inr ⟨hempty, Or.inl hnone⟩
      · exact Or.inr ⟨hempty, Or.inr ⟨j, hj, Or.inl hsp⟩⟩
      · exact Or.inr ⟨hempty, Or.inr ⟨j, hj, Or.inr ⟨hsp, e + 1, by omega, hje, hke⟩⟩⟩
    | killed =>
      have hstep : place see next (fuel + 1) h spare
          = place see next fuel (next h) (some (spare.getD h)) := by rw [place, hs]
      rw [hstep]
      rcases ih' (some (spare.getD h)) with
        hfound | ⟨hempty, ⟨hno, -⟩ | ⟨j, hj, hsp | ⟨hsp, -⟩⟩⟩
      · exact Or.inl hfound
      · simp at hno
      · refine Or.inr ⟨hempty, Or.inr ⟨j, hj, ?_⟩⟩
        have hjh : spare.getD h = j := Option.some.inj hsp
        cases hspare : spare with
        | some i => rw [hspare] at hjh; exact Or.inl (congrArg some hjh)
        | none =>
          rw [hspare] at hjh
          refine Or.inr ⟨rfl, 0, by omega, ?_, ?_⟩
          · rw [slot_zero hh]; exact hjh.symm
          · rw [slot_zero hh]; exact hs
      · simp at hsp

theorem place_spec (hr : IsRing next n) (hh : h < n) (hex : ∃ i < n, (see i).stops = true) :
    ∃ p, place see next n h none = some p ∧
      ∃ d < n, (∀ e < d, (see (slot n h e)).stops = false) ∧
        ((p = .found (slot n h d) ∧ see (slot n h d) = .hit) ∨
         (p = .empty (slot n h d) ∧ see (slot n h d) = .empty) ∨
         (see (slot n h d) = .empty ∧
          ∃ e < d, p = .killed (slot n h e) ∧ see (slot n h e) = .killed)) := by
  obtain ⟨d, hd, hstop, hpass⟩ := exists_first_stop hex h
  rcases place_of_stop hr hh hstop hpass hd none with
    ⟨hs, hp⟩ | ⟨hs, ⟨-, hp⟩ | ⟨j, hp, hsp | ⟨-, e, he, rfl, hk⟩⟩⟩
  · exact ⟨_, hp, d, hd, hpass, Or.inl ⟨rfl, hs⟩⟩
  · exact ⟨_, hp, d, hd, hpass, Or.inr (Or.inl ⟨rfl, hs⟩)⟩
  · simp at hsp
  · exact ⟨_, hp, d, hd, hpass, Or.inr (Or.inr ⟨hs, e, he, rfl, hk⟩)⟩

theorem vacant_spec {free : ℕ → Bool} (hr : IsRing next n) (hh : h < n)
    (hex : ∃ i < n, free i = true) :
    ∃ d < n, vacant free next n h = some (slot n h d) ∧ free (slot n h d) = true ∧
      ∀ e < d, free (slot n h e) = false := by
  obtain ⟨d, hd, hstop, hpass⟩ := exists_first_stop hex h
  refine ⟨d, hd, ?_, hstop, hpass⟩
  suffices H : ∀ (d h fuel : ℕ), h < n → d < fuel → free (slot n h d) = true →
      (∀ e < d, free (slot n h e) = false) →
      vacant free next fuel h = some (slot n h d) from H d h n hh hd hstop hpass
  intro d
  induction d with
  | zero =>
    intro h fuel hh hf hstop _
    obtain ⟨fuel, rfl⟩ : ∃ f, fuel = f + 1 := ⟨fuel - 1, by omega⟩
    rw [slot_zero hh] at hstop ⊢
    rw [vacant, if_pos hstop]
  | succ d ih =>
    intro h fuel hh hf hstop hpass
    obtain ⟨fuel, rfl⟩ : ∃ f, fuel = f + 1 := ⟨fuel - 1, by omega⟩
    have hnext : next h < n := by rw [hr h hh]; exact Nat.mod_lt _ (by omega)
    have h0 := hpass 0 (by omega)
    rw [slot_zero hh] at h0
    rw [vacant, h0, if_neg (by simp), ih (next h) fuel hnext (by omega)
      (by rwa [slot_next hr hh])
      (fun e he => by rw [slot_next hr hh]; exact hpass _ (by omega)), slot_next hr hh]

end Walks

end DaScript.Probing

import Mathlib.Tactic

/-!
# Machinery/Searching — searches that are told what comes next

A **search** starts at a position and is told what is to follow: nothing, or a function to go on
with from where it arrives.  It gives a position or null; a loop in it that has not ended within the
steps it is given gives neither.
-/

namespace DaScript.Searching

/-! ## What a search gives -/

/-- What a search gives. -/
inductive Found
  | pos (k : ℕ)
  | null
  | hang
  deriving DecidableEq, Repr

namespace Found

/-- On with the position that was found. -/
def andThen (r : Found) (f : ℕ → Found) : Found :=
  match r with
  | .pos k => f k
  | .null => .null
  | .hang => .hang

/-- Another try where nothing was found. -/
def orElse (r : Found) (other : Found) : Found :=
  match r with
  | .null => other
  | r => r

@[simp] theorem andThen_pos (k : ℕ) (f : ℕ → Found) : (Found.pos k).andThen f = f k := rfl
@[simp] theorem andThen_null (f : ℕ → Found) : Found.null.andThen f = .null := rfl
@[simp] theorem andThen_hang (f : ℕ → Found) : Found.hang.andThen f = .hang := rfl
@[simp] theorem orElse_pos (k : ℕ) (other : Found) : (Found.pos k).orElse other = .pos k := rfl
@[simp] theorem orElse_null (other : Found) : Found.null.orElse other = other := rfl
@[simp] theorem orElse_hang (other : Found) : Found.hang.orElse other = .hang := rfl

theorem andThen_eq_pos {r : Found} {f : ℕ → Found} {k : ℕ} :
    r.andThen f = .pos k ↔ ∃ j, r = .pos j ∧ f j = .pos k := by
  cases r <;> simp

theorem orElse_eq_pos {r other : Found} {k : ℕ} :
    r.orElse other = .pos k ↔ r = .pos k ∨ (r = .null ∧ other = .pos k) := by
  cases r <;> simp

theorem orElse_ne_null {r other : Found} :
    r.orElse other ≠ .null ↔ r ≠ .null ∨ other ≠ .null := by
  cases r <;> simp

theorem orElse_ne_hang {r other : Found} (hr : r ≠ .hang) (ho : other ≠ .hang) :
    r.orElse other ≠ .hang := by
  cases r <;> simp_all

theorem exists_pos {r : Found} (hnull : r ≠ .null) (hhang : r ≠ .hang) : ∃ k, r = .pos k := by
  cases r with
  | pos k => exact ⟨k, rfl⟩
  | null => exact absurd rfl hnull
  | hang => exact absurd rfl hhang

end Found

/-- What is to follow. -/
abbrev Next := Option (ℕ → Found)

/-- A search, as a function of what is to follow and of where it starts. -/
abbrev Search := Next → ℕ → Found

/-- What follows, from where the search arrives. -/
def proceed (next : Next) (pos : ℕ) : Found :=
  match next with
  | some next => next pos
  | none => .pos pos

@[simp] theorem proceed_some (next : ℕ → Found) (pos : ℕ) : proceed (some next) pos = next pos :=
  rfl

/-! ## The loops -/

/-- Try what is next, then one more of the body. -/
def fewestFirst (body next : ℕ → Found) : ℕ → ℕ → Found
  | 0, _ => .hang
  | fuel + 1, ofs => (next ofs).orElse ((body ofs).andThen (fewestFirst body next fuel))

/-- As many of the body as there are. -/
def takeAll (body : ℕ → Found) : ℕ → ℕ → Found
  | 0, _ => .hang
  | fuel + 1, ofs =>
    match body ofs with
    | .null => .pos ofs
    | .hang => .hang
    | .pos osym => takeAll body fuel osym

/-- So many of the body, none of them from where it is blocked. -/
def exactly (blocked : ℕ → Bool) (body : ℕ → Found) : ℕ → ℕ → Found
  | 0, ofs => .pos ofs
  | n + 1, ofs => if blocked ofs then .null else (body ofs).andThen (exactly blocked body n)

/-- The positions that more of the body reach, the last one first, and `none` if there is no end to
them.  The loop is over when nothing moves; it is `bounded` or goes on. -/
def positions (body : ℕ → Found) (bounded : Bool) : ℕ → ℕ → List ℕ → Option (List ℕ)
  | 0, _, reached => if bounded then some reached else none
  | n + 1, ofs, reached =>
    match body ofs with
    | .null => some reached
    | .hang => none
    | .pos osym =>
      if osym = ofs then some reached else positions body bounded n osym (osym :: reached)

/-- The first of the positions that can be followed. -/
def tryEach (next : ℕ → Found) : List ℕ → Found
  | [] => .null
  | pos :: rest => (next pos).orElse (tryEach next rest)

/-- More of the body while it moves, with nothing next. -/
def furthest (body : ℕ → Found) (bounded : Bool) : ℕ → ℕ → Found
  | 0, ofs => if bounded then .pos ofs else .hang
  | n + 1, ofs =>
    match body ofs with
    | .null => .pos ofs
    | .hang => .hang
    | .pos osym => if osym = ofs then .pos ofs else furthest body bounded n osym

/-- Try what is next, then one more of the body while it moves. -/
def nearest (body next : ℕ → Found) (bounded : Bool) : ℕ → ℕ → Found
  | 0, _ => if bounded then .null else .hang
  | n + 1, ofs =>
    (next ofs).orElse
      (if bounded && n = 0 then .null
      else (body ofs).andThen fun osym =>
        if osym = ofs then .null else nearest body next bounded n osym)

/-! ## Steps of a relation -/

/-- So many steps of a relation. -/
def Times {α : Type*} (R : α → α → Prop) : ℕ → α → α → Prop
  | 0, i, j => j = i
  | n + 1, i, j => ∃ k, R i k ∧ Times R n k j

section Times

variable {α : Type*} {R R' : α → α → Prop} {n m : ℕ} {i j k : α}

theorem Times.add (hn : Times R n i j) (hm : Times R m j k) : Times R (n + m) i k := by
  induction n generalizing i with
  | zero =>
    obtain rfl : j = i := hn
    rwa [Nat.zero_add]
  | succ n ih =>
    obtain ⟨q, hR, hn⟩ := hn
    rw [Nat.succ_add]
    exact ⟨q, hR, ih hn⟩

theorem Times.split (h : Times R (n + m) i k) : ∃ j, Times R n i j ∧ Times R m j k := by
  induction n generalizing i with
  | zero => exact ⟨i, rfl, by rwa [Nat.zero_add] at h⟩
  | succ n ih =>
    rw [Nat.succ_add] at h
    obtain ⟨q, hR, h⟩ := h
    obtain ⟨j, hn, hm⟩ := ih h
    exact ⟨j, ⟨q, hR, hn⟩, hm⟩

theorem times_one : Times R 1 i j ↔ R i j :=
  ⟨fun ⟨q, hR, hq⟩ => by rwa [show j = q from hq], fun h => ⟨j, h, rfl⟩⟩

theorem Times.stuck (hu : ∀ j, R i j → j = i) (hn : Times R n i j) : j = i := by
  induction n with
  | zero => exact hn
  | succ n ih =>
    obtain ⟨q, hR, hn⟩ := hn
    rw [hu q hR] at hn
    exact ih hn

end Times

/-- **Steps lead forward**, and stay where the search goes on. -/
def Stays (W : Set ℕ) (R : ℕ → ℕ → Prop) : Prop := ∀ i ∈ W, ∀ j, R i j → i ≤ j ∧ j ∈ W

theorem Stays.times {W : Set ℕ} {R : ℕ → ℕ → Prop} (h : Stays W R) (n : ℕ) :
    Stays W (Times R n) := by
  induction n with
  | zero =>
    rintro i hi j rfl
    exact ⟨le_rfl, hi⟩
  | succ n ih =>
    rintro i hi j ⟨k, hR, hn⟩
    obtain ⟨hle, hk⟩ := h i hi k hR
    obtain ⟨hle', hj⟩ := ih k hk j hn
    exact ⟨hle.trans hle', hj⟩

/-! ## What is said of a search -/

/-- **What a search finds is right**: it arrives by `R`, and what is next leads on from there. -/
def Sound (W : Set ℕ) (R : ℕ → ℕ → Prop) (f : Search) : Prop :=
  ∀ next : Next, ∀ i ∈ W, ∀ k, f next i = .pos k → ∃ j, R i j ∧ proceed next j = .pos k

theorem Sound.body {W : Set ℕ} {R : ℕ → ℕ → Prop} {f : Search} (h : Sound W R f) :
    ∀ p ∈ W, ∀ j, f none p = .pos j → R p j := by
  intro p hp j hj
  obtain ⟨j', hR, hj'⟩ := h none p hp j hj
  rwa [← Found.pos.inj hj']

/-- **A search ends** if what is next does. -/
def Ends (W : Set ℕ) (followed : Bool) (f : Search) : Prop :=
  ∀ next : Next, next.isSome = followed → (∀ g ∈ next, ∀ p ∈ W, g p ≠ .hang) →
    ∀ i ∈ W, f next i ≠ .hang

theorem Ends.body {W : Set ℕ} {f : Search} (h : Ends W false f) :
    ∀ p ∈ W, f none p ≠ .hang :=
  h none rfl nofun

/-- From where what is next can go on: from everywhere, if nothing is next. -/
def Goes (after : Option (ℕ → Prop)) (pos : ℕ) : Prop := ∀ K ∈ after, K pos

@[simp] theorem goes_none (pos : ℕ) : Goes none pos := nofun

@[simp] theorem goes_some (K : ℕ → Prop) (pos : ℕ) : Goes (some K) pos ↔ K pos :=
  ⟨fun h => h K rfl, fun h _ hK => Option.some.inj hK ▸ h⟩

/-- What is next ends, and finds something just where it can go on. -/
def Agrees (W : Set ℕ) (next : Next) (after : Option (ℕ → Prop)) : Prop :=
  next.isSome = after.isSome ∧
    ∀ p ∈ W, proceed next p ≠ .hang ∧ (proceed next p ≠ .null ↔ Goes after p)

theorem Agrees.none {W : Set ℕ} : Agrees W none none :=
  ⟨rfl, fun p _ => ⟨nofun, fun _ => goes_none p, fun _ => nofun⟩⟩

theorem Agrees.ne_null {W : Set ℕ} {next : Next} {after : Option (ℕ → Prop)}
    (h : Agrees W next after) {j : ℕ} (hj : j ∈ W) (hafter : Goes after j) :
    proceed next j ≠ .null := (h.2 j hj).2.mpr hafter

/-- **A search that only looks**: from each place it does not go on, or goes on from one place,
whatever is next. -/
def Looks (f : Search) : Prop :=
  ∀ i, (∀ next : Next, f next i = .null) ∨ ∃ j, ∀ next : Next, f next i = proceed next j

theorem proceed_ends {W : Set ℕ} {next : Next} (h : ∀ g ∈ next, ∀ p ∈ W, g p ≠ .hang) {p : ℕ}
    (hp : p ∈ W) : proceed next p ≠ .hang := by
  cases next with
  | some g => exact h g rfl p hp
  | none => exact nofun

theorem Looks.ends {W : Set ℕ} {R : ℕ → ℕ → Prop} {followed : Bool} {f : Search} (h : Looks f)
    (hsound : Sound W R f) (hstays : Stays W R) : Ends W followed f := by
  intro next _ hnext i hi
  obtain hnull | ⟨j, hj⟩ := h i
  · rw [hnull]
    exact nofun
  · rw [hj]
    exact proceed_ends hnext (hstays i hi j (hsound.body i hi j (hj none))).2

/-- **A search misses nothing** that it can be followed from. -/
def Complete (W : Set ℕ) (after : Option (ℕ → Prop)) (R : ℕ → ℕ → Prop) (f : Search) : Prop :=
  ∀ next : Next, Agrees W next after → ∀ i ∈ W, (∃ j, R i j ∧ Goes after j) → f next i ≠ .null

theorem Complete.body {W : Set ℕ} {R : ℕ → ℕ → Prop} {f : Search} (h : Complete W none R f) :
    ∀ p ∈ W, (∃ j, R p j) → f none p ≠ .null :=
  fun p hp ⟨j, hR⟩ => h none .none p hp ⟨j, hR, goes_none j⟩

/-! ## What the loops find is right -/

section Sound

variable {W : Set ℕ} {R : ℕ → ℕ → Prop} {body next : ℕ → Found} {k : ℕ} (hstays : Stays W R)
  (hbody : ∀ p ∈ W, ∀ j, body p = .pos j → R p j)
include hstays hbody

theorem fewestFirst_sound {fuel ofs : ℕ} (hofs : ofs ∈ W)
    (h : fewestFirst body next fuel ofs = .pos k) : ∃ n j, Times R n ofs j ∧ next j = .pos k := by
  induction fuel generalizing ofs with
  | zero => exact nomatch h
  | succ fuel ih =>
    obtain hnext | ⟨-, h⟩ := Found.orElse_eq_pos.mp h
    · exact ⟨0, ofs, rfl, hnext⟩
    · obtain ⟨osym, hosym, h⟩ := Found.andThen_eq_pos.mp h
      have hR := hbody ofs hofs osym hosym
      obtain ⟨n, j, hn, hj⟩ := ih (hstays ofs hofs osym hR).2 h
      exact ⟨n + 1, j, ⟨osym, hR, hn⟩, hj⟩

theorem takeAll_sound {fuel ofs : ℕ} (hofs : ofs ∈ W) (h : takeAll body fuel ofs = .pos k) :
    ∃ n, Times R n ofs k := by
  induction fuel generalizing ofs with
  | zero => exact nomatch h
  | succ fuel ih =>
    rw [takeAll] at h
    split at h
    next => exact ⟨0, (Found.pos.inj h).symm⟩
    next => exact nomatch h
    next osym hosym =>
      have hR := hbody ofs hofs osym hosym
      obtain ⟨n, hn⟩ := ih (hstays ofs hofs osym hR).2 h
      exact ⟨n + 1, osym, hR, hn⟩

theorem exactly_sound {blocked : ℕ → Bool} {n ofs : ℕ} (hofs : ofs ∈ W)
    (h : exactly blocked body n ofs = .pos k) : Times R n ofs k := by
  induction n generalizing ofs with
  | zero => exact (Found.pos.inj h).symm
  | succ n ih =>
    rw [exactly] at h
    split at h
    next => exact nomatch h
    next =>
      obtain ⟨osym, hosym, h⟩ := Found.andThen_eq_pos.mp h
      have hR := hbody ofs hofs osym hosym
      exact ⟨osym, hR, ih (hstays ofs hofs osym hR).2 h⟩

theorem positions_sound {bounded : Bool} {n ofs : ℕ} {reached l : List ℕ} (hofs : ofs ∈ W)
    (h : positions body bounded n ofs reached = some l) {q : ℕ} (hq : q ∈ l) :
    q ∈ reached ∨ ∃ m ≤ n, Times R m ofs q := by
  induction n generalizing ofs reached with
  | zero =>
    rw [positions] at h
    split at h
    next => exact Or.inl (Option.some.inj h ▸ hq)
    next => exact nomatch h
  | succ n ih =>
    rw [positions] at h
    split at h
    next => exact Or.inl (Option.some.inj h ▸ hq)
    next => exact nomatch h
    next osym hosym =>
      split at h
      next => exact Or.inl (Option.some.inj h ▸ hq)
      next =>
        have hR := hbody ofs hofs osym hosym
        obtain hmem | ⟨m, hm, hn⟩ := ih (hstays ofs hofs osym hR).2 h
        · obtain rfl | hmem := List.mem_cons.mp hmem
          · exact Or.inr ⟨1, by omega, times_one.mpr hR⟩
          · exact Or.inl hmem
        · exact Or.inr ⟨m + 1, by omega, osym, hR, hn⟩

theorem furthest_sound {bounded : Bool} {n ofs : ℕ} (hofs : ofs ∈ W)
    (h : furthest body bounded n ofs = .pos k) : ∃ m ≤ n, Times R m ofs k := by
  induction n generalizing ofs with
  | zero =>
    rw [furthest] at h
    split at h
    next => exact ⟨0, le_rfl, (Found.pos.inj h).symm⟩
    next => exact nomatch h
  | succ n ih =>
    rw [furthest] at h
    split at h
    next => exact ⟨0, by omega, (Found.pos.inj h).symm⟩
    next => exact nomatch h
    next osym hosym =>
      split at h
      next => exact ⟨0, by omega, (Found.pos.inj h).symm⟩
      next =>
        have hR := hbody ofs hofs osym hosym
        obtain ⟨m, hm, hn⟩ := ih (hstays ofs hofs osym hR).2 h
        exact ⟨m + 1, by omega, osym, hR, hn⟩

theorem nearest_sound {bounded : Bool} {n ofs : ℕ} (hofs : ofs ∈ W)
    (h : nearest body next bounded n ofs = .pos k) :
    ∃ m < n, ∃ j, Times R m ofs j ∧ next j = .pos k := by
  induction n generalizing ofs with
  | zero =>
    rw [nearest] at h
    split at h <;> exact nomatch h
  | succ n ih =>
    obtain hnext | ⟨-, h⟩ := Found.orElse_eq_pos.mp h
    · exact ⟨0, by omega, ofs, rfl, hnext⟩
    · split at h
      next => exact nomatch h
      next =>
        obtain ⟨osym, hosym, h⟩ := Found.andThen_eq_pos.mp h
        split at h
        next => exact nomatch h
        next =>
          have hR := hbody ofs hofs osym hosym
          obtain ⟨m, hm, j, hn, hj⟩ := ih (hstays ofs hofs osym hR).2 h
          exact ⟨m + 1, by omega, j, ⟨osym, hR, hn⟩, hj⟩

end Sound

theorem tryEach_eq_pos {next : ℕ → Found} {l : List ℕ} {k : ℕ} (h : tryEach next l = .pos k) :
    ∃ q ∈ l, next q = .pos k := by
  induction l with
  | nil => exact nomatch h
  | cons q l ih =>
    obtain hnext | ⟨-, h⟩ := Found.orElse_eq_pos.mp h
    · exact ⟨q, List.mem_cons_self, hnext⟩
    · obtain ⟨q', hmem, hq'⟩ := ih h
      exact ⟨q', List.mem_cons_of_mem _ hmem, hq'⟩

/-! ## The loops end -/

section Ends

variable {lo hi : ℕ} {R : ℕ → ℕ → Prop} {body next : ℕ → Found}
  (hstays : Stays (Set.Icc lo hi) R)
  (hbody : ∀ p ∈ Set.Icc lo hi, ∀ j, body p = .pos j → R p j)
  (hends : ∀ p ∈ Set.Icc lo hi, body p ≠ .hang)
include hstays hbody hends

theorem fewestFirst_ends (hmoves : ∀ p ∈ Set.Icc lo hi, ¬R p p)
    (hnext : ∀ p ∈ Set.Icc lo hi, next p ≠ .hang) {fuel ofs : ℕ} (hofs : ofs ∈ Set.Icc lo hi)
    (hfuel : hi < ofs + fuel) : fewestFirst body next fuel ofs ≠ .hang := by
  induction fuel generalizing ofs with
  | zero => exact absurd hofs.2 (by omega)
  | succ fuel ih =>
    refine Found.orElse_ne_hang (hnext ofs hofs) ?_
    cases hosym : body ofs with
    | pos osym =>
      have hR := hbody ofs hofs osym hosym
      obtain ⟨hle, hW⟩ := hstays ofs hofs osym hR
      have hne : osym ≠ ofs := by
        rintro rfl
        exact hmoves osym hofs hR
      exact ih hW (by omega)
    | null => exact nofun
    | hang => exact absurd hosym (hends ofs hofs)

theorem takeAll_ends (hmoves : ∀ p ∈ Set.Icc lo hi, ¬R p p) {fuel ofs : ℕ}
    (hofs : ofs ∈ Set.Icc lo hi) (hfuel : hi < ofs + fuel) : takeAll body fuel ofs ≠ .hang := by
  induction fuel generalizing ofs with
  | zero => exact absurd hofs.2 (by omega)
  | succ fuel ih =>
    rw [takeAll]
    split
    next => exact nofun
    next hosym => exact absurd hosym (hends ofs hofs)
    next osym hosym =>
      have hR := hbody ofs hofs osym hosym
      obtain ⟨hle, hW⟩ := hstays ofs hofs osym hR
      have hne : osym ≠ ofs := by
        rintro rfl
        exact hmoves osym hofs hR
      exact ih hW (by omega)

theorem exactly_ends {blocked : ℕ → Bool} {n ofs : ℕ} (hofs : ofs ∈ Set.Icc lo hi) :
    exactly blocked body n ofs ≠ .hang := by
  induction n generalizing ofs with
  | zero => exact nofun
  | succ n ih =>
    rw [exactly]
    split
    next => exact nofun
    next =>
      cases hosym : body ofs with
      | pos osym => exact ih (hstays ofs hofs osym (hbody ofs hofs osym hosym)).2
      | null => exact nofun
      | hang => exact absurd hosym (hends ofs hofs)

theorem positions_ends {bounded : Bool} {n ofs : ℕ} {reached : List ℕ}
    (hofs : ofs ∈ Set.Icc lo hi) (hn : bounded = true ∨ hi < ofs + n) :
    ∃ l, positions body bounded n ofs reached = some l := by
  induction n generalizing ofs reached with
  | zero =>
    obtain rfl | hlt := hn
    · exact ⟨reached, rfl⟩
    · exact absurd hofs.2 (by omega)
  | succ n ih =>
    rw [positions]
    split
    next => exact ⟨reached, rfl⟩
    next hosym => exact absurd hosym (hends ofs hofs)
    next osym hosym =>
      split
      next => exact ⟨reached, rfl⟩
      next hne =>
        obtain ⟨hle, hW⟩ := hstays ofs hofs osym (hbody ofs hofs osym hosym)
        exact ih hW (hn.imp_right fun hlt => by omega)

theorem furthest_ends {bounded : Bool} {n ofs : ℕ} (hofs : ofs ∈ Set.Icc lo hi)
    (hn : bounded = true ∨ hi < ofs + n) : furthest body bounded n ofs ≠ .hang := by
  induction n generalizing ofs with
  | zero =>
    obtain rfl | hlt := hn
    · exact nofun
    · exact absurd hofs.2 (by omega)
  | succ n ih =>
    rw [furthest]
    split
    next => exact nofun
    next hosym => exact absurd hosym (hends ofs hofs)
    next osym hosym =>
      split
      next => exact nofun
      next hne =>
        obtain ⟨hle, hW⟩ := hstays ofs hofs osym (hbody ofs hofs osym hosym)
        exact ih hW (hn.imp_right fun hlt => by omega)

theorem nearest_ends (hnext : ∀ p ∈ Set.Icc lo hi, next p ≠ .hang) {bounded : Bool} {n ofs : ℕ}
    (hofs : ofs ∈ Set.Icc lo hi) (hn : bounded = true ∨ hi < ofs + n) :
    nearest body next bounded n ofs ≠ .hang := by
  induction n generalizing ofs with
  | zero =>
    obtain rfl | hlt := hn
    · exact nofun
    · exact absurd hofs.2 (by omega)
  | succ n ih =>
    refine Found.orElse_ne_hang (hnext ofs hofs) ?_
    split
    next => exact nofun
    next =>
      cases hosym : body ofs with
      | pos osym =>
        rw [Found.andThen_pos]
        split
        next => exact nofun
        next hne =>
          obtain ⟨hle, hW⟩ := hstays ofs hofs osym (hbody ofs hofs osym hosym)
          exact ih hW (hn.imp_right fun hlt => by omega)
      | null => exact nofun
      | hang => exact absurd hosym (hends ofs hofs)

end Ends

theorem tryEach_ends {next : ℕ → Found} {l : List ℕ} (h : ∀ q ∈ l, next q ≠ .hang) :
    tryEach next l ≠ .hang := by
  induction l with
  | nil => exact nofun
  | cons q l ih =>
    exact Found.orElse_ne_hang (h q List.mem_cons_self)
      (ih fun q' hq' => h q' (List.mem_cons_of_mem _ hq'))

/-! ## The loops that do not look whether anything moves -/

theorem takeAll_stuck {body : ℕ → Found} {ofs : ℕ} (hbody : body ofs = .pos ofs) (fuel : ℕ) :
    takeAll body fuel ofs = .hang := by
  induction fuel with
  | zero => rfl
  | succ fuel ih =>
    rw [takeAll, hbody]
    exact ih

/-! ## The loops miss nothing

A loop keeps the first end that is found for its body, and goes on from there.  It misses nothing if
that does not matter: where the rest can be reached by some end, it can be reached by any. -/

/-- Some more steps, no more than `n` if they are `bounded`, reach what is to follow. -/
def Reaches (R : ℕ → ℕ → Prop) (K : ℕ → Prop) (bounded : Bool) (n p : ℕ) : Prop :=
  ∃ m, (bounded = true → m ≤ n) ∧ ∃ j, Times R m p j ∧ K j

/-- So many steps are due before the rest. -/
def Due (R : ℕ → ℕ → Prop) (P : ℕ → Prop) (t p : ℕ) : Prop := ∃ j, Times R t p j ∧ P j

/-- **Any step will do** while what is to follow is not reached yet. -/
def Forgiving (W : Set ℕ) (R : ℕ → ℕ → Prop) (K : ℕ → Prop) (bounded : Bool) : Prop :=
  ∀ n, ∀ p ∈ W, ¬K p → (∃ q, R p q ∧ Reaches R K bounded n q) →
    ∀ j, R p j → Reaches R K bounded n j

/-- **Any step will do** while steps are due. -/
def ForgivingFirst (W : Set ℕ) (R : ℕ → ℕ → Prop) (P : ℕ → Prop) (due : ℕ) : Prop :=
  ∀ t < due, ∀ p ∈ W, (∃ q, R p q ∧ Due R P t q) → ∀ j, R p j → Due R P t j

/-- A step that stays is the only one. -/
def Still (W : Set ℕ) (R : ℕ → ℕ → Prop) : Prop := ∀ p ∈ W, R p p → ∀ j, R p j → j = p

theorem Reaches.unbounded {R : ℕ → ℕ → Prop} {K : ℕ → Prop} {n n' p : ℕ}
    (h : Reaches R K false n p) : Reaches R K false n' p := by
  obtain ⟨m, -, hrest⟩ := h
  exact ⟨m, nofun, hrest⟩

theorem Reaches.step {R : ℕ → ℕ → Prop} {K : ℕ → Prop} {bounded : Bool} {n p : ℕ}
    (h : Reaches R K bounded n p) (hK : ¬K p) :
    ∃ q m, R p q ∧ (bounded = true → m + 1 ≤ n) ∧ ∃ j, Times R m q j ∧ K j := by
  obtain ⟨m, hm, j, hj, hKj⟩ := h
  cases m with
  | zero =>
    obtain rfl : j = p := hj
    exact absurd hKj hK
  | succ m =>
    obtain ⟨q, hR, hj⟩ := hj
    exact ⟨q, m, hR, hm, j, hj, hKj⟩

theorem Still.not_reaches {W : Set ℕ} {R : ℕ → ℕ → Prop} {K : ℕ → Prop} {bounded : Bool} {n p : ℕ}
    (hstill : Still W R) (hp : p ∈ W) (hR : R p p) (hK : ¬K p) : ¬ Reaches R K bounded n p := by
  rintro ⟨m, -, j, hj, hKj⟩
  obtain rfl := Times.stuck (hstill p hp hR) hj
  exact hK hKj

theorem forgiving_of_one {W : Set ℕ} {R : ℕ → ℕ → Prop} {K : ℕ → Prop} {bounded : Bool}
    (h : ∀ p ∈ W, ∀ j j', R p j → R p j' → j = j') : Forgiving W R K bounded := by
  rintro n p hp - ⟨q, hR, hq⟩ j hj
  rwa [h p hp j q hj hR]

section Complete

variable {W : Set ℕ} {R : ℕ → ℕ → Prop} {K P : ℕ → Prop} {body next : ℕ → Found}
  (hstays : Stays W R) (hbody : ∀ p ∈ W, ∀ j, body p = .pos j → R p j)
  (hall : ∀ p ∈ W, (∃ j, R p j) → body p ≠ .null)
include hstays hbody hall

theorem fewestFirst_finds (hany : Forgiving W R K false) (hnext : ∀ p ∈ W, K p → next p ≠ .null)
    {fuel n ofs : ℕ} (hofs : ofs ∈ W) (h : Reaches R K false n ofs) :
    fewestFirst body next fuel ofs ≠ .null := by
  induction fuel generalizing ofs with
  | zero => exact nofun
  | succ fuel ih =>
    refine Found.orElse_ne_null.mpr ?_
    by_cases hK : K ofs
    · exact Or.inl (hnext ofs hofs hK)
    · obtain ⟨q, m, hR, -, hrest⟩ := h.step hK
      refine Or.inr ?_
      cases hosym : body ofs with
      | pos osym =>
        have hR' := hbody ofs hofs osym hosym
        exact ih (hstays ofs hofs osym hR').2
          (hany n ofs hofs hK ⟨q, hR, m, nofun, hrest⟩ osym hR')
      | null => exact absurd hosym (hall ofs hofs ⟨q, hR⟩)
      | hang => exact nofun

theorem exactly_finds {blocked : ℕ → Bool} (hfree : ∀ p ∈ W, ∀ j, R p j → blocked p = false)
    {n ofs : ℕ} (hany : ForgivingFirst W R P n) (hofs : ofs ∈ W) (h : Due R P n ofs) :
    exactly blocked body n ofs = .hang ∨ ∃ q ∈ W, exactly blocked body n ofs = .pos q ∧ P q := by
  induction n generalizing ofs with
  | zero =>
    obtain ⟨j, hj, hP⟩ := h
    obtain rfl : j = ofs := hj
    exact Or.inr ⟨j, hofs, rfl, hP⟩
  | succ n ih =>
    obtain ⟨j, ⟨q, hR, hn⟩, hP⟩ := h
    rw [exactly, hfree ofs hofs q hR, if_neg Bool.false_ne_true]
    cases hosym : body ofs with
    | pos osym =>
      have hR' := hbody ofs hofs osym hosym
      have hdue := hany n (Nat.lt_succ_self n) ofs hofs ⟨q, hR, j, hn, hP⟩ osym hR'
      exact ih (fun t ht => hany t (Nat.lt_succ_of_lt ht)) (hstays ofs hofs osym hR').2 hdue
    | null => exact absurd hosym (hall ofs hofs ⟨q, hR⟩)
    | hang => exact Or.inl rfl

omit hbody hall hstays in
theorem mem_positions {bounded : Bool} {n ofs : ℕ} {reached l : List ℕ} {q : ℕ}
    (h : positions body bounded n ofs reached = some l) (hq : q ∈ reached) : q ∈ l := by
  induction n generalizing ofs reached with
  | zero =>
    rw [positions] at h
    split at h
    next => exact Option.some.inj h ▸ hq
    next => exact nomatch h
  | succ n ih =>
    rw [positions] at h
    split at h
    next => exact Option.some.inj h ▸ hq
    next => exact nomatch h
    next =>
      split at h
      next => exact Option.some.inj h ▸ hq
      next => exact ih h (List.mem_cons_of_mem _ hq)

theorem positions_finds {bounded : Bool} (hany : Forgiving W R K bounded) (hstill : Still W R)
    {n ofs : ℕ} {reached l : List ℕ} (hofs : ofs ∈ W)
    (h : positions body bounded n ofs reached = some l) (hmem : ofs ∈ reached)
    (hreach : Reaches R K bounded n ofs) : ∃ q ∈ l, K q := by
  induction n generalizing ofs reached with
  | zero =>
    rw [positions] at h
    split at h
    next hb =>
      obtain ⟨m, hm, j, hj, hK⟩ := hreach
      obtain rfl : m = 0 := Nat.le_zero.mp (hm hb)
      obtain rfl : j = ofs := hj
      exact ⟨j, Option.some.inj h ▸ hmem, hK⟩
    next => exact nomatch h
  | succ n ih =>
    by_cases hK : K ofs
    · exact ⟨ofs, mem_positions h hmem, hK⟩
    · obtain ⟨q, m, hR, hm, hrest⟩ := hreach.step hK
      rw [positions] at h
      split at h
      next hnull => exact absurd hnull (hall ofs hofs ⟨q, hR⟩)
      next => exact nomatch h
      next osym hosym =>
        have hR' := hbody ofs hofs osym hosym
        split at h
        next hstuck =>
          subst hstuck
          exact absurd hreach (hstill.not_reaches hofs hR' hK)
        next =>
          refine ih (hstays ofs hofs osym hR').2 h List.mem_cons_self ?_
          exact hany n ofs hofs hK
            ⟨q, hR, m, fun hb => Nat.le_of_succ_le_succ (hm hb), hrest⟩ osym hR'

theorem nearest_finds {bounded : Bool} (hany : Forgiving W R K bounded) (hstill : Still W R)
    (hnext : ∀ p ∈ W, K p → next p ≠ .null) {n rounds ofs : ℕ} (hofs : ofs ∈ W)
    (hrounds : bounded = true → n < rounds) (hreach : Reaches R K bounded n ofs) :
    nearest body next bounded rounds ofs ≠ .null := by
  induction rounds generalizing n ofs with
  | zero =>
    rw [nearest]
    split
    next hb => exact absurd (hrounds hb) (Nat.not_lt_zero n)
    next => exact nofun
  | succ rounds ih =>
    refine Found.orElse_ne_null.mpr ?_
    by_cases hK : K ofs
    · exact Or.inl (hnext ofs hofs hK)
    · obtain ⟨q, m, hR, hm, hrest⟩ := hreach.step hK
      have hmore : ¬(bounded && rounds = 0) = true := by
        rw [Bool.and_eq_true, decide_eq_true_eq]
        rintro ⟨hb, rfl⟩
        have hle := hm hb
        have hlt := hrounds hb
        omega
      refine Or.inr ?_
      rw [if_neg hmore]
      cases hosym : body ofs with
      | pos osym =>
        have hR' := hbody ofs hofs osym hosym
        rw [Found.andThen_pos]
        split
        next hstuck =>
          subst hstuck
          exact absurd hreach (hstill.not_reaches hofs hR' hK)
        next =>
          have hle : bounded = true → m ≤ n - 1 := fun hb => by
            have := hm hb
            omega
          refine ih (hstays ofs hofs osym hR').2 (fun hb => ?_)
            (hany (n - 1) ofs hofs hK ⟨q, hR, m, hle, hrest⟩ osym hR')
          have := hm hb
          have := hrounds hb
          omega
      | null => exact absurd hosym (hall ofs hofs ⟨q, hR⟩)
      | hang => exact nofun

end Complete

theorem tryEach_ne_null {next : ℕ → Found} {l : List ℕ} {q : ℕ} (hq : q ∈ l)
    (h : next q ≠ .null) : tryEach next l ≠ .null := by
  induction l with
  | nil => exact nomatch hq
  | cons q' l ih =>
    obtain rfl | hq := List.mem_cons.mp hq
    · exact Found.orElse_ne_null.mpr (Or.inl h)
    · exact Found.orElse_ne_null.mpr (Or.inr (ih hq))

theorem takeAll_ne_null (body : ℕ → Found) (fuel ofs : ℕ) : takeAll body fuel ofs ≠ .null := by
  induction fuel generalizing ofs with
  | zero => exact nofun
  | succ fuel ih =>
    rw [takeAll]
    split
    next => exact nofun
    next => exact nofun
    next osym _ => exact ih osym

theorem furthest_ne_null (body : ℕ → Found) (bounded : Bool) (n ofs : ℕ) :
    furthest body bounded n ofs ≠ .null := by
  induction n generalizing ofs with
  | zero =>
    rw [furthest]
    split <;> exact nofun
  | succ n ih =>
    rw [furthest]
    split
    next => exact nofun
    next => exact nofun
    next osym _ =>
      split
      next => exact nofun
      next => exact ih osym

end DaScript.Searching

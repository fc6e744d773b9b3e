import Mathlib.Tactic

/-!
# Simulate/LineInfo — the order of places in the source

`LineInfo::operator<` and `operator==` of `simulate/debug_info.cpp`.  Two places that have files of
different names are ordered by the names, any others by line and column.
-/

namespace DaScript

/-- `FileInfo`, as far as the order reads it: a name, compared as bytes. -/
structure FileInfo where
  name : List (Fin 256)
  deriving DecidableEq, Repr

/-- `LineInfo`, from which the last line and column are left out: the order does not read them. -/
structure LineInfo where
  fileInfo : Option FileInfo
  column : ℕ
  line : ℕ
  deriving DecidableEq, Repr

namespace LineInfo

/-- `LineInfo::operator <` -/
def lt (self info : LineInfo) : Bool :=
  let position := if self.line = info.line then decide (self.column < info.column)
    else decide (self.line < info.line)
  match self.fileInfo, info.fileInfo with
  | some file, some file' =>
    if file.name ≠ file'.name then decide (file.name < file'.name) else position
  | _, _ => position

/-- `LineInfo::operator ==` -/
def eq (self info : LineInfo) : Bool :=
  if self.fileInfo.isSome ≠ info.fileInfo.isSome then false
  else
    match self.fileInfo, info.fileInfo with
    | some file, some file' =>
      if file.name ≠ file'.name then false
      else self.line = info.line && self.column = info.column
    | _, _ => self.line = info.line && self.column = info.column

/-- Line, then column. -/
def position (self : LineInfo) : ℕ ×ₗ ℕ := toLex (self.line, self.column)

/-- The name of the file. -/
def fileName (self : LineInfo) : Option (List (Fin 256)) := self.fileInfo.map FileInfo.name

/-- **No place without a file stands between two files** against their names. -/
def Untangled (S : Set LineInfo) : Prop :=
  ∀ a ∈ S, ∀ b ∈ S, ∀ n ∈ S, n.fileName = none →
    ∀ name ∈ a.fileName, ∀ name' ∈ b.fileName, name < name' →
      ¬ (b.position ≤ n.position ∧ n.position ≤ a.position)

/-! ## What is compared -/

variable {a b c : LineInfo}

theorem position_lt : a.position < b.position ↔
    (if a.line = b.line then decide (a.column < b.column) else decide (a.line < b.line))
      = true := by
  rw [position, position, Prod.Lex.toLex_lt_toLex]
  split_ifs with hline
  · simp [hline]
  · simp [hline]

theorem lt_of_none (h : a.fileName = none ∨ b.fileName = none) :
    a.lt b = true ↔ a.position < b.position := by
  rw [position_lt]
  obtain ⟨_ | file, col, row⟩ := a
  · rfl
  · obtain ⟨_ | file', col', row'⟩ := b
    · rfl
    · rcases h with h | h <;> cases h

theorem lt_of_some {name name' : List (Fin 256)} (ha : a.fileName = some name)
    (hb : b.fileName = some name') :
    a.lt b = true ↔ name < name' ∨ name = name' ∧ a.position < b.position := by
  rw [position_lt]
  obtain ⟨_ | file, col, row⟩ := a
  · cases ha
  · obtain ⟨_ | file', col', row'⟩ := b
    · cases hb
    · obtain rfl := Option.some.inj ha
      obtain rfl := Option.some.inj hb
      rw [lt]
      dsimp only
      by_cases hname : file.name = file'.name
      · rw [if_neg (not_not.mpr hname)]
        simp [hname]
      · rw [if_pos hname]
        simp [hname]

theorem lt_asymm (h : a.lt b = true) : b.lt a = false := by
  rw [← Bool.not_eq_true]
  cases ha : a.fileName with
  | none =>
    rw [lt_of_none (.inl ha)] at h
    rw [lt_of_none (.inr ha)]
    exact h.asymm
  | some name =>
    cases hb : b.fileName with
    | none =>
      rw [lt_of_none (.inr hb)] at h
      rw [lt_of_none (.inl hb)]
      exact h.asymm
    | some name' =>
      rw [lt_of_some ha hb] at h
      rw [lt_of_some hb ha]
      rintro (hlt | ⟨rfl, hlt⟩)
      · rcases h with hlt' | ⟨rfl, -⟩
        · exact hlt.asymm hlt'
        · exact lt_irrefl _ hlt
      · rcases h with hlt' | ⟨-, hlt'⟩
        · exact lt_irrefl _ hlt'
        · exact hlt.asymm hlt'

theorem lt_of_eq (h : a.eq b = true) : a.lt b = false ∧ b.lt a = false := by
  obtain ⟨_ | file, col, row⟩ := a <;> obtain ⟨_ | file', col', row'⟩ := b <;>
    simp_all [eq, lt]

/-! ## Between two places -/

theorem lt_or_lt {S : Set LineInfo} (hS : Untangled S) (ha : a ∈ S) (hb : b ∈ S) (hc : c ∈ S)
    (h : a.lt c = true) : a.lt b = true ∨ b.lt c = true := by
  cases hfa : a.fileName with
  | none =>
    rw [lt_of_none (.inl hfa)] at h
    rw [lt_of_none (.inl hfa)]
    cases hfb : b.fileName with
    | none =>
      rw [lt_of_none (.inl hfb)]
      exact LT.lt.gt_or_lt h _
    | some name =>
      cases hfc : c.fileName with
      | none =>
        rw [lt_of_none (.inr hfc)]
        exact LT.lt.gt_or_lt h _
      | some name' =>
        rw [lt_of_some hfb hfc]
        rcases lt_trichotomy name name' with hlt | rfl | hgt
        · exact .inr (.inl hlt)
        · exact (LT.lt.gt_or_lt h _).imp_right fun h => .inr ⟨rfl, h⟩
        · refine .inl (not_le.mp fun hle => ?_)
          exact hS c hc b hb a ha hfa name' hfc name hfb hgt ⟨hle, h.le⟩
  | some name =>
    cases hfc : c.fileName with
    | none =>
      rw [lt_of_none (.inr hfc)] at h
      rw [lt_of_none (.inr hfc)]
      cases hfb : b.fileName with
      | none =>
        rw [lt_of_none (.inr hfb)]
        exact LT.lt.gt_or_lt h _
      | some name' =>
        rw [lt_of_some hfa hfb]
        rcases lt_trichotomy name name' with hlt | rfl | hgt
        · exact .inl (.inl hlt)
        · exact (LT.lt.gt_or_lt h _).imp_left fun h => .inr ⟨rfl, h⟩
        · refine .inr (not_le.mp fun hle => ?_)
          exact hS b hb a ha c hc hfc name' hfb name hfa hgt ⟨h.le, hle⟩
    | some name' =>
      rw [lt_of_some hfa hfc] at h
      cases hfb : b.fileName with
      | none =>
        rw [lt_of_none (.inr hfb), lt_of_none (.inl hfb)]
        rcases h with hlt | ⟨-, hlt⟩
        · by_contra hno
          rw [not_or, not_lt, not_lt] at hno
          exact hS a ha c hc b hb hfb name hfa name' hfc hlt hno.symm
        · exact LT.lt.gt_or_lt hlt _
      | some name'' =>
        rw [lt_of_some hfa hfb, lt_of_some hfb hfc]
        rcases h with hlt | ⟨rfl, hlt⟩
        · rcases LT.lt.gt_or_lt hlt name'' with h | h
          · exact .inl (.inl h)
          · exact .inr (.inl h)
        · rcases lt_trichotomy name name'' with h | rfl | h
          · exact .inl (.inl h)
          · exact (LT.lt.gt_or_lt hlt _).imp (fun h => .inr ⟨rfl, h⟩) fun h => .inr ⟨rfl, h⟩
          · exact .inr (.inl h)

/-! ## The order -/

/-- **The order is a strict weak one, compatible with `==`, on places where none without a file
stands between two files** against their names, and only there. -/
theorem lt_strictWeak_iff (S : Set LineInfo) :
    (IsStrictWeakOrder S (fun a b => a.1.lt b.1 = true) ∧
      ∀ a ∈ S, ∀ b ∈ S, a.eq b = true → a.lt b = false ∧ b.lt a = false) ↔ Untangled S := by
  constructor
  · rintro ⟨hweak, -⟩ a ha b hb n hn hnone name hname name' hname' hlt ⟨hbn, hna⟩
    have hab : a.lt b = true := (lt_of_some hname hname').mpr (.inl hlt)
    have han : ¬ a.lt n = true := by
      rw [lt_of_none (.inr hnone)]
      exact not_lt.mpr hna
    have hnb : ¬ n.lt b = true := by
      rw [lt_of_none (.inl hnone)]
      exact not_lt.mpr hbn
    by_cases hba : n.lt a = true
    · exact hnb (hweak.trans ⟨n, hn⟩ ⟨a, ha⟩ ⟨b, hb⟩ hba hab)
    · by_cases hbn : b.lt n = true
      · exact han (hweak.trans ⟨a, ha⟩ ⟨b, hb⟩ ⟨n, hn⟩ hab hbn)
      · exact (hweak.incomp_trans ⟨a, ha⟩ ⟨n, hn⟩ ⟨b, hb⟩ ⟨han, hba⟩ ⟨hnb, hbn⟩).1 hab
  · intro hS
    refine ⟨{ irrefl := fun a h => ?_, trans := fun a b c hab hbc => ?_,
              incomp_trans := fun a b c hab hbc => ?_ }, fun a _ b _ h => lt_of_eq h⟩
    · rw [lt_asymm h] at h
      cases h
    · refine (lt_or_lt hS a.2 c.2 b.2 hab).resolve_right fun hcb => ?_
      rw [lt_asymm hbc] at hcb
      cases hcb
    · constructor
      · exact fun hac => (lt_or_lt hS a.2 b.2 c.2 hac).elim hab.1 hbc.1
      · exact fun hca => (lt_or_lt hS c.2 b.2 a.2 hca).elim hbc.2 hab.2

theorem lt_not_strictWeak : ¬ IsStrictWeakOrder LineInfo (fun a b => a.lt b = true) := by
  intro h
  have hlast := h.trans ⟨some ⟨[98]⟩, 0, 1⟩ ⟨none, 0, 3⟩ ⟨some ⟨[97]⟩, 0, 5⟩ (by decide) (by decide)
  revert hlast
  decide

end LineInfo

end DaScript

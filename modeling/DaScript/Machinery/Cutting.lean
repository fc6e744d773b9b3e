import Mathlib.Tactic

/-!
# Machinery/Cutting — a list cut where something begins

`stop rest` says that something begins here; it is `width` entries long.  The pieces are what is
between, from the left.

With a delimiter for what begins, the pieces joined by it are the list again, and they are free of
it.
-/

namespace DaScript.Cutting

variable {α : Type}

/-- What is before the first stop, and what is left from there. -/
def upTo (stop : List α → Bool) : List α → List α × List α
  | [] => ([], [])
  | a :: rest => if stop (a :: rest) then ([], a :: rest) else (upTo stop rest).map (a :: ·) id

/-- **The pieces**, from the left. -/
def pieces (stop : List α → Bool) (width : ℕ) : List α → List (List α)
  | [] => [[]]
  | a :: rest =>
    if stop (a :: rest) then [] :: pieces stop width (rest.drop (width - 1))
    else (pieces stop width rest).modifyHead (a :: ·)
termination_by rest => rest.length

/-- The pieces behind a stop. -/
def behind (stop : List α → Bool) (width : ℕ) : List α → List (List α)
  | [] => []
  | _ :: rest => pieces stop width (rest.drop (width - 1))

/-- How often there is a stop. -/
def stops (stop : List α → Bool) (width : ℕ) : List α → ℕ
  | [] => 0
  | a :: rest =>
    if stop (a :: rest) then stops stop width (rest.drop (width - 1)) + 1
    else stops stop width rest
termination_by rest => rest.length

section Pieces

variable {stop : List α → Bool} {width : ℕ} {a : α} {rest : List α}

@[simp] theorem pieces_nil : pieces stop width [] = [[]] := by
  rw [pieces]

theorem pieces_stop (h : stop (a :: rest) = true) :
    pieces stop width (a :: rest) = [] :: pieces stop width (rest.drop (width - 1)) := by
  rw [pieces, if_pos h]

theorem pieces_go (h : stop (a :: rest) = false) :
    pieces stop width (a :: rest) = (pieces stop width rest).modifyHead (a :: ·) := by
  rw [pieces, if_neg (by rw [h]; exact Bool.false_ne_true)]

@[simp] theorem stops_nil : stops stop width [] = 0 := by
  rw [stops]

theorem stops_stop (h : stop (a :: rest) = true) :
    stops stop width (a :: rest) = stops stop width (rest.drop (width - 1)) + 1 := by
  rw [stops, if_pos h]

theorem stops_go (h : stop (a :: rest) = false) :
    stops stop width (a :: rest) = stops stop width rest := by
  rw [stops, if_neg (by rw [h]; exact Bool.false_ne_true)]

theorem cut_induction {P : List α → Prop} (stop : List α → Bool) (width : ℕ) (hnil : P [])
    (hstop : ∀ a rest, stop (a :: rest) = true → P (rest.drop (width - 1)) → P (a :: rest))
    (hgo : ∀ a rest, stop (a :: rest) = false → P rest → P (a :: rest)) (rest : List α) :
    P rest := by
  induction hlength : rest.length using Nat.strong_induction_on generalizing rest with
  | _ n ih =>
    subst hlength
    cases rest with
    | nil => exact hnil
    | cons a rest =>
      by_cases h : stop (a :: rest) = true
      · refine hstop a rest h (ih _ ?_ _ rfl)
        rw [List.length_drop, List.length_cons]
        omega
      · exact hgo a rest (Bool.eq_false_of_not_eq_true h) (ih _ (Nat.lt_succ_self _) _ rfl)

theorem exists_pieces (stop : List α → Bool) (width : ℕ) (rest : List α) :
    ∃ p ps, pieces stop width rest = p :: ps := by
  induction rest using cut_induction stop width with
  | hnil => exact ⟨[], [], pieces_nil⟩
  | hstop a rest h _ => exact ⟨[], _, pieces_stop h⟩
  | hgo a rest h ih =>
    obtain ⟨p, ps, hp⟩ := ih
    exact ⟨a :: p, ps, by rw [pieces_go h, hp, List.modifyHead_cons]⟩

theorem length_pieces (rest : List α) :
    (pieces stop width rest).length = stops stop width rest + 1 := by
  induction rest using cut_induction stop width with
  | hnil => rw [pieces_nil, stops_nil, List.length_singleton]
  | hstop a rest h ih => rw [pieces_stop h, stops_stop h, List.length_cons, ih]
  | hgo a rest h ih => rw [pieces_go h, stops_go h, List.length_modifyHead, ih]

theorem stops_le (stop : List α → Bool) (width : ℕ) (rest : List α) :
    stops stop width rest ≤ rest.length := by
  induction rest using cut_induction stop width with
  | hnil => rw [stops_nil, List.length_nil]
  | hstop a rest h ih =>
    rw [List.length_drop] at ih
    rw [stops_stop h, List.length_cons]
    omega
  | hgo a rest h ih =>
    rw [stops_go h, List.length_cons]
    omega

theorem length_le_of_mem_pieces {p : List α} (hp : p ∈ pieces stop width rest) :
    p.length ≤ rest.length := by
  induction rest using cut_induction stop width generalizing p with
  | hnil =>
    rw [pieces_nil, List.mem_singleton] at hp
    rw [hp]
  | hstop a rest h ih =>
    rw [pieces_stop h] at hp
    rcases List.mem_cons.mp hp with rfl | hp
    · exact Nat.zero_le _
    · have := ih hp
      rw [List.length_drop] at this
      rw [List.length_cons]
      omega
  | hgo a rest h ih =>
    obtain ⟨q, ps, hq⟩ := exists_pieces stop width rest
    rw [pieces_go h, hq, List.modifyHead_cons] at hp
    rw [hq] at ih
    rcases List.mem_cons.mp hp with rfl | hp
    · exact Nat.succ_le_succ (ih List.mem_cons_self)
    · exact (ih (List.mem_cons_of_mem q hp)).trans (Nat.le_succ _)

theorem pieces_eq_upTo (rest : List α) :
    pieces stop width rest = (upTo stop rest).1 :: behind stop width (upTo stop rest).2 := by
  induction rest with
  | nil => rw [pieces_nil, upTo, behind]
  | cons a rest ih =>
    rw [upTo]
    by_cases h : stop (a :: rest) = true
    · rw [if_pos h, pieces_stop h, behind]
    · rw [if_neg h, pieces_go (Bool.eq_false_of_not_eq_true h), ih, List.modifyHead_cons]
      rfl

theorem stop_upTo {b : α} {left : List α} (h : (upTo stop rest).2 = b :: left) :
    stop (b :: left) = true := by
  induction rest with
  | nil => exact absurd h (by simp [upTo])
  | cons a rest ih =>
    rw [upTo] at h
    by_cases hstop : stop (a :: rest) = true
    · rw [if_pos hstop] at h
      rwa [← h]
    · rw [if_neg hstop] at h
      exact ih h

theorem length_upTo_le (stop : List α → Bool) (rest : List α) :
    (upTo stop rest).2.length ≤ rest.length := by
  induction rest with
  | nil => rw [upTo]
  | cons a rest ih =>
    rw [upTo]
    split
    · exact le_rfl
    · exact ih.trans (Nat.le_succ _)

end Pieces

/-! ## Cut at a delimiter -/

section Delimiter

variable {d r rest : List α}

theorem intercalate_modifyHead (r : List α) (a : α) (p : List α) (ps : List (List α)) :
    r.intercalate ((a :: p) :: ps) = a :: r.intercalate (p :: ps) := by
  cases ps <;> rfl

theorem intercalate_cons (r p q : List α) (qs : List (List α)) :
    r.intercalate (p :: q :: qs) = p ++ (r ++ r.intercalate (q :: qs)) := rfl

variable [DecidableEq α]

/-- The delimiter begins here. -/
def begins (d rest : List α) : Bool := decide (d <+: rest)

theorem intercalate_pieces_stop {a : α} (hd : d ≠ []) (h : begins d (a :: rest) = true) :
    r.intercalate (pieces (begins d) d.length (a :: rest)) =
      r ++ r.intercalate (pieces (begins d) d.length ((a :: rest).drop d.length)) := by
  obtain ⟨n, hn⟩ := Nat.exists_eq_add_one_of_ne_zero (mt List.length_eq_zero_iff.mp hd)
  obtain ⟨p, ps, hp⟩ := exists_pieces (begins d) d.length (rest.drop n)
  rw [pieces_stop h, hn, Nat.add_sub_cancel, List.drop_succ_cons, ← hn, hp]
  rfl

theorem intercalate_pieces_go {a : α} (h : begins d (a :: rest) = false) :
    r.intercalate (pieces (begins d) d.length (a :: rest)) =
      a :: r.intercalate (pieces (begins d) d.length rest) := by
  obtain ⟨p, ps, hp⟩ := exists_pieces (begins d) d.length rest
  rw [pieces_go h, hp, List.modifyHead_cons, intercalate_modifyHead]

theorem intercalate_pieces (hd : d ≠ []) (rest : List α) :
    d.intercalate (pieces (begins d) d.length rest) = rest := by
  induction hlength : rest.length using Nat.strong_induction_on generalizing rest with
  | _ n ih =>
    subst hlength
    have hpos := List.length_pos_iff.mpr hd
    cases rest with
    | nil =>
      rw [pieces_nil]
      rfl
    | cons a rest =>
      by_cases h : begins d (a :: rest) = true
      · rw [intercalate_pieces_stop hd h, ih _ (by rw [List.length_drop, List.length_cons]; omega) _
          rfl]
        exact List.prefix_iff_eq_append.mp (of_decide_eq_true h)
      · rw [intercalate_pieces_go (Bool.eq_false_of_not_eq_true h), ih _ (Nat.lt_succ_self _) _ rfl]

theorem length_intercalate_pieces (hd : d ≠ []) (r rest : List α) :
    (r.intercalate (pieces (begins d) d.length rest)).length
        + stops (begins d) d.length rest * d.length =
      rest.length + stops (begins d) d.length rest * r.length := by
  induction hlength : rest.length using Nat.strong_induction_on generalizing rest with
  | _ n ih =>
    subst hlength
    have hpos := List.length_pos_iff.mpr hd
    cases rest with
    | nil =>
      rw [stops_nil, pieces_nil, Nat.zero_mul, Nat.zero_mul]
      rfl
    | cons a rest =>
      by_cases h : begins d (a :: rest) = true
      · obtain ⟨n, hn⟩ := Nat.exists_eq_add_one_of_ne_zero hpos.ne'
        have hle := (of_decide_eq_true h).length_le
        have := ih ((a :: rest).drop d.length).length
          (by rw [List.length_drop, List.length_cons]; omega) _ rfl
        rw [intercalate_pieces_stop hd h, stops_stop h, List.length_append]
        rw [List.length_drop] at this
        rw [hn, List.drop_succ_cons] at this ⊢
        rw [Nat.add_sub_cancel, Nat.succ_mul, Nat.succ_mul]
        omega
      · have := ih rest.length (Nat.lt_succ_self _) _ rfl
        rw [intercalate_pieces_go (Bool.eq_false_of_not_eq_true h),
          stops_go (Bool.eq_false_of_not_eq_true h), List.length_cons, List.length_cons]
        omega

theorem not_infix_of_mem_pieces (hd : d ≠ []) {p : List α}
    (hp : p ∈ pieces (begins d) d.length rest) : ¬ d <:+: p := by
  induction rest using cut_induction (begins d) d.length generalizing p with
  | hnil =>
    rw [pieces_nil, List.mem_singleton] at hp
    rw [hp, List.infix_nil]
    exact hd
  | hstop a rest h ih =>
    rw [pieces_stop h] at hp
    rcases List.mem_cons.mp hp with rfl | hp
    · rw [List.infix_nil]
      exact hd
    · exact ih hp
  | hgo a rest h ih =>
    obtain ⟨q, ps, hq⟩ := exists_pieces (begins d) d.length rest
    have hjoin := intercalate_pieces hd rest
    rw [hq] at hjoin ih
    rw [pieces_go h, hq, List.modifyHead_cons] at hp
    rcases List.mem_cons.mp hp with rfl | hp
    · rw [List.infix_cons_iff]
      refine not_or.mpr ⟨fun hprefix => ?_, ih List.mem_cons_self⟩
      refine of_decide_eq_false h <| hprefix.trans (List.cons_prefix_cons.mpr ⟨rfl, ?_⟩)
      rw [← hjoin]
      cases ps with
      | nil => exact ⟨[], by rw [List.append_nil]; exact (List.append_nil q).symm⟩
      | cons q' ps => exact List.prefix_append q _
    · exact ih (List.mem_cons_of_mem q hp)

end Delimiter

end DaScript.Cutting

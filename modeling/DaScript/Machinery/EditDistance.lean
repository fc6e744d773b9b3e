import Mathlib.Tactic

/-!
# Machinery/EditDistance — the least number of edits between two lists

An edit puts an entry in, takes one out, or changes one.  `distance` takes the entries from the
front; by `distance_append` it can be had from the back as well, which is how a matrix of prefixes
is filled.

`distance_isLeast`: it is the least number of edits.
-/

namespace DaScript.EditDistance

variable {α : Type}

/-- **One edit**, here or further on. -/
inductive Edit : List α → List α → Prop
  | insert (a s) : Edit s (a :: s)
  | delete (a s) : Edit (a :: s) s
  | substitute (a b s) : Edit (a :: s) (b :: s)
  | cons (a) {s t} : Edit s t → Edit (a :: s) (a :: t)

/-- So many edits, one after the other. -/
inductive Edits : ℕ → List α → List α → Prop
  | refl (s) : Edits 0 s s
  | head {n s t u} : Edit s t → Edits n t u → Edits (n + 1) s u

/-! ## Edits -/

section Edits

variable {m n : ℕ} {s t u : List α}

theorem Edit.symm (h : Edit s t) : Edit t s := by
  induction h with
  | insert a s => exact .delete a s
  | delete a s => exact .insert a s
  | substitute a b s => exact .substitute b a s
  | cons a _ ih => exact .cons a ih

theorem Edit.append (h : Edit s t) (u : List α) : Edit (s ++ u) (t ++ u) := by
  induction h with
  | insert a s => exact .insert a (s ++ u)
  | delete a s => exact .delete a (s ++ u)
  | substitute a b s => exact .substitute a b (s ++ u)
  | cons a _ ih => exact .cons a ih

theorem Edit.insert_last (a : α) (s : List α) : Edit s (s ++ [a]) := by
  induction s with
  | nil => exact .insert a []
  | cons b s ih => exact .cons b ih

theorem Edit.substitute_last (a b : α) (s : List α) : Edit (s ++ [a]) (s ++ [b]) := by
  induction s with
  | nil => exact .substitute a b []
  | cons c s ih => exact .cons c ih

theorem Edit.reverse (h : Edit s t) : Edit s.reverse t.reverse := by
  induction h with
  | insert a s => exact List.reverse_cons ▸ .insert_last a s.reverse
  | delete a s => exact List.reverse_cons ▸ (Edit.insert_last a s.reverse).symm
  | substitute a b s =>
    rw [List.reverse_cons, List.reverse_cons]
    exact .substitute_last a b s.reverse
  | cons a _ ih =>
    rw [List.reverse_cons, List.reverse_cons]
    exact ih.append [a]

theorem edits_zero : Edits 0 s t ↔ s = t := by
  constructor
  · rintro ⟨⟩
    rfl
  · rintro rfl
    exact .refl s

theorem Edits.trans (hs : Edits m s t) (ht : Edits n t u) : Edits (m + n) s u := by
  induction hs with
  | refl s => rwa [Nat.zero_add]
  | head hedit _ ih =>
    rw [Nat.succ_add]
    exact .head hedit (ih ht)

theorem Edit.edits (h : Edit s t) : Edits 1 s t := .head h (.refl t)

theorem Edits.symm (h : Edits n s t) : Edits n t s := by
  induction h with
  | refl s => exact .refl s
  | head hedit _ ih => exact ih.trans hedit.symm.edits

theorem Edits.cons (a : α) (h : Edits n s t) : Edits n (a :: s) (a :: t) := by
  induction h with
  | refl s => exact .refl (a :: s)
  | head hedit _ ih => exact .head (.cons a hedit) ih

theorem Edits.reverse (h : Edits n s t) : Edits n s.reverse t.reverse := by
  induction h with
  | refl s => exact .refl s.reverse
  | head hedit _ ih => exact .head hedit.reverse ih

theorem edits_nil (s : List α) : Edits s.length s [] := by
  induction s with
  | nil => exact .refl []
  | cons a s ih => exact .head (.delete a s) ih

end Edits

/-! ## The distance -/

variable [DecidableEq α]

/-- What it takes to make an entry another one. -/
def cost (a b : α) : ℕ := if a = b then 0 else 1

/-- The distance with an entry more, of `above` without it. -/
def row (a : α) (above : List α → ℕ) : List α → ℕ
  | [] => above [] + 1
  | b :: t => min (min (above (b :: t) + 1) (row a above t + 1)) (above t + cost a b)

/-- The distance, from the front. -/
def distance : List α → List α → ℕ
  | [] => List.length
  | a :: s => row a (distance s)

section Distance

variable {n : ℕ} {s t u : List α}

@[simp] theorem distance_nil_left (t : List α) : distance [] t = t.length := by
  rw [distance]

@[simp] theorem distance_nil_right (s : List α) : distance s [] = s.length := by
  induction s with
  | nil => rfl
  | cons a s ih => rw [distance, row, ih, List.length_cons]

theorem distance_cons_cons (a b : α) (s t : List α) :
    distance (a :: s) (b :: t) =
      min (min (distance s (b :: t) + 1) (distance (a :: s) t + 1)) (distance s t + cost a b) :=
  rfl

theorem cost_le (a b : α) : cost a b ≤ 1 := by
  rw [cost]
  split <;> decide

theorem edits_distance (s t : List α) : Edits (distance s t) s t := by
  induction s generalizing t with
  | nil => exact distance_nil_left t ▸ (edits_nil t).symm
  | cons a s ihs =>
    induction t with
    | nil => exact distance_nil_right (a :: s) ▸ edits_nil (a :: s)
    | cons b t iht =>
      have hdelete : Edits (distance s (b :: t) + 1) (a :: s) (b :: t) :=
        .head (.delete a s) (ihs (b :: t))
      have hinsert : Edits (distance (a :: s) t + 1) (a :: s) (b :: t) :=
        iht.trans (Edit.insert b t).edits
      have hcost : Edits (distance s t + cost a b) (a :: s) (b :: t) := by
        rw [cost]
        split
        · rename_i hab
          exact hab ▸ (ihs t).cons a
        · exact ((ihs t).cons a).trans (Edit.substitute a b t).edits
      rw [distance_cons_cons]
      rcases min_choice (min (distance s (b :: t) + 1) (distance (a :: s) t + 1))
        (distance s t + cost a b) with h | h
      · rcases min_choice (distance s (b :: t) + 1) (distance (a :: s) t + 1) with h' | h'
        · rwa [h, h']
        · rwa [h, h']
      · rwa [h]

theorem distance_cons_right (b : α) (s t : List α) : distance s (b :: t) ≤ distance s t + 1 := by
  cases s with
  | nil => rw [distance_nil_left, distance_nil_left, List.length_cons]
  | cons a s =>
    rw [distance_cons_cons]
    exact (min_le_left _ _).trans (min_le_right _ _)

theorem distance_cons_left (a : α) (s t : List α) : distance (a :: s) t ≤ distance s t + 1 := by
  cases t with
  | nil => rw [distance_nil_right, distance_nil_right, List.length_cons]
  | cons b t =>
    rw [distance_cons_cons]
    exact (min_le_left _ _).trans (min_le_left _ _)

theorem distance_cons_substitute (a b : α) (s t : List α) :
    distance (a :: s) (b :: t) ≤ distance s t + cost a b := by
  rw [distance_cons_cons]
  exact min_le_right _ _

theorem Edit.distance_le {s s' : List α} (h : Edit s s') (t : List α) :
    distance s t ≤ distance s' t + 1 := by
  induction h generalizing t with
  | insert a s =>
    induction t with
    | nil =>
      rw [distance_nil_right, distance_nil_right, List.length_cons]
      omega
    | cons b t ih =>
      have hb := distance_cons_right b s t
      rw [distance_cons_cons]
      omega
  | delete a s => exact distance_cons_left a s t
  | substitute a b s =>
    induction t with
    | nil => simp
    | cons c t ih =>
      have hinsert := distance_cons_right c (a :: s) t
      have hdelete := distance_cons_left a s (c :: t)
      have hcost := distance_cons_substitute a c s t
      have hle := cost_le a c
      rw [distance_cons_cons b]
      omega
  | @cons a s s' _ ihs =>
    induction t with
    | nil =>
      have := ihs []
      simpa using this
    | cons c t iht =>
      have hinsert := distance_cons_right c (a :: s) t
      have hdelete := distance_cons_left a s (c :: t)
      have hcost := distance_cons_substitute a c s t
      have hrest := ihs t
      have hnext := ihs (c :: t)
      rw [distance_cons_cons a c s']
      omega

theorem distance_self (s : List α) : distance s s = 0 := by
  induction s with
  | nil => rfl
  | cons a s ih =>
    have := distance_cons_substitute a a s s
    rw [ih, cost, if_pos rfl] at this
    exact Nat.le_zero.mp this

theorem Edits.distance_le (h : Edits n s t) : distance s t ≤ n := by
  induction h with
  | refl s => exact (distance_self s).le
  | @head _ _ _ u hedit _ ih => exact (hedit.distance_le u).trans (Nat.succ_le_succ ih)

theorem distance_isLeast (s t : List α) : IsLeast {n | Edits n s t} (distance s t) :=
  ⟨edits_distance s t, fun _ h => Edits.distance_le h⟩

theorem distance_comm (s t : List α) : distance s t = distance t s :=
  (edits_distance t s).symm.distance_le.antisymm (edits_distance s t).symm.distance_le

theorem distance_eq_zero : distance s t = 0 ↔ s = t := by
  constructor
  · intro h
    exact edits_zero.mp (h ▸ edits_distance s t)
  · rintro rfl
    exact distance_self s

theorem distance_triangle (s t u : List α) : distance s u ≤ distance s t + distance t u :=
  ((edits_distance s t).trans (edits_distance t u)).distance_le

theorem distance_reverse (s t : List α) : distance s.reverse t.reverse = distance s t := by
  refine (edits_distance s t).reverse.distance_le.antisymm ?_
  have := (edits_distance s.reverse t.reverse).reverse.distance_le
  rwa [List.reverse_reverse, List.reverse_reverse] at this

theorem distance_append (s t : List α) (a b : α) :
    distance (s ++ [a]) (t ++ [b]) =
      min (min (distance s (t ++ [b]) + 1) (distance (s ++ [a]) t + 1))
        (distance s t + cost a b) := by
  rw [← distance_reverse (s ++ [a]), ← distance_reverse s (t ++ [b]),
    ← distance_reverse (s ++ [a]) t, ← distance_reverse s t, List.reverse_append,
    List.reverse_append, List.reverse_singleton, List.reverse_singleton, List.singleton_append,
    List.singleton_append, distance_cons_cons]

theorem distance_le_max (s t : List α) : distance s t ≤ max s.length t.length := by
  induction s generalizing t with
  | nil => simp
  | cons a s ih =>
    cases t with
    | nil => simp
    | cons b t =>
      have hcost := distance_cons_substitute a b s t
      have hle := cost_le a b
      have hrest := ih t
      rw [List.length_cons, List.length_cons]
      omega

end Distance

end DaScript.EditDistance

import Mathlib.Tactic

/-!
# Daslib/NearMatch — words near each other

`_near_match` of `fts5_query.das`.  A window opens on an occurrence of the first word and takes in
the other words one by one, each where the window grows least.
-/

namespace DaScript.NearMatch

variable {α : Type}

/-- A word stands there. -/
def Occurs (tokens : List α) (word : α) (p : ℤ) : Prop := ∃ j : ℕ, p = j ∧ tokens[j]? = some word

/-- No two are further apart. -/
def Close (k : ℤ) (ps : List ℤ) : Prop := ∀ p ∈ ps, ∀ q ∈ ps, |p - q| ≤ k

/-- **Every word appears within `k` tokens of every other.** -/
def Near (words : List α) (k : ℤ) (tokens : List α) : Prop :=
  ∃ ps, List.Forall₂ (Occurs tokens) words ps ∧ Close k ps

/-! ## The search -/

/-- `positions[i]` -/
def positions [DecidableEq α] (tokens : List α) (word : α) : List ℤ :=
  (List.range tokens.length).filterMap fun j : ℕ =>
    if tokens[j]? = some word then some (j : ℤ) else none

/-- What a window is as long as with one more position. -/
def span (lo hi q : ℤ) : ℤ := max hi q - min lo q

/-- `best` and `best_span`, after another `q`. -/
def better (k lo hi : ℤ) (best : ℤ × ℤ) (q : ℤ) : ℤ × ℤ :=
  if span lo hi q ≤ k ∧ (best.2 = -1 ∨ span lo hi q < best.2) then (q, span lo hi q) else best

/-- `best` and `best_span`, after all of a word. -/
def best (k lo hi : ℤ) (qs : List ℤ) : ℤ × ℤ := qs.foldl (better k lo hi) (-1, -1)

/-- The loop over the words behind the first: `ok`. -/
def window (k : ℤ) : ℤ → ℤ → List (List ℤ) → Bool
  | _, _, [] => true
  | lo, hi, qs :: rest =>
    let q := (best k lo hi qs).1
    if q = -1 then false else window k (min lo q) (max hi q) rest

def nearMatch [DecidableEq α] (words : List α) (k : ℤ) (tokens : List α) : Bool :=
  match words.map (positions tokens) with
  | [] => true
  | first :: rest =>
    if (first :: rest).any List.isEmpty then false
    else first.any fun p0 => window k p0 p0 rest

/-! ## The choices that it makes -/

/-- **The window grows least there**, and no further to the left. -/
def Nearest (tokens : List α) (word : α) (lo hi q : ℤ) : Prop :=
  Occurs tokens word q ∧ ∀ q', Occurs tokens word q' →
    span lo hi q < span lo hi q' ∨ span lo hi q = span lo hi q' ∧ q ≤ q'

/-- Each word where it is nearest to the window of those before. -/
inductive Grown (tokens : List α) : ℤ → ℤ → List α → List ℤ → Prop
  | nil {lo hi : ℤ} : Grown tokens lo hi [] []
  | cons {lo hi q : ℤ} {word : α} {words : List α} {ps : List ℤ}
    (hq : Nearest tokens word lo hi q) (rest : Grown tokens (min lo q) (max hi q) words ps) :
    Grown tokens lo hi (word :: words) (q :: ps)

/-- **The positions that a search from the first of them takes.** -/
inductive Greedy (tokens : List α) : List α → List ℤ → Prop
  | cons {word : α} {words : List α} {p : ℤ} {ps : List ℤ} (hp : Occurs tokens word p)
    (rest : Grown tokens p p words ps) : Greedy tokens (word :: words) (p :: ps)

theorem mem_positions [DecidableEq α] {tokens : List α} {word : α} {p : ℤ} :
    p ∈ positions tokens word ↔ Occurs tokens word p := by
  simp only [positions, List.mem_filterMap, List.mem_range, Option.ite_none_right_eq_some,
    Option.some.injEq]
  constructor
  · rintro ⟨j, -, hj, rfl⟩
    exact ⟨j, rfl, hj⟩
  · rintro ⟨j, rfl, hj⟩
    exact ⟨j, (List.getElem?_eq_some_iff.mp hj).1, hj, rfl⟩

theorem positions_sorted [DecidableEq α] (tokens : List α) (word : α) :
    (positions tokens word).Pairwise (· < ·) := by
  refine List.Pairwise.filterMap _ ?_ List.pairwise_lt_range
  intro j j' hlt p hp q hq
  simp only [Option.ite_none_right_eq_some, Option.some.injEq] at hp hq
  obtain ⟨-, rfl⟩ := hp
  obtain ⟨-, rfl⟩ := hq
  exact_mod_cast hlt

theorem Occurs.nonneg {tokens : List α} {word : α} {p : ℤ} (h : Occurs tokens word p) : 0 ≤ p := by
  obtain ⟨j, rfl, -⟩ := h
  exact Int.natCast_nonneg j

theorem span_nonneg {lo hi : ℤ} (h : lo ≤ hi) (q : ℤ) : 0 ≤ span lo hi q := by
  rw [span]
  omega

theorem best_spec {k lo hi : ℤ} (hwindow : lo ≤ hi) (qs : List ℤ) (hsorted : qs.Pairwise (· < ·)) :
    (best k lo hi qs = (-1, -1) ∧ ∀ q ∈ qs, k < span lo hi q) ∨
      ∃ q ∈ qs, best k lo hi qs = (q, span lo hi q) ∧ span lo hi q ≤ k ∧
        ∀ q' ∈ qs, span lo hi q < span lo hi q' ∨ span lo hi q = span lo hi q' ∧ q ≤ q' := by
  induction qs using List.reverseRecOn with
  | nil => exact .inl ⟨rfl, by simp⟩
  | append_singleton qs q ih =>
    obtain ⟨hqs, -, hlast⟩ := List.pairwise_append.mp hsorted
    have hlast : ∀ q' ∈ qs, q' < q := fun q' hq' => hlast q' hq' q (List.mem_singleton_self q)
    have hbest : best k lo hi (qs ++ [q]) = better k lo hi (best k lo hi qs) q := by
      simp [best, List.foldl_append]
    rw [hbest]
    rcases ih hqs with ⟨hnone, hfar⟩ | ⟨p, hp, hfound, hfits, hnearest⟩
    · rw [hnone, better]
      by_cases hq : span lo hi q ≤ k
      · rw [if_pos ⟨hq, .inl rfl⟩]
        refine .inr ⟨q, by simp, rfl, hq, fun q' hq' => ?_⟩
        rcases List.mem_append.mp hq' with hq' | hq'
        · exact .inl (hq.trans_lt (hfar q' hq'))
        · obtain rfl := List.mem_singleton.mp hq'
          exact .inr ⟨rfl, le_rfl⟩
      · rw [if_neg (fun h => hq h.1)]
        refine .inl ⟨rfl, fun q' hq' => ?_⟩
        rcases List.mem_append.mp hq' with hq' | hq'
        · exact hfar q' hq'
        · obtain rfl := List.mem_singleton.mp hq'
          omega
    · rw [hfound, better]
      have hspan := span_nonneg hwindow p
      by_cases hq : span lo hi q < span lo hi p
      · rw [if_pos ⟨by omega, .inr hq⟩]
        refine .inr ⟨q, by simp, rfl, by omega, fun q' hq' => ?_⟩
        rcases List.mem_append.mp hq' with hq' | hq'
        · left
          rcases hnearest q' hq' with h | h <;> omega
        · obtain rfl := List.mem_singleton.mp hq'
          exact .inr ⟨rfl, le_rfl⟩
      · rw [if_neg (by simp only; omega)]
        refine .inr ⟨p, by simp [hp], rfl, hfits, fun q' hq' => ?_⟩
        rcases List.mem_append.mp hq' with hq' | hq'
        · exact hnearest q' hq'
        · obtain rfl := List.mem_singleton.mp hq'
          have := hlast p hp
          omega

/-! ## A window and what is in it -/

/-- The ends of a window that has taken in more. -/
def low (lo : ℤ) (ps : List ℤ) : ℤ := ps.foldl min lo

def high (hi : ℤ) (ps : List ℤ) : ℤ := ps.foldl max hi

theorem low_le_iff {x lo : ℤ} {ps : List ℤ} : x ≤ low lo ps ↔ ∀ p ∈ lo :: ps, x ≤ p := by
  induction ps generalizing lo with
  | nil => simp [low]
  | cons p ps ih => simpa [low, and_assoc] using @ih (min lo p)

theorem high_le_iff {x hi : ℤ} {ps : List ℤ} : high hi ps ≤ x ↔ ∀ p ∈ hi :: ps, p ≤ x := by
  induction ps generalizing hi with
  | nil => simp [high]
  | cons p ps ih => simpa [high, and_assoc] using @ih (max hi p)

theorem close_iff {k p : ℤ} {ps : List ℤ} : Close k (p :: ps) ↔ high p ps - low p ps ≤ k := by
  constructor
  · intro h
    have hlow : high p ps - k ≤ low p ps := by
      refine low_le_iff.2 fun q hq => ?_
      have hhigh : high p ps ≤ q + k := by
        refine high_le_iff.2 fun q' hq' => ?_
        have := abs_le.mp (h q' hq' q hq)
        omega
      omega
    omega
  · intro h q hq q' hq'
    have hlow := low_le_iff.1 (le_refl (low p ps))
    have hhigh := high_le_iff.1 (le_refl (high p ps))
    have := hlow q hq
    have := hlow q' hq'
    have := hhigh q hq
    have := hhigh q' hq'
    rw [abs_le]
    omega

theorem length_le {lo hi : ℤ} (ps : List ℤ) : hi - lo ≤ high hi ps - low lo ps := by
  have hlow := low_le_iff.1 (le_refl (low lo ps)) lo List.mem_cons_self
  have hhigh := high_le_iff.1 (le_refl (high hi ps)) hi List.mem_cons_self
  omega

theorem Nearest.unique {tokens : List α} {word : α} {lo hi q q' : ℤ}
    (h : Nearest tokens word lo hi q) (h' : Nearest tokens word lo hi q') : q = q' := by
  rcases h.2 q' h'.1 with hlt | ⟨heq, hle⟩ <;> rcases h'.2 q h.1 with hlt' | ⟨heq', hle'⟩ <;> omega

theorem window_iff [DecidableEq α] {tokens : List α} {k : ℤ} (words : List α) {lo hi : ℤ}
    (hwindow : lo ≤ hi)
    (hfits : hi - lo ≤ k) :
    window k lo hi (words.map (positions tokens)) = true ↔
      ∃ ps, Grown tokens lo hi words ps ∧ high hi ps - low lo ps ≤ k := by
  induction words generalizing lo hi with
  | nil => exact ⟨fun _ => ⟨[], .nil, hfits⟩, fun _ => rfl⟩
  | cons word words ih =>
    rw [List.map_cons, window]
    rcases best_spec (k := k) hwindow _ (positions_sorted tokens word) with
      ⟨hnone, hfar⟩ | ⟨q, hq, hfound, hspan, hnearest⟩
    · rw [hnone, if_pos rfl]
      refine ⟨fun h => (Bool.false_ne_true h).elim, ?_⟩
      rintro ⟨_, hgrown, hlength⟩
      cases hgrown with
      | cons hq _ =>
        have hspan := hfar _ (mem_positions.2 hq.1)
        exact absurd hlength (not_le.mpr (hspan.trans_le (length_le _)))
    · have hq := mem_positions.1 hq
      have hnearest : Nearest tokens word lo hi q :=
        ⟨hq, fun q' hq' => hnearest q' (mem_positions.2 hq')⟩
      have hne : q ≠ -1 := by
        have := hq.nonneg
        omega
      rw [hfound, if_neg hne, ih (by omega) hspan]
      constructor
      · rintro ⟨ps, hgrown, hlength⟩
        exact ⟨q :: ps, .cons hnearest hgrown, hlength⟩
      · rintro ⟨_, hgrown, hlength⟩
        cases hgrown with
        | cons hnearest' hgrown =>
          obtain rfl := hnearest.unique hnearest'
          exact ⟨_, hgrown, hlength⟩

theorem Grown.occurs {tokens words : List α} {lo hi : ℤ} {ps : List ℤ}
    (h : Grown tokens lo hi words ps) : List.Forall₂ (Occurs tokens) words ps := by
  induction h with
  | nil => exact .nil
  | cons hq _ ih => exact .cons hq.1 ih

theorem Greedy.occurs {tokens words : List α} {ps : List ℤ} (h : Greedy tokens words ps) :
    List.Forall₂ (Occurs tokens) words ps := by
  obtain ⟨hp, hgrown⟩ := h
  exact .cons hp hgrown.occurs

theorem nearMatch_iff [DecidableEq α] {words : List α} (hwords : words ≠ []) {k : ℤ} (hk : 0 ≤ k)
    (tokens : List α) :
    nearMatch words k tokens = true ↔ ∃ ps, Greedy tokens words ps ∧ Close k ps := by
  obtain ⟨word, words, rfl⟩ := List.exists_cons_of_ne_nil hwords
  rw [nearMatch, List.map_cons]
  dsimp only
  have hwindow : ((positions tokens word).any fun p =>
      window k p p (words.map (positions tokens))) = true ↔
      ∃ ps, Greedy tokens (word :: words) ps ∧ Close k ps := by
    rw [List.any_eq_true]
    constructor
    · rintro ⟨p, hp, hwindow⟩
      obtain ⟨ps, hgrown, hlength⟩ := (window_iff words le_rfl (by omega)).mp hwindow
      exact ⟨p :: ps, .cons (mem_positions.1 hp) hgrown, close_iff.2 hlength⟩
    · rintro ⟨_, ⟨hp, hgrown⟩, hclose⟩
      exact ⟨_, mem_positions.2 hp,
        (window_iff words le_rfl (by omega)).mpr ⟨_, hgrown, close_iff.1 hclose⟩⟩
  by_cases hempty : (positions tokens word :: words.map (positions tokens)).any List.isEmpty = true
  · rw [if_pos hempty]
    refine ⟨fun h => (Bool.false_ne_true h).elim, ?_⟩
    rintro ⟨ps, hgreedy, -⟩
    obtain ⟨qs, hqs, hnil⟩ := List.any_eq_true.mp hempty
    rw [← List.map_cons, List.mem_map] at hqs
    obtain ⟨missing, hmissing, rfl⟩ := hqs
    obtain ⟨i, hi, rfl⟩ := List.getElem_of_mem hmissing
    have hoccurs := hgreedy.occurs.get hi (hgreedy.occurs.length_eq ▸ hi)
    rw [List.isEmpty_iff] at hnil
    have hmem := mem_positions.2 hoccurs
    rw [List.get_eq_getElem, hnil] at hmem
    exact absurd hmem List.not_mem_nil
  · rw [if_neg hempty]
    exact hwindow

/-- **Two words are found near each other just where they are.** -/
theorem nearMatch_pair [DecidableEq α] (word word' : α) {k : ℤ} (hk : 0 ≤ k) (tokens : List α) :
    nearMatch [word, word'] k tokens = true ↔ Near [word, word'] k tokens := by
  rw [nearMatch_iff (by simp) hk]
  refine ⟨fun ⟨ps, hgreedy, hclose⟩ => ⟨ps, hgreedy.occurs, hclose⟩, ?_⟩
  rintro ⟨ps, hoccurs, hclose⟩
  obtain ⟨p, _, hp, hpair, rfl⟩ := List.forall₂_cons_left_iff.mp hoccurs
  obtain ⟨q, _, hq, hnil, rfl⟩ := List.forall₂_cons_left_iff.mp hpair
  obtain rfl := List.forall₂_nil_left_iff.mp hnil
  have hspan : span p p q ≤ k := close_iff.1 hclose
  rcases best_spec (k := k) (le_refl p) _ (positions_sorted tokens word') with
    ⟨-, hfar⟩ | ⟨q', hq', -, hfits, hnearest⟩
  · exact absurd hspan (not_le.mpr (hfar q (mem_positions.2 hq)))
  · exact ⟨[p, q'], .cons hp (.cons ⟨mem_positions.1 hq',
      fun r hr => hnearest r (mem_positions.2 hr)⟩ .nil), close_iff.2 hfits⟩

theorem nearMatch_pair_apart :
    (0 : ℤ) ≤ 2 ∧
      (nearMatch ['a', 'b'] 2 ['b', 'x', 'a'] = true ↔ Near ['a', 'b'] 2 ['b', 'x', 'a']) :=
  ⟨by decide, nearMatch_pair 'a' 'b' (by decide) ['b', 'x', 'a']⟩

end DaScript.NearMatch

import DaScript.Machinery.Probing

/-!
# Machinery/Cells — the contents of an open-addressed table

A table is read as a family of `Cell`s, one a slot.  Three facts make it a finite map:

* `Distinct` — no key sits in two live slots;
* `Chained` — every live key is reached from its home over nonempty slots, so a walk that meets an
  empty slot has proved the key absent;
* `tally` — live, killed and empty slots add up to the table, so a table that is not full of live
  and killed slots has an empty one for every walk to end at.

`relocate` rebuilds a table into a fresh one.  The slot an entry is walked from there is an
argument of its own (`start`): the entry set survives whatever it is (`Relocated.stored`), but the
new table is chained for `home` only if `start` agrees with it (`Relocated.chained`).
-/

namespace DaScript.Probing

variable {K V : Type*}

/-- One slot of a table. -/
inductive Cell (K V : Type*)
  | empty
  | killed
  | live (k : K) (v : V)
  deriving DecidableEq, Repr

namespace Cell

def isEmpty : Cell K V → Bool
  | .empty => true
  | .killed => false
  | .live _ _ => false

def isKilled : Cell K V → Bool
  | .empty => false
  | .killed => true
  | .live _ _ => false

def isLive : Cell K V → Bool
  | .empty => false
  | .killed => false
  | .live _ _ => true

/-- What a walk for `k` makes of the cell. -/
def look (same : K → K → Bool) (k : K) : Cell K V → Seen
  | .empty => .empty
  | .killed => .killed
  | .live k' _ => if same k' k then .hit else .miss

@[simp] theorem look_eq_empty {same : K → K → Bool} {k : K} {c : Cell K V} :
    c.look same k = .empty ↔ c = .empty := by
  cases c with
  | empty => simp [look]
  | killed => simp [look]
  | live k' v => by_cases h : same k' k = true <;> simp [look, h]

@[simp] theorem look_eq_killed {same : K → K → Bool} {k : K} {c : Cell K V} :
    c.look same k = .killed ↔ c = .killed := by
  cases c with
  | empty => simp [look]
  | killed => simp [look]
  | live k' v => by_cases h : same k' k = true <;> simp [look, h]

theorem look_eq_hit {same : K → K → Bool} {k : K} {c : Cell K V} :
    c.look same k = .hit ↔ ∃ k' v, c = .live k' v ∧ same k' k = true := by
  cases c <;> simp [look]

theorem isEmpty_iff {c : Cell K V} : c.isEmpty = true ↔ c = .empty := by
  cases c <;> simp [isEmpty]

theorem isLive_iff {c : Cell K V} : c.isLive = true ↔ ∃ k v, c = .live k v := by
  cases c <;> simp [isLive]

end Cell

/-! ## Counting slots -/

/-- How many of the first `n` slots satisfy `p`. -/
def tally (p : Cell K V → Bool) (s : ℕ → Cell K V) (n : ℕ) : ℕ := Nat.count (fun i => p (s i)) n

theorem tally_succ (p : Cell K V → Bool) (s : ℕ → Cell K V) (n : ℕ) :
    tally p s (n + 1) = tally p s n + (p (s n)).toNat := by
  rw [tally, tally, Nat.count_succ]
  cases p (s n) <;> rfl

theorem tally_eq_length (p : Cell K V → Bool) (s : ℕ → Cell K V) (n : ℕ) :
    tally p s n = ((List.range n).filter fun i => p (s i)).length := by
  induction n with
  | zero => rfl
  | succ n ih =>
    rw [tally_succ, ih, List.range_succ, List.filter_append, List.length_append]
    cases hp : p (s n) <;> simp [hp]

theorem tally_congr {p : Cell K V → Bool} {s t : ℕ → Cell K V} {n : ℕ}
    (h : ∀ i < n, p (s i) = p (t i)) : tally p s n = tally p t n := by
  induction n with
  | zero => rfl
  | succ n ih => rw [tally_succ, tally_succ, ih fun i hi => h i (by omega), h n (by omega)]

theorem tally_update (p : Cell K V → Bool) (s : ℕ → Cell K V) {n i : ℕ} (hi : i < n)
    (c : Cell K V) :
    tally p (Function.update s i c) n + (p (s i)).toNat = tally p s n + (p c).toNat := by
  induction n with
  | zero => omega
  | succ n ih =>
    rw [tally_succ, tally_succ]
    rcases Nat.lt_succ_iff_lt_or_eq.mp hi with hlt | rfl
    · have := ih hlt
      rw [Function.update_of_ne (by omega)]
      omega
    · rw [Function.update_self, tally_congr fun j hj => by rw [Function.update_of_ne (by omega)]]
      omega

theorem tally_mono (p : Cell K V → Bool) (s : ℕ → Cell K V) {m n : ℕ} (h : m ≤ n) :
    tally p s m ≤ tally p s n := Nat.count_monotone _ h

theorem tally_eq_of_le {p : Cell K V → Bool} {s : ℕ → Cell K V} {m n : ℕ} (hmn : m ≤ n)
    (h : ∀ i, m ≤ i → i < n → p (s i) = false) : tally p s n = tally p s m := by
  induction n, hmn using Nat.le_induction with
  | base => rfl
  | succ n hn ih =>
    rw [tally_succ, ih fun i hm hi => h i hm (by omega), h n hn (by omega)]
    rfl

theorem tally_le (p : Cell K V → Bool) (s : ℕ → Cell K V) (n : ℕ) : tally p s n ≤ n :=
  Nat.count_le _

theorem tally_eq_zero {p : Cell K V → Bool} {s : ℕ → Cell K V} {n : ℕ}
    (h : ∀ i < n, p (s i) = false) : tally p s n = 0 := by
  induction n with
  | zero => rfl
  | succ n ih => rw [tally_succ, ih fun i hi => h i (by omega), h n (by omega)]; rfl

theorem tally_below {p : Cell K V → Bool} {s : ℕ → Cell K V} {m : ℕ}
    (h : ∀ i, p (s i) = decide (i < m)) (n : ℕ) : tally p s n = min n m := by
  induction n with
  | zero => exact (Nat.zero_min m).symm
  | succ n ih =>
    rw [tally_succ, ih, h n]
    by_cases hn : n < m
    · simp only [hn, decide_true, Bool.toNat_true]
      omega
    · simp only [hn, decide_false, Bool.toNat_false]
      omega

theorem tally_total (s : ℕ → Cell K V) (n : ℕ) :
    tally Cell.isLive s n + tally Cell.isKilled s n + tally Cell.isEmpty s n = n := by
  induction n with
  | zero => rfl
  | succ n ih =>
    rw [tally_succ, tally_succ, tally_succ]
    have : (s n).isLive.toNat + (s n).isKilled.toNat + (s n).isEmpty.toNat = 1 := by
      cases s n <;> rfl
    omega

theorem tally_pos {p : Cell K V → Bool} {s : ℕ → Cell K V} {n i : ℕ} (hi : i < n)
    (hp : p (s i) = true) : 0 < tally p s n := by
  by_contra h0
  have h1 := tally_mono p s (show i + 1 ≤ n by omega)
  rw [tally_succ, hp] at h1
  simp only [Bool.toNat_true] at h1
  omega

theorem exists_empty {s : ℕ → Cell K V} {n : ℕ}
    (h : tally Cell.isLive s n + tally Cell.isKilled s n < n) : ∃ i < n, s i = .empty := by
  by_contra hno
  have hz : tally Cell.isEmpty s n = 0 := tally_eq_zero fun i hi => by
    cases hs : s i with
    | empty => exact absurd ⟨i, hi, hs⟩ hno
    | killed => rfl
    | live k v => rfl
  have := tally_total s n
  omega

/-! ## What a table stores -/

/-- `k` is stored with value `v`. -/
def Stored (n : ℕ) (s : ℕ → Cell K V) (k : K) (v : V) : Prop := ∃ i < n, s i = .live k v

theorem stored_of_tally_zero {n : ℕ} {s : ℕ → Cell K V} (h : tally Cell.isLive s n = 0) (k : K)
    (v : V) : ¬ Stored n s k v := by
  rintro ⟨i, hi, hk⟩
  have := tally_pos hi (Cell.isLive_iff.mpr ⟨k, v, hk⟩)
  omega

/-- No key sits in two live slots. -/
def Distinct (same : K → K → Bool) (n : ℕ) (s : ℕ → Cell K V) : Prop :=
  ∀ i < n, ∀ j < n, ∀ k v k' v', s i = .live k v → s j = .live k' v' → same k k' = true → i = j

/-- No slot is live under `k`. -/
def Absent (same : K → K → Bool) (n : ℕ) (s : ℕ → Cell K V) (k : K) : Prop :=
  ∀ i < n, ∀ k' v, s i = .live k' v → same k' k = false

/-- **Every live key is reached from its home over nonempty slots.** -/
def Chained (home : K → ℕ) (n : ℕ) (s : ℕ → Cell K V) : Prop :=
  ∀ i < n, ∀ k v, s i = .live k v →
    ∃ d < n, slot n (home k) d = i ∧ ∀ e < d, s (slot n (home k) e) ≠ .empty

section Updates

variable {same : K → K → Bool} {home : K → ℕ} {n i : ℕ} {s : ℕ → Cell K V} {k : K} {v : V}

theorem distinct_empty (same : K → K → Bool) (n : ℕ) :
    Distinct same n (fun _ => (.empty : Cell K V)) := by
  intro i _ j _ k v k' v' h
  simp at h

theorem chained_empty (home : K → ℕ) (n : ℕ) :
    Chained home n (fun _ => (.empty : Cell K V)) := by
  intro i _ k v h
  simp at h

theorem Distinct.clear (h : Distinct same n s) {c : Cell K V} (hc : c.isLive = false) :
    Distinct same n (Function.update s i c) := by
  intro a ha b hb k v k' v' hka hkb hs
  rcases eq_or_ne a i with rfl | hai
  · rw [Function.update_self] at hka
    simp [hka, Cell.isLive] at hc
  rcases eq_or_ne b i with rfl | hbi
  · rw [Function.update_self] at hkb
    simp [hkb, Cell.isLive] at hc
  rw [Function.update_of_ne hai] at hka
  rw [Function.update_of_ne hbi] at hkb
  exact h a ha b hb k v k' v' hka hkb hs

theorem Distinct.insert (heq : KeyEquiv same) (h : Distinct same n s) (hk : Absent same n s k) :
    Distinct same n (Function.update s i (.live k v)) := by
  intro a ha b hb k₁ v₁ k₂ v₂ hka hkb hs
  rcases eq_or_ne a i with rfl | hai <;> rcases eq_or_ne b a with rfl | hba
  · rfl
  · rw [Function.update_self] at hka
    rw [Function.update_of_ne hba] at hkb
    obtain ⟨rfl, -⟩ := Cell.live.inj hka
    rw [heq.comm, hk b hb k₂ v₂ hkb] at hs
    simp at hs
  · rfl
  · rw [Function.update_of_ne hai] at hka
    rcases eq_or_ne b i with rfl | hbi
    · rw [Function.update_self] at hkb
      obtain ⟨rfl, -⟩ := Cell.live.inj hkb
      rw [hk a ha k₁ v₁ hka] at hs
      simp at hs
    · rw [Function.update_of_ne hbi] at hkb
      exact h a ha b hb k₁ v₁ k₂ v₂ hka hkb hs

theorem Distinct.overwrite {w : V} (h : Distinct same n s) (hi : s i = .live k w) :
    Distinct same n (Function.update s i (.live k v)) := by
  have hkey : ∀ a k' v', Function.update s i (.live k v) a = .live k' v' →
      ∃ w', s a = .live k' w' := by
    intro a k' v' hka
    rcases eq_or_ne a i with rfl | hai
    · rw [Function.update_self] at hka
      obtain ⟨rfl, -⟩ := Cell.live.inj hka
      exact ⟨w, hi⟩
    · rw [Function.update_of_ne hai] at hka
      exact ⟨v', hka⟩
  intro a ha b hb k₁ v₁ k₂ v₂ hka hkb hs
  obtain ⟨w₁, h₁⟩ := hkey a k₁ v₁ hka
  obtain ⟨w₂, h₂⟩ := hkey b k₂ v₂ hkb
  exact h a ha b hb k₁ w₁ k₂ w₂ h₁ h₂ hs

theorem Chained.update (h : Chained home n s) {c : Cell K V} (hc : c ≠ .empty)
    (hown : ∀ k v, c = .live k v →
      ∃ d < n, slot n (home k) d = i ∧ ∀ e < d, s (slot n (home k) e) ≠ .empty) :
    Chained home n (Function.update s i c) := by
  have hkeep : ∀ a, s a ≠ .empty → Function.update s i c a ≠ .empty := by
    intro a ha
    rcases eq_or_ne a i with rfl | hai
    · rwa [Function.update_self]
    · rwa [Function.update_of_ne hai]
  intro a ha k v hka
  obtain ⟨d, hd, hda, hpath⟩ : ∃ d < n, slot n (home k) d = a ∧
      ∀ e < d, s (slot n (home k) e) ≠ .empty := by
    rcases eq_or_ne a i with rfl | hai
    · rw [Function.update_self] at hka
      exact hown k v hka
    · rw [Function.update_of_ne hai] at hka
      exact h a ha k v hka
  exact ⟨d, hd, hda, fun e he => hkeep _ (hpath e he)⟩

theorem Chained.kill (h : Chained home n s) : Chained home n (Function.update s i .killed) :=
  h.update (by simp) (by simp)

theorem Chained.overwrite {w : V} (h : Chained home n s) (hlt : i < n) (hi : s i = .live k w) :
    Chained home n (Function.update s i (.live k v)) :=
  h.update (by simp) fun k' v' hk' => by
    obtain ⟨rfl, -⟩ := Cell.live.inj hk'
    exact h i hlt k w hi

theorem Chained.absent (hch : Chained home n s) (hhome : ∀ {a b}, same a b = true → home a = home b)
    {d : ℕ} (hd : d < n) (hpass : ∀ e < d, ((s (slot n (home k) e)).look same k).stops = false)
    (hempty : s (slot n (home k) d) = .empty) : Absent same n s k := by
  intro i hi k' v hki
  by_contra hsame
  have hsame' : same k' k = true := by simpa using hsame
  obtain ⟨d', hd', hslot, hpath⟩ := hch i hi k' v hki
  rw [hhome hsame'] at hslot hpath
  rcases lt_trichotomy d' d with hlt | rfl | hgt
  · have := hpass d' hlt
    rw [hslot, hki] at this
    simp [Cell.look, hsame', Seen.stops] at this
  · rw [hslot, hki] at hempty
    simp at hempty
  · exact hpath d hgt hempty

theorem stored_move {j : ℕ} (hi : i < n) (hj : j < n) (hfree : (s i).isLive = false)
    {c : Cell K V} (hc : c.isLive = false) (a : K) (w : V) :
    Stored n (Function.update (Function.update s i (s j)) j c) a w ↔ Stored n s a w := by
  have hne : ∀ b, s b = .live a w → b ≠ i := fun b hb h => by
    rw [← h, hb] at hfree
    simp [Cell.isLive] at hfree
  constructor
  · rintro ⟨b, hb, hba⟩
    rcases eq_or_ne b j with rfl | hbj
    · rw [Function.update_self] at hba
      simp [hba, Cell.isLive] at hc
    · rw [Function.update_of_ne hbj] at hba
      rcases eq_or_ne b i with rfl | hbi
      · rw [Function.update_self] at hba
        exact ⟨j, hj, hba⟩
      · rw [Function.update_of_ne hbi] at hba
        exact ⟨b, hb, hba⟩
  · rintro ⟨b, hb, hba⟩
    rcases eq_or_ne b j with rfl | hbj
    · exact ⟨i, hi, by rw [Function.update_of_ne (hne b hba).symm, Function.update_self, hba]⟩
    · exact ⟨b, hb, by rw [Function.update_of_ne hbj, Function.update_of_ne (hne b hba), hba]⟩

theorem Distinct.move {j : ℕ} (h : Distinct same n s) (hj : j < n) {c : Cell K V}
    (hc : c.isLive = false) :
    Distinct same n (Function.update (Function.update s i (s j)) j c) := by
  -- a live cell of the new table is the cell of one old slot, and tells which
  have hold : ∀ a < n, ∀ k v,
      Function.update (Function.update s i (s j)) j c a = .live k v →
      a ≠ j ∧ ((a = i ∧ s j = .live k v) ∨ (a ≠ i ∧ s a = .live k v)) := by
    intro a _ k v hka
    rcases eq_or_ne a j with rfl | haj
    · rw [Function.update_self] at hka
      simp [hka, Cell.isLive] at hc
    · rw [Function.update_of_ne haj] at hka
      rcases eq_or_ne a i with rfl | hai
      · rw [Function.update_self] at hka
        exact ⟨haj, Or.inl ⟨rfl, hka⟩⟩
      · rw [Function.update_of_ne hai] at hka
        exact ⟨haj, Or.inr ⟨hai, hka⟩⟩
  intro a ha b hb k v k' v' hka hkb hs
  obtain ⟨haj, hoa⟩ := hold a ha k v hka
  obtain ⟨hbj, hob⟩ := hold b hb k' v' hkb
  rcases hoa with ⟨rfl, hka'⟩ | ⟨-, hka'⟩ <;> rcases hob with ⟨rfl, hkb'⟩ | ⟨-, hkb'⟩
  · rfl
  · exact absurd (h j hj b hb k v k' v' hka' hkb' hs).symm hbj
  · exact absurd (h a ha j hj k v k' v' hka' hkb' hs) haj
  · exact h a ha b hb k v k' v' hka' hkb' hs

end Updates

/-! ## The finite map a table holds -/

/-- **The table holds the map `m`.** -/
def Holds {same : K → K → Bool} (n : ℕ) (s : ℕ → Cell K V) (m : KeyMap K V same) : Prop :=
  ∀ k v, m.lookup k = some v ↔ ∃ k', Stored n s k' v ∧ same k' k = true

section Holding

variable {same : K → K → Bool} {n i : ℕ} {s : ℕ → Cell K V} {m : KeyMap K V same} {k : K} {v : V}

theorem holds_empty (n : ℕ) : Holds n (fun _ => .empty) (KeyMap.empty : KeyMap K V same) := by
  intro k v
  simp [Stored]

theorem Holds.congr {n' : ℕ} {s' : ℕ → Cell K V} (h : Holds n s m)
    (hs : ∀ k v, Stored n' s' k v ↔ Stored n s k v) : Holds n' s' m := by
  intro k v
  simp only [h k v, hs]

theorem Holds.lookup_of_same (h : Holds n s m) (hi : i < n) {k' : K}
    (hk : s i = .live k' v) (hs : same k' k = true) : m.lookup k = some v :=
  (h k v).mpr ⟨k', ⟨i, hi, hk⟩, hs⟩

theorem Holds.lookup_of_absent (h : Holds n s m) (hk : Absent same n s k) :
    m.lookup k = none := by
  cases hl : m.lookup k with
  | none => rfl
  | some v =>
    obtain ⟨k', ⟨i, hi, hki⟩, hs⟩ := (h k v).mp hl
    rw [hk i hi k' v hki] at hs
    simp at hs

theorem Holds.extend (h : Holds i s m) (heq : KeyEquiv same) (hs : s i = .live k v)
    (hk : Absent same i s k) : Holds (i + 1) s (m.insert heq k v) := by
  intro a w
  rw [KeyMap.lookup_insert]
  constructor
  · intro hl
    split at hl
    · obtain rfl := Option.some.inj hl
      exact ⟨k, ⟨i, Nat.lt_succ_self i, hs⟩, by assumption⟩
    · obtain ⟨k', ⟨j, hj, hkj⟩, hs'⟩ := (h a w).mp hl
      exact ⟨k', ⟨j, by omega, hkj⟩, hs'⟩
  · rintro ⟨k', ⟨j, hj, hkj⟩, hs'⟩
    rcases Nat.lt_succ_iff_lt_or_eq.mp hj with hlt | rfl
    · have hka : ¬ same k a = true := fun hc => by
        have := hk j hlt k' w hkj
        rw [heq.trans hs' (heq.symm hc)] at this
        simp at this
      rw [if_neg hka]
      exact (h a w).mpr ⟨k', ⟨j, hlt, hkj⟩, hs'⟩
    · obtain ⟨rfl, rfl⟩ := Cell.live.inj (hs.symm.trans hkj)
      rw [if_pos hs']

theorem Holds.skip (h : Holds i s m) (hs : (s i).isLive = false) : Holds (i + 1) s m := by
  intro a w
  rw [h a w]
  refine ⟨fun ⟨k', ⟨j, hj, hkj⟩, hs'⟩ => ⟨k', ⟨j, by omega, hkj⟩, hs'⟩, ?_⟩
  rintro ⟨k', ⟨j, hj, hkj⟩, hs'⟩
  rcases Nat.lt_succ_iff_lt_or_eq.mp hj with hlt | rfl
  · exact ⟨k', ⟨j, hlt, hkj⟩, hs'⟩
  · rw [hkj] at hs
    exact Bool.noConfusion hs

theorem Holds.lookup_eq {m' : KeyMap K V same} (h : Holds n s m) (h' : Holds n s m') (k : K) :
    m.lookup k = m'.lookup k :=
  Option.ext fun v => (h k v).trans (h' k v).symm

theorem Holds.card_eq (h : Holds n s m) (heq : KeyEquiv same) (hd : Distinct same n s) :
    tally Cell.isLive s n = m.card := by
  suffices H : ∀ i ≤ n, ∃ m' : KeyMap K V same, Holds i s m' ∧ m'.card = tally Cell.isLive s i by
    obtain ⟨m', h', hcard⟩ := H n le_rfl
    rw [← hcard, KeyMap.card_congr heq fun k => h'.lookup_eq h k]
  intro i
  induction i with
  | zero =>
    refine fun _ => ⟨.empty, fun k v => ?_, rfl⟩
    rw [KeyMap.lookup_empty]
    exact ⟨fun h => absurd h.symm (Option.some_ne_none v),
      fun ⟨_, ⟨_, hj, _⟩, _⟩ => absurd hj (Nat.not_lt_zero _)⟩
  | succ i ih =>
    intro hi
    obtain ⟨m', h', hcard⟩ := ih (by omega)
    rw [tally_succ, ← hcard]
    cases hsi : (s i).isLive with
    | false => exact ⟨m', h'.skip hsi, rfl⟩
    | true =>
      obtain ⟨k, v, hk⟩ := Cell.isLive_iff.mp hsi
      have habs : Absent same i s k := fun j hj k' v' hk' => by
        by_contra hs
        have := hd j (by omega) i (by omega) _ _ _ _ hk' hk (by simpa using hs)
        omega
      refine ⟨m'.insert heq k v, h'.extend heq hk habs, ?_⟩
      have hins := KeyMap.card_insert heq m' k v
      rw [h'.lookup_of_absent habs] at hins
      exact hins

theorem Holds.insert (h : Holds n s m) (heq : KeyEquiv same) (hi : i < n)
    (hfree : (s i).isLive = false) (hk : Absent same n s k) :
    Holds n (Function.update s i (.live k v)) (m.insert heq k v) := by
  intro a w
  rw [KeyMap.lookup_insert]
  constructor
  · intro hl
    split at hl
    · obtain rfl := Option.some.inj hl
      exact ⟨k, ⟨i, hi, Function.update_self ..⟩, by assumption⟩
    · obtain ⟨k', ⟨j, hj, hkj⟩, hs⟩ := (h a w).mp hl
      have hji : j ≠ i := by rintro rfl; simp [hkj, Cell.isLive] at hfree
      exact ⟨k', ⟨j, hj, by rwa [Function.update_of_ne hji]⟩, hs⟩
  · rintro ⟨k', ⟨j, hj, hkj⟩, hs⟩
    rcases eq_or_ne j i with rfl | hji
    · rw [Function.update_self] at hkj
      obtain ⟨rfl, rfl⟩ := Cell.live.inj hkj
      rw [if_pos hs]
    · rw [Function.update_of_ne hji] at hkj
      have hka : ¬ same k a = true := fun hc => by
        have := hk j hj k' w hkj
        rw [heq.trans hs (heq.symm hc)] at this
        simp at this
      rw [if_neg hka]
      exact (h a w).mpr ⟨k', ⟨j, hj, hkj⟩, hs⟩

theorem Holds.elsewhere (h : Holds n s m) (heq : KeyEquiv same) (hd : Distinct same n s)
    (hi : i < n) {k' : K} {w : V} (hk : s i = .live k' w) (hs : same k' k = true) {a : K} {u : V} :
    (∃ k₂ j, j < n ∧ j ≠ i ∧ s j = .live k₂ u ∧ same k₂ a = true)
      ↔ ¬ same k a = true ∧ m.lookup a = some u := by
  constructor
  · rintro ⟨k₂, j, hj, hji, hkj, hs₂⟩
    have hka : ¬ same k a = true := fun hc =>
      hji (hd j hj i hi k₂ u k' w hkj hk
        (heq.trans hs₂ (heq.trans (heq.symm hc) (heq.symm hs))))
    exact ⟨hka, (h a u).mpr ⟨k₂, ⟨j, hj, hkj⟩, hs₂⟩⟩
  · rintro ⟨hka, hl⟩
    obtain ⟨k₂, ⟨j, hj, hkj⟩, hs₂⟩ := (h a u).mp hl
    have hji : j ≠ i := by
      rintro rfl
      obtain ⟨rfl, -⟩ := Cell.live.inj (hk.symm.trans hkj)
      exact hka (heq.trans (heq.symm hs) hs₂)
    exact ⟨k₂, j, hj, hji, hkj, hs₂⟩

theorem Holds.overwrite (h : Holds n s m) (heq : KeyEquiv same) (hd : Distinct same n s)
    (hi : i < n) {k' : K} {w : V} (hk : s i = .live k' w) (hs : same k' k = true) :
    Holds n (Function.update s i (.live k' v)) (m.insert heq k v) := by
  intro a u
  rw [KeyMap.lookup_insert]
  constructor
  · intro hl
    split at hl
    · obtain rfl := Option.some.inj hl
      exact ⟨k', ⟨i, hi, Function.update_self ..⟩, heq.trans hs (by assumption)⟩
    · rename_i hka
      obtain ⟨k₂, j, hj, hji, hkj, hs₂⟩ := (h.elsewhere heq hd hi hk hs).mpr ⟨hka, hl⟩
      exact ⟨k₂, ⟨j, hj, by rwa [Function.update_of_ne hji]⟩, hs₂⟩
  · rintro ⟨k₂, ⟨j, hj, hkj⟩, hs₂⟩
    rcases eq_or_ne j i with rfl | hji
    · rw [Function.update_self] at hkj
      obtain ⟨rfl, rfl⟩ := Cell.live.inj hkj
      rw [if_pos (heq.trans (heq.symm hs) hs₂)]
    · rw [Function.update_of_ne hji] at hkj
      obtain ⟨hka, hl⟩ := (h.elsewhere heq hd hi hk hs).mp ⟨k₂, j, hj, hji, hkj, hs₂⟩
      rw [if_neg hka]
      exact hl

theorem Holds.erase (h : Holds n s m) (heq : KeyEquiv same) (hd : Distinct same n s)
    (hi : i < n) {k' : K} {w : V} (hk : s i = .live k' w) (hs : same k' k = true)
    {c : Cell K V} (hc : c.isLive = false) :
    Holds n (Function.update s i c) (m.erase k) := by
  intro a u
  rw [KeyMap.lookup_erase heq]
  constructor
  · intro hl
    split at hl
    · simp at hl
    · rename_i hka
      obtain ⟨k₂, j, hj, hji, hkj, hs₂⟩ := (h.elsewhere heq hd hi hk hs).mpr ⟨hka, hl⟩
      exact ⟨k₂, ⟨j, hj, by rwa [Function.update_of_ne hji]⟩, hs₂⟩
  · rintro ⟨k₂, ⟨j, hj, hkj⟩, hs₂⟩
    rcases eq_or_ne j i with rfl | hji
    · rw [Function.update_self] at hkj
      simp [hkj, Cell.isLive] at hc
    · rw [Function.update_of_ne hji] at hkj
      obtain ⟨hka, hl⟩ := (h.elsewhere heq hd hi hk hs).mp ⟨k₂, j, hj, hji, hkj, hs₂⟩
      rw [if_neg hka]
      exact hl

theorem Holds.erase_absent (h : Holds n s m) (heq : KeyEquiv same) (hk : Absent same n s k) :
    Holds n s (m.erase k) := by
  intro a u
  rw [KeyMap.lookup_erase heq, ← h a u]
  split
  · rename_i hka
    have hnone : m.lookup a = none := h.lookup_of_absent fun j hj k' w hkj => by
      rw [← heq.congr_right hka]
      exact hk j hj k' w hkj
    rw [hnone]
  · rfl

end Holding

/-! ## Rebuilding -/

/-- **Rebuild a table**: the live cells of `s` below `i`, in slot order, each put into the first
empty slot from `start` of its old slot. -/
def relocate (next : ℕ → ℕ) (n : ℕ) (start : ℕ → ℕ) (s : ℕ → Cell K V) :
    ℕ → Option (ℕ → Cell K V)
  | 0 => some fun _ => .empty
  | i + 1 => (relocate next n start s i).bind fun t =>
      match s i with
      | .live k v => (vacant (fun j => (t j).isEmpty) next n (start i)).map fun j =>
          Function.update t j (.live k v)
      | .killed => some t
      | .empty => some t

/-- What a rebuild of the first `i` slots of `s` leaves behind. -/
structure Relocated (n : ℕ) (start : ℕ → ℕ) (s : ℕ → Cell K V) (i : ℕ) (t : ℕ → Cell K V) :
    Prop where
  stored : ∀ k v, Stored n t k v ↔ Stored i s k v
  live : tally Cell.isLive t n = tally Cell.isLive s i
  no_killed : ∀ j, t j ≠ .killed
  distinct : ∀ same, KeyEquiv same → Distinct same i s → Distinct same n t
  chained : ∀ home : K → ℕ, (∀ j < i, ∀ k v, s j = .live k v → home k = start j) →
    Chained home n t

section Relocated

variable {n : ℕ} {start : ℕ → ℕ} {s t : ℕ → Cell K V} {i : ℕ}

theorem Relocated.skip (H : Relocated n start s i t) (hnl : (s i).isLive = false) :
    Relocated n start s (i + 1) t := by
  refine ⟨fun k v => ?_, ?_, H.no_killed, fun same heq hd => ?_, fun home hh => ?_⟩
  · rw [H.stored]
    constructor
    · rintro ⟨j, hj, hkj⟩
      exact ⟨j, by omega, hkj⟩
    · rintro ⟨j, hj, hkj⟩
      rcases Nat.lt_succ_iff_lt_or_eq.mp hj with hlt | rfl
      · exact ⟨j, hlt, hkj⟩
      · simp [hkj, Cell.isLive] at hnl
  · rw [tally_succ, hnl, H.live]
    rfl
  · exact H.distinct same heq fun a ha b hb => hd a (by omega) b (by omega)
  · exact H.chained home fun j hj => hh j (by omega)

theorem Relocated.killed (H : Relocated n start s i t) : tally Cell.isKilled t n = 0 := by
  refine tally_eq_zero fun j _ => ?_
  cases htj : t j with
  | killed => exact absurd htj (H.no_killed j)
  | empty => rfl
  | live _ _ => rfl

theorem Relocated.exists_empty (H : Relocated n start s i t) (hroom : tally Cell.isLive s i < n) :
    ∃ j < n, (t j).isEmpty = true := by
  obtain ⟨j, hj, hempty⟩ := Probing.exists_empty (s := t) (n := n)
    (by rw [H.live, H.killed]; omega)
  exact ⟨j, hj, Cell.isEmpty_iff.mpr hempty⟩

theorem Relocated.put (H : Relocated n start s i t) {k : K} {v : V} (hsi : s i = .live k v) {d : ℕ}
    (hd : d < n) (hfree : (t (slot n (start i) d)).isEmpty = true)
    (hpass : ∀ e < d, (t (slot n (start i) e)).isEmpty = false) :
    Relocated n start s (i + 1) (Function.update t (slot n (start i) d) (.live k v)) := by
  have hlive : (s i).isLive = true := by rw [hsi]; rfl
  have hj : slot n (start i) d < n := slot_lt (by omega) _ _
  have hje : t (slot n (start i) d) = .empty := Cell.isEmpty_iff.mp hfree
  refine ⟨fun a w => ⟨?_, ?_⟩, ?_, fun j => ?_, fun same heq hdist => ?_, fun home hhome => ?_⟩
  · rintro ⟨j, hjn, hja⟩
    rcases eq_or_ne j (slot n (start i) d) with rfl | hne
    · rw [Function.update_self] at hja
      obtain ⟨rfl, rfl⟩ := Cell.live.inj hja
      exact ⟨i, by omega, hsi⟩
    · rw [Function.update_of_ne hne] at hja
      obtain ⟨j', hj', hs'⟩ := (H.stored a w).mp ⟨j, hjn, hja⟩
      exact ⟨j', by omega, hs'⟩
  · rintro ⟨j, hji, hja⟩
    rcases Nat.lt_succ_iff_lt_or_eq.mp hji with hlt | rfl
    · obtain ⟨j', hj', ht'⟩ := (H.stored a w).mpr ⟨j, hlt, hja⟩
      refine ⟨j', hj', ?_⟩
      rwa [Function.update_of_ne (by rintro rfl; simp [hje] at ht')]
    · obtain ⟨rfl, rfl⟩ := Cell.live.inj (hsi.symm.trans hja)
      exact ⟨_, hj, Function.update_self ..⟩
  · have := tally_update Cell.isLive t hj (.live k v)
    rw [hje, H.live] at this
    rw [tally_succ, hlive]
    simpa [Cell.isLive] using this
  · rcases eq_or_ne j (slot n (start i) d) with rfl | hne
    · rw [Function.update_self]
      simp
    · rw [Function.update_of_ne hne]
      exact H.no_killed j
  · refine (H.distinct same heq fun a ha b hb =>
      hdist a (by omega) b (by omega)).insert heq ?_
    intro j hjn k' v' hk'
    obtain ⟨j', hj', hs'⟩ := (H.stored k' v').mp ⟨j, hjn, hk'⟩
    by_contra hsame
    have := hdist j' (by omega) i (by omega) k' v' k v hs' hsi (by simpa using hsame)
    omega
  · refine (H.chained home fun j hj' => hhome j (by omega)).update (by simp) ?_
    intro k' v' hk'
    obtain ⟨rfl, -⟩ := Cell.live.inj hk'
    rw [hhome i (by omega) k v hsi]
    exact ⟨d, hd, rfl, fun e he hce => by
      have := hpass e he
      rw [hce] at this
      cases this⟩

end Relocated

theorem relocate_spec {next : ℕ → ℕ} {n : ℕ} (hr : IsRing next n) {start : ℕ → ℕ}
    {s : ℕ → Cell K V} {i : ℕ} (hstart : ∀ j < i, (s j).isLive = true → start j < n)
    (hroom : tally Cell.isLive s i < n) :
    ∃ t, relocate next n start s i = some t ∧ Relocated n start s i t := by
  induction i with
  | zero =>
    refine ⟨_, rfl, ?_, ?_, ?_, ?_, ?_⟩
    · simp [Stored]
    · exact tally_eq_zero fun _ _ => rfl
    · simp
    · exact fun same _ _ => distinct_empty same n
    · exact fun home _ => chained_empty home n
  | succ i ih =>
    rw [tally_succ] at hroom
    obtain ⟨t, ht, H⟩ := ih (fun j hj => hstart j (by omega)) (by omega)
    cases hsi : s i with
    | empty => exact ⟨t, by rw [relocate, ht, hsi]; rfl, H.skip (by rw [hsi]; rfl)⟩
    | killed => exact ⟨t, by rw [relocate, ht, hsi]; rfl, H.skip (by rw [hsi]; rfl)⟩
    | live k v =>
      have hlive : (s i).isLive = true := by rw [hsi]; rfl
      rw [hlive, Bool.toNat_true] at hroom
      obtain ⟨d, hd, hv, hfree, hpass⟩ := vacant_spec hr (hstart i (by omega) hlive)
        (H.exists_empty (by omega))
      refine ⟨_, ?_, H.put hsi hd hfree hpass⟩
      rw [relocate, ht, hsi]
      simp [hv]

end DaScript.Probing

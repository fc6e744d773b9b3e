import DaScript.Machinery.Cells

/-!
# Machinery/OpenMap — an open-addressed table is a finite map

`OpenMap` gathers what makes the cells of an open-addressed table the finite map `m`: they hold it,
no key is in two of them, every key is chained to its home, and the live cells are as many as the
keys.  With an empty slot left, a walk decides the map (`OpenMap.scan`, `OpenMap.place`), and each
write of a cell is an operation on the map.
-/

namespace DaScript.Probing

variable {K V : Type*} {same : K → K → Bool} {home : K → ℕ} {n i : ℕ} {s : ℕ → Cell K V}
  {m : KeyMap K V same} {k : K} {v : V}

/-- **The cells are the finite map `m`.** -/
structure OpenMap (same : K → K → Bool) (home : K → ℕ) (n : ℕ) (s : ℕ → Cell K V)
    (m : KeyMap K V same) : Prop where
  distinct : Distinct same n s
  chained : Chained home n s
  holds : Holds n s m
  card : tally Cell.isLive s n = m.card

namespace OpenMap

theorem empty (same : K → K → Bool) (home : K → ℕ) (n : ℕ) :
    OpenMap same home n (fun _ => (.empty : Cell K V)) .empty :=
  ⟨distinct_empty same n, chained_empty home n, holds_empty n, tally_eq_zero fun _ _ => rfl⟩

theorem congr {m' : KeyMap K V same} (h : OpenMap same home n s m)
    (hlookup : ∀ k, m'.lookup k = m.lookup k) (hcard : m'.card = m.card) :
    OpenMap same home n s m' :=
  ⟨h.distinct, h.chained, fun k v => by rw [hlookup k]; exact h.holds k v, h.card.trans hcard.symm⟩

section Walks

variable {next : ℕ → ℕ}

theorem scan (h : OpenMap same home n s m) (hr : IsRing next n) (hh : home k < n)
    (hhome : ∀ {a b}, same a b = true → home a = home b) (hempty : ∃ i < n, s i = .empty) :
    ∃ r, scan (fun i => (s i).look same k) next n (home k) = some r ∧
      ((r = none ∧ Absent same n s k) ∨
        ∃ i k' v, r = some i ∧ i < n ∧ s i = .live k' v ∧ same k' k = true) := by
  have hex : ∃ i < n, ((s i).look same k).stops = true := by
    obtain ⟨i, hi, he⟩ := hempty
    exact ⟨i, hi, by rw [he]; rfl⟩
  obtain ⟨r, hr, d, hd, hpass, hcase⟩ := scan_spec hr hh hex
  refine ⟨r, hr, ?_⟩
  rcases hcase with ⟨hnone, he⟩ | ⟨hsome, hit⟩
  · exact Or.inl ⟨hnone, h.chained.absent hhome hd hpass (Cell.look_eq_empty.mp he)⟩
  · obtain ⟨k', v, hk, hs⟩ := Cell.look_eq_hit.mp hit
    exact Or.inr ⟨_, k', v, hsome, slot_lt (by omega) _ _, hk, hs⟩

theorem place (h : OpenMap same home n s m) (hr : IsRing next n) (hh : home k < n)
    (hhome : ∀ {a b}, same a b = true → home a = home b) (hempty : ∃ i < n, s i = .empty) :
    ∃ p, place (fun i => (s i).look same k) next n (home k) none = some p ∧
      ((∃ i k' v, p = .found i ∧ i < n ∧ s i = .live k' v ∧ same k' k = true) ∨
        ∃ i < n, ((p = .empty i ∧ s i = .empty) ∨ (p = .killed i ∧ s i = .killed)) ∧
          Absent same n s k ∧
          ∃ d < n, slot n (home k) d = i ∧ ∀ e < d, s (slot n (home k) e) ≠ .empty) := by
  have hex : ∃ i < n, ((s i).look same k).stops = true := by
    obtain ⟨i, hi, he⟩ := hempty
    exact ⟨i, hi, by rw [he]; rfl⟩
  obtain ⟨p, hp, d, hd, hpass, hcase⟩ := place_spec hr hh hex
  have hpath : ∀ e < d, s (slot n (home k) e) ≠ .empty := fun e he hce => by
    have := hpass e he
    rw [hce] at this
    simp [Cell.look, Seen.stops] at this
  have hlt : ∀ e, slot n (home k) e < n := slot_lt (by omega) _
  refine ⟨p, hp, ?_⟩
  rcases hcase with ⟨rfl, hit⟩ | ⟨rfl, he⟩ | ⟨he, e, hed, rfl, hk⟩
  · obtain ⟨k', v, hk, hs⟩ := Cell.look_eq_hit.mp hit
    exact Or.inl ⟨_, k', v, rfl, hlt d, hk, hs⟩
  · have hs := Cell.look_eq_empty.mp he
    exact Or.inr ⟨_, hlt d, Or.inl ⟨rfl, hs⟩, h.chained.absent hhome hd hpass hs, d, hd, rfl,
      hpath⟩
  · have hs := Cell.look_eq_empty.mp he
    exact Or.inr ⟨_, hlt e, Or.inr ⟨rfl, Cell.look_eq_killed.mp hk⟩,
      h.chained.absent hhome hd hpass hs, e, by omega, rfl, fun e' he' => hpath e' (by omega)⟩

end Walks

theorem putNew (h : OpenMap same home n s m) (heq : KeyEquiv same) (hi : i < n)
    (hfree : (s i).isLive = false) (habs : Absent same n s k)
    (hown : ∃ d < n, slot n (home k) d = i ∧ ∀ e < d, s (slot n (home k) e) ≠ .empty) :
    OpenMap same home n (Function.update s i (.live k v)) (m.insert heq k v) := by
  refine ⟨h.distinct.insert heq habs, h.chained.update (by simp) fun k' v' hk' => ?_,
    h.holds.insert heq hi hfree habs, ?_⟩
  · obtain ⟨rfl, -⟩ := Cell.live.inj hk'
    exact hown
  · have ht := tally_update Cell.isLive s hi (.live k v)
    have hc := KeyMap.card_insert heq m k v
    rw [hfree, h.card] at ht
    rw [h.holds.lookup_of_absent habs] at hc
    simp only [Cell.isLive, Bool.toNat_true, Bool.toNat_false, Option.isSome_none] at ht hc
    omega

theorem putOver (h : OpenMap same home n s m) (heq : KeyEquiv same) (hi : i < n) {k' : K} {w : V}
    (hk : s i = .live k' w) (hs : same k' k = true) :
    OpenMap same home n (Function.update s i (.live k' v)) (m.insert heq k v) := by
  refine ⟨h.distinct.overwrite hk, h.chained.overwrite hi hk,
    h.holds.overwrite heq h.distinct hi hk hs, ?_⟩
  have ht := tally_update Cell.isLive s hi (.live k' v)
  have hc := KeyMap.card_insert heq m k v
  rw [h.holds.lookup_of_same hi hk hs] at hc
  rw [hk, h.card] at ht
  simp only [Cell.isLive, Bool.toNat_true, Option.isSome_some] at ht hc
  omega

theorem kill (h : OpenMap same home n s m) (heq : KeyEquiv same) (hi : i < n) {k' : K} {w : V}
    (hk : s i = .live k' w) (hs : same k' k = true) :
    OpenMap same home n (Function.update s i .killed) (m.erase k) := by
  refine ⟨h.distinct.clear rfl, h.chained.kill, h.holds.erase heq h.distinct hi hk hs rfl, ?_⟩
  have ht := tally_update Cell.isLive s hi .killed
  have hc := KeyMap.card_erase heq m k
  rw [h.holds.lookup_of_same hi hk hs] at hc
  rw [hk, h.card] at ht
  simp only [Cell.isLive, Bool.toNat_true, Bool.toNat_false, Option.isSome_some] at ht hc
  omega

theorem erase_absent (h : OpenMap same home n s m) (heq : KeyEquiv same)
    (habs : Absent same n s k) : OpenMap same home n s (m.erase k) := by
  refine ⟨h.distinct, h.chained, h.holds.erase_absent heq habs, ?_⟩
  have hc := KeyMap.card_erase heq m k
  rw [h.holds.lookup_of_absent habs] at hc
  simp only [Bool.toNat_false, Option.isSome_none] at hc
  exact h.card.trans hc.symm

theorem relocated {n' : ℕ} {start : ℕ → ℕ} {home' : K → ℕ} {t : ℕ → Cell K V}
    (h : OpenMap same home n s m) (heq : KeyEquiv same) (H : Relocated n' start s n t)
    (hstart : ∀ j < n, ∀ k v, s j = .live k v → home' k = start j) :
    OpenMap same home' n' t m :=
  ⟨H.distinct same heq h.distinct, H.chained home' hstart, h.holds.congr H.stored,
    H.live.trans h.card⟩

end OpenMap

end DaScript.Probing

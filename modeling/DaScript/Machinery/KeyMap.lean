import Mathlib.Tactic

/-!
# Machinery/KeyMap — finite maps up to a comparison of keys

A `KeyMap K V same` is a list of entries whose keys the Boolean comparison `same` separates, so it
*is* a finite map: one entry per key, the number of keys its length.  `same` need not be equality
— a key stored under one spelling answers to every spelling `same` identifies with it.

The comparison is asked to be an equivalence (`KeyEquiv`) only by the lemmas that read an entry
back, never by the operations.
-/

namespace DaScript

variable {K V : Type*} {same : K → K → Bool}

/-- **The comparison is an equivalence** — what a container asks of `operator==` on its keys. -/
structure KeyEquiv (same : K → K → Bool) : Prop where
  refl : ∀ a, same a a = true
  symm : ∀ {a b}, same a b = true → same b a = true
  trans : ∀ {a b c}, same a b = true → same b c = true → same a c = true

theorem KeyEquiv.congr_right (h : KeyEquiv same) {a b : K} (hab : same a b = true) (c : K) :
    same c a = same c b :=
  Bool.eq_iff_iff.mpr ⟨fun hc => h.trans hc hab, fun hc => h.trans hc (h.symm hab)⟩

theorem KeyEquiv.congr_left (h : KeyEquiv same) {a b : K} (hab : same a b = true) (c : K) :
    same a c = same b c :=
  Bool.eq_iff_iff.mpr ⟨fun hc => h.trans (h.symm hab) hc, fun hc => h.trans hab hc⟩

theorem KeyEquiv.comm (h : KeyEquiv same) (a b : K) : same a b = same b a :=
  Bool.eq_iff_iff.mpr ⟨fun hc => h.symm hc, fun hc => h.symm hc⟩

theorem keyEquiv_beq {K : Type*} [BEq K] [LawfulBEq K] : KeyEquiv fun a b : K => a == b :=
  ⟨by simp, by simp, by simp⟩

/-- **A finite map**: entries whose keys `same` separates. -/
structure KeyMap (K V : Type*) (same : K → K → Bool) where
  entries : List (K × V)
  distinct : entries.Pairwise fun a b => same a.1 b.1 = false

namespace KeyMap

/-- The map with no key. -/
def empty : KeyMap K V same := ⟨[], List.Pairwise.nil⟩

/-- The value under `k`, if any. -/
def lookup (m : KeyMap K V same) (k : K) : Option V :=
  (m.entries.find? fun e => same e.1 k).map Prod.snd

/-- The number of keys. -/
def card (m : KeyMap K V same) : ℕ := m.entries.length

/-- Drop the entry under `k`. -/
def erase (m : KeyMap K V same) (k : K) : KeyMap K V same :=
  ⟨m.entries.filter fun e => !same e.1 k, m.distinct.filter _⟩

/-- Put `v` under `k`, over any earlier value. -/
def insert (h : KeyEquiv same) (m : KeyMap K V same) (k : K) (v : V) : KeyMap K V same :=
  ⟨(k, v) :: (m.erase k).entries, List.pairwise_cons.mpr
    ⟨fun e he => by
      have := (List.mem_filter.mp he).2
      rw [h.comm]
      simpa using this,
    (m.erase k).distinct⟩⟩

@[simp] theorem lookup_empty (k : K) : (empty : KeyMap K V same).lookup k = none := rfl

theorem lookup_erase (h : KeyEquiv same) (m : KeyMap K V same) (k k' : K) :
    (m.erase k).lookup k' = if same k k' then none else m.lookup k' := by
  obtain ⟨es, hd⟩ := m
  simp only [lookup, erase]
  clear hd
  induction es with
  | nil => simp
  | cons e es ih =>
    by_cases hek : same e.1 k = true
    · have hcong : same e.1 k' = same k k' := h.congr_left hek k'
      rw [List.filter_cons_of_neg (by simp [hek]), ih]
      by_cases hkk : same k k' = true
      · simp [hkk]
      · rw [List.find?_cons_of_neg (by rw [hcong]; exact hkk)]
    · rw [List.filter_cons_of_pos (by simp [hek])]
      by_cases hek' : same e.1 k' = true
      · have hkk : ¬ same k k' = true := fun hc => hek (h.trans hek' (h.symm hc))
        simp [List.find?_cons_of_pos, hek', hkk]
      · rw [List.find?_cons_of_neg (by simpa using hek'), ih,
          List.find?_cons_of_neg (by simpa using hek')]

theorem lookup_insert (h : KeyEquiv same) (m : KeyMap K V same) (k : K) (v : V) (k' : K) :
    (m.insert h k v).lookup k' = if same k k' then some v else m.lookup k' := by
  have he := lookup_erase h m k k'
  by_cases hkk : same k k' = true
  · simp [lookup, insert, List.find?_cons_of_pos, hkk]
  · rw [if_neg hkk] at he ⊢
    rw [← he, lookup, insert, List.find?_cons_of_neg (by simpa using hkk), lookup]

theorem card_erase (h : KeyEquiv same) (m : KeyMap K V same) (k : K) :
    (m.erase k).card + (m.lookup k).isSome.toNat = m.card := by
  obtain ⟨es, hd⟩ := m
  change (es.filter fun e => !same e.1 k).length
    + ((es.find? fun e => same e.1 k).map Prod.snd).isSome.toNat = es.length
  induction es with
  | nil => simp
  | cons e es ih =>
    obtain ⟨he, hes⟩ := List.pairwise_cons.mp hd
    by_cases hek : same e.1 k = true
    · have hrest : (es.filter fun e => !same e.1 k) = es := by
        refine List.filter_eq_self.mpr fun e' he' => ?_
        have := he e' he'
        rw [h.congr_left hek, h.comm] at this
        simp [this]
      simp [List.find?_cons_of_pos, hek, hrest]
    · rw [List.filter_cons_of_pos (by simp [hek]), List.find?_cons_of_neg (by simpa using hek)]
      have := ih hes
      simp only [List.length_cons]
      omega

theorem card_insert (h : KeyEquiv same) (m : KeyMap K V same) (k : K) (v : V) :
    (m.insert h k v).card + (m.lookup k).isSome.toNat = m.card + 1 := by
  have hc := card_erase h m k
  have hi : (m.insert h k v).card = (m.erase k).card + 1 := rfl
  omega

theorem lookup_head (h : KeyEquiv same) {m : KeyMap K V same} {e : K × V} {es : List (K × V)}
    (hes : m.entries = e :: es) : m.lookup e.1 = some e.2 := by
  have hhit : same e.1 e.1 = true := h.refl e.1
  simp [lookup, hes, List.find?_cons_of_pos, hhit]

theorem card_eq_zero (h : KeyEquiv same) {m : KeyMap K V same} (hm : ∀ k, m.lookup k = none) :
    m.card = 0 := by
  cases hes : m.entries with
  | nil => rw [card, hes, List.length_nil]
  | cons e es => exact absurd ((hm e.1).symm.trans (lookup_head h hes)).symm (Option.some_ne_none _)

theorem card_congr (h : KeyEquiv same) {m m' : KeyMap K V same}
    (hm : ∀ k, m.lookup k = m'.lookup k) : m.card = m'.card := by
  obtain ⟨n, hn⟩ : ∃ n, m.card = n := ⟨_, rfl⟩
  induction n generalizing m m' with
  | zero =>
    have hnil : m.entries = [] := List.eq_nil_of_length_eq_zero hn
    rw [hn, card_eq_zero h fun k => by rw [← hm k, lookup, hnil]; rfl]
  | succ n ih =>
    obtain ⟨e, es, hes⟩ := List.exists_cons_of_length_eq_add_one hn
    have hsome := lookup_head h hes
    have hc := card_erase h m e.1
    have hc' := card_erase h m' e.1
    rw [← hm e.1] at hc'
    rw [hsome, Option.isSome_some, Bool.toNat_true] at hc hc'
    have herase : ∀ k, (m.erase e.1).lookup k = (m'.erase e.1).lookup k :=
      fun k => by rw [lookup_erase h, lookup_erase h, hm k]
    have hrest := ih herase (by omega)
    omega

theorem insert_insert (h : KeyEquiv same) (m : KeyMap K V same) (k : K) (v w : V) :
    (m.insert h k v).insert h k w = m.insert h k w := by
  simp only [insert, erase, KeyMap.mk.injEq, List.cons.injEq, true_and]
  rw [List.filter_cons_of_neg (by simp [h.refl])]
  exact List.filter_filter.trans (List.filter_congr fun e _ => Bool.and_self _)

end KeyMap

end DaScript

import DaScript.Daslib.CuckooHashTable
import DaScript.Machinery.OpenMap

/-!
# Daslib/CuckooHashTableSteps — what an operation of the cuckoo hash table does

`Good` is what every call that returns keeps.  Inside an insertion one entry is in flight: the table
is a finite map without it, and putting it back is all that is missing (`Afloat`).  Putting another
entry out, or rebuilding the table, changes which entry that is and what the table holds, and leaves
the sum alone.
-/

open Function

namespace DaScript

open Probing

namespace CuckooHashTable

open FlatHashTable (maxInt clz homeIndex)

variable {K V : Type*}

/-- What the table asks of its keys: an equality, and two hashes that respect it and are not the
mark of an empty slot. -/
structure Laws (T : CuckooKeys K) : Prop where
  equiv : KeyEquiv T.equal
  respects0 : ∀ {a b}, T.equal a b = true → T.hash0 a = T.hash0 b
  respects1 : ∀ {a b}, T.equal a b = true → T.hash1 a = T.hash1 b
  ne0 : ∀ k, T.hash0 k ≠ 0
  ne1 : ∀ k, T.hash1 k ≠ 0

/-! ## A table as cells -/

/-- A slot that keeps `h`. -/
def slotCell (h : UInt64) (k : K) (v : V) : Cell K V := if h = 0 then .empty else .live k v

theorem slotCell_zero (k : K) (v : V) : slotCell 0 k v = .empty := if_pos rfl

theorem slotCell_of_ne {h : UInt64} (hh : h ≠ 0) (k : K) (v : V) : slotCell h k v = .live k v :=
  if_neg hh

/-- The contents of a slot. -/
def cell (t : CuckooHashTable K V) (i : ℕ) : Cell K V :=
  slotCell (t.hash i) (t.key i) (t.value i)

theorem cell_empty {t : CuckooHashTable K V} {i : ℕ} (h : t.hash i = 0) : t.cell i = .empty := by
  rw [cell, h, slotCell_zero]

theorem cell_taken {t : CuckooHashTable K V} {i : ℕ} (h : t.hash i ≠ 0) :
    t.cell i = .live (t.key i) (t.value i) := slotCell_of_ne h _ _

theorem cell_live {t : CuckooHashTable K V} {i : ℕ} {k : K} {v : V} (h : t.cell i = .live k v) :
    t.hash i ≠ 0 ∧ t.key i = k ∧ t.value i = v := by
  by_cases h0 : t.hash i = 0
  · rw [cell_empty h0] at h
    exact nomatch h
  · rw [cell_taken h0] at h
    exact ⟨h0, Cell.live.inj h⟩

theorem cell_evict (t : CuckooHashTable K V) (i : ℕ) (key : K) {h : UInt64} (hh : h ≠ 0)
    (value : V) : (evict t i key h value).cell = update t.cell i (.live key value) := by
  funext j
  rcases eq_or_ne j i with rfl | hji
  · rw [update_self, cell, evict]
    dsimp only
    rw [update_self, update_self, update_self, slotCell_of_ne hh]
  · rw [update_of_ne hji, cell, evict]
    dsimp only
    rw [update_of_ne hji, update_of_ne hji, update_of_ne hji, cell]

theorem cell_settle (t : CuckooHashTable K V) (i : ℕ) (key : K) {h : UInt64} (hh : h ≠ 0)
    (value : V) : (settle t i key h value).cell = update t.cell i (.live key value) :=
  cell_evict t i key hh value

theorem occupy_eq_settle (t : CuckooHashTable K V) (i : ℕ) (key : K) (h : UInt64) :
    occupy t i key h = settle t i key h (t.value i) := by
  rw [settle, setValue, occupy]
  dsimp only
  rw [update_eq_self]

theorem cell_setValue {t : CuckooHashTable K V} {i : ℕ} {k : K} {w : V} (h : t.cell i = .live k w)
    (v : V) : (setValue t i v).cell = update t.cell i (.live k v) := by
  obtain ⟨hne, rfl, -⟩ := cell_live h
  funext j
  rcases eq_or_ne j i with rfl | hji
  · rw [update_self, cell, setValue]
    dsimp only
    rw [update_self, slotCell_of_ne hne]
  · rw [update_of_ne hji, cell, setValue]
    dsimp only
    rw [update_of_ne hji, cell]

theorem cell_erase (t : CuckooHashTable K V) (i n : ℕ) :
    cell { t with hash := update t.hash i 0, dataLength := n } = update t.cell i .empty := by
  funext j
  rcases eq_or_ne j i with rfl | hji
  · rw [update_self, cell]
    dsimp only
    rw [update_self, slotCell_zero]
  · rw [update_of_ne hji, cell]
    dsimp only
    rw [update_of_ne hji, cell]

/-! ## Good tables -/

/-- **One of the two hash functions leads the key to the slot**, and `hash` names which. -/
def Leads (T : CuckooKeys K) (mask i : ℕ) (k : K) (hash : UInt64) : Prop :=
  (hash = T.hash0 k ∧ homeIndex mask (T.hash0 k) = i) ∨
    (hash = T.hash1 k ∧ homeIndex mask (T.hash1 k) = i)

/-- **What every call keeps**: the table is the finite map `a`. -/
structure Good (T : CuckooKeys K) (t : CuckooHashTable K V) (a : KeyMap K V T.equal) : Prop where
  mask : t.mask + 1 = t.length
  distinct : Distinct T.equal t.length t.cell
  holds : Holds t.length t.cell a
  size : t.dataLength = tally Cell.isLive t.cell t.length
  leads : ∀ i, t.hash i ≠ 0 → Leads T t.mask i (t.key i) (t.hash i)

section Good

variable {T : CuckooKeys K} {t : CuckooHashTable K V} {a b : KeyMap K V T.equal} {key : K} {i : ℕ}

namespace Good

theorem home_lt (h : Good T t a) (hash : UInt64) : homeIndex t.mask hash < t.length := by
  rw [← h.mask]
  exact Nat.lt_succ_of_le Nat.and_le_right

theorem lt_of_leads (h : Good T t a) {hash : UInt64} (hl : Leads T t.mask i key hash) :
    i < t.length := by
  rcases hl with ⟨-, rfl⟩ | ⟨-, rfl⟩ <;> exact h.home_lt _

theorem congr (h : Good T t a) (hab : ∀ k, b.lookup k = a.lookup k) : Good T t b :=
  ⟨h.mask, h.distinct, fun k v => by rw [hab k]; exact h.holds k v, h.size, h.leads⟩

theorem card (laws : Laws T) (h : Good T t a) : t.dataLength = a.card :=
  h.size.trans (h.holds.card_eq laws.equiv h.distinct)

theorem keyIndex (laws : Laws T) (h : Good T t a) (key : K) :
    (keyIndex T t key = none ∧ Absent T.equal t.length t.cell key) ∨
      ∃ i, keyIndex T t key = some i ∧ i < t.length ∧ t.hash i ≠ 0 ∧
        T.equal (t.key i) key = true := by
  rw [CuckooHashTable.keyIndex]
  dsimp only
  by_cases h0 : t.hash (homeIndex t.mask (T.hash0 key)) = T.hash0 key ∧
      T.equal (t.key (homeIndex t.mask (T.hash0 key))) key = true
  · rw [if_pos h0]
    exact .inr ⟨_, rfl, h.home_lt _, by rw [h0.1]; exact laws.ne0 key, h0.2⟩
  rw [if_neg h0]
  by_cases h1 : t.hash (homeIndex t.mask (T.hash1 key)) = T.hash1 key ∧
      T.equal (t.key (homeIndex t.mask (T.hash1 key))) key = true
  · rw [if_pos h1]
    exact .inr ⟨_, rfl, h.home_lt _, by rw [h1.1]; exact laws.ne1 key, h1.2⟩
  rw [if_neg h1]
  refine .inl ⟨rfl, fun i hi k' v hk => ?_⟩
  by_contra hs
  rw [Bool.not_eq_false] at hs
  obtain ⟨hne, rfl, -⟩ := cell_live hk
  rcases h.leads i hne with ⟨hh, hi⟩ | ⟨hh, hi⟩
  · rw [laws.respects0 hs] at hh hi
    exact h0 ⟨by rw [hi, hh], by rw [hi]; exact hs⟩
  · rw [laws.respects1 hs] at hh hi
    exact h1 ⟨by rw [hi, hh], by rw [hi]; exact hs⟩

theorem leads_write (h : Good T t a) {hash : UInt64} (hl : Leads T t.mask i key hash) {j : ℕ}
    (hj : update t.hash i hash j ≠ 0) :
    Leads T t.mask j (update t.key i key j) (update t.hash i hash j) := by
  rcases eq_or_ne j i with rfl | hji
  · rw [update_self, update_self]
    exact hl
  · rw [update_of_ne hji] at hj ⊢
    rw [update_of_ne hji]
    exact h.leads j hj

theorem settle (laws : Laws T) (h : Good T t a) {hash : UInt64} (hl : Leads T t.mask i key hash)
    (hne : hash ≠ 0) (hempty : t.hash i = 0) (habs : Absent T.equal t.length t.cell key)
    (value : V) : Good T (settle t i key hash value) (a.insert laws.equiv key value) := by
  have hi := h.lt_of_leads hl
  have hfree : (t.cell i).isLive = false := by rw [cell_empty hempty]; rfl
  have hcell := cell_settle t i key hne value
  refine ⟨h.mask, ?_, ?_, ?_, fun j hj => ?_⟩
  · rw [hcell]
    exact h.distinct.insert laws.equiv habs
  · rw [hcell]
    exact h.holds.insert laws.equiv hi hfree habs
  · have hupd := tally_update Cell.isLive t.cell hi (.live key value)
    rw [hfree, ← h.size] at hupd
    rw [hcell]
    exact hupd.symm
  · exact h.leads_write hl hj

theorem setValue (laws : Laws T) (h : Good T t a) {k' : K} {w : V} (hi : i < t.length)
    (hk : t.cell i = .live k' w) (hs : T.equal k' key = true) (v : V) :
    Good T (setValue t i v) (a.insert laws.equiv key v) := by
  have hcell := cell_setValue hk v
  refine ⟨h.mask, ?_, ?_, ?_, h.leads⟩
  · rw [hcell]
    exact h.distinct.overwrite hk
  · rw [hcell]
    exact h.holds.overwrite laws.equiv h.distinct hi hk hs
  · have hupd := tally_update Cell.isLive t.cell hi (.live k' v)
    rw [hk, ← h.size] at hupd
    rw [hcell]
    exact (Nat.add_right_cancel hupd).symm

theorem erase (laws : Laws T) (h : Good T t a) {k' : K} {w : V} (hi : i < t.length)
    (hk : t.cell i = .live k' w) (hs : T.equal k' key = true) :
    Good T { t with hash := update t.hash i 0, dataLength := t.dataLength - 1 }
      (a.erase key) := by
  have hcell := cell_erase t i (t.dataLength - 1)
  refine ⟨h.mask, ?_, ?_, ?_, fun j hj => ?_⟩
  · rw [hcell]
    exact h.distinct.clear rfl
  · rw [hcell]
    exact h.holds.erase laws.equiv h.distinct hi hk hs rfl
  · have hupd := tally_update Cell.isLive t.cell hi .empty
    rw [hk, ← h.size] at hupd
    rw [hcell]
    simp only [Cell.isLive, Bool.toNat_true, Bool.toNat_false] at hupd
    change t.dataLength - 1 = tally Cell.isLive (update t.cell i .empty) t.length
    omega
  · replace hj : update t.hash i 0 j ≠ 0 := hj
    change Leads T t.mask j (t.key j) (update t.hash i 0 j)
    rcases eq_or_ne j i with rfl | hji
    · rw [update_self] at hj
      exact absurd rfl hj
    · rw [update_of_ne hji] at hj ⊢
      exact h.leads j hj

end Good

/-! ## The entry in flight -/

/-- **One entry is in flight**: the table and the entry are the finite map `a`. -/
structure Afloat (laws : Laws T) (t : CuckooHashTable K V) (e : K × V)
    (a : KeyMap K V T.equal) : Prop where
  absent : Absent T.equal t.length t.cell e.1
  rest : ∃ b, Good T t b ∧ ∀ k, (b.insert laws.equiv e.1 e.2).lookup k = a.lookup k

theorem Afloat.evict {laws : Laws T} {value : V} {hash : UInt64}
    (h : Afloat laws t (key, value) a) (hl : Leads T t.mask i key hash) (hne : hash ≠ 0)
    (htaken : t.hash i ≠ 0) :
    Afloat laws (evict t i key hash value) (t.key i, t.value i) a := by
  obtain ⟨b, hgood, hab⟩ := h.rest
  have hi := hgood.lt_of_leads hl
  have hk := cell_taken htaken
  have hlive : (t.cell i).isLive = true := by rw [hk]; rfl
  -- the slot is emptied, then given to the entry in flight
  have hcell : (CuckooHashTable.evict t i key hash value).cell
      = update (update t.cell i .empty) i (.live key value) := by
    rw [cell_evict t i key hne value, update_idem]
  have hdist : Distinct T.equal t.length (update t.cell i .empty) := hgood.distinct.clear rfl
  have hholds := hgood.holds.erase laws.equiv hgood.distinct hi hk (laws.equiv.refl _)
    (c := .empty) rfl
  have habs : Absent T.equal t.length (update t.cell i .empty) key := fun j hj k' v' hk' => by
    rcases eq_or_ne j i with rfl | hji
    · rw [update_self] at hk'
      exact nomatch hk'
    · rw [update_of_ne hji] at hk'
      exact h.absent j hj k' v' hk'
  have hother : T.equal (t.key i) key = false := h.absent i hi _ _ hk
  refine ⟨fun j hj k' v' hk' => ?_, (b.erase (t.key i)).insert laws.equiv key value,
    ⟨hgood.mask, ?_, ?_, ?_, fun j hj => ?_⟩, fun k => ?_⟩
  · rw [hcell] at hk'
    rcases eq_or_ne j i with rfl | hji
    · rw [update_self] at hk'
      obtain ⟨rfl, -⟩ := Cell.live.inj hk'
      rw [laws.equiv.comm]
      exact hother
    · rw [update_of_ne hji, update_of_ne hji] at hk'
      by_contra hs
      exact hji (hgood.distinct j hj i hi _ _ _ _ hk' hk (by simpa using hs))
  · rw [hcell]
    exact hdist.insert laws.equiv habs
  · rw [hcell]
    exact hholds.insert laws.equiv hi (by rw [update_self]; rfl) habs
  · have hupd := tally_update Cell.isLive t.cell hi (.live key value)
    rw [hlive, ← hgood.size] at hupd
    rw [cell_evict t i key hne value]
    exact (Nat.add_right_cancel hupd).symm
  · exact hgood.leads_write hl hj
  · rw [← hab k, KeyMap.lookup_insert, KeyMap.lookup_insert, KeyMap.lookup_insert,
      KeyMap.lookup_erase laws.equiv]
    by_cases hik : T.equal (t.key i) k = true
    · have hkk : ¬ T.equal key k = true := fun hc => by
        rw [laws.equiv.trans hik (laws.equiv.symm hc)] at hother
        exact nomatch hother
      rw [if_pos hik, if_neg hkk, hgood.holds.lookup_of_same hi hk hik]
    · rw [if_neg hik, if_neg hik]

theorem Afloat.settle {laws : Laws T} {value : V} {hash : UInt64}
    (h : Afloat laws t (key, value) a) (hl : Leads T t.mask i key hash) (hne : hash ≠ 0)
    (hempty : t.hash i = 0) : Good T (settle t i key hash value) a := by
  obtain ⟨b, hgood, hab⟩ := h.rest
  exact (hgood.settle laws hl hne hempty h.absent value).congr fun k => (hab k).symm

theorem displace_spec (laws : Laws T) (turns : ℕ) (t : CuckooHashTable K V) (e : K × V)
    (h : Afloat laws t e a) :
    ((displace T turns t e.1 e.2).2 = none ∧ Good T (displace T turns t e.1 e.2).1 a) ∨
    ∃ e', (displace T turns t e.1 e.2).2 = some e' ∧
      Afloat laws (displace T turns t e.1 e.2).1 e' a := by
  induction turns generalizing t e with
  | zero => exact .inr ⟨e, rfl, h⟩
  | succ turns ih =>
    have hfirst : Leads T t.mask _ e.1 _ := .inl ⟨rfl, rfl⟩
    have hsecond : Leads T t.mask _ e.1 _ := .inr ⟨rfl, rfl⟩
    rw [displace]
    dsimp only
    split_ifs with h0 h1 hseed
    · exact .inl ⟨rfl, h.settle hfirst (laws.ne0 e.1) h0⟩
    · exact .inl ⟨rfl, h.settle hsecond (laws.ne1 e.1) h1⟩
    · exact ih _ (_, _) (h.evict hfirst (laws.ne0 e.1) h0)
    · exact ih _ (_, _) (h.evict hsecond (laws.ne1 e.1) h1)

end Good

end CuckooHashTable

end DaScript

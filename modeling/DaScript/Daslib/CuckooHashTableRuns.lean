import DaScript.Daslib.CuckooHashTableSteps

/-!
# Daslib/CuckooHashTableRuns — the cuckoo hash table is a finite map

Every call that returns is an operation on the map.  `operator []`, `insert` and `reserve` call each
other; the induction is on how deep the calls go, and what it carries is that `operator []` refers
to a slot of its key (`Refers`).
-/

open Function

namespace DaScript

open Probing

namespace CuckooHashTable

open FlatHashTable (maxInt clz homeIndex)

variable {K V : Type*} {T : CuckooKeys K} {t : CuckooHashTable K V} {a : KeyMap K V T.equal}

/-- **`operator []` refers to a slot of the key**, and what is assigned there is the key's value. -/
structure Refers (laws : Laws T) (a : KeyMap K V T.equal) (key : K) (i : ℕ)
    (t : CuckooHashTable K V) (a' : KeyMap K V T.equal) : Prop where
  good : Good T t a'
  lt : i < t.length
  taken : t.hash i ≠ 0
  same : T.equal (t.key i) key = true
  assigned : ∀ v k, (a'.insert laws.equiv key v).lookup k = (a.insert laws.equiv key v).lookup k

theorem Refers.setValue {laws : Laws T} {key : K} {i : ℕ} {a' : KeyMap K V T.equal}
    (h : Refers laws a key i t a') (v : V) : Good T (setValue t i v) (a.insert laws.equiv key v) :=
  (h.good.setValue laws h.lt (cell_taken h.taken) h.same v).congr fun k => (h.assigned v k).symm

theorem Good.refers_insert {laws : Laws T} {key : K} {value : V}
    (h : Good T t (a.insert laws.equiv key value)) {i : ℕ} (hi : i < t.length)
    (htaken : t.hash i ≠ 0) (hs : T.equal (t.key i) key = true) :
    Refers laws a key i t (a.insert laws.equiv key value) :=
  ⟨h, hi, htaken, hs, fun v k => by rw [KeyMap.insert_insert]⟩

theorem Good.refers {laws : Laws T} {key : K} (h : Good T t a) {i : ℕ} {hash : UInt64}
    (hne : hash ≠ 0) (hfound : t.hash i = hash ∧ T.equal (t.key i) key = true)
    (hi : i < t.length) : Refers laws a key i t a :=
  ⟨h, hi, by rw [hfound.1]; exact hne, hfound.2, fun _ _ => rfl⟩

/-- What an `operator []` is to do when it returns. -/
def IndexesOk (laws : Laws T)
    (index : CuckooHashTable K V → K → Outcome (CuckooHashTable K V) ℕ) : Prop :=
  ∀ t a key i t', Good T t a → index t key = .ok i t' → ∃ a', Refers laws a key i t' a'

theorem Good.length_pos (h : Good T t a) : 0 < t.length := by
  rw [← h.mask]
  exact Nat.succ_pos _

section Calls

variable [Inhabited K] [Inhabited V]

theorem good_sized (T : CuckooKeys K) {n : ℕ} (hn : 0 < n) (seed : ℕ → Bool) :
    Good T (sized n seed : CuckooHashTable K V) .empty := by
  have hcell : (sized n seed : CuckooHashTable K V).cell = fun _ => .empty := by
    funext i
    exact cell_empty rfl
  refine ⟨Nat.succ_pred_eq_of_pos hn, ?_, ?_, ?_, fun i hi => absurd rfl hi⟩
  · rw [hcell]
    exact distinct_empty _ _
  · rw [hcell]
    exact holds_empty _
  · rw [hcell]
    exact (tally_eq_zero fun _ _ => rfl).symm

variable {laws : Laws T} {index : CuckooHashTable K V → K → Outcome (CuckooHashTable K V) ℕ}

omit [Inhabited K] [Inhabited V] in
theorem reinsert_spec (hindex : IndexesOk laws index) {old t₀ : CuckooHashTable K V}
    (hold : Good T old a) (h₀ : Good T t₀ .empty) {n : ℕ} (hn : n ≤ old.length)
    (hrun : reinsert index old n t₀ = .ok () t) : ∃ m, Good T t m ∧ Holds n old.cell m := by
  induction n generalizing t with
  | zero =>
    obtain ⟨-, rfl⟩ := Outcome.ok.inj hrun
    refine ⟨.empty, h₀, fun k v => ?_⟩
    rw [KeyMap.lookup_empty]
    exact ⟨fun h => absurd h.symm (Option.some_ne_none v),
      fun ⟨_, ⟨_, hj, _⟩, _⟩ => absurd hj (Nat.not_lt_zero _)⟩
  | succ n ih =>
    obtain ⟨_, s, hbefore, hrun⟩ := Outcome.bind_eq_ok.mp hrun
    obtain ⟨m, hgood, hholds⟩ := ih (by omega) hbefore
    by_cases htaken : old.hash n ≠ 0
    · have hcell := cell_taken htaken
      -- the keys of the old table are apart, so none before slot `n` is the key of slot `n`
      have habs : Absent T.equal n old.cell (old.key n) := fun i hi k' v hk => by
        by_contra hs
        have := hold.distinct i (by omega) n (by omega) _ _ _ _ hk hcell (by simpa using hs)
        omega
      rw [if_pos htaken] at hrun
      obtain ⟨i, s', hput, hrun⟩ := Outcome.bind_eq_ok.mp hrun
      obtain ⟨a', hrefers⟩ := hindex _ _ _ _ _ hgood hput
      obtain ⟨-, rfl⟩ := Outcome.ok.inj hrun
      exact ⟨_, hrefers.setValue _, hholds.extend laws.equiv hcell habs⟩
    · rw [if_neg htaken] at hrun
      obtain ⟨-, rfl⟩ := Outcome.ok.inj hrun
      exact ⟨m, hgood, hholds.skip (by rw [cell_empty (not_not.mp htaken)]; rfl)⟩

theorem reserveBy_spec (hindex : IndexesOk laws index) (h : Good T t a) {n : ℕ} (hn : 0 < n)
    {t' : CuckooHashTable K V} (hrun : reserveBy index t n = .ok () t') : Good T t' a := by
  rw [reserveBy] at hrun
  split_ifs at hrun
  obtain ⟨m, hgood, hholds⟩ := reinsert_spec hindex h (good_sized T hn t.seed) le_rfl hrun
  exact hgood.congr fun k => h.holds.lookup_eq hholds k

theorem insertBy_spec (hindex : IndexesOk laws index) (rounds : ℕ) {t' : CuckooHashTable K V}
    {e : K × V} (h : Afloat laws t e a) (hrun : insertBy T index rounds t e.1 e.2 = .ok () t') :
    Good T t' a := by
  induction rounds generalizing t e with
  | zero => exact nomatch hrun
  | succ rounds ih =>
    rw [insertBy] at hrun
    rcases displace_spec laws (t.length / 2) t e h with ⟨hnone, hgood⟩ | ⟨e', hsome, hafloat⟩
    · generalize displace T (t.length / 2) t e.1 e.2 = r at hrun hnone hgood
      obtain ⟨s, o⟩ := r
      obtain rfl : o = none := hnone
      obtain ⟨-, rfl⟩ := Outcome.ok.inj hrun
      exact hgood
    · generalize displace T (t.length / 2) t e.1 e.2 = r at hrun hsome hafloat
      obtain ⟨s, o⟩ := r
      obtain rfl : o = some e' := hsome
      obtain ⟨b, hgood, hab⟩ := hafloat.rest
      obtain ⟨_, s', hgrow, hrun⟩ := Outcome.bind_eq_ok.mp hrun
      have hpos : 0 < s.length := hgood.length_pos
      have hgood' := reserveBy_spec hindex hgood (by omega) hgrow
      refine ih ⟨fun j hj k v hk => ?_, b, hgood', hab⟩ hrun
      -- the grown table holds the same map, so the entry in flight is absent there too
      by_contra hs
      have hin := hgood'.holds.lookup_of_same hj hk (by simpa using hs)
      rw [hgood.holds.lookup_of_absent hafloat.absent] at hin
      exact nomatch hin

omit [Inhabited K] in
theorem insertSlot_spec {laws : Laws T}
    {insert : CuckooHashTable K V → K → V → Outcome (CuckooHashTable K V) Unit}
    (hinsert : ∀ t e a t', Afloat laws t e a → insert t e.1 e.2 = .ok () t' → Good T t' a)
    (h : Good T t a) {key : K} {i : ℕ} {t' : CuckooHashTable K V}
    (hrun : insertSlot T insert t key = .ok i t') : ∃ a', Refers laws a key i t' a' := by
  have hfirst : Leads T t.mask _ key _ := .inl ⟨rfl, rfl⟩
  have hsecond : Leads T t.mask _ key _ := .inr ⟨rfl, rfl⟩
  rw [insertSlot] at hrun
  dsimp only at hrun
  by_cases h0 : t.hash (homeIndex t.mask (T.hash0 key)) = T.hash0 key ∧
      T.equal (t.key (homeIndex t.mask (T.hash0 key))) key = true
  · rw [if_pos h0] at hrun
    obtain ⟨rfl, rfl⟩ := Outcome.ok.inj hrun
    exact ⟨a, h.refers (laws.ne0 key) h0 (h.home_lt _)⟩
  rw [if_neg h0] at hrun
  by_cases h1 : t.hash (homeIndex t.mask (T.hash1 key)) = T.hash1 key ∧
      T.equal (t.key (homeIndex t.mask (T.hash1 key))) key = true
  · rw [if_pos h1] at hrun
    obtain ⟨rfl, rfl⟩ := Outcome.ok.inj hrun
    exact ⟨a, h.refers (laws.ne1 key) h1 (h.home_lt _)⟩
  rw [if_neg h1] at hrun
  have habs : Absent T.equal t.length t.cell key := by
    have hnone : keyIndex T t key = none := by
      rw [keyIndex]
      dsimp only
      rw [if_neg h0, if_neg h1]
    rcases h.keyIndex laws key with ⟨-, habs⟩ | ⟨j, hj, -⟩
    · exact habs
    · rw [hnone] at hj
      cases hj
  -- an empty slot the key leads to is given to it
  have hoccupy : ∀ {i : ℕ} {hash : UInt64}, Leads T t.mask i key hash → hash ≠ 0 →
      t.hash i = 0 → ∃ a', Refers laws a key i (occupy t i key hash) a' := by
    intro i hash hl hne hempty
    rw [occupy_eq_settle]
    refine ⟨_, (h.settle laws hl hne hempty habs (t.value i)).refers_insert (h.lt_of_leads hl)
      ?_ ?_⟩
    · change update t.hash i hash i ≠ 0
      rwa [update_self]
    · change T.equal (update t.key i key i) key = true
      rw [update_self]
      exact laws.equiv.refl key
  by_cases he0 : t.hash (homeIndex t.mask (T.hash0 key)) = 0
  · rw [if_pos he0] at hrun
    obtain ⟨rfl, rfl⟩ := Outcome.ok.inj hrun
    exact hoccupy hfirst (laws.ne0 key) he0
  rw [if_neg he0] at hrun
  by_cases he1 : t.hash (homeIndex t.mask (T.hash1 key)) = 0
  · rw [if_pos he1] at hrun
    obtain ⟨rfl, rfl⟩ := Outcome.ok.inj hrun
    exact hoccupy hsecond (laws.ne1 key) he1
  rw [if_neg he1] at hrun
  obtain ⟨_, s, hins, hrun⟩ := Outcome.bind_eq_ok.mp hrun
  have hgood : Good T s (a.insert laws.equiv key default) :=
    hinsert t (key, default) _ s ⟨habs, a, h, fun _ => rfl⟩ hins
  rcases hgood.keyIndex laws key with ⟨-, habs'⟩ | ⟨j, hj, hlt, htaken, hs⟩
  · -- the key has just been put
    have hin := hgood.holds.lookup_of_absent habs'
    rw [KeyMap.lookup_insert, if_pos (laws.equiv.refl key)] at hin
    cases hin
  · rw [hj] at hrun
    obtain ⟨rfl, rfl⟩ := Outcome.ok.inj hrun
    exact ⟨_, hgood.refers_insert hlt htaken hs⟩

theorem index_spec (laws : Laws T) (fuel : ℕ) :
    IndexesOk laws (CuckooHashTable.index T fuel : CuckooHashTable K V → K → _) := by
  induction fuel with
  | zero => exact fun t a key i t' _ hrun => nomatch hrun
  | succ fuel ih =>
    intro t a key i t' h hrun
    rw [CuckooHashTable.index] at hrun
    have hinsert : ∀ t e a t', Afloat laws t e a →
        insertBy T (CuckooHashTable.index T fuel) fuel t e.1 e.2 = .ok () t' → Good T t' a :=
      fun t e a t' hafloat hins => insertBy_spec ih fuel hafloat hins
    split_ifs at hrun with hload
    · obtain ⟨_, s, hgrow, hrun⟩ := Outcome.bind_eq_ok.mp hrun
      have hpos := h.length_pos
      exact insertSlot_spec hinsert (reserveBy_spec ih h (by omega) hgrow) hrun
    · exact insertSlot_spec hinsert h hrun

theorem assign_spec (laws : Laws T) {fuel : ℕ} (h : Good T t a) {key : K} {value : V}
    {t' : CuckooHashTable K V} (hrun : assign T fuel t key value = .ok () t') :
    Good T t' (a.insert laws.equiv key value) := by
  obtain ⟨i, s, hput, hrun⟩ := Outcome.bind_eq_ok.mp hrun
  obtain ⟨a', hrefers⟩ := index_spec laws fuel _ _ _ _ _ h hput
  obtain ⟨-, rfl⟩ := Outcome.ok.inj hrun
  exact hrefers.setValue value

end Calls

/-! ## Runs -/

/-- A call that changes a table. -/
inductive Op (K V : Type*)
  | assign (key : K) (value : V)
  | erase (key : K)
  | clear
  | reserve (newSize : ℕ)

/-- A size is a power of two. -/
def Op.Valid : Op K V → Prop
  | .assign _ _ => True
  | .erase _ => True
  | .clear => True
  | .reserve newSize => ∃ e, newSize = 2 ^ e

/-- What the call means on the finite map. -/
def Op.apply (heq : KeyEquiv T.equal) (a : KeyMap K V T.equal) : Op K V → KeyMap K V T.equal
  | .assign key value => a.insert heq key value
  | .erase key => a.erase key
  | .clear => .empty
  | .reserve _ => a

/-- The finite map of an array, later pairs over earlier ones. -/
def mapOf (heq : KeyEquiv T.equal) (a : KeyMap K V T.equal) : List (K × V) → KeyMap K V T.equal
  | [] => a
  | kv :: data => mapOf heq (a.insert heq kv.1 kv.2) data

variable [Inhabited K] [Inhabited V]

/-- What the call does to the table. -/
def Op.exec (T : CuckooKeys K) (fuel : ℕ) (t : CuckooHashTable K V) :
    Op K V → Outcome (CuckooHashTable K V) Unit
  | .assign key value => CuckooHashTable.assign T fuel t key value
  | .erase key => .ok () (CuckooHashTable.erase T t key).2
  | .clear => .ok () (CuckooHashTable.clear t)
  | .reserve newSize => CuckooHashTable.reserve T fuel t newSize

/-- **A run, and the finite map its calls mean**: from any constructor, by calls that return. -/
inductive Run (T : CuckooKeys K) (heq : KeyEquiv T.equal) :
    CuckooHashTable K V → KeyMap K V T.equal → Prop
  | sized (e : ℕ) (seed : ℕ → Bool) : Run T heq (sized (2 ^ e) seed) .empty
  | ofArray {fuel : ℕ} {t : CuckooHashTable K V} (data : List (K × V)) (seed : ℕ → Bool)
      (hok : ofArray T fuel data seed = .ok () t) : Run T heq t (mapOf heq .empty data)
  | step {t t' : CuckooHashTable K V} {a : KeyMap K V T.equal} (h : Run T heq t a) (fuel : ℕ)
      (op : Op K V) (hv : op.Valid) (hok : op.exec T fuel t = .ok () t') :
      Run T heq t' (op.apply heq a)

theorem Good.step (laws : Laws T) (h : Good T t a) {op : Op K V} (hv : op.Valid) {fuel : ℕ}
    {t' : CuckooHashTable K V} (hok : op.exec T fuel t = .ok () t') :
    Good T t' (op.apply laws.equiv a) := by
  cases op with
  | assign key value => exact assign_spec laws h hok
  | erase key =>
    obtain ⟨-, rfl⟩ := Outcome.ok.inj hok
    rw [CuckooHashTable.erase]
    rcases h.keyIndex laws key with ⟨hr, habs⟩ | ⟨i, hr, hi, htaken, hs⟩
    · rw [hr]
      exact ⟨h.mask, h.distinct, h.holds.erase_absent laws.equiv habs, h.size, h.leads⟩
    · rw [hr]
      exact h.erase laws hi (cell_taken htaken) hs
  | clear =>
    obtain ⟨-, rfl⟩ := Outcome.ok.inj hok
    have hcell : (CuckooHashTable.clear t).cell = fun _ => .empty := by
      funext i
      exact cell_empty rfl
    refine ⟨h.mask, ?_, ?_, ?_, fun i hi => absurd rfl hi⟩
    · rw [hcell]
      exact distinct_empty _ _
    · rw [hcell]
      exact holds_empty _
    · rw [hcell]
      exact (tally_eq_zero fun _ _ => rfl).symm
  | reserve newSize =>
    obtain ⟨e, rfl⟩ := hv
    exact reserveBy_spec (index_spec laws fuel) h (by positivity) hok

theorem assignAll_spec (laws : Laws T) {fuel : ℕ} {data : List (K × V)} (h : Good T t a)
    {t' : CuckooHashTable K V} (hok : assignAll T fuel data t = .ok () t') :
    Good T t' (mapOf laws.equiv a data) := by
  induction data generalizing t a with
  | nil =>
    obtain ⟨-, rfl⟩ := Outcome.ok.inj hok
    exact h
  | cons kv data ih =>
    obtain ⟨_, s, hput, hok⟩ := Outcome.bind_eq_ok.mp hok
    exact ih (assign_spec laws h hput) hok

theorem Run.good (laws : Laws T) (h : Run T laws.equiv t a) : Good T t a := by
  induction h with
  | sized e seed => exact good_sized T (by positivity) seed
  | ofArray data seed hok =>
    rw [CuckooHashTable.ofArray] at hok
    split_ifs at hok
    rw [Nat.one_shiftLeft] at hok
    exact assignAll_spec laws (good_sized T (by positivity) seed) hok
  | step h fuel op hv hok ih => exact ih.step laws hv hok

/-- Numbers hashed to themselves and to their upper half, off zero. -/
def plainKeys : CuckooKeys UInt64 where
  hash0 x := if x = 0 then 1 else x
  hash1 x := if x >>> 32 = 0 then 1 else x >>> 32
  equal a b := a == b

theorem laws_plainKeys : Laws plainKeys where
  equiv := keyEquiv_beq
  respects0 := fun hab => by rw [show _ = _ from eq_of_beq hab]
  respects1 := fun hab => by rw [show _ = _ from eq_of_beq hab]
  ne0 := fun k => by
    rw [plainKeys]
    dsimp only
    split_ifs with hk
    · decide
    · exact hk
  ne1 := fun k => by
    rw [plainKeys]
    dsimp only
    split_ifs with hk
    · decide
    · exact hk

end CuckooHashTable

end DaScript

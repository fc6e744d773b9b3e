import DaScript.Daslib.FlatHashTableRuns
import DaScript.Daslib.CuckooHashTableRuns

/-!
# Daslib/HashTableDefaults — what a new key of the template tables starts with

`erase` and `clear` mark slots as free and leave their values; `operator []` gives a free slot to a
new key and leaves the value too.  So a new key starts with a default as long as the values of free
slots are defaults (`Clean`), which calls that drop nothing but defaults keep.

A reserved table is a new one and clean at any rate, and so is what `insert` of the cuckoo table
puts in flight.
-/

open Function

namespace DaScript

open Probing

variable {K V : Type*}

/-! ## The flat table -/

namespace FlatHashTable

variable {T : FlatKeys K} {t t' : FlatHashTable K V} {a : KeyMap K V T.equal} {key : K} {i : ℕ}

theorem place_found {see : ℕ → Seen} {next : ℕ → ℕ} {fuel i j : ℕ} {spare : Option ℕ}
    (h : place see next fuel i spare = some (.found j)) : see j = .hit := by
  induction fuel generalizing i spare with
  | zero => cases h
  | succ fuel ih =>
    rw [place] at h
    split at h
    · cases spare <;> cases h
    · rename_i hsee
      cases h
      exact hsee
    · exact ih h
    · exact ih h

section Clean

variable [Inhabited V]

/-- **The value of a free slot is a default.** -/
def Clean (t : FlatHashTable K V) : Prop :=
  ∀ i < t.capacity, ¬ hashKilled < t.hashes i → t.valueData i = default

theorem Clean.setValue (h : Clean t) (hi : hashKilled < t.hashes i) (v : V) :
    Clean (setValue t i v) := by
  intro j hj hfree
  change update t.valueData i v j = default
  rcases eq_or_ne j i with rfl | hji
  · exact absurd hi hfree
  · rw [update_of_ne hji]
    exact h j hj hfree

theorem Clean.occupy (h : Clean t) {hash : UInt64} (hlt : hashKilled < hash) (n : ℕ) :
    Clean { occupy t i key hash with tombstones := n } := by
  intro j hj hfree
  change ¬ hashKilled < update t.hashes i hash j at hfree
  rcases eq_or_ne j i with rfl | hji
  · rw [update_self] at hfree
    exact absurd hlt hfree
  · rw [update_of_ne hji] at hfree
    exact h j hj hfree

/-- What an `operator []` that returns is to keep. -/
def KeepsClean (index : FlatHashTable K V → K → Outcome (FlatHashTable K V) ℕ) : Prop :=
  ∀ t key i t', Clean t → index t key = .ok i t' → Clean t' ∧ hashKilled < t'.hashes i

theorem insertSlot_clean (laws : Laws T) (h : Clean t) (hrun : insertSlot T t key = .ok i t') :
    Clean t' ∧ hashKilled < t'.hashes i := by
  have hlt := laws.one_lt key
  rw [insertSlot] at hrun
  split at hrun
  · cases hrun
  · rename_i index hplace
    cases hrun
    have hsee := place_found hplace
    refine ⟨h, ?_⟩
    rw [see] at hsee
    split_ifs at hsee with hhash
    rwa [hhash]
  all_goals
    cases hrun
    refine ⟨h.occupy hlt _, ?_⟩
    change hashKilled < update t.hashes i (T.hashFunction key) i
    rwa [update_self]

variable [Inhabited K] {index : FlatHashTable K V → K → Outcome (FlatHashTable K V) ℕ}

omit [Inhabited K] in
theorem reinsert_clean (hindex : KeepsClean index) {old t₀ : FlatHashTable K V} (h₀ : Clean t₀)
    {n : ℕ} (hrun : reinsert index old n t₀ = .ok () t) : Clean t := by
  induction n generalizing t with
  | zero =>
    cases hrun
    exact h₀
  | succ n ih =>
    obtain ⟨_, s, hbefore, hrun⟩ := Outcome.bind_eq_ok.mp hrun
    have hs := ih hbefore
    split_ifs at hrun
    · obtain ⟨j, s', hput, hrun⟩ := Outcome.bind_eq_ok.mp hrun
      cases hrun
      obtain ⟨hs', hlive⟩ := hindex _ _ _ _ hs hput
      exact hs'.setValue hlive _
    · cases hrun
      exact hs

theorem clean_sized (n : ℕ) : Clean (sized n : FlatHashTable K V) := fun _ _ _ => rfl

theorem reserveBy_clean (hindex : KeepsClean index) {n : ℕ}
    (hrun : reserveBy index t n = .ok () t') : Clean t' := by
  rw [reserveBy] at hrun
  split_ifs at hrun
  exact reinsert_clean hindex (clean_sized n) hrun

theorem makeRoom_clean (hindex : KeepsClean index) (h : Clean t)
    (hrun : makeRoom index t = .ok () t') : Clean t' := by
  rw [makeRoom] at hrun
  split_ifs at hrun
  · exact reserveBy_clean hindex hrun
  · exact reserveBy_clean hindex hrun
  · cases hrun
    exact h

theorem index_clean (laws : Laws T) (depth : ℕ) :
    KeepsClean (FlatHashTable.index T depth : FlatHashTable K V → K → _) := by
  induction depth with
  | zero => exact fun t key i t' _ hrun => by cases hrun
  | succ depth ih =>
    intro t key i t' h hrun
    obtain ⟨_, s, hroom, hrun⟩ := Outcome.bind_eq_ok.mp hrun
    exact insertSlot_clean laws (makeRoom_clean ih h hroom) hrun

theorem assign_clean (laws : Laws T) {depth : ℕ} (h : Clean t) {v : V}
    (hrun : assign T depth t key v = .ok () t') : Clean t' := by
  obtain ⟨j, s, hput, hrun⟩ := Outcome.bind_eq_ok.mp hrun
  cases hrun
  obtain ⟨hs, hlive⟩ := index_clean laws depth _ _ _ _ h hput
  exact hs.setValue hlive v

theorem assignAll_clean (laws : Laws T) {depth : ℕ} {data : List (K × V)} (h : Clean t)
    (hrun : assignAll T depth data t = .ok () t') : Clean t' := by
  induction data generalizing t with
  | nil =>
    cases hrun
    exact h
  | cons kv data ih =>
    obtain ⟨_, s, hput, hrun⟩ := Outcome.bind_eq_ok.mp hrun
    exact ih (assign_clean laws h hput) hrun

/-! ### A new key -/

omit [Inhabited K] in
theorem insertSlot_default (laws : Laws T) (hgood : Good T t a) (hroomy : Roomy t) (h : Clean t)
    (habs : a.lookup key = none) (hrun : insertSlot T t key = .ok i t') :
    t'.valueData i = default := by
  have hload := hroomy.load
  have htomb := hroomy.tombstones
  have hpos := hgood.capacity_pos
  obtain ⟨p, hp, hcase⟩ := hgood.map.place (k := key) hgood.ring
    (hgood.home_lt (T.hashFunction key)) (fun hab => by rw [laws.respects hab])
    (hgood.exists_empty (by omega))
  rw [FlatHashTable.insertSlot] at hrun
  dsimp only at hrun
  rw [hgood.see laws key, hp] at hrun
  rcases hcase with ⟨j, k', v, rfl, hj, hk, hs⟩ | ⟨j, hj, ⟨rfl, he⟩ | ⟨rfl, he⟩, -⟩
  · -- a slot of the key would have it in the map
    rw [hgood.map.holds.lookup_of_same hj hk hs] at habs
    cases habs
  all_goals
    cases hrun
    exact h i hj fun hlive => by
      rw [cell_of_lt hlive] at he
      cases he

theorem index_default (laws : Laws T) {depth : ℕ} (hgood : Good T t a) (h : Clean t)
    (habs : a.lookup key = none)
    (hrun : FlatHashTable.index T (depth + 2) t key = .ok i t') : t'.valueData i = default := by
  rw [FlatHashTable.index] at hrun
  rcases makeRoom_spec laws depth hgood with ⟨s, hok, hgood', hroomy⟩ | ⟨herr, -⟩
  · rw [hok] at hrun
    exact insertSlot_default laws hgood' hroomy (makeRoom_clean (index_clean laws _) h hok) habs
      hrun
  · rw [herr] at hrun
    cases hrun

/-! ### Runs -/

/-- **Where a call drops defaults only**: an erased key has a default, and so have all keys of a
cleared table. -/
def Op.DropsDefaults (a : KeyMap K V T.equal) : Op K V → Prop
  | .assign _ _ => True
  | .erase key => ∀ v, a.lookup key = some v → v = default
  | .clear => ∀ key v, a.lookup key = some v → v = default
  | .reserve _ => True

/-- **A run whose calls drop defaults only**, and the finite map they mean. -/
inductive DefaultRun (T : FlatKeys K) (heq : KeyEquiv T.equal) (depth : ℕ) :
    FlatHashTable K V → KeyMap K V T.equal → Prop
  | sized (e : ℕ) (he : e ≤ 30) : DefaultRun T heq depth (sized (2 ^ e)) .empty
  | ofArray {t : FlatHashTable K V} (data : List (K × V)) (hlen : data.length < 2 ^ 31)
      (hok : ofArray T depth data = .ok () t) : DefaultRun T heq depth t (mapOf heq .empty data)
  | done {t t' : FlatHashTable K V} {a : KeyMap K V T.equal} (h : DefaultRun T heq depth t a)
      (op : Op K V) (hv : op.Valid) (hdrops : op.DropsDefaults a)
      (hok : op.exec T depth t = .ok () t') : DefaultRun T heq depth t' (op.apply heq a)
  | failed {t t' : FlatHashTable K V} {a : KeyMap K V T.equal} (h : DefaultRun T heq depth t a)
      (op : Op K V) (hv : op.Valid) {msg : String}
      (herr : op.exec T depth t = .error (.throw msg) t') : DefaultRun T heq depth t' a

theorem meets_of_exec (laws : Laws T) (hgood : Good T t a) {op : Op K V} {depth : ℕ}
    (hno : op.exec T depth t ≠ .error (.hang "key_index") t) : op.Meets t a := by
  cases op with
  | erase key =>
    by_contra hstop
    refine hno ?_
    rw [Op.exec, erase, (hgood.keyIndex_eq_none laws key).mpr hstop]
    rfl
  | assign key value => trivial
  | clear => trivial
  | reserve newSize => trivial

theorem DefaultRun.run {depth : ℕ} (laws : Laws T) (h : DefaultRun T laws.equiv (depth + 2) t a) :
    Run T laws.equiv (depth + 2) t a := by
  induction h with
  | sized e he => exact .sized e he
  | ofArray data hlen hok => exact .ofArray data hlen hok
  | done _ op hv _ hok ih =>
    exact ih.done op hv (meets_of_exec laws (ih.good laws) (by rw [hok]; exact nofun)) hok
  | @failed t _ _ _ op hv _ herr ih =>
    have hno : op.exec T (depth + 2) t ≠ .error (.hang "key_index") t := by
      rw [herr]
      exact fun h => by cases h
    exact ih.failed op hv (meets_of_exec laws (ih.good laws) hno) herr

theorem Op.exec_clean (laws : Laws T) {depth : ℕ} (hgood : Good T t a) (h : Clean t) {op : Op K V}
    (hdrops : op.DropsDefaults a) (hok : op.exec T depth t = .ok () t') : Clean t' := by
  cases op with
  | assign key value => exact assign_clean laws h hok
  | reserve newSize => exact reserveBy_clean (index_clean laws depth) hok
  | clear =>
    cases hok
    intro i hi _
    by_cases hlive : hashKilled < t.hashes i
    · exact hdrops (t.keyData i) _ (hgood.map.holds.lookup_of_same hi (cell_of_lt hlive)
        (laws.equiv.refl _))
    · exact h i hi hlive
  | erase key =>
    rw [Op.exec, FlatHashTable.erase] at hok
    cases hindex : keyIndex T t key with
    | none =>
      rw [hindex] at hok
      cases hok
    | some r =>
      have hstop : Stops t a key := by
        by_contra hno
        rw [(hgood.keyIndex_eq_none laws key).mpr hno] at hindex
        cases hindex
      obtain ⟨⟨r', hr', hsome, -⟩, -⟩ := hgood.lookup laws hstop
      obtain rfl := Option.some.inj (hindex.symm.trans hr')
      rw [hindex] at hok
      cases r with
      | none =>
        cases hok
        exact h
      | some j =>
        obtain ⟨-, -, -, hlook⟩ := hsome j rfl
        cases hok
        intro i hi hfree
        change ¬ hashKilled < update t.hashes j hashKilled i at hfree
        change t.valueData i = default
        rcases eq_or_ne i j with rfl | hij
        · exact hdrops _ hlook
        · rw [update_of_ne hij] at hfree
          exact h i hi hfree

theorem DefaultRun.clean {depth : ℕ} (laws : Laws T) (h : DefaultRun T laws.equiv (depth + 2) t a) :
    Clean t := by
  induction h with
  | sized e he => exact clean_sized _
  | ofArray data hlen hok =>
    rw [FlatHashTable.ofArray] at hok
    split_ifs at hok
    exact assignAll_clean laws (clean_sized _) hok
  | done hrun op hv hdrops hok ih =>
    exact Op.exec_clean laws ((hrun.run laws).good laws) ih hdrops hok
  | @failed t _ _ hrun op hv _ herr ih =>
    have hgood := (hrun.run laws).good laws
    have hno : op.exec T (depth + 2) t ≠ .error (.hang "key_index") t := by
      rw [herr]
      exact fun h => by cases h
    rcases hgood.step laws depth hv (meets_of_exec laws hgood hno) with ⟨s, hok, -⟩ | herr'
    · rw [herr] at hok
      cases hok
    · rw [herr] at herr'
      obtain ⟨-, rfl⟩ := Outcome.error.inj herr'
      exact ih

end Clean

end FlatHashTable

/-! ## The cuckoo table -/

namespace CuckooHashTable

open FlatHashTable (maxInt clz homeIndex)

variable {T : CuckooKeys K} {t t' : CuckooHashTable K V} {a : KeyMap K V T.equal} {key : K}
  {hash : UInt64} {value : V} {i : ℕ}

section Clean

variable [Inhabited V]

/-- **The value of an empty slot is a default.** -/
def Clean (t : CuckooHashTable K V) : Prop := ∀ i < t.length, t.hash i = 0 → t.value i = default

theorem Clean.write (h : Clean t) (hlen : t'.length = t.length) (htaken : t'.hash i ≠ 0)
    (hhash : ∀ j, j ≠ i → t'.hash j = t.hash j) (hvalue : ∀ j, j ≠ i → t'.value j = t.value j) :
    Clean t' := by
  intro j hj hempty
  rcases eq_or_ne j i with rfl | hji
  · exact absurd hempty htaken
  · rw [hhash j hji] at hempty
    rw [hvalue j hji]
    exact h j (hlen ▸ hj) hempty

theorem Clean.setValue (h : Clean t) (htaken : t.hash i ≠ 0) : Clean (setValue t i value) :=
  h.write (i := i) rfl htaken (fun _ _ => rfl) fun _ hji => update_of_ne hji _ _

theorem Clean.evict (h : Clean t) (hne : hash ≠ 0) : Clean (evict t i key hash value) := by
  refine h.write (i := i) rfl ?_ (fun _ hji => update_of_ne hji _ _)
    fun _ hji => update_of_ne hji _ _
  change update t.hash i hash i ≠ 0
  rwa [update_self]

theorem Clean.settle (h : Clean t) (hne : hash ≠ 0) : Clean (settle t i key hash value) :=
  (h.evict hne : Clean (CuckooHashTable.evict t i key hash value))

theorem Clean.occupy (h : Clean t) (hne : hash ≠ 0) : Clean (occupy t i key hash) := by
  rw [occupy_eq_settle]
  exact h.settle hne

/-- What an `operator []` that returns is to keep. -/
def KeepsClean (index : CuckooHashTable K V → K → Outcome (CuckooHashTable K V) ℕ) : Prop :=
  ∀ t key i t', Clean t → index t key = .ok i t' → Clean t' ∧ t'.hash i ≠ 0

theorem displace_clean (laws : Laws T) (turns : ℕ) (h : Clean t) :
    Clean (displace T turns t key value).1 := by
  induction turns generalizing t key value with
  | zero => exact h
  | succ turns ih =>
    rw [displace]
    dsimp only
    split_ifs
    · exact h.settle (laws.ne0 key)
    · exact h.settle (laws.ne1 key)
    · exact ih (h.evict (laws.ne0 key))
    · exact ih (h.evict (laws.ne1 key))

theorem clean_sized [Inhabited K] (n : ℕ) (seed : ℕ → Bool) :
    Clean (sized n seed : CuckooHashTable K V) := fun _ _ _ => rfl

omit [Inhabited V] in
theorem taken_of_keyIndex (laws : Laws T) (hindex : keyIndex T t key = some i) :
    t.hash i ≠ 0 := by
  rw [keyIndex] at hindex
  dsimp only at hindex
  split_ifs at hindex with h0 h1
  · obtain rfl := Option.some.inj hindex
    rw [h0.1]
    exact laws.ne0 key
  · obtain rfl := Option.some.inj hindex
    rw [h1.1]
    exact laws.ne1 key

section Calls

variable {index : CuckooHashTable K V → K → Outcome (CuckooHashTable K V) ℕ}

theorem reinsert_clean (hindex : KeepsClean index) {old t₀ : CuckooHashTable K V} (h₀ : Clean t₀)
    {n : ℕ} (hrun : reinsert index old n t₀ = .ok () t) : Clean t := by
  induction n generalizing t with
  | zero =>
    cases hrun
    exact h₀
  | succ n ih =>
    obtain ⟨_, s, hbefore, hrun⟩ := Outcome.bind_eq_ok.mp hrun
    have hs := ih hbefore
    split_ifs at hrun
    · obtain ⟨j, s', hput, hrun⟩ := Outcome.bind_eq_ok.mp hrun
      cases hrun
      obtain ⟨hs', htaken⟩ := hindex _ _ _ _ hs hput
      exact hs'.setValue htaken
    · cases hrun
      exact hs

variable [Inhabited K]

theorem reserveBy_clean (hindex : KeepsClean index) {n : ℕ}
    (hrun : reserveBy index t n = .ok () t') : Clean t' := by
  rw [reserveBy] at hrun
  split_ifs at hrun
  exact reinsert_clean hindex (clean_sized n t.seed) hrun

theorem insertBy_clean (laws : Laws T) (hindex : KeepsClean index) (rounds : ℕ) (h : Clean t)
    (hrun : insertBy T index rounds t key value = .ok () t') : Clean t' := by
  induction rounds generalizing t key value with
  | zero => cases hrun
  | succ rounds ih =>
    rw [insertBy] at hrun
    have hdisplaced : Clean (displace T (t.length / 2) t key value).1 :=
      displace_clean laws (t.length / 2) h
    generalize displace T (t.length / 2) t key value = r at hrun hdisplaced
    obtain ⟨s, _ | e⟩ := r
    · cases hrun
      exact hdisplaced
    · dsimp only at hrun
      obtain ⟨_, s', hgrow, hrun⟩ := Outcome.bind_eq_ok.mp hrun
      exact ih (reserveBy_clean hindex hgrow) hrun

omit [Inhabited K] in
theorem insertSlot_clean (laws : Laws T)
    {insert : CuckooHashTable K V → K → V → Outcome (CuckooHashTable K V) Unit}
    (hinsert : ∀ t key value t', Clean t → insert t key value = .ok () t' → Clean t')
    (h : Clean t) (hrun : insertSlot T insert t key = .ok i t') : Clean t' ∧ t'.hash i ≠ 0 := by
  rw [insertSlot] at hrun
  dsimp only at hrun
  split_ifs at hrun with h0 h1
  · cases hrun
    exact ⟨h, by rw [h0.1]; exact laws.ne0 key⟩
  · cases hrun
    exact ⟨h, by rw [h1.1]; exact laws.ne1 key⟩
  · cases hrun
    refine ⟨h.occupy (laws.ne0 key), ?_⟩
    change update t.hash _ _ _ ≠ 0
    rw [update_self]
    exact laws.ne0 key
  · cases hrun
    refine ⟨h.occupy (laws.ne1 key), ?_⟩
    change update t.hash _ _ _ ≠ 0
    rw [update_self]
    exact laws.ne1 key
  · obtain ⟨_, s, hins, hrun⟩ := Outcome.bind_eq_ok.mp hrun
    split at hrun
    · rename_i j hj
      cases hrun
      exact ⟨hinsert _ _ _ _ h hins, taken_of_keyIndex laws hj⟩
    · cases hrun

theorem index_clean (laws : Laws T) (fuel : ℕ) :
    KeepsClean (CuckooHashTable.index T fuel : CuckooHashTable K V → K → _) := by
  induction fuel with
  | zero => exact fun t key i t' _ hrun => by cases hrun
  | succ fuel ih =>
    intro t key i t' h hrun
    rw [CuckooHashTable.index] at hrun
    have hinsert : ∀ (t : CuckooHashTable K V) (key : K) (value : V) (t' : CuckooHashTable K V),
        Clean t → insertBy T (CuckooHashTable.index T fuel) fuel t key value = .ok () t' →
          Clean t' := fun t key value t' h hins => insertBy_clean laws ih fuel h hins
    split_ifs at hrun with hload
    · obtain ⟨_, s, hgrow, hrun⟩ := Outcome.bind_eq_ok.mp hrun
      exact insertSlot_clean laws hinsert (reserveBy_clean ih hgrow) hrun
    · exact insertSlot_clean laws hinsert h hrun

theorem assign_clean (laws : Laws T) {fuel : ℕ} (h : Clean t)
    (hrun : assign T fuel t key value = .ok () t') : Clean t' := by
  obtain ⟨j, s, hput, hrun⟩ := Outcome.bind_eq_ok.mp hrun
  cases hrun
  obtain ⟨hs, htaken⟩ := index_clean laws fuel _ _ _ _ h hput
  exact hs.setValue htaken

theorem assignAll_clean (laws : Laws T) {fuel : ℕ} {data : List (K × V)} (h : Clean t)
    (hrun : assignAll T fuel data t = .ok () t') : Clean t' := by
  induction data generalizing t with
  | nil =>
    cases hrun
    exact h
  | cons kv data ih =>
    obtain ⟨_, s, hput, hrun⟩ := Outcome.bind_eq_ok.mp hrun
    exact ih (assign_clean laws h hput) hrun

/-! ### A new key -/

omit [Inhabited K] in
theorem insertSlot_default {laws : Laws T}
    {insert : CuckooHashTable K V → K → V → Outcome (CuckooHashTable K V) Unit}
    (hinsert : ∀ t e a t', Afloat laws t e a → insert t e.1 e.2 = .ok () t' → Good T t' a)
    (hgood : Good T t a) (h : Clean t) (habs : a.lookup key = none)
    (hrun : insertSlot T insert t key = .ok i t') : t'.value i = default := by
  have hmiss : ∀ {hash : UInt64}, hash ≠ 0 →
      ¬ (t.hash (homeIndex t.mask hash) = hash ∧
        T.equal (t.key (homeIndex t.mask hash)) key = true) := by
    rintro hash hne ⟨hhash, hs⟩
    have htaken : t.hash (homeIndex t.mask hash) ≠ 0 := by rwa [hhash]
    rw [hgood.holds.lookup_of_same (hgood.home_lt hash) (cell_taken htaken) hs] at habs
    cases habs
  rw [insertSlot] at hrun
  dsimp only at hrun
  rw [if_neg (hmiss (laws.ne0 key)), if_neg (hmiss (laws.ne1 key))] at hrun
  split_ifs at hrun with he0 he1
  · cases hrun
    exact h _ (hgood.home_lt _) he0
  · cases hrun
    exact h _ (hgood.home_lt _) he1
  · obtain ⟨_, s, hins, hrun⟩ := Outcome.bind_eq_ok.mp hrun
    have habsent : Absent T.equal t.length t.cell key := fun j hj k v hk => by
      by_contra hs
      rw [hgood.holds.lookup_of_same hj hk (by simpa using hs)] at habs
      cases habs
    have hput : Good T s (a.insert laws.equiv key default) :=
      hinsert t (key, default) _ s ⟨habsent, a, hgood, fun _ => rfl⟩ hins
    rcases hput.keyIndex laws key with ⟨hnone, -⟩ | ⟨j, hj, hlt, htaken, hs⟩
    · rw [hnone] at hrun
      cases hrun
    · rw [hj] at hrun
      cases hrun
      have hin := hput.holds.lookup_of_same hlt (cell_taken htaken) hs
      rw [KeyMap.lookup_insert, if_pos (laws.equiv.refl key)] at hin
      exact (Option.some.inj hin).symm

theorem index_default (laws : Laws T) {fuel : ℕ} (hgood : Good T t a) (h : Clean t)
    (habs : a.lookup key = none) (hrun : CuckooHashTable.index T fuel t key = .ok i t') :
    t'.value i = default := by
  cases fuel with
  | zero => cases hrun
  | succ fuel =>
    rw [CuckooHashTable.index] at hrun
    have hspec := index_spec (V := V) laws fuel
    have hinsert : ∀ t e a t', Afloat laws t e a →
        insertBy T (CuckooHashTable.index T fuel) fuel t e.1 e.2 = .ok () t' → Good T t' a :=
      fun t e a t' hafloat hins => insertBy_spec hspec fuel hafloat hins
    split_ifs at hrun with hload
    · obtain ⟨_, s, hgrow, hrun⟩ := Outcome.bind_eq_ok.mp hrun
      have hpos := hgood.length_pos
      exact insertSlot_default hinsert (reserveBy_spec hspec hgood (by omega) hgrow)
        (reserveBy_clean (index_clean laws fuel) hgrow) habs hrun
    · exact insertSlot_default hinsert hgood h habs hrun

/-! ### Runs -/

/-- **Where a call drops defaults only**: an erased key has a default, and so have all keys of a
cleared table. -/
def Op.DropsDefaults (a : KeyMap K V T.equal) : Op K V → Prop
  | .assign _ _ => True
  | .erase key => ∀ v, a.lookup key = some v → v = default
  | .clear => ∀ key v, a.lookup key = some v → v = default
  | .reserve _ => True

/-- **A run whose calls drop defaults only**, and the finite map they mean. -/
inductive DefaultRun (T : CuckooKeys K) (heq : KeyEquiv T.equal) :
    CuckooHashTable K V → KeyMap K V T.equal → Prop
  | sized (e : ℕ) (seed : ℕ → Bool) : DefaultRun T heq (sized (2 ^ e) seed) .empty
  | ofArray {fuel : ℕ} {t : CuckooHashTable K V} (data : List (K × V)) (seed : ℕ → Bool)
      (hok : ofArray T fuel data seed = .ok () t) : DefaultRun T heq t (mapOf heq .empty data)
  | step {t t' : CuckooHashTable K V} {a : KeyMap K V T.equal} (h : DefaultRun T heq t a)
      (fuel : ℕ) (op : Op K V) (hv : op.Valid) (hdrops : op.DropsDefaults a)
      (hok : op.exec T fuel t = .ok () t') : DefaultRun T heq t' (op.apply heq a)

theorem DefaultRun.run {heq : KeyEquiv T.equal} (h : DefaultRun T heq t a) : Run T heq t a := by
  induction h with
  | sized e seed => exact .sized e seed
  | ofArray data seed hok => exact .ofArray data seed hok
  | step _ fuel op hv _ hok ih => exact ih.step fuel op hv hok

theorem Op.exec_clean (laws : Laws T) {fuel : ℕ} (hgood : Good T t a) (h : Clean t) {op : Op K V}
    (hdrops : op.DropsDefaults a) (hok : op.exec T fuel t = .ok () t') : Clean t' := by
  cases op with
  | assign key value => exact assign_clean laws h hok
  | reserve newSize => exact reserveBy_clean (index_clean laws fuel) hok
  | clear =>
    cases hok
    intro i hi _
    by_cases hempty : t.hash i = 0
    · exact h i hi hempty
    · exact hdrops (t.key i) _ (hgood.holds.lookup_of_same hi (cell_taken hempty)
        (laws.equiv.refl _))
  | erase key =>
    cases hok
    rw [CuckooHashTable.erase]
    rcases hgood.keyIndex laws key with ⟨hr, -⟩ | ⟨j, hr, hj, htaken, hs⟩
    · rw [hr]
      exact h
    · rw [hr]
      intro i hi hempty
      change update t.hash j 0 i = 0 at hempty
      change t.value i = default
      rcases eq_or_ne i j with rfl | hij
      · exact hdrops _ (hgood.holds.lookup_of_same hj (cell_taken htaken) hs)
      · rw [update_of_ne hij] at hempty
        exact h i hi hempty

theorem DefaultRun.clean (laws : Laws T) (h : DefaultRun T laws.equiv t a) : Clean t := by
  induction h with
  | sized e seed => exact clean_sized _ _
  | ofArray data seed hok =>
    rw [CuckooHashTable.ofArray] at hok
    split_ifs at hok
    exact assignAll_clean laws (clean_sized _ _) hok
  | step hrun fuel op hv hdrops hok ih =>
    exact Op.exec_clean laws (hrun.run.good laws) ih hdrops hok

end Calls

end Clean

end CuckooHashTable

/-! ## Both tables -/

end DaScript

import DaScript.Runtime.TableRuns

/-!
# Runtime/TablePresent — looking a present key up through `reserve`

A packed table looks the key up before anything else.  An open-addressed one makes room first, for a
key that may be there already: at half its capacity, or with too many tombstones, it moves.
-/

open Function

namespace DaScript

open Probing TableHash

variable {K V : Type*} {T : KeyType K} {z : ℕ} {tab t : Table K V} {key : K} {hash : UInt64} {i : ℕ}

theorem capacity_of_find (hfind : find T tab key hash = some (some i)) : tab.capacity ≠ 0 := by
  intro hc
  rw [find, if_pos hc] at hfind
  cases hfind

theorem insertOpen_present (hwf : WellFormed T tab) (hp : packed T tab.capacity = false)
    (hfind : find T tab key hash = some (some i)) : insertOpen T tab key hash = .ok i tab := by
  have hc := capacity_of_find hfind
  rcases hwf.pow with h0 | ⟨e, -, hpow⟩
  · exact absurd h0 hc
  have hring := isRing_nextSlot hpow
  have hhome := homeSlot_lt hpow hash
  obtain ⟨d, hd, hstop, hpass⟩ :=
    exists_first_stop (hwf.exists_stop hp hc key hash) (homeSlot tab.capacity hash)
  rw [find, if_neg hc, hp, if_neg (by simp), seeFind_eq hwf,
    scan_of_stop hring hhome hstop hpass hd] at hfind
  split_ifs at hfind with hhit
  · obtain rfl := Option.some.inj (Option.some.inj hfind)
    rw [insertOpen]
    rcases place_of_stop hring hhome hstop hpass hd none with ⟨-, hpl⟩ | ⟨hs, -⟩
    · rw [hpl]
    · rw [hs] at hhit
      cases hhit
  · cases hfind

theorem insertOpen_data {j : ℕ} (h : insertOpen T tab key hash = .ok j t) : t.data = tab.data := by
  rw [insertOpen] at h
  split at h
  · cases h
  · cases h
    rfl
  all_goals
    split_ifs at h
    cases h
    rfl

variable [Inhabited K] [Zero V]

omit [Inhabited K] [Zero V] in
theorem copyEntries_data {newTab : Table K V} {n : ℕ} (h : copyEntries T tab newTab n = some t) :
    t.data = newTab.data := by
  induction n generalizing t with
  | zero =>
    cases h
    rfl
  | succ n ih =>
    rw [copyEntries] at h
    obtain ⟨s, hs, h⟩ := Option.bind_eq_some_iff.mp h
    split_ifs at h
    · obtain ⟨index, -, rfl⟩ := Option.map_eq_some_iff.mp h
      exact (ih hs : s.data = _)
    · cases h
      exact ih hs

theorem reserveInternal_data {N : ℕ} (h : reserveInternal T z tab N = .ok () t) :
    t.data = tab.data + 1 := by
  rw [reserveInternal] at h
  split_ifs at h
  · cases h
    rfl
  all_goals
    split at h
    · cases h
    · rename_i hcopy
      cases h
      exact copyEntries_data hcopy

theorem makeRoom_data (hroom : ¬ Roomy tab) (h : makeRoom T z tab = .ok () t) :
    t.data = tab.data + 1 := by
  rw [makeRoom] at h
  split_ifs at h with hfull htomb
  · rw [grow] at h
    split_ifs at h
    exact reserveInternal_data h
  · exact reserveInternal_data h
  · exact absurd ⟨by omega, by omega⟩ hroom

theorem reserve_moves (hp : packed T tab.capacity = false)
    (hc : tab.capacity ≠ 0) (hroom : ¬ Roomy tab) {j : ℕ} (h : reserve T z tab key hash = .ok j t) :
    t.data = tab.data + 1 := by
  rw [reserve, reserveRetry, hp, if_neg (by simp), if_neg fun h => hc h.2, reserveOpen] at h
  cases hmake : makeRoom T z tab with
  | error e s =>
    rw [hmake] at h
    cases h
  | ok u s =>
    rw [hmake] at h
    rw [insertOpen_data h]
    exact makeRoom_data hroom hmake

/-- **`reserve` leaves the table of a present key as it is** exactly when the table is packed or its
load test lets one more entry in. -/
theorem reserve_present_iff (hwf : WellFormed T tab) (hfind : find T tab key hash = some (some i)) :
    reserve T z tab key hash = .ok i tab ↔ packed T tab.capacity = true ∨
      (tab.size < tab.capacity / 2 ∧ tab.tombstones ≤ (tab.capacity - tab.size) / 2) := by
  have hc := capacity_of_find hfind
  cases hp : packed T tab.capacity with
  | true =>
    rw [find, if_neg hc, hp, if_pos rfl] at hfind
    refine iff_of_true ?_ (Or.inl rfl)
    rw [reserve, reserveRetry, if_pos hp, if_pos hc, Option.some.inj hfind]
  | false =>
    constructor
    · intro h
      refine Or.inr (by_contra fun hroom => ?_)
      have hdata := reserve_moves hp hc (fun hr => hroom ⟨hr.1, hr.2⟩) h
      omega
    · rintro (hfalse | ⟨hsize, htomb⟩)
      · cases hfalse
      · rw [reserve, reserveRetry, hp, if_neg (by simp), if_neg fun h => hc h.2, reserveOpen,
          makeRoom, if_neg (by omega), if_neg (by omega)]
        exact insertOpen_present hwf hp hfind

theorem reserve_present_roomy :
    let tab : Table UInt64 ℕ := runOps uint64Key 4 [.put 1 5, .put 2 6, .put 3 7] .zero
    ∃ i, reserve uint64Key 4 tab 2 (uint64Key.hashFunction 2) = .ok i tab := by
  intro tab
  have hwf : WellFormed uint64Key tab :=
    (reach_runOps _ _).wellFormed uint64Key_hash (wellFormed_zero uint64Key)
  have hfind : find uint64Key tab 2 (uint64Key.hashFunction 2) = some (some 6) := by decide
  exact ⟨6, (reserve_present_iff hwf hfind).mpr (Or.inr (by decide))⟩

theorem reserve_present_half :
    let tab : Table UInt64 ℕ := runOps uint64Key 4 [.put 1 5, .put 2 6, .put 3 7, .put 4 8] .zero
    tab.lock = 0 ∧ WellFormed uint64Key tab ∧
      find uint64Key tab 2 (uint64Key.hashFunction 2) = some (some 6) ∧
      (reserve uint64Key 4 tab 2 (uint64Key.hashFunction 2)).state.capacity = 16 ∧
      (reserve uint64Key 4 tab 2 (uint64Key.hashFunction 2)).state.data = tab.data + 1 ∧
      ∀ i, reserve uint64Key 4 tab 2 (uint64Key.hashFunction 2) ≠ .ok i tab := by
  intro tab
  have hwf : WellFormed uint64Key tab :=
    (reach_runOps _ _).wellFormed uint64Key_hash (wellFormed_zero uint64Key)
  have hcap : (reserve uint64Key 4 tab 2 (uint64Key.hashFunction 2)).state.capacity = 16 := by
    decide
  refine ⟨by decide, hwf, by decide, hcap, by decide, fun i h => ?_⟩
  rw [h] at hcap
  exact absurd hcap (show ¬ tab.capacity = 16 by decide)

end DaScript

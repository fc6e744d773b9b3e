import DaScript.Misc.HandleRegistry

/-!
# Misc/HandleRegistryRuns — handles stay safe over any history

`Sound` holds after every run of calls: a handle has what it is held for, slots have the generation
of their releases, and the free list has every slot that is not in use, once.
-/

namespace DaScript.HandleRegistry

variable {T : Type} {r : HandleRegistry T} {events : List (Event T)}

/-! ## One slot changes -/

theorem slot_eq {h : Handle} (hvalue : h.value ≠ 0) :
    r.slot h = r.slots[h.idx.toNat]?.filter fun s => s.inUse ∧ s.generation = h.gen :=
  if_neg hvalue

theorem slot_spec {h : Handle} {s : Slot T} (hs : r.slot h = some s) :
    h.value ≠ 0 ∧ r.slots[h.idx.toNat]? = some s ∧ s.inUse = true ∧ s.generation = h.gen := by
  unfold slot at hs
  split at hs
  · cases hs
  next hvalue =>
    obtain ⟨hget, hcond⟩ := Option.filter_eq_some_iff.mp hs
    exact ⟨hvalue, hget, of_decide_eq_true hcond⟩

theorem slot_none {h : Handle} {s : Slot T} (hs : r.slots[h.idx.toNat]? = some s)
    (hno : s.inUse = true → s.generation ≠ h.gen) : r.slot h = none := by
  refine Option.eq_none_iff_forall_ne_some.mpr fun s' hs' => ?_
  obtain ⟨-, hget, huse, hgen⟩ := slot_spec hs'
  obtain rfl := Option.some.inj (hs.symm.trans hget)
  exact hno huse hgen

theorem slot_set_ne {h : Handle} {i : BitVec 32} (hi : h.idx ≠ i) (s : Slot T) (head : BitVec 32) :
    slot ⟨r.slots.set i.toNat s, head⟩ h = r.slot h := by
  unfold slot
  rw [List.getElem?_set_ne fun heq => hi (BitVec.eq_of_toNat_eq heq.symm)]

theorem lookup_take {i : BitVec 32} {s : Slot T} (hs : r.slots[i.toNat]? = some s)
    (hunused : s.inUse = false) (hne : i + 1 ≠ 0) (p : T) (head : BitVec 32) (h : Handle) :
    lookup ⟨r.slots.set i.toNat ⟨some p, s.generation, 0, true⟩, head⟩ h =
      if .of s.generation i = h then some p else r.lookup h := by
  by_cases hidx : h.idx = i
  · subst hidx
    by_cases hgen : s.generation = h.gen
    · have hof : Handle.of s.generation h.idx = h := by rw [hgen, of_gen_idx]
      have hvalue : h.value ≠ 0 := hof ▸ value_of_ne_zero hne
      rw [if_pos hof, lookup, slot_eq hvalue]
      dsimp only
      rw [List.getElem?_set_self (List.getElem?_eq_some_iff.mp hs).1, Option.filter_some,
        if_pos (decide_eq_true ⟨rfl, hgen⟩)]
      rfl
    · have hof : Handle.of s.generation h.idx ≠ h := fun heq =>
        hgen (by rw [← heq, gen_of])
      rw [if_neg hof]
      have hnew : slot ⟨r.slots.set h.idx.toNat ⟨some p, s.generation, 0, true⟩, head⟩ h =
          none :=
        slot_none (List.getElem?_set_self (List.getElem?_eq_some_iff.mp hs).1) fun _ => hgen
      have hold : r.slot h = none := slot_none hs fun huse => by
        rw [hunused] at huse
        cases huse
      rw [lookup, lookup, hnew, hold]
  · have hof : Handle.of s.generation i ≠ h := fun heq => hidx (by rw [← heq, idx_of])
    rw [if_neg hof, lookup, lookup, slot_set_ne hidx]

theorem lookup_release (h h' : Handle) :
    (r.release h).2.lookup h' = if h = h' then none else r.lookup h' := by
  unfold release
  cases hs : r.slot h with
  | none =>
    dsimp only
    split_ifs with heq
    · rw [← heq, lookup, hs]
      rfl
    · rfl
  | some s =>
    obtain ⟨-, hget, huse, hgen⟩ := slot_spec hs
    dsimp only
    by_cases hidx : h'.idx = h.idx
    · have hnew : slot ⟨r.slots.set h.idx.toNat ⟨none, s.generation + 1, r.freeHead, false⟩,
          h.idx + 1⟩ h' = none := by
        refine slot_none (s := ⟨none, s.generation + 1, r.freeHead, false⟩) ?_
          fun huse' => by cases huse'
        rw [hidx]
        exact List.getElem?_set_self (List.getElem?_eq_some_iff.mp hget).1
      rw [lookup, hnew]
      split_ifs with heq
      · rfl
      · have hold : r.slot h' = none := by
          refine slot_none (s := s) (by rw [hidx]; exact hget) fun _ hgen' => heq ?_
          rw [← of_gen_idx h, ← of_gen_idx h', hidx, ← hgen, ← hgen']
        rw [lookup, hold]
    · rw [if_neg fun heq => hidx (congrArg Handle.idx heq.symm), lookup, lookup, slot_set_ne hidx]

/-! ## The free list -/

theorem FreeList.set {slots : List (Slot T)} {head : BitVec 32} {chain : List (BitVec 32)}
    (h : FreeList slots head chain) {i : BitVec 32} (hi : i ∉ chain) (s : Slot T) :
    FreeList (slots.set i.toNat s) head chain := by
  induction h with
  | nil => exact .nil
  | @cons j t rest hs hunused hne hrest ih =>
    rw [List.mem_cons, not_or] at hi
    refine .cons ?_ hunused hne (ih hi.2)
    rw [List.getElem?_set_ne fun heq => hi.1 (BitVec.eq_of_toNat_eq heq)]
    exact hs

theorem FreeList.append {slots : List (Slot T)} {head : BitVec 32} {chain : List (BitVec 32)}
    (h : FreeList slots head chain) (more : List (Slot T)) :
    FreeList (slots ++ more) head chain := by
  induction h with
  | nil => exact .nil
  | cons hs hunused hne hrest ih =>
    refine .cons ?_ hunused hne ih
    rw [List.getElem?_append_left (List.getElem?_eq_some_iff.mp hs).1]
    exact hs

theorem FreeList.unused {slots : List (Slot T)} {head : BitVec 32} {chain : List (BitVec 32)}
    (h : FreeList slots head chain) {i : BitVec 32} (hi : i ∈ chain) :
    ∃ s, slots[i.toNat]? = some s ∧ s.inUse = false := by
  induction h with
  | nil => cases hi
  | @cons j s rest hs hunused hne hrest ih =>
    obtain rfl | hi := List.mem_cons.mp hi
    · exact ⟨s, hs, hunused⟩
    · exact ih hi

/-! ## What holds after every run -/

/-- **After every run**, of what the slots have. -/
structure Kept (r : HandleRegistry T) (events : List (Event T)) : Prop where
  held : ∀ h, r.lookup h = held events h
  full : ∀ s ∈ r.slots, s.inUse = true → s.ptr.isSome
  numbered : ∀ (i : BitVec 32) s, r.slots[i.toNat]? = some s →
    s.generation = BitVec.ofNat 32 (releases i events + 1)
  /-- Handles have numbers below that of their slot, or its own while it is in use. -/
  past : ∀ h ∈ issued events, ∃ s u, r.slots[h.idx.toNat]? = some s ∧
    h.gen = BitVec.ofNat 32 (u + 1) ∧ u ≤ releases h.idx events ∧
      (u = releases h.idx events → s.inUse = true)
  unreleased : ∀ i : BitVec 32, r.slots.length ≤ i.toNat → releases i events = 0
  once : (∀ i, releases i events < 2 ^ 32) → (issued events).Nodup

/-- The free list has every slot that is not in use, once. -/
def Listed (slots : List (Slot T)) (head : BitVec 32) : Prop :=
  ∃ chain, FreeList slots head chain ∧ chain.Nodup ∧
    ∀ (i : BitVec 32) s, slots[i.toNat]? = some s → s.inUse = false → i ∈ chain

theorem kept_empty : Kept (empty : HandleRegistry T) [] := by
  refine ⟨fun h => ?_, fun s hs => ?_, fun i s hs => ?_, fun h hh => ?_, fun i _ => rfl,
    fun _ => List.nodup_nil⟩
  · unfold lookup slot
    split <;> rfl
  · cases hs
  · cases hs
  · cases hh

theorem getElem?_set_cases {slots : List (Slot T)} {i j : BitVec 32} {s t : Slot T}
    (h : (slots.set i.toNat s)[j.toNat]? = some t) :
    j = i ∧ t = s ∨ j ≠ i ∧ slots[j.toNat]? = some t := by
  by_cases hj : j = i
  · subst hj
    have hlt : j.toNat < slots.length := by
      simpa using (List.getElem?_eq_some_iff.mp h).1
    rw [List.getElem?_set_self hlt] at h
    exact .inl ⟨rfl, (Option.some.inj h).symm⟩
  · rw [List.getElem?_set_ne fun heq => hj (BitVec.eq_of_toNat_eq heq.symm)] at h
    exact .inr ⟨hj, h⟩

theorem getElem?_set_of_ne {slots : List (Slot T)} {i j : BitVec 32} (hj : j ≠ i) (s : Slot T) :
    (slots.set i.toNat s)[j.toNat]? = slots[j.toNat]? :=
  List.getElem?_set_ne fun heq => hj (BitVec.eq_of_toNat_eq heq.symm)

theorem issued_number_inj {u v : ℕ} (hu : u < 2 ^ 32) (hv : v < 2 ^ 32)
    (h : BitVec.ofNat 32 (u + 1) = BitVec.ofNat 32 (v + 1)) : u = v := by
  have h := congrArg BitVec.toNat h
  rw [BitVec.toNat_ofNat, BitVec.toNat_ofNat] at h
  omega

theorem Kept.take (hr : Kept r events) {i : BitVec 32} {s : Slot T}
    (hs : r.slots[i.toNat]? = some s) (hne : i + 1 ≠ 0) (hunused : s.inUse = false)
    (head : BitVec 32) (p : T) :
    Kept ⟨r.slots.set i.toNat ⟨some p, s.generation, 0, true⟩, head⟩
      (.acquire (some p) (.of s.generation i) :: events) := by
  have hlt := (List.getElem?_eq_some_iff.mp hs).1
  refine ⟨fun h => ?_, fun t ht huse => ?_, fun j t ht => ?_, fun h hh => ?_, fun j hj => ?_,
    fun hfew => List.nodup_cons.mpr ⟨fun hmem => ?_, hr.once hfew⟩⟩
  · rw [lookup_take hs hunused hne, hr.held h]
    rfl
  · obtain ht | rfl := List.mem_or_eq_of_mem_set ht
    · exact hr.full t ht huse
    · rfl
  · obtain ⟨rfl, rfl⟩ | ⟨-, ht⟩ := getElem?_set_cases ht
    · exact hr.numbered j s hs
    · exact hr.numbered j t ht
  · obtain rfl | hh := List.mem_cons.mp hh
    · rw [idx_of, gen_of]
      exact ⟨_, releases i events, List.getElem?_set_self hlt, hr.numbered i s hs, le_rfl,
        fun _ => rfl⟩
    · obtain ⟨t, u, ht, hgen, hle, huse⟩ := hr.past h hh
      by_cases hj : h.idx = i
      · refine ⟨⟨some p, s.generation, 0, true⟩, u, ?_, hgen, hle, fun _ => rfl⟩
        rw [hj]
        exact List.getElem?_set_self hlt
      · exact ⟨t, u, (getElem?_set_of_ne hj _).trans ht, hgen, hle, huse⟩
  · rw [List.length_set] at hj
    exact hr.unreleased j hj
  · obtain ⟨t, u, ht, hgen, hle, huse⟩ := hr.past _ hmem
    rw [idx_of] at ht hle huse
    rw [gen_of, hr.numbered i s hs] at hgen
    obtain rfl := Option.some.inj (hs.symm.trans ht)
    have hnumber := issued_number_inj (hfew i) (hle.trans_lt (hfew i)) hgen
    rw [huse hnumber.symm] at hunused
    cases hunused

theorem Listed.take {slots : List (Slot T)} {i : BitVec 32} {head : BitVec 32}
    {rest : List (BitVec 32)} (hrest : FreeList slots head rest) (hnodup : (i :: rest).Nodup)
    (hall : ∀ (j : BitVec 32) t, slots[j.toNat]? = some t → t.inUse = false → j ∈ i :: rest)
    {s : Slot T} (huse : s.inUse = true) : Listed (slots.set i.toNat s) head := by
  obtain ⟨hi, hnodup⟩ := List.nodup_cons.mp hnodup
  refine ⟨rest, hrest.set hi _, hnodup, fun j t ht hunused => ?_⟩
  obtain ⟨rfl, rfl⟩ | ⟨hj, ht⟩ := getElem?_set_cases ht
  · rw [huse] at hunused
    cases hunused
  · exact (List.mem_cons.mp (hall j t ht hunused)).resolve_left hj

theorem getElem?_concat_cases {slots : List (Slot T)} {i : ℕ} {s t : Slot T}
    (h : (slots ++ [s])[i]? = some t) : slots[i]? = some t ∨ i = slots.length ∧ t = s := by
  rcases Nat.lt_trichotomy i slots.length with hlt | rfl | hgt
  · rw [List.getElem?_append_left hlt] at h
    exact .inl h
  · rw [List.getElem?_concat_length] at h
    exact .inr ⟨rfl, (Option.some.inj h).symm⟩
  · rw [List.getElem?_eq_none (by simpa using hgt)] at h
    cases h

theorem Kept.grow (hr : Kept r events) (head : BitVec 32) :
    Kept ⟨r.slots ++ [emplaceBack], head⟩ events := by
  refine ⟨fun h => ?_, fun s hs huse => ?_, fun i s hs => ?_, fun h hh => ?_, fun i hi => ?_,
    hr.once⟩
  · have hslot : slot ⟨r.slots ++ [emplaceBack], head⟩ h = r.slot h := by
      unfold slot
      dsimp only
      split
      · rfl
      · rcases Nat.lt_trichotomy h.idx.toNat r.slots.length with hlt | heq | hgt
        · rw [List.getElem?_append_left hlt]
        · rw [heq, List.getElem?_concat_length, List.getElem?_eq_none le_rfl]
          rfl
        · rw [List.getElem?_eq_none hgt.le, List.getElem?_eq_none (by simpa using hgt)]
    rw [lookup, hslot]
    exact hr.held h
  · obtain hs | rfl := by simpa using List.mem_append.mp hs
    · exact hr.full s hs huse
    · cases huse
  · obtain hs | ⟨hi, rfl⟩ := getElem?_concat_cases hs
    · exact hr.numbered i s hs
    · rw [hr.unreleased i hi.ge]
      rfl
  · obtain ⟨t, u, ht, hrest⟩ := hr.past h hh
    refine ⟨t, u, ?_, hrest⟩
    dsimp only
    rw [List.getElem?_append_left (List.getElem?_eq_some_iff.mp ht).1]
    exact ht
  · refine hr.unreleased i (Nat.le_of_succ_le ?_)
    simpa using hi

theorem Kept.release (hr : Kept r events) (h : Handle) :
    Kept (r.release h).2 (.release h (r.release h).1 :: events) := by
  have hheld : ∀ h', (r.release h).2.lookup h' =
      HandleRegistry.held (.release h (r.release h).1 :: events) h' := fun h' => by
    rw [lookup_release, hr.held h']
    rfl
  revert hheld
  unfold HandleRegistry.release
  cases hs : r.slot h with
  | none => exact fun hheld => ⟨hheld, hr.full, hr.numbered, hr.past, hr.unreleased, hr.once⟩
  | some s =>
    intro hheld
    obtain ⟨-, hget, huse, hgen⟩ := slot_spec hs
    have hlt := (List.getElem?_eq_some_iff.mp hget).1
    have hself : releases h.idx (.release h true :: events) = releases h.idx events + 1 := by
      rw [releases, if_pos rfl]
    have hother : ∀ i ≠ h.idx, releases i (.release h true :: events) = releases i events := by
      intro i hi
      rw [releases, if_neg hi.symm, Nat.add_zero]
    have hmore : ∀ i, releases i events ≤ releases i (.release h true :: events) :=
      fun i => Nat.le_add_right _ _
    refine ⟨hheld, fun t ht huse' => ?_, fun j t ht => ?_, fun h' hh => ?_, fun j hj => ?_,
      fun hfew => hr.once fun i => (hmore i).trans_lt (hfew i)⟩
    · obtain ht | rfl := List.mem_or_eq_of_mem_set ht
      · exact hr.full t ht huse'
      · cases huse'
    · obtain ⟨rfl, rfl⟩ | ⟨hj, ht⟩ := getElem?_set_cases ht
      · rw [hself, hr.numbered _ s hget]
        exact (BitVec.ofNat_add _ _).symm
      · rw [hother j hj]
        exact hr.numbered j t ht
    · obtain ⟨t, u, ht, hgen', hle, huse'⟩ := hr.past h' hh
      by_cases hj : h'.idx = h.idx
      · refine ⟨⟨none, s.generation + 1, r.freeHead, false⟩, u, ?_, hgen',
          hle.trans (hmore _), fun hu => ?_⟩
        · rw [hj]
          exact List.getElem?_set_self hlt
        · rw [hj, hself] at hu
          rw [hj] at hle
          omega
      · refine ⟨t, u, (getElem?_set_of_ne hj _).trans ht, hgen', hle.trans (hmore _), ?_⟩
        rw [hother _ hj]
        exact huse'
    · have hj' : r.slots.length ≤ j.toNat := by simpa using hj
      have hne : j ≠ h.idx := fun heq => (heq ▸ hlt).not_ge hj'
      rw [hother j hne]
      exact hr.unreleased j hj'

theorem succ_ne_zero_of_lt {i : BitVec 32} (h : i.toNat < 2 ^ 32 - 1) : i + 1 ≠ 0 := by
  intro hzero
  have h' := congrArg BitVec.toNat hzero
  rw [BitVec.toNat_add] at h'
  change (i.toNat + 1) % 2 ^ 32 = 0 at h'
  omega

theorem Listed.release (hr : Listed r.slots r.freeHead) (hslots : r.slots.length < 2 ^ 32 - 1)
    (h : Handle) : Listed (r.release h).2.slots (r.release h).2.freeHead := by
  unfold HandleRegistry.release
  cases hs : r.slot h with
  | none => exact hr
  | some s =>
    obtain ⟨-, hget, huse, -⟩ := slot_spec hs
    have hlt := (List.getElem?_eq_some_iff.mp hget).1
    obtain ⟨chain, hchain, hnodup, hall⟩ := hr
    have hi : h.idx ∉ chain := fun hi => by
      obtain ⟨t, ht, hunused⟩ := hchain.unused hi
      obtain rfl := Option.some.inj (hget.symm.trans ht)
      rw [huse] at hunused
      cases hunused
    refine ⟨h.idx :: chain, .cons (List.getElem?_set_self hlt) rfl
      (succ_ne_zero_of_lt (hlt.trans hslots)) (hchain.set hi _), List.nodup_cons.mpr ⟨hi, hnodup⟩,
      fun j t ht hunused => ?_⟩
    obtain ⟨rfl, -⟩ | ⟨-, ht⟩ := getElem?_set_cases ht
    · exact List.mem_cons_self
    · exact List.mem_cons_of_mem _ (hall j t ht hunused)

theorem FreeList.head {slots : List (Slot T)} {head : BitVec 32} {chain : List (BitVec 32)}
    (h : FreeList slots head chain) (hne : head ≠ 0) :
    ∃ i s rest, chain = i :: rest ∧ head - 1 = i ∧ slots[i.toNat]? = some s ∧ s.inUse = false ∧
      i + 1 ≠ 0 ∧ FreeList slots s.nextFree rest := by
  cases h with
  | nil => exact absurd rfl hne
  | @cons i s rest hs hunused hne hrest =>
    exact ⟨i, s, rest, rfl, BitVec.add_sub_cancel i 1, hs, hunused, hne, hrest⟩

theorem FreeList.eq_nil {slots : List (Slot T)} {head : BitVec 32} {chain : List (BitVec 32)}
    (h : FreeList slots head chain) (hzero : head = 0) : chain = [] := by
  cases h with
  | nil => rfl
  | cons _ _ hne _ => exact absurd hzero hne

theorem toNat_ofNat_length {n : ℕ} (h : n < 2 ^ 32) : (BitVec.ofNat 32 n).toNat = n := by
  rw [BitVec.toNat_ofNat, Nat.mod_eq_of_lt h]

theorem acquire_spec (hlisted : Listed r.slots r.freeHead) (hslots : r.slots.length < 2 ^ 32 - 1)
    (p : T) : ∃ (slots : List (Slot T)) (i : BitVec 32) (s : Slot T) (head : BitVec 32),
      (slots = r.slots ∨ slots = r.slots ++ [emplaceBack]) ∧
      slots[i.toNat]? = some s ∧ s.inUse = false ∧ i + 1 ≠ 0 ∧
      Listed (slots.set i.toNat ⟨some p, s.generation, 0, true⟩) head ∧
      r.acquire (some p) = some (.of s.generation i,
        ⟨slots.set i.toNat ⟨some p, s.generation, 0, true⟩, head⟩) := by
  obtain ⟨chain, hchain, hnodup, hall⟩ := hlisted
  by_cases hhead : r.freeHead = 0
  · -- nothing is on the free list
    obtain rfl := hchain.eq_nil hhead
    have hidx := toNat_ofNat_length (show r.slots.length < 2 ^ 32 by omega)
    have hs : (r.slots ++ [emplaceBack])[(BitVec.ofNat 32 r.slots.length).toNat]? =
        some emplaceBack := by
      rw [hidx]
      exact List.getElem?_concat_length
    refine ⟨_, _, emplaceBack, r.freeHead, .inr rfl, hs, rfl,
      succ_ne_zero_of_lt (by rw [hidx]; exact hslots), ?_, ?_⟩
    · refine Listed.take (hchain.append _) (List.nodup_singleton _) (fun j t ht hunused => ?_) rfl
      obtain ht | ⟨hj, -⟩ := getElem?_concat_cases ht
      · cases hall j t ht hunused
      · exact List.mem_singleton.mpr (BitVec.eq_of_toNat_eq (hj.trans hidx.symm))
    · dsimp only [acquire]
      rw [if_neg (not_not.mpr hhead), hs]
      rfl
  · obtain ⟨i, s, rest, rfl, hi, hs, hunused, hne, hrest⟩ := hchain.head hhead
    refine ⟨r.slots, i, s, s.nextFree, .inl rfl, hs, hunused, hne,
      Listed.take hrest hnodup hall rfl, ?_⟩
    dsimp only [acquire]
    rw [if_pos hhead, hi, hs]
    rfl

theorem length_acquire {r' : HandleRegistry T} {p : Option T} {h : Handle}
    (hcall : r.acquire p = some (h, r')) : r.slots.length ≤ r'.slots.length := by
  cases p with
  | none => exact (congrArg (fun x => x.2.slots.length) (Option.some.inj hcall)).le
  | some p =>
    dsimp only [acquire] at hcall
    split at hcall
    · obtain ⟨s, -, hs⟩ := Option.map_eq_some_iff.mp hcall
      rw [← (Prod.mk.inj hs).2]
      exact (List.length_set).ge
    · obtain ⟨s, -, hs⟩ := Option.map_eq_some_iff.mp hcall
      rw [← (Prod.mk.inj hs).2, List.length_set, List.length_append]
      exact Nat.le_add_right _ _

theorem Runs.kept (h : Runs r events) (hslots : r.slots.length < 2 ^ 32 - 1) :
    Kept r events ∧ Listed r.slots r.freeHead := by
  induction h with
  | empty => exact ⟨kept_empty, [], .nil, List.nodup_nil, fun i s hs => by cases hs⟩
  | @acquire r r' events p h hrun hcall ih =>
    cases p with
    | none =>
      obtain ⟨rfl, rfl⟩ := Prod.mk.inj (Option.some.inj hcall)
      obtain ⟨hr, hlisted⟩ := ih hslots
      exact ⟨⟨hr.held, hr.full, hr.numbered, hr.past, hr.unreleased, hr.once⟩, hlisted⟩
    | some p =>
      have hslots' := (length_acquire hcall).trans_lt hslots
      obtain ⟨hr, hlisted⟩ := ih hslots'
      obtain ⟨slots, i, s, head, hgrown, hs, hunused, hne, hlisted', hcall'⟩ :=
        acquire_spec hlisted hslots' p
      obtain ⟨rfl, rfl⟩ := Prod.mk.inj (Option.some.inj (hcall.symm.trans hcall'))
      refine ⟨?_, hlisted'⟩
      obtain rfl | rfl := hgrown
      · exact hr.take hs hne hunused head p
      · exact (hr.grow head).take hs hne hunused head p
  | @release r events hrun h ih =>
    have hlength : (r.release h).2.slots.length = r.slots.length := by
      unfold HandleRegistry.release
      cases r.slot h with
      | none => rfl
      | some s => exact List.length_set
    rw [hlength] at hslots
    obtain ⟨hr, hlisted⟩ := ih hslots
    exact ⟨hr.release h, hlisted.release hslots h⟩

theorem Kept.isAlive (hr : Kept r events) (h : Handle) :
    r.isAlive h = (HandleRegistry.held events h).isSome := by
  rw [← hr.held h, HandleRegistry.isAlive, lookup]
  cases hs : r.slot h with
  | none => rfl
  | some s =>
    obtain ⟨-, hget, huse, -⟩ := slot_spec hs
    exact (hr.full s (List.mem_of_getElem? hget) huse).symm

theorem release_fst (r : HandleRegistry T) (h : Handle) : (r.release h).1 = r.isAlive h := by
  unfold HandleRegistry.release HandleRegistry.isAlive
  cases r.slot h <;> rfl

/-- **Handles are safe to reuse.** -/
theorem handles_safe (hrun : Runs r events) (hslots : r.slots.length < 2 ^ 32 - 1)
    (hreleases : ∀ i, releases i events < 2 ^ 32) :
    (∀ h, r.lookup h = held events h) ∧
      (∀ h, r.isAlive h = (held events h).isSome) ∧
      (∀ h, (r.release h).1 = (held events h).isSome ∧
        ∀ h' ≠ h, (r.release h).2.lookup h' = r.lookup h') ∧
      (∀ p, (r.acquire p).isSome) ∧
      (issued events).Nodup ∧
      ∃ chain, FreeList r.slots r.freeHead chain ∧ chain.Nodup ∧
        ∀ (i : BitVec 32) s, r.slots[i.toNat]? = some s → (i ∈ chain ↔ s.inUse = false) := by
  obtain ⟨hr, hlisted⟩ := hrun.kept hslots
  refine ⟨hr.held, hr.isAlive, fun h => ⟨?_, fun h' hne => ?_⟩, fun p => ?_, hr.once hreleases, ?_⟩
  · rw [release_fst, hr.isAlive]
  · rw [lookup_release, if_neg hne.symm]
  · cases p with
    | none => rfl
    | some p =>
      obtain ⟨slots, i, s, head, -, -, -, -, -, hcall⟩ := acquire_spec hlisted hslots p
      rw [hcall]
      rfl
  · obtain ⟨chain, hchain, hnodup, hall⟩ := hlisted
    refine ⟨chain, hchain, hnodup, fun i s hs => ⟨fun hi => ?_, hall i s hs⟩⟩
    obtain ⟨t, ht, hunused⟩ := hchain.unused hi
    rwa [Option.some.inj (hs.symm.trans ht)]

theorem handles_safe_reuse :
    let r : HandleRegistry ℕ := ⟨[⟨some 8, 2, 0, true⟩], 0⟩
    let events : List (Event ℕ) := [.acquire (some 8) ⟨0x200000001⟩, .release ⟨0x100000001⟩ false,
      .release ⟨0x100000001⟩ true, .acquire (some 7) ⟨0x100000001⟩]
    r.lookup ⟨0x200000001⟩ = held events ⟨0x200000001⟩ ∧
      r.lookup ⟨0x100000001⟩ = held events ⟨0x100000001⟩ := by
  intro r events
  have hfirst : Runs ⟨[⟨some 7, 1, 0, true⟩], 0⟩ [.acquire (some 7) ⟨0x100000001⟩] :=
    .acquire .empty rfl
  have hreleased := (hfirst.release ⟨0x100000001⟩).release ⟨0x100000001⟩
  have hrun : Runs r events := .acquire hreleased (by rfl)
  have hsafe := handles_safe hrun (by decide) fun i => by
    change 0 + (if (⟨0x100000001⟩ : Handle).idx = i then 1 else 0) < 2 ^ 32
    split_ifs <;> decide
  exact ⟨hsafe.1 _, hsafe.1 _⟩

end DaScript.HandleRegistry

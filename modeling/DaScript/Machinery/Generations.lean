import Mathlib.Tactic

/-!
# Machinery/Generations — ids that are used again under another generation

A **handle** is the id of a slot and a generation.  A slot that is dead has generation 0; one that
is alive has the generation of its last handle.  A handle is issued first, and settles later.

The handles of an id are numbered in the order of their issue, so while the numbers do not wrap no
handle is issued twice, and one that was buried is never alive again.
-/

namespace DaScript.Generations

/-- The id of a slot, and a generation. -/
structure Handle (w : ℕ) where
  id : ℕ
  generation : BitVec w
  deriving DecidableEq

/-- The slots: their generations, the handles to use again, those that are issued and have not
settled, and all that were ever issued, the last first. -/
@[ext] structure Slots (w : ℕ) where
  generation : ℕ → Option (BitVec w)
  free : List (Handle w)
  pending : List (Handle w)
  issued : List (Handle w)

variable {w : ℕ}

/-- The handle that uses an id again. -/
def Handle.next (e : Handle w) : Handle w := ⟨e.id, e.generation + 1⟩

/-- How many handles of an id were issued. -/
def uses (issued : List (Handle w)) (id : ℕ) : ℕ := issued.countP (·.id = id)

/-- One step. -/
inductive Step : Slots w → Slots w → Prop
  | grow (s : Slots w) (id : ℕ) (h : s.generation id = none) :
      Step s { s with generation := Function.update s.generation id (some 0) }
  | first (s : Slots w) (id : ℕ) (hdead : s.generation id = some 0) (hnew : uses s.issued id = 0) :
      Step s { s with pending := ⟨id, 1⟩ :: s.pending, issued := ⟨id, 1⟩ :: s.issued }
  | reuse (s : Slots w) (e : Handle w) (rest : List (Handle w)) (h : s.free = e :: rest) :
      Step s { s with
        free := rest, pending := e.next :: s.pending, issued := e.next :: s.issued }
  | drop (s : Slots w) (pending : List (Handle w)) (h : pending.Subperm s.pending) :
      Step s { s with pending := pending }
  | settle (s : Slots w) (e : Handle w) (rest : List (Handle w)) (h : s.pending = e :: rest) :
      Step s { s with
        generation := Function.update s.generation e.id (some e.generation), pending := rest }
  | bury (s : Slots w) (e : Handle w) (h : s.generation e.id = some e.generation)
      (hne : e.generation ≠ 0) :
      Step s { s with
        generation := Function.update s.generation e.id (some 0), free := e :: s.free }

/-! ## Handles are numbered -/

/-- Every handle has the number of its issue. -/
def Numbered : List (Handle w) → Prop
  | [] => True
  | e :: issued => e.generation = BitVec.ofNat w (uses issued e.id + 1) ∧ Numbered issued

@[simp] theorem uses_cons_self (e : Handle w) (issued : List (Handle w)) :
    uses (e :: issued) e.id = uses issued e.id + 1 := by
  simp [uses]

theorem uses_cons_ne {e : Handle w} {id : ℕ} (h : e.id ≠ id) (issued : List (Handle w)) :
    uses (e :: issued) id = uses issued id := by
  simp [uses, h]

theorem uses_cons_le (e : Handle w) (issued : List (Handle w)) (id : ℕ) :
    uses issued id ≤ uses (e :: issued) id := by
  unfold uses
  rw [List.countP_cons]
  omega

theorem Numbered.number {issued : List (Handle w)} (h : Numbered issued) {e : Handle w}
    (he : e ∈ issued) :
    ∃ u, 0 < u ∧ u ≤ uses issued e.id ∧ e.generation = BitVec.ofNat w u := by
  induction issued with
  | nil => cases he
  | cons a issued ih =>
    obtain rfl | he := List.mem_cons.mp he
    · exact ⟨_, Nat.succ_pos _, (uses_cons_self e issued).ge, h.1⟩
    · obtain ⟨u, hpos, hle, hu⟩ := ih h.2 he
      exact ⟨u, hpos, hle.trans (uses_cons_le a issued e.id), hu⟩

theorem number_inj {u v : ℕ} (hu : u < 2 ^ w) (hv : v < 2 ^ w)
    (h : BitVec.ofNat w u = BitVec.ofNat w v) : u = v := by
  have h := congrArg BitVec.toNat h
  rwa [BitVec.toNat_ofNat, BitVec.toNat_ofNat, Nat.mod_eq_of_lt hu, Nat.mod_eq_of_lt hv] at h

theorem Numbered.nodup {issued : List (Handle w)} (h : Numbered issued)
    (hfew : ∀ id, uses issued id < 2 ^ w) : issued.Nodup := by
  induction issued with
  | nil => exact List.nodup_nil
  | cons e issued ih =>
    refine List.nodup_cons.mpr ⟨fun he => ?_, ih h.2 fun id => ?_⟩
    · obtain ⟨u, -, hle, hu⟩ := h.2.number he
      have hself := hfew e.id
      rw [uses_cons_self] at hself
      have := number_inj hself (by omega) (h.1.symm.trans hu)
      omega
    · exact (uses_cons_le e issued id).trans_lt (hfew id)

/-! ## What holds of every slot -/

/-- Generations are the last numbers, and what waits is dead and waits once. -/
structure Slots.Sound (s : Slots w) : Prop where
  numbered : Numbered s.issued
  known : ∀ e ∈ s.issued, s.generation e.id ≠ none
  current : ∀ id g, s.generation id = some g → g = 0 ∨ g = BitVec.ofNat w (uses s.issued id)
  waiting : ∀ e ∈ s.free ++ s.pending, e.generation = BitVec.ofNat w (uses s.issued e.id) ∧
    0 < uses s.issued e.id ∧ s.generation e.id = some 0
  distinct : ((s.free ++ s.pending).map Handle.id).Nodup

theorem Slots.Sound.not_waiting {s : Slots w} (hs : s.Sound) {id : ℕ} {g : BitVec w}
    (hg : s.generation id = some g) (hne : g ≠ 0) : id ∉ (s.free ++ s.pending).map Handle.id := by
  intro hid
  obtain ⟨e, he, rfl⟩ := List.mem_map.mp hid
  exact hne (Option.some.inj (hg.symm.trans (hs.waiting e he).2.2))

theorem Slots.Sound.unused {s : Slots w} (hs : s.Sound) {id : ℕ} (h : s.generation id = none) :
    uses s.issued id = 0 := by
  refine List.countP_eq_zero.mpr fun e he hid => hs.known e he ?_
  rw [of_decide_eq_true hid, h]

theorem Slots.Sound.known_update {s : Slots w} (hs : s.Sound) (id : ℕ) (g : BitVec w) :
    ∀ e ∈ s.issued, Function.update s.generation id (some g) e.id ≠ none := by
  intro e he
  by_cases hid : e.id = id
  · rw [hid, Function.update_self]
    exact Option.some_ne_none g
  · rw [Function.update_of_ne hid]
    exact hs.known e he

theorem Slots.Sound.current_update {s : Slots w} (hs : s.Sound) {id : ℕ} {g : BitVec w}
    (h : g = 0 ∨ g = BitVec.ofNat w (uses s.issued id)) :
    ∀ a b, Function.update s.generation id (some g) a = some b →
      b = 0 ∨ b = BitVec.ofNat w (uses s.issued a) := by
  intro a b hb
  by_cases ha : a = id
  · subst ha
    rw [Function.update_self] at hb
    exact Option.some.inj hb ▸ h
  · rw [Function.update_of_ne ha] at hb
    exact hs.current a b hb

theorem Slots.Sound.issue {s : Slots w} (hs : s.Sound) {e : Handle w} {free : List (Handle w)}
    (hfree : free.Sublist s.free) (hnot : e.id ∉ (free ++ s.pending).map Handle.id)
    (hdead : s.generation e.id = some 0)
    (hnumber : e.generation = BitVec.ofNat w (uses s.issued e.id + 1)) :
    Slots.Sound { s with free := free, pending := e :: s.pending, issued := e :: s.issued } where
  numbered := ⟨hnumber, hs.numbered⟩
  known := by
    intro a ha
    obtain rfl | ha := List.mem_cons.mp ha
    · rw [hdead]
      exact Option.some_ne_none 0
    · exact hs.known a ha
  current := by
    intro id g hg
    by_cases hid : e.id = id
    · subst hid
      exact Or.inl (Option.some.inj (hg.symm.trans hdead))
    · rw [uses_cons_ne hid]
      exact hs.current id g hg
  waiting := by
    intro a ha
    obtain rfl | ha := (List.perm_middle.mem_iff.trans List.mem_cons).mp ha
    · rw [uses_cons_self]
      exact ⟨hnumber, Nat.succ_pos _, hdead⟩
    · rw [uses_cons_ne fun hid => hnot (hid ▸ List.mem_map_of_mem ha)]
      exact hs.waiting a ((hfree.append_right _).subset ha)
  distinct := by
    refine ((List.perm_middle.map _).nodup_iff).mpr (List.nodup_cons.mpr ⟨hnot, ?_⟩)
    exact hs.distinct.sublist ((hfree.append_right _).map _)

theorem Step.sound {s s' : Slots w} (h : Step s s') (hs : s.Sound) : s'.Sound := by
  cases h with
  | grow id h =>
    refine ⟨hs.numbered, hs.known_update id 0, hs.current_update (Or.inl rfl), fun e he => ?_,
      hs.distinct⟩
    obtain ⟨hnumber, hpos, hdead⟩ := hs.waiting e he
    refine ⟨hnumber, hpos, (Function.update_of_ne (fun hid => ?_) _ _).trans hdead⟩
    rw [hid, h] at hdead
    cases hdead
  | first id hdead hnew =>
    refine hs.issue (List.Sublist.refl _) (fun hid => ?_) hdead ?_
    · obtain ⟨a, ha, hid⟩ := List.mem_map.mp hid
      have hpos := (hs.waiting a ha).2.1
      rw [hid, hnew] at hpos
      exact absurd hpos (Nat.lt_irrefl 0)
    · rw [hnew]
      rfl
  | reuse e rest h =>
    have hdistinct := hs.distinct
    rw [h, List.cons_append, List.map_cons] at hdistinct
    obtain ⟨hnumber, -, hdead⟩ := hs.waiting e (by rw [h]; exact List.mem_cons_self)
    refine hs.issue (h ▸ List.sublist_cons_self e rest) (List.nodup_cons.mp hdistinct).1 hdead ?_
    calc e.generation + 1 = BitVec.ofNat w (uses s.issued e.id) + 1 := by rw [hnumber]
      _ = BitVec.ofNat w (uses s.issued e.id + 1) := (BitVec.ofNat_add _ _).symm
  | drop pending h =>
    have hsub : (s.free ++ pending).Subperm (s.free ++ s.pending) :=
      (List.subperm_append_left s.free).mpr h
    refine ⟨hs.numbered, hs.known, hs.current, fun e he => hs.waiting e (hsub.subset he), ?_⟩
    obtain ⟨l, hperm, hl⟩ := hsub
    exact (hperm.map _).nodup_iff.mp (hs.distinct.sublist (hl.map _))
  | settle e rest h =>
    have hall : (s.free ++ s.pending).Perm (e :: (s.free ++ rest)) := by
      rw [h]
      exact List.perm_middle
    obtain ⟨hnot, hdistinct⟩ := List.nodup_cons.mp ((hall.map _).nodup_iff.mp hs.distinct)
    obtain ⟨hnumber, -, hdead⟩ := hs.waiting e (hall.mem_iff.mpr List.mem_cons_self)
    refine ⟨hs.numbered, hs.known_update e.id _, hs.current_update (Or.inr hnumber),
      fun a ha => ?_, hdistinct⟩
    obtain ⟨hn, hpos, hg⟩ := hs.waiting a (hall.mem_iff.mpr (List.mem_cons_of_mem e ha))
    have hid : a.id ≠ e.id := fun hid => hnot (hid ▸ List.mem_map_of_mem ha)
    exact ⟨hn, hpos, (Function.update_of_ne hid _ _).trans hg⟩
  | bury e h hne =>
    have hnot := hs.not_waiting h hne
    have hnumber := (hs.current e.id e.generation h).resolve_left hne
    have hpos : 0 < uses s.issued e.id := by
      refine Nat.pos_of_ne_zero fun hzero => hne ?_
      rw [hnumber, hzero]
      rfl
    refine ⟨hs.numbered, hs.known_update e.id 0, hs.current_update (Or.inl rfl),
      fun a ha => ?_, List.nodup_cons.mpr ⟨hnot, hs.distinct⟩⟩
    obtain rfl | ha := List.mem_cons.mp ha
    · exact ⟨hnumber, hpos, Function.update_self _ _ _⟩
    · obtain ⟨hn, hpos, hg⟩ := hs.waiting a ha
      have hid : a.id ≠ e.id := fun hid => hnot (hid ▸ List.mem_map_of_mem ha)
      exact ⟨hn, hpos, (Function.update_of_ne hid _ _).trans hg⟩

/-! ## Alive, and buried -/

/-- The slot of a handle is alive, in the handle's generation. -/
def Slots.Alive (s : Slots w) (e : Handle w) : Prop :=
  e.generation ≠ 0 ∧ s.generation e.id = some e.generation

/-- A handle of its id has followed, or the slot is dead and nothing is to settle in it. -/
def Slots.Buried (s : Slots w) (e : Handle w) : Prop :=
  ∃ u, 0 < u ∧ u ≤ uses s.issued e.id ∧ e.generation = BitVec.ofNat w u ∧
    (u < uses s.issued e.id ∨ (s.generation e.id = some 0 ∧ e.id ∉ s.pending.map Handle.id))

theorem Slots.Buried.not_alive {s : Slots w} {e : Handle w} (h : s.Buried e) (hs : s.Sound)
    (hfew : ∀ id, uses s.issued id < 2 ^ w) : ¬s.Alive e := by
  rintro ⟨hne, halive⟩
  obtain ⟨u, -, hle, hu, hlater⟩ := h
  obtain hlater | ⟨hdead, -⟩ := hlater
  · have hnow := (hs.current _ _ halive).resolve_left hne
    have := number_inj (hle.trans_lt (hfew e.id)) (hfew e.id) (hu.symm.trans hnow)
    omega
  · exact hne (Option.some.inj (halive.symm.trans hdead))

theorem Slots.Buried.issue {s : Slots w} {e a : Handle w} (h : s.Buried e)
    (free : List (Handle w)) :
    Slots.Buried { s with free := free, pending := a :: s.pending, issued := a :: s.issued } e := by
  obtain ⟨u, hpos, hle, hu, hlater⟩ := h
  refine ⟨u, hpos, hle.trans (uses_cons_le a s.issued e.id), hu, ?_⟩
  by_cases hid : a.id = e.id
  · refine Or.inl ?_
    rw [← hid] at hle ⊢
    rw [uses_cons_self]
    omega
  · rw [uses_cons_ne hid]
    refine hlater.imp_right fun ⟨hdead, hnot⟩ => ⟨hdead, ?_⟩
    rw [List.map_cons, List.mem_cons, not_or]
    exact ⟨fun heq => hid heq.symm, hnot⟩

theorem Step.buried {s s' : Slots w} (h : Step s s') {e : Handle w} (he : s.Buried e) :
    s'.Buried e := by
  cases h with
  | grow id h =>
    obtain ⟨u, hpos, hle, hu, hlater⟩ := he
    refine ⟨u, hpos, hle, hu, hlater.imp_right fun ⟨hdead, hnot⟩ => ⟨?_, hnot⟩⟩
    refine (Function.update_of_ne (fun hid => ?_) _ _).trans hdead
    rw [hid, h] at hdead
    cases hdead
  | first id hdead hnew => exact he.issue s.free
  | reuse a rest h => exact he.issue rest
  | drop pending h =>
    obtain ⟨u, hpos, hle, hu, hlater⟩ := he
    refine ⟨u, hpos, hle, hu, hlater.imp_right fun ⟨hdead, hnot⟩ => ⟨hdead, fun hid => hnot ?_⟩⟩
    obtain ⟨a, ha, hid⟩ := List.mem_map.mp hid
    exact List.mem_map.mpr ⟨a, h.subset ha, hid⟩
  | settle a rest h =>
    obtain ⟨u, hpos, hle, hu, hlater⟩ := he
    refine ⟨u, hpos, hle, hu, hlater.imp_right fun ⟨hdead, hnot⟩ => ?_⟩
    rw [h, List.map_cons, List.mem_cons, not_or] at hnot
    exact ⟨(Function.update_of_ne hnot.1 _ _).trans hdead, hnot.2⟩
  | bury a h hne =>
    obtain ⟨u, hpos, hle, hu, hlater⟩ := he
    refine ⟨u, hpos, hle, hu, hlater.imp_right fun ⟨hdead, hnot⟩ => ⟨?_, hnot⟩⟩
    by_cases hid : e.id = a.id
    · rw [hid]
      exact Function.update_self _ _ _
    · exact (Function.update_of_ne hid _ _).trans hdead

theorem Slots.Alive.buried {s : Slots w} {e : Handle w} (he : s.Alive e) (hs : s.Sound) :
    Slots.Buried { s with
      generation := Function.update s.generation e.id (some 0), free := e :: s.free } e := by
  have hnumber := (hs.current _ _ he.2).resolve_left he.1
  refine ⟨uses s.issued e.id, Nat.pos_of_ne_zero fun hzero => he.1 ?_, le_rfl, hnumber,
    Or.inr ⟨Function.update_self _ _ _, fun hid => hs.not_waiting he.2 he.1 ?_⟩⟩
  · rw [hnumber, hzero]
    rfl
  · rw [List.map_append]
    exact List.mem_append_right _ hid

theorem Step.alive {s s' : Slots w} (h : Step s s') (hs : s.Sound) {e : Handle w}
    (he : s.Alive e) : s'.Alive e ∨ s'.Buried e := by
  cases h with
  | grow id h =>
    refine Or.inl ⟨he.1, (Function.update_of_ne (fun hid => ?_) _ _).trans he.2⟩
    have halive := he.2
    rw [hid, h] at halive
    cases halive
  | first id hdead hnew => exact Or.inl he
  | reuse a rest h => exact Or.inl he
  | drop pending h => exact Or.inl he
  | settle a rest h =>
    refine Or.inl ⟨he.1, (Function.update_of_ne (fun hid => ?_) _ _).trans he.2⟩
    refine hs.not_waiting he.2 he.1 ?_
    rw [hid, h, List.map_append, List.map_cons]
    exact List.mem_append_right _ List.mem_cons_self
  | bury a h hne =>
    by_cases hid : e.id = a.id
    · obtain ⟨id, generation⟩ := a
      obtain rfl : id = e.id := hid.symm
      obtain rfl : generation = e.generation := Option.some.inj (h.symm.trans he.2)
      exact Or.inr (he.buried hs)
    · exact Or.inl ⟨he.1, (Function.update_of_ne hid _ _).trans he.2⟩

/-! ## What every step keeps -/

/-- A predicate that has `Slots.Sound` in it, and that every step keeps. -/
structure Closed (P : Slots w → Prop) : Prop where
  sound : ∀ {s}, P s → s.Sound
  step : ∀ {s s'}, P s → Step s s' → P s'

theorem closed_sound : Closed (Slots.Sound (w := w)) := ⟨id, fun hs h => h.sound hs⟩

theorem closed_buried (e : Handle w) : Closed fun s : Slots w => s.Sound ∧ s.Buried e :=
  ⟨And.left, fun hs h => ⟨h.sound hs.1, h.buried hs.2⟩⟩

theorem closed_alive (e : Handle w) :
    Closed fun s : Slots w => s.Sound ∧ (s.Alive e ∨ s.Buried e) :=
  ⟨And.left, fun hs h => ⟨h.sound hs.1, hs.2.elim (h.alive hs.1) fun hb => Or.inr (h.buried hb)⟩⟩

end DaScript.Generations

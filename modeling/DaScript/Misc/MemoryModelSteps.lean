import DaScript.Misc.DeckSteps

/-!
# Misc/MemoryModelSteps — what one call of the allocator does

A model in order (`WellFormed`) holds the data of its decks and its big blocks from the system; what
it has handed out are the taken slots and the big blocks (`blocks`).

`allocate` adds one block, `free` takes the one it is given off, `reset` drops them all.  A block
asked for with some size is found again by that size alone (`extent`).
-/

open Function

namespace DaScript

open Bitmap Block

/-! ## Chains -/

/-- A chain of decks of slots of one size. -/
def Chain (size : ℕ) (l : List Deck) : Prop := ∀ d ∈ l, d.Ok ∧ d.size = size

namespace Shoe

variable {l : List Deck} {size : ℕ}

theorem allocateIn_spec (h : Chain size l) :
    allocateIn l = .ok (none, l) ∨
      ∃ b l', allocateIn l = .ok (some b.ptr, l') ∧ b.size = size ∧ Chain size l' ∧
        l'.map Deck.area = l.map Deck.area ∧
        (l'.flatMap Deck.slots).Perm (b :: l.flatMap Deck.slots) := by
  induction l with
  | nil => exact Or.inl rfl
  | cons d l ih =>
    obtain ⟨hd, hsize⟩ := h d (List.mem_cons_self ..)
    have hl : Chain size l := fun x hx => h x (List.mem_cons_of_mem _ hx)
    rcases Deck.allocate_spec hd with ⟨-, hfull⟩ | ⟨k, d', hk, hd', hok, halike, hperm⟩
    · rcases ih hl with hnone | ⟨b, l', hl', hb, hchain, harea, hperm⟩
      · left
        rw [allocateIn, hfull]
        change (allocateIn l >>= _) = _
        rw [hnone]
        rfl
      · refine Or.inr ⟨b, d :: l', ?_, hb, ?_, ?_, ?_⟩
        · rw [allocateIn, hfull]
          change (allocateIn l >>= _) = _
          rw [hl']
          rfl
        · exact List.forall_mem_cons.mpr ⟨⟨hd, hsize⟩, hchain⟩
        · rw [List.map_cons, List.map_cons, harea]
        · rw [List.flatMap_cons, List.flatMap_cons]
          exact (hperm.append_left _).trans List.perm_middle
    · refine Or.inr ⟨d.slot k, d' :: l, ?_, hsize, ?_, ?_, ?_⟩
      · rw [allocateIn, hd']
        rfl
      · exact List.forall_mem_cons.mpr ⟨⟨hok, halike.size_eq.trans hsize⟩, hl⟩
      · rw [List.map_cons, List.map_cons, halike.area_eq]
      · rw [List.flatMap_cons, List.flatMap_cons]
        exact hperm.append_right _

theorem freeIn_spec (h : Chain size l) (hapart : (l.map Deck.area).Pairwise Apart) {b : Block}
    (hb : b ∈ l.flatMap Deck.slots) :
    ∃ l', freeIn b.ptr l = .ok l' ∧ Chain size l' ∧ l'.map Deck.area = l.map Deck.area ∧
      (l.flatMap Deck.slots).Perm (b :: l'.flatMap Deck.slots) := by
  induction l with
  | nil => simp at hb
  | cons d l ih =>
    obtain ⟨hd, hsize⟩ := h d (List.mem_cons_self ..)
    have hl : Chain size l := fun x hx => h x (List.mem_cons_of_mem _ hx)
    rw [List.map_cons, List.pairwise_cons] at hapart
    rw [List.flatMap_cons, List.mem_append] at hb
    rcases hb with hb | hb
    · obtain ⟨d', hd', hok, halike, hperm⟩ := Deck.free_spec hd hb
      refine ⟨d' :: l, ?_, ?_, ?_, ?_⟩
      · rw [freeIn, if_pos (hd.isOwnPtr_of_mem hb), hd']
        rfl
      · exact List.forall_mem_cons.mpr ⟨⟨hok, halike.size_eq.trans hsize⟩, hl⟩
      · rw [List.map_cons, List.map_cons, halike.area_eq]
      · rw [List.flatMap_cons, List.flatMap_cons]
        exact hperm.append_right _
    · -- the block lies in a later deck, so this one does not own it
      obtain ⟨e, he, hbe⟩ := List.mem_flatMap.mp hb
      have hown := Deck.isOwnPtr_apart (hapart.1 _ (List.mem_map_of_mem he)).symm
        ((hl e he).1.isOwnPtr_of_mem hbe)
      obtain ⟨l', hl', hchain, harea, hperm⟩ := ih hl hapart.2 hb
      refine ⟨d :: l', ?_, ?_, ?_, ?_⟩
      · rw [freeIn, hown, if_neg Bool.false_ne_true, hl']
        rfl
      · exact List.forall_mem_cons.mpr ⟨⟨hd, hsize⟩, hchain⟩
      · rw [List.map_cons, List.map_cons, harea]
      · rw [List.flatMap_cons, List.flatMap_cons]
        exact (hperm.append_left _).trans List.perm_middle

theorem decks_split (s : Shoe) {si : ℕ} (hsi : si < maxShoeChunks) :
    ∃ P Q, s.decks = P ++ s.chunks si ++ Q ∧
      ∀ l, decks { s with chunks := update s.chunks si l } = P ++ l ++ Q := by
  obtain ⟨A, B, hAB⟩ := List.append_of_mem (List.mem_range.mpr hsi)
  have hnodup : (A ++ si :: B).Nodup := hAB ▸ List.nodup_range
  rw [List.nodup_append] at hnodup
  obtain ⟨-, hB, hA⟩ := hnodup
  have hrest : ∀ {C : List ℕ}, si ∉ C → ∀ l,
      C.flatMap (update s.chunks si l) = C.flatMap s.chunks := fun hC l =>
    List.flatMap_congr fun x hx => update_of_ne (fun hxs => hC (by rw [← hxs]; exact hx)) _ _
  have hsA : si ∉ A := fun hs => hA si hs si (List.mem_cons_self ..) rfl
  have hsB : si ∉ B := (List.nodup_cons.mp hB).1
  refine ⟨A.flatMap s.chunks, B.flatMap s.chunks, ?_, fun l => ?_⟩
  · rw [decks, hAB, List.flatMap_append, List.flatMap_cons, List.append_assoc]
  · rw [decks, hAB, List.flatMap_append, List.flatMap_cons]
    dsimp only
    rw [update_self, hrest hsA, hrest hsB, List.append_assoc]

theorem decks_mapDecks (f : Deck → Deck) (s : Shoe) : (s.mapDecks f).decks = s.decks.map f := by
  rw [decks, decks, List.map_flatMap]
  exact List.flatMap_congr fun si hsi => if_pos (List.mem_range.mp hsi)

theorem mem_decks {s : Shoe} {d : Deck} : d ∈ s.decks ↔ ∃ si < maxShoeChunks, d ∈ s.chunks si := by
  simp [decks]

end Shoe

namespace MemoryModel

/-- What the model holds from the system. -/
def held (m : MemoryModel) : List Block := m.shoe.decks.map Deck.area ++ m.bigStuff

/-- What the model has handed out. -/
def blocks (m : MemoryModel) : List Block := m.shoe.decks.flatMap Deck.slots ++ m.bigStuff

/-- The block a caller holds, rounded to what the model gave away. -/
def extent (m : MemoryModel) (b : Block) : Block :=
  let size := alignUp m.alignMask b.size
  ⟨b.ptr, if size ≤ m.maxShoeAllocation then alignUp 15 size else size⟩

/-- The model with another chain of one size class. -/
def setChunks (m : MemoryModel) (si : ℕ) (l : List Deck) : MemoryModel :=
  { m with shoe := { m.shoe with chunks := update m.shoe.chunks si l } }

/-- **A model in order.** -/
structure WellFormed (m : MemoryModel) : Prop where
  mask : m.alignMask = 15 ∨ m.alignMask = 3
  shoe_max : m.maxShoeAllocation = maxShoe ∨ m.maxShoeAllocation = 0
  chain : ∀ si < maxShoeChunks, Chain ((si + 1) * 16) (m.shoe.chunks si)
  deck_size : ∀ d ∈ m.shoe.decks, d.size ≤ m.maxShoeAllocation
  big_size : ∀ b ∈ m.bigStuff, m.maxShoeAllocation < b.size
  held_apart : m.held.Pairwise Apart
  held_space : ∀ b ∈ m.held, b.ptr ≠ 0 ∧ b.ptr + b.size ≤ addressSpace

variable {m : MemoryModel}

/-! ## Changing one chain -/

section SetChunks

variable {si : ℕ} (hsi : si < maxShoeChunks)
include hsi

theorem held_setChunks {l : List Deck}
    (harea : l.map Deck.area = (m.shoe.chunks si).map Deck.area) :
    (m.setChunks si l).held = m.held := by
  obtain ⟨P, Q, hPQ, hset⟩ := m.shoe.decks_split hsi
  rw [held, setChunks, hset, held, hPQ]
  simp only [List.map_append, harea]

theorem held_pushDeck (d : Deck) :
    (m.setChunks si (d :: m.shoe.chunks si)).held.Perm (d.area :: m.held) := by
  obtain ⟨P, Q, hPQ, hset⟩ := m.shoe.decks_split hsi
  rw [held, setChunks, hset, held, hPQ]
  simp only [List.map_append, List.append_assoc, List.map_cons, List.cons_append]
  exact List.perm_middle

theorem blocks_perm {l l' : List Deck} {b : Block}
    (hperm : (l'.flatMap Deck.slots).Perm (b :: l.flatMap Deck.slots)) :
    (m.setChunks si l').blocks.Perm (b :: (m.setChunks si l).blocks) := by
  obtain ⟨P, Q, -, hset⟩ := m.shoe.decks_split hsi
  simp only [blocks, setChunks, hset, List.flatMap_append, List.append_assoc]
  refine ((hperm.append_right _).append_left _).trans ?_
  rw [List.cons_append]
  exact List.perm_middle

omit hsi in
theorem setChunks_self (m : MemoryModel) (si : ℕ) : m.setChunks si (m.shoe.chunks si) = m := by
  rw [setChunks, update_eq_self]

end SetChunks

namespace WellFormed

variable (h : m.WellFormed)
include h

theorem deck_ok {d : Deck} (hd : d ∈ m.shoe.decks) : d.Ok := by
  obtain ⟨si, hsi, hd⟩ := Shoe.mem_decks.mp hd
  exact (h.chain si hsi d hd).1

theorem blocks_apart : m.blocks.Pairwise Apart := by
  obtain ⟨hdecks, hbig, hcross⟩ := List.pairwise_append.mp h.held_apart
  refine List.pairwise_append.mpr ⟨?_, hbig, ?_⟩
  · exact pairwise_flatMap hdecks (fun d hd x hx => (h.deck_ok hd).within hx)
      fun d _ => Deck.slots_apart d
  · intro x hx b hb
    obtain ⟨d, hd, hxd⟩ := List.mem_flatMap.mp hx
    exact (hcross _ (List.mem_map_of_mem hd) b hb).mono ((h.deck_ok hd).within hxd) (Within.refl b)

theorem blocks_space {b : Block} (hb : b ∈ m.blocks) :
    b.ptr ≠ 0 ∧ 0 < b.size ∧ b.ptr + b.size ≤ addressSpace := by
  rcases List.mem_append.mp hb with hb | hb
  · obtain ⟨d, hd, hbd⟩ := List.mem_flatMap.mp hb
    obtain ⟨h1, h2⟩ := (h.deck_ok hd).within hbd
    obtain ⟨h3, h4⟩ := h.held_space _ (List.mem_append_left _ (List.mem_map_of_mem hd))
    obtain ⟨k, -, -, rfl⟩ := Deck.mem_slots.mp hbd
    exact ⟨by omega, (h.deck_ok hd).size_pos, by omega⟩
  · obtain ⟨h1, h2⟩ := h.held_space b (List.mem_append_right _ hb)
    exact ⟨h1, by have := h.big_size b hb; omega, h2⟩

theorem blocks_sum_le : (m.blocks.map Block.size).sum ≤ addressSpace :=
  sum_size_le h.blocks_apart fun _ hb => (h.blocks_space hb).2.2

theorem small_of_mem {b : Block} (hb : b ∈ m.blocks) (hsmall : b.size ≤ m.maxShoeAllocation) :
    ∃ si < maxShoeChunks, b.size = (si + 1) * 16 ∧ b ∈ (m.shoe.chunks si).flatMap Deck.slots := by
  rcases List.mem_append.mp hb with hb | hb
  · obtain ⟨d, hd, hbd⟩ := List.mem_flatMap.mp hb
    obtain ⟨si, hsi, hd⟩ := Shoe.mem_decks.mp hd
    obtain ⟨k, -, -, rfl⟩ := Deck.mem_slots.mp hbd
    exact ⟨si, hsi, (h.chain si hsi d hd).2, List.mem_flatMap.mpr ⟨d, hd, hbd⟩⟩
  · have := h.big_size b hb
    omega

theorem big_of_mem {b : Block} (hb : b ∈ m.blocks) (hbig : m.maxShoeAllocation < b.size) :
    b ∈ m.bigStuff := by
  rcases List.mem_append.mp hb with hb | hb
  · obtain ⟨d, hd, hbd⟩ := List.mem_flatMap.mp hb
    obtain ⟨k, -, -, rfl⟩ := Deck.mem_slots.mp hbd
    exact absurd (h.deck_size d hd) (Nat.not_le.mpr hbig)
  · exact hb

theorem setChunks {si : ℕ} (hsi : si < maxShoeChunks) {l : List Deck}
    (hl : Chain ((si + 1) * 16) l)
    (harea : l.map Deck.area = (m.shoe.chunks si).map Deck.area) :
    WellFormed (m.setChunks si l) := by
  obtain ⟨P, Q, hPQ, hset⟩ := m.shoe.decks_split hsi
  refine ⟨h.mask, h.shoe_max, ?_, ?_, h.big_size, ?_, ?_⟩
  · intro sj hsj
    change Chain _ (update m.shoe.chunks si l sj)
    by_cases hij : sj = si
    · subst hij
      rw [update_self]
      exact hl
    · rw [update_of_ne hij]
      exact h.chain sj hsj
  · intro d hd
    have hd : d ∈ P ++ l ++ Q := (hset l) ▸ hd
    rw [List.mem_append, List.mem_append] at hd
    rcases hd with (hd | hd) | hd
    · exact h.deck_size d (by rw [hPQ]; simp [hd])
    · -- the chain was not empty before
      have hd' : d.area ∈ (m.shoe.chunks si).map Deck.area := harea ▸ List.mem_map_of_mem hd
      obtain ⟨e, he, -⟩ := List.mem_map.mp hd'
      rw [(hl d hd).2, ← (h.chain si hsi e he).2]
      exact h.deck_size e (by rw [hPQ]; simp [he])
    · exact h.deck_size d (by rw [hPQ]; simp [hd])
  · rw [held_setChunks hsi harea]
    exact h.held_apart
  · rw [held_setChunks hsi harea]
    exact h.held_space

theorem pushDeck {si : ℕ} (hsi : si < maxShoeChunks) {d : Deck} (hok : d.Ok)
    (hsize : d.size = (si + 1) * 16) (hmax : d.size ≤ m.maxShoeAllocation)
    (hspace : d.area.ptr ≠ 0 ∧ d.area.ptr + d.area.size ≤ addressSpace)
    (hapart : ∀ b ∈ m.held, Apart d.area b) :
    WellFormed (m.setChunks si (d :: m.shoe.chunks si)) := by
  obtain ⟨P, Q, hPQ, hset⟩ := m.shoe.decks_split hsi
  have hheld := held_pushDeck (m := m) hsi d
  refine ⟨h.mask, h.shoe_max, ?_, ?_, h.big_size, ?_, ?_⟩
  · intro sj hsj
    change Chain _ (update m.shoe.chunks si _ sj)
    by_cases hij : sj = si
    · subst hij
      rw [update_self]
      exact List.forall_mem_cons.mpr ⟨⟨hok, hsize⟩, h.chain sj hsj⟩
    · rw [update_of_ne hij]
      exact h.chain sj hsj
  · intro e he
    have he : e ∈ P ++ (d :: m.shoe.chunks si) ++ Q := (hset _) ▸ he
    rw [List.append_assoc, List.mem_append, List.cons_append, List.mem_cons] at he
    rcases he with he | he | he
    · exact h.deck_size e (by rw [hPQ]; simp [he])
    · exact he ▸ hmax
    · exact h.deck_size e (by rw [hPQ, List.append_assoc]; exact List.mem_append_right _ he)
  · exact (hheld.pairwise_iff Apart.symm).mpr (List.pairwise_cons.mpr ⟨hapart, h.held_apart⟩)
  · intro b hb
    rcases List.mem_cons.mp (hheld.mem_iff.mp hb) with rfl | hb
    · exact hspace
    · exact h.held_space b hb

theorem pushBig {b : Block} (hbig : m.maxShoeAllocation < b.size)
    (hspace : b.ptr ≠ 0 ∧ b.ptr + b.size ≤ addressSpace) (hapart : ∀ c ∈ m.held, Apart b c) :
    WellFormed { m with bigStuff := b :: m.bigStuff } := by
  have hheld : (held { m with bigStuff := b :: m.bigStuff }).Perm (b :: m.held) := List.perm_middle
  refine ⟨h.mask, h.shoe_max, h.chain, h.deck_size, ?_, ?_, ?_⟩
  · exact List.forall_mem_cons.mpr ⟨hbig, h.big_size⟩
  · exact (hheld.pairwise_iff Apart.symm).mpr (List.pairwise_cons.mpr ⟨hapart, h.held_apart⟩)
  · intro c hc
    rcases List.mem_cons.mp (hheld.mem_iff.mp hc) with rfl | hc
    · exact hspace
    · exact h.held_space c hc

theorem dropBig {l : List Block} (hl : l.Sublist m.bigStuff) :
    WellFormed { m with bigStuff := l } := by
  have hheld : (held { m with bigStuff := l }).Sublist m.held := hl.append_left _
  exact ⟨h.mask, h.shoe_max, h.chain, h.deck_size, fun b hb => h.big_size b (hl.subset hb),
    h.held_apart.sublist hheld, fun b hb => h.held_space b (hheld.subset hb)⟩

theorem congr {m' : MemoryModel} (hmask : m'.alignMask = m.alignMask)
    (hmax : m'.maxShoeAllocation = m.maxShoeAllocation) (hchunks : m'.shoe.chunks = m.shoe.chunks)
    (hbig : m'.bigStuff = m.bigStuff) : m'.WellFormed := by
  have hdecks : m'.shoe.decks = m.shoe.decks := by rw [Shoe.decks, Shoe.decks, hchunks]
  have hheld : m'.held = m.held := by rw [held, held, hdecks, hbig]
  exact ⟨hmask ▸ h.mask, hmax ▸ h.shoe_max, hchunks ▸ h.chain, hmax ▸ hdecks ▸ h.deck_size,
    hmax ▸ hbig ▸ h.big_size, hheld ▸ h.held_apart, hheld ▸ h.held_space⟩

end WellFormed

end MemoryModel

end DaScript

import DaScript.Simulate.HeapMark

/-!
# Simulate/HeapCollect — the sweep, and whole collections

A sweep leaves exactly the marked blocks where they were, and counts them anew (`sweep_spec`).  With
the marks before it, that is a collection: the callers hold what was marked (`collect_spec`), by
the heap's mark and by the string heap's alike.
-/

open Function

namespace DaScript

open Bitmap Block

namespace MemoryModel

variable {m₀ m m' : MemoryModel} {M : List Block} {gc : ℕ → ℕ → BitVec 32}

/-! ## The sweep -/

theorem foldl_add_mod {α : Type*} (f : α → ℕ) (n : ℕ) (l : List α) (t : ℕ) (ht : t < n) :
    l.foldl (fun t a => (t + f a) % n) t = (t + (l.map f).sum) % n := by
  induction l generalizing t with
  | nil => simp [Nat.mod_eq_of_lt ht]
  | cons a l ih =>
    rw [List.foldl_cons, ih _ (Nat.mod_lt _ (by omega)), List.map_cons, List.sum_cons,
      Nat.mod_add_mod, Nat.add_assoc]

theorem keepMarked_markBig {l : List Block} (h : ∀ b ∈ l, b.size < pageGcMask) :
    keepMarked (l.map (markBig M)) = l.filter (· ∈ M) := by
  induction l with
  | nil => rfl
  | cons b l ih =>
    obtain ⟨hb, hl⟩ := List.forall_mem_cons.mp h
    have ih := ih hl
    rw [keepMarked] at ih ⊢
    by_cases hM : b ∈ M
    · have hmark : markBig M b = ⟨b.ptr, b.size ||| pageGcMask⟩ := if_pos hM
      rw [List.map_cons, hmark, List.filter_cons_of_pos (by simpa using marked_and hb),
        List.map_cons, ih, List.filter_cons_of_pos (by simpa using hM)]
      simp only [marked_clear hb]
    · have hmark : markBig M b = b := if_neg hM
      rw [List.map_cons, hmark, List.filter_cons_of_neg (by simpa using unmarked_and hb), ih,
        List.filter_cons_of_neg (by simpa using hM)]

theorem slots_collected {d : Deck} (hbits : ∀ k < d.total,
    bit (gc d.data) k = true ↔ bit d.bits k = true ∧ d.slot k ∈ M) :
    (d.collected gc).slots = d.slots.filter (· ∈ M) := by
  rw [Deck.slots, Deck.slots, List.filter_map, members, members, List.filter_filter]
  change ((List.range d.total).filter (bit (gc d.data))).map d.slot = _
  congr 1
  refine List.filter_congr fun k hk => ?_
  have := hbits k (List.mem_range.mp hk)
  rw [Bool.eq_iff_iff, this, comp_apply, Bool.and_eq_true, decide_eq_true_eq, and_comm]

theorem collected_ok {d : Deck} (hok : d.Ok) : (d.collected gc).Ok := by
  have hwords := hok.total_words
  have hpos := hok.total_pos
  exact ⟨hpos, hwords, hok.size_pos, hok.totalBytes_eq, by change 0 < d.total / 32; omega, rfl⟩

theorem sum_slots {d : Deck} (hok : d.Ok) :
    (d.slots.map Block.size).sum = popcount d.bits (d.total / 32) * d.size := by
  have hconst : d.slots.map Block.size = d.slots.map fun _ => d.size :=
    List.map_congr_left fun b hb => by
      obtain ⟨k, -, -, rfl⟩ := Deck.mem_slots.mp hb
      rfl
  rw [hconst, List.map_const', List.sum_replicate, ← hok.allocated_eq, hok.allocated_eq_length,
    smul_eq_mul]

theorem sum_flatMap_slots {l : List Deck} (h : ∀ d ∈ l, d.Ok) :
    ((l.flatMap Deck.slots).map Block.size).sum
      = (l.map fun d => popcount d.bits (d.total / 32) * d.size).sum := by
  induction l with
  | nil => rfl
  | cons d l ih =>
    obtain ⟨hd, hl⟩ := List.forall_mem_cons.mp h
    rw [List.flatMap_cons, List.map_append, List.sum_append, sum_slots hd, ih hl, List.map_cons,
      List.sum_cons]

theorem count_blocks (h : m.WellFormed) :
    m.bigStuff.foldl (fun t b => (t + b.size) % 2 ^ 64) (countDecks m.shoe.decks)
      = (m.blocks.map Block.size).sum := by
  have hle := h.blocks_sum_le
  have hdecks := foldl_add_mod (fun ch : Deck => popcount ch.bits (ch.total / 32) * ch.size)
    (2 ^ 64) m.shoe.decks 0 (by omega)
  rw [← sum_flatMap_slots fun d hd => h.deck_ok hd, Nat.zero_add] at hdecks
  rw [countDecks, hdecks, foldl_add_mod _ _ _ _ (Nat.mod_lt _ (by omega)), Nat.mod_add_mod, blocks,
    List.map_append, List.sum_append]
  rw [blocks, List.map_append, List.sum_append, addressSpace] at hle
  exact Nat.mod_eq_of_lt (by omega)

theorem sweep_spec (h : m₀.WellFormed) (K : Marking m₀ m M gc) :
    ∃ m', m.sweep = .ok m' ∧ m'.WellFormed ∧ m'.blocks = m₀.blocks.filter (· ∈ M) ∧
      Same m₀ m' ∧ m'.mem = m₀.mem ∧ m'.bigStuff = m₀.bigStuff.filter (· ∈ M) ∧
      m'.totalAllocated = (m'.blocks.map Block.size).sum := by
  have hsmall : ∀ b ∈ m₀.bigStuff, b.size < pageGcMask := fun b hb => by
    have := (h.blocks_space (List.mem_append_right _ hb)).2.2
    rw [addressSpace] at this
    rw [pageGcMask]
    omega
  -- every deck takes its second bitmap over
  set F : Deck → Deck := fun d =>
    { d with bits := d.gcBits.getD fun _ => 0#32, gcBits := none, allocated := d.gcAllocated }
  have hafter : ∀ d ∈ m.shoe.decks, d.afterGC = .ok (F d) := fun d hd => by
    rw [K.decks] at hd
    obtain ⟨e, he, rfl⟩ := List.mem_map.mp hd
    exact Deck.afterGC_marking (h.deck_ok he)
  have hshoe : m.shoe.forEachDeck Deck.afterGC = .ok (m.shoe.mapDecks F) :=
    (forEachDeck_iff fun d hd d' hd' => (Except.ok.inj ((hafter d hd).symm.trans hd')).symm).mpr
      ⟨hafter, rfl⟩
  set m' : MemoryModel := { m with
    shoe := m.shoe.mapDecks F
    bigStuff := keepMarked m.bigStuff
    totalAllocated := (keepMarked m.bigStuff).foldl (fun t b => (t + b.size) % 2 ^ 64)
      (countDecks (m.shoe.mapDecks F).decks) } with hm'
  have hrun : m.sweep = .ok m' := by
    rw [sweep, hshoe]
    rfl
  have hchunks : ∀ si < maxShoeChunks,
      m'.shoe.chunks si = (m₀.shoe.chunks si).map (Deck.collected gc) := fun si hsi => by
    change (if si < maxShoeChunks then _ else _) = _
    rw [if_pos hsi, K.chunks si hsi, List.map_map]
    rfl
  have hdecks : m'.shoe.decks = m₀.shoe.decks.map (Deck.collected gc) := by
    rw [hm', Shoe.decks_mapDecks, K.decks, List.map_map]
    rfl
  have hbig : m'.bigStuff = m₀.bigStuff.filter (· ∈ M) := by
    change keepMarked m.bigStuff = _
    rw [K.big, keepMarked_markBig hsmall]
  have hheld : m'.held.Sublist m₀.held := by
    rw [held, hdecks, hbig, List.map_map]
    exact List.filter_sublist.append_left _
  have hwf : m'.WellFormed := by
    refine ⟨?_, ?_, ?_, ?_, ?_, h.held_apart.sublist hheld, fun b hb =>
      h.held_space b (hheld.subset hb)⟩
    · exact K.same.mask ▸ h.mask
    · exact K.same.shoe_max ▸ h.shoe_max
    · intro si hsi d hd
      rw [hchunks si hsi] at hd
      obtain ⟨e, he, rfl⟩ := List.mem_map.mp hd
      obtain ⟨hok, hsize⟩ := h.chain si hsi e he
      exact ⟨collected_ok hok, hsize⟩
    · intro d hd
      rw [hdecks] at hd
      obtain ⟨e, he, rfl⟩ := List.mem_map.mp hd
      change e.size ≤ m.maxShoeAllocation
      rw [K.same.shoe_max]
      exact h.deck_size e he
    · intro b hb
      rw [hbig] at hb
      change m.maxShoeAllocation < b.size
      rw [K.same.shoe_max]
      exact h.big_size b (List.mem_of_mem_filter hb)
  have hblocks : m'.blocks = m₀.blocks.filter (· ∈ M) := by
    rw [blocks, hdecks, hbig, blocks, List.filter_append, List.flatMap_map, List.filter_flatMap]
    congr 1
    exact List.flatMap_congr fun d hd => slots_collected (K.bits d hd)
  exact ⟨m', hrun, hwf, hblocks, ⟨K.same.mask, K.same.shoe_max⟩, K.mem, hbig, count_blocks hwf⟩

/-! ## A collection -/

section Collect

variable {L marks : List Block} {posix : Posix}
  (mark : MemoryModel → ℕ → ℕ → Except Fault (Bool × MemoryModel))

theorem collect_spec (T : Tracks m L)
    (hmark : ∀ {m₁ M gc}, Marking m m₁ M gc → ∀ {b}, b ∈ L → ∃ m' gc',
      mark m₁ b.ptr b.size = .ok (decide (m.extent b ∉ M), m') ∧
        Marking m m' (m.extent b :: M) gc')
    (hmarks : ∀ b ∈ marks, b ∈ L) {m₁ : MemoryModel} (hbegin : m.beginMark posix = .ok m₁) :
    ∃ m', collect mark posix marks m
        = .ok (marks.mapIdx fun i b => decide (b ∉ marks.take i), m') ∧
      Tracks m' (L.filter (· ∈ marks)) ∧ Same m m' ∧ m'.mem = m.mem ∧
      (∀ b ∈ m'.bigStuff, b ∈ m.bigStuff) ∧
      m'.totalAllocated = ((L.filter (· ∈ marks)).map fun b => (m.extent b).size).sum := by
  have K : Marking m m₁ (([] : List Block).map m.extent) _ := beginMark_spec T.wf hbegin
  obtain ⟨m₂, gc, hm₂, K₂⟩ :=
    markAll_spec T hmark hmarks (fun _ hb => absurd hb List.not_mem_nil) K
  obtain ⟨m', hm', hwf, hblocks, hsame, hmem, hbig, htotal⟩ := sweep_spec T.wf K₂
  have hfilter : (L.filter (· ∈ marks)).map m.extent
      = (L.map m.extent).filter (· ∈ ([] ++ marks).map m.extent) := by
    rw [List.filter_map]
    congr 1
    refine List.filter_congr fun b hb => ?_
    rw [comp_apply, decide_eq_decide, List.nil_append]
    exact (T.extent_mem_map hb hmarks).symm
  have hperm : ((L.filter (· ∈ marks)).map m.extent).Perm m'.blocks := by
    rw [hfilter, hblocks]
    exact T.blocks.filter _
  refine ⟨m', ?_, ⟨hwf, ?_, ?_⟩, hsame, hmem, ?_, ?_⟩
  · rw [collect, hbegin]
    change (markAll mark marks m₁ >>= _) = _
    rw [hm₂]
    change (m₂.sweep >>= _) = _
    rw [hm']
    simp only [List.nil_append]
    rfl
  · intro b hb
    rw [hsame.mask]
    exact T.sizes b (List.mem_of_mem_filter hb)
  · rwa [hsame.extent_eq]
  · intro b hb
    rw [hbig] at hb
    exact List.mem_of_mem_filter hb
  · rw [htotal, ← (hperm.map Block.size).sum_eq, List.map_map]
    rfl

theorem heapMark_spec (T : Tracks m L) {m₁ : MemoryModel} (K : Marking m m₁ M gc) {b : Block}
    (hb : b ∈ L) : ∃ m' gc', heapMark m₁ b.ptr b.size = .ok (decide (m.extent b ∉ M), m') ∧
      Marking m m' (m.extent b :: M) gc' := by
  refine mark_spec T K hb fun hmax => ?_
  have hlt : alignUp 15 b.size < 2 ^ 32 := by
    rw [maxShoe] at hmax
    omega
  have hle := T.size_le hb
  rw [addressSpace] at hle
  have hsmall : b.size ≤ maxShoe := by
    rw [alignUp_fifteen (by omega)] at hmax
    omega
  rw [Nat.mod_eq_of_lt hlt, alignUp_fifteen_idem hsmall]

theorem stringMark_spec (T : Tracks m L) {m₁ : MemoryModel} (K : Marking m m₁ M gc) {b : Block}
    (hb : b ∈ L) : ∃ m' gc', stringMark m₁ b.ptr b.size = .ok (decide (m.extent b ∉ M), m') ∧
      Marking m m' (m.extent b :: M) gc' := by
  refine mark_spec T K hb fun hmax => ?_
  have hle := T.size_le hb
  rw [addressSpace] at hle
  rw [alignUp_fifteen (by omega), maxShoe] at hmax
  rw [Nat.mod_eq_of_lt (by omega)]

end Collect

end MemoryModel

end DaScript

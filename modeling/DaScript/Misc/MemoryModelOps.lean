import DaScript.Misc.MemoryModelSteps

/-!
# Misc/MemoryModelOps — allocate, free, reallocate, reset

Each operation of `MemoryModel` as what it does to the blocks handed out.  `allocate` either stops
the process or hands out one block more (`allocate_spec`); `free`, of a block that is out, always
succeeds (`free_spec`).
-/

open Function

namespace DaScript

open Block

/-! ## Sizes -/

section Sizes

variable {mask size : ℕ} (hmask : mask = 15 ∨ mask = 3)
include hmask

theorem alignUp_bounds (hsize : 0 < size) (hwrap : size + mask < 2 ^ 64) :
    0 < alignUp mask size ∧ size ≤ alignUp mask size ∧ alignUp mask size + mask < 2 ^ 64 ∧
      alignUp mask (alignUp mask size) = alignUp mask size := by
  rcases hmask with rfl | rfl
  · rw [alignUp_fifteen hwrap]
    have hwrap' : (size + 15) / 16 * 16 + 15 < 2 ^ 64 := by omega
    rw [alignUp_fifteen hwrap']
    omega
  · rw [alignUp_three hwrap]
    have hwrap' : (size + 3) / 4 * 4 + 3 < 2 ^ 64 := by omega
    rw [alignUp_three hwrap']
    omega

theorem alignUp_wrap (hsize : size < 2 ^ 64) (hwrap : 2 ^ 64 ≤ size + mask) :
    alignUp mask size = 0 := by
  rcases hmask with rfl | rfl
  · refine (and_not_mask (k := 4) (by omega) (Nat.mod_lt _ (Nat.two_pow_pos 64))).trans ?_
    omega
  · refine (and_not_mask (k := 2) (by omega) (Nat.mod_lt _ (Nat.two_pow_pos 64))).trans ?_
    omega

omit hmask in
theorem alignUp_zero (hmask : mask = 15 ∨ mask = 3) : alignUp mask 0 = 0 := by
  rcases hmask with rfl | rfl <;> decide

end Sizes

theorem sizeClass_spec {a : ℕ} (hpos : 0 < a) (hmax : a ≤ maxShoe) :
    a ≤ alignUp 15 a ∧ alignUp 15 a ≠ 0 ∧ alignUp 15 a ≤ maxShoe ∧
      Shoe.sizeClass (alignUp 15 a) < maxShoeChunks ∧
      (Shoe.sizeClass (alignUp 15 a) + 1) * 16 = alignUp 15 a := by
  rw [maxShoe] at hmax
  rw [alignUp_fifteen (by omega), Shoe.sizeClass, maxShoeChunks, maxShoe]
  omega

theorem alignUp_fifteen_idem {a : ℕ} (hmax : a ≤ maxShoe) :
    alignUp 15 (alignUp 15 a) = alignUp 15 a := by
  rw [maxShoe] at hmax
  rw [alignUp_fifteen (show a + 15 < 2 ^ 64 by omega), alignUp_fifteen (by omega)]
  omega

namespace MemoryModel

variable {m m' : MemoryModel} {posix : Posix} {size : ℕ}

/-- **One block more is out.** -/
structure Gave (m m' : MemoryModel) (b : Block) : Prop where
  wf : m'.WellFormed
  blocks : m'.blocks.Perm (b :: m.blocks)
  mask : m'.alignMask = m.alignMask
  shoe_max : m'.maxShoeAllocation = m.maxShoeAllocation
  mem : m'.mem = m.mem
  total : m'.totalAllocated = m.totalAllocated

/-- **One block is back.** -/
structure Took (m m' : MemoryModel) (b : Block) : Prop where
  wf : m'.WellFormed
  blocks : m.blocks.Perm (b :: m'.blocks)
  mask : m'.alignMask = m.alignMask
  shoe_max : m'.maxShoeAllocation = m.maxShoeAllocation
  mem : m'.mem = m.mem
  total : m'.totalAllocated = m.totalAllocated

theorem grow_eq (m : MemoryModel) (si : ℕ) :
    ∃ total initialSize, m.grow si = (total, { m with initialSize := initialSize }) := by
  rw [grow]
  cases m.shoe.chunks si with
  | nil => exact ⟨_, _, rfl⟩
  | cons ch chunks => exact ⟨_, m.initialSize, rfl⟩

theorem alignedAlloc16_error {e : Fault} (h : alignedAlloc16 posix size = .error e) :
    e ≠ Deck.noBits := by
  unfold alignedAlloc16 at h
  split_ifs at h
  · cases h
    simp [Deck.noBits]
  · cases hp : posix size with
    | none =>
      rw [hp] at h
      cases h
      simp [Deck.noBits]
    | some p =>
      rw [hp] at h
      cases h

theorem deck_new_error {ne es : ℕ} {e : Fault} (h : Deck.new posix ne es = .error e) :
    e ≠ Deck.noBits := by
  rw [Deck.new] at h
  cases hdata : alignedAlloc16 posix (alignUp 31 ne * es % 2 ^ 64) with
  | error e' =>
    rw [hdata] at h
    obtain rfl : e' = e := Except.error.inj h
    exact alignedAlloc16_error hdata
  | ok p =>
    rw [hdata] at h
    cases hbits : alignedAlloc16 posix (alignUp 31 ne / 32 * 4) with
    | error e' =>
      simp only [bind, Except.bind, hbits] at h
      obtain rfl : e' = e := Except.error.inj h
      exact alignedAlloc16_error hbits
    | ok q =>
      simp only [bind, Except.bind, hbits] at h
      cases h

/-! ## The calls, step by step -/

theorem shoe_allocate_eq (s : Shoe) {a : ℕ} (hpos : 0 < a) (hmax : a ≤ maxShoe) :
    s.allocate a = Shoe.allocateIn (s.chunks (Shoe.sizeClass (alignUp 15 a))) >>= fun r =>
      pure (r.1, { s with chunks := update s.chunks (Shoe.sizeClass (alignUp 15 a)) r.2 }) := by
  obtain ⟨-, hne, hle, -⟩ := sizeClass_spec hpos hmax
  rw [Shoe.allocate, if_neg (by omega)]

theorem shoe_free_eq (s : Shoe) (ptr : ℕ) {a : ℕ} (hpos : 0 < a) (hmax : a ≤ maxShoe) :
    s.free ptr a = Shoe.freeIn ptr (s.chunks (Shoe.sizeClass (alignUp 15 a))) >>= fun l =>
      pure { s with chunks := update s.chunks (Shoe.sizeClass (alignUp 15 a)) l } := by
  obtain ⟨-, hne, hle, -⟩ := sizeClass_spec hpos hmax
  rw [Shoe.free, if_neg (by omega)]

theorem allocateGrown_eq (m : MemoryModel) (posix : Posix) {a : ℕ} (hpos : 0 < a)
    (hmax : a ≤ maxShoe) :
    m.allocateGrown posix a =
      Deck.new posix (m.grow (Shoe.sizeClass (alignUp 15 a))).1 (alignUp 15 a) >>= fun deck =>
      deck.allocate >>= fun r =>
      pure (r.1, (m.grow (Shoe.sizeClass (alignUp 15 a))).2.setChunks
        (Shoe.sizeClass (alignUp 15 a))
        (r.2 :: (m.grow (Shoe.sizeClass (alignUp 15 a))).2.shoe.chunks
          (Shoe.sizeClass (alignUp 15 a)))) := by
  obtain ⟨-, hne, hle, -⟩ := sizeClass_spec hpos hmax
  rw [allocateGrown, if_neg (by omega)]
  rfl

section AllocateEq

variable (posix) (hsize : size ≠ 0)
include hsize

theorem allocate_big_eq (hbig : m.maxShoeAllocation < alignUp m.alignMask size) :
    m.allocate posix size = alignedAlloc16 posix (alignUp m.alignMask size) >>= fun ptr =>
      pure (some ptr, (m.account (alignUp m.alignMask size)).setBig ptr
        (alignUp m.alignMask size)) := by
  rw [allocate, if_neg hsize]
  exact if_pos hbig

theorem allocate_small_eq (hsmall : ¬ m.maxShoeAllocation < alignUp m.alignMask size) :
    m.allocate posix size = m.shoe.allocate (alignUp m.alignMask size) >>= fun r =>
      match r.1 with
      | some res => pure (some res, { m.account (alignUp m.alignMask size) with shoe := r.2 })
      | none => allocateGrown { m.account (alignUp m.alignMask size) with shoe := r.2 } posix
          (alignUp m.alignMask size) := by
  rw [allocate, if_neg hsize]
  exact if_neg hsmall

theorem free_small_eq (ptr : ℕ) (hsmall : alignUp m.alignMask size ≤ m.maxShoeAllocation) :
    m.free ptr size = m.shoe.free ptr (alignUp m.alignMask size) >>= fun shoe =>
      pure (true, discount { m with shoe := shoe } (alignUp m.alignMask size)) := by
  rw [free, if_neg hsize]
  exact if_pos hsmall

end AllocateEq

/-! ## allocate -/

theorem allocateGrown_spec (h : m.WellFormed) (hp : Honest m.held posix) (hpos : 0 < size)
    (hmax : size ≤ maxShoe) (hshoe : m.maxShoeAllocation = maxShoe) :
    (∃ e, e ≠ Deck.noBits ∧ m.allocateGrown posix size = .error e) ∨
      ∃ p m', m.allocateGrown posix size = .ok (some p, m') ∧ Gave m m' ⟨p, alignUp 15 size⟩ := by
  obtain ⟨-, hne, hle, hclass, hslot⟩ := sizeClass_spec hpos hmax
  have heq := m.allocateGrown_eq posix hpos hmax
  set es := alignUp 15 size
  set si := Shoe.sizeClass es
  obtain ⟨total, initialSize, hgrow⟩ := m.grow_eq si
  rw [hgrow] at heq
  set m₁ : MemoryModel := { m with initialSize := initialSize }
  have hwf : m₁.WellFormed := h.congr rfl rfl rfl rfl
  cases hnew : Deck.new posix total es with
  | error e => exact Or.inl ⟨e, deck_new_error hnew, by rw [heq, hnew]; rfl⟩
  | ok deck =>
    obtain ⟨hok, hsize, hslots, hcount, hnull, hspace, hapart⟩ :=
      Deck.new_spec hp (by omega) hle hnew
    rcases Deck.allocate_spec hok with ⟨hfull, -⟩ | ⟨k, deck', -, hdeck', hok', halike, hperm⟩
    · have := hok.total_pos
      omega
    have hrun : m.allocateGrown posix size
        = .ok (some (deck.slot k).ptr, m₁.setChunks si (deck' :: m₁.shoe.chunks si)) := by
      rw [heq, hnew]
      change deck.allocate >>= _ = _
      rw [hdeck']
      rfl
    have hblocks : ((deck' :: m₁.shoe.chunks si).flatMap Deck.slots).Perm
        (⟨(deck.slot k).ptr, es⟩ :: (m₁.shoe.chunks si).flatMap Deck.slots) := by
      rw [List.flatMap_cons, ← hsize]
      rw [hslots] at hperm
      exact hperm.append_right _
    have hmore := blocks_perm (m := m₁) hclass hblocks
    rw [setChunks_self] at hmore
    refine Or.inr ⟨_, _, hrun, hwf.pushDeck hclass hok' ?_ ?_ ?_ ?_, hmore, rfl, rfl, rfl, rfl⟩
    · rw [halike.size_eq, hsize, hslot]
    · change deck'.size ≤ m.maxShoeAllocation
      rw [halike.size_eq, hsize, hshoe]
      exact hle
    · rw [halike.area_eq]
      exact ⟨hnull, hspace⟩
    · rw [halike.area_eq]
      exact hapart

theorem allocate_big_spec (h : m.WellFormed) (hp : Honest m.held posix) (hpos : 0 < size)
    (hwrap : size + m.alignMask < 2 ^ 64)
    (hbig : m.maxShoeAllocation < alignUp m.alignMask size) :
    (∃ e, e ≠ Deck.noBits ∧ m.allocate posix size = .error e) ∨
      ∃ p m', m.allocate posix size = .ok (some p, m') ∧
        Gave (m.account (alignUp m.alignMask size)) m' ⟨p, alignUp m.alignMask size⟩ := by
  obtain ⟨ha, -, -, -⟩ := alignUp_bounds h.mask hpos hwrap
  have heq := allocate_big_eq posix (by omega) hbig
  set a := alignUp m.alignMask size
  have hacc : WellFormed (m.account a) := h.congr rfl rfl rfl rfl
  cases halloc : alignedAlloc16 posix a with
  | error e => exact Or.inl ⟨e, alignedAlloc16_error halloc, by rw [heq, halloc]; rfl⟩
  | ok p =>
    obtain ⟨-, hposix⟩ := alignedAlloc16_eq_ok.mp halloc
    obtain ⟨hnull, -, hspace, hapart⟩ := hp _ _ hposix
    -- nothing big starts at the new address, so no entry is overwritten
    have hfresh : (m.account a).setBig p a
        = { m.account a with bigStuff := ⟨p, a⟩ :: m.bigStuff } := by
      have hnone : m.bigStuff.eraseP (fun b => b.ptr = p) = m.bigStuff := by
        refine List.eraseP_of_forall_not fun b hb => ?_
        have hb' := (hapart b (List.mem_append_right _ hb)).ptr_ne ha
          (by have := h.big_size b hb; omega)
        simpa using Ne.symm hb'
      exact congrArg (fun l => { m.account a with bigStuff := (⟨p, a⟩ : Block) :: l }) hnone
    refine Or.inr ⟨p, _, by rw [heq, halloc]; rfl, ?_⟩
    rw [hfresh]
    exact ⟨hacc.pushBig hbig ⟨hnull, hspace⟩ hapart, List.perm_middle, rfl, rfl, rfl, rfl⟩

theorem allocate_small_spec (h : m.WellFormed) (hp : Honest m.held posix) (hpos : 0 < size)
    (hwrap : size + m.alignMask < 2 ^ 64)
    (hsmall : ¬ m.maxShoeAllocation < alignUp m.alignMask size) :
    (∃ e, e ≠ Deck.noBits ∧ m.allocate posix size = .error e) ∨
      ∃ p m', m.allocate posix size = .ok (some p, m') ∧
        Gave (m.account (alignUp m.alignMask size)) m'
          ⟨p, alignUp 15 (alignUp m.alignMask size)⟩ := by
  obtain ⟨ha, -, -, -⟩ := alignUp_bounds h.mask hpos hwrap
  have heq := allocate_small_eq posix (by omega) hsmall
  have hshoe : m.maxShoeAllocation = maxShoe := by
    rcases h.shoe_max with h | h <;> omega
  rw [shoe_allocate_eq m.shoe ha (by omega)] at heq
  obtain ⟨-, hne, hle, hclass, hslot⟩ := sizeClass_spec ha (by omega)
  set a := alignUp m.alignMask size
  set es := alignUp 15 a with hes
  set si := Shoe.sizeClass es
  set m₁ := m.account a
  have hacc : m₁.WellFormed := h.congr rfl rfl rfl rfl
  rcases Shoe.allocateIn_spec (h.chain si hclass) with
    hnone | ⟨b, l', hl', hb, hchain, harea, hperm⟩
  · have hrun : m.allocate posix size
        = allocateGrown (m₁.setChunks si (m₁.shoe.chunks si)) posix a := by
      rw [heq, hnone]
      rfl
    rw [hrun, setChunks_self]
    exact allocateGrown_spec hacc hp ha (by omega) hshoe
  · have hmore := blocks_perm (m := m₁) (l := m₁.shoe.chunks si) hclass hperm
    rw [setChunks_self] at hmore
    have hb' : b = ⟨b.ptr, es⟩ := by rw [← hslot, ← hb]
    refine Or.inr ⟨b.ptr, m₁.setChunks si l', by rw [heq, hl']; rfl, ?_⟩
    rw [← hb']
    exact ⟨hacc.setChunks hclass hchain harea, hmore, rfl, rfl, rfl, rfl⟩

theorem allocate_spec (h : m.WellFormed) (hp : Honest m.held posix) (hpos : 0 < size)
    (hsize : size < 2 ^ 64) :
    (∃ e, e ≠ Deck.noBits ∧ m.allocate posix size = .error e) ∨
      ∃ p m', m.allocate posix size = .ok (some p, m') ∧ size + m.alignMask < 2 ^ 64 ∧
        Gave (m.account (alignUp m.alignMask size)) m' (m.extent ⟨p, size⟩) := by
  by_cases hwrap : 2 ^ 64 ≤ size + m.alignMask
  · -- the rounded size is zero, which the shoe does not take
    refine Or.inl ⟨Shoe.badSize, by simp [Shoe.badSize, Deck.noBits], ?_⟩
    have h0 := alignUp_wrap h.mask hsize hwrap
    rw [allocate_small_eq posix (by omega) (by omega), h0]
    rfl
  by_cases hbig : m.maxShoeAllocation < alignUp m.alignMask size
  · rcases allocate_big_spec h hp hpos (by omega) hbig with herr | ⟨p, m', hm', hgave⟩
    · exact Or.inl herr
    · refine Or.inr ⟨p, m', hm', by omega, ?_⟩
      rw [extent]
      dsimp only
      rw [if_neg (by omega)]
      exact hgave
  · rcases allocate_small_spec h hp hpos (by omega) hbig with herr | ⟨p, m', hm', hgave⟩
    · exact Or.inl herr
    · refine Or.inr ⟨p, m', hm', by omega, ?_⟩
      rw [extent]
      dsimp only
      rw [if_pos (by omega)]
      exact hgave

/-! ## free -/

theorem chain_areas_apart (h : m.WellFormed) {si : ℕ} (hsi : si < maxShoeChunks) :
    ((m.shoe.chunks si).map Deck.area).Pairwise Apart := by
  obtain ⟨P, Q, hPQ, -⟩ := m.shoe.decks_split hsi
  refine h.held_apart.sublist ((List.Sublist.map _ ?_).trans (List.sublist_append_left _ _))
  rw [hPQ, List.append_assoc]
  exact (List.sublist_append_left _ _).trans (List.sublist_append_right _ _)

theorem find_big (h : m.WellFormed) {b : Block} (hb : b ∈ m.bigStuff) :
    m.bigStuff.find? (fun c => c.ptr = b.ptr) = some b ∧
      m.bigStuff.Perm (b :: m.bigStuff.eraseP fun c => c.ptr = b.ptr) := by
  have hunique : ∀ c ∈ m.bigStuff, c.ptr = b.ptr → c = b := fun c hc hptr =>
    Block.eq_of_ptr_eq (h.held_apart.sublist (List.sublist_append_right _ _))
      (fun d hd => by have := h.big_size d hd; omega) hc hb hptr
  constructor
  · cases hfind : m.bigStuff.find? (fun c => c.ptr = b.ptr) with
    | none =>
      have := List.find?_eq_none.mp hfind b hb
      simp at this
    | some c =>
      have hptr : c.ptr = b.ptr := by simpa using List.find?_some hfind
      rw [hunique c (List.mem_of_find?_eq_some hfind) hptr]
  · obtain ⟨c, l₁, l₂, -, hc, hl, herase⟩ :=
      List.exists_of_eraseP (p := fun c : Block => c.ptr = b.ptr) hb (by simp)
    have hcb : c = b := hunique c (by rw [hl]; simp) (by simpa using hc)
    rw [herase]
    conv_lhs => rw [hl, hcb]
    exact List.perm_middle

theorem free_spec (h : m.WellFormed) {b : Block} (hpos : 0 < b.size)
    (hwrap : b.size + m.alignMask < 2 ^ 64) (hb : m.extent b ∈ m.blocks) :
    ∃ m', m.free b.ptr b.size = .ok (true, m'.discount (alignUp m.alignMask b.size)) ∧
      Took m m' (m.extent b) := by
  obtain ⟨ha, -, -, -⟩ := alignUp_bounds h.mask hpos hwrap
  by_cases hsmall : alignUp m.alignMask b.size ≤ m.maxShoeAllocation
  · have hshoe : m.maxShoeAllocation = maxShoe := by
      rcases h.shoe_max with h | h <;> omega
    have heq := free_small_eq (m := m) (by omega) b.ptr hsmall
    rw [shoe_free_eq m.shoe b.ptr ha (by omega)] at heq
    obtain ⟨-, -, hle, hclass, hslot⟩ :=
      sizeClass_spec ha (a := alignUp m.alignMask b.size) (by omega)
    have hext : m.extent b = ⟨b.ptr, alignUp 15 (alignUp m.alignMask b.size)⟩ := by
      rw [extent, if_pos hsmall]
    rw [hext] at hb ⊢
    set a := alignUp m.alignMask b.size
    set es := alignUp 15 a
    obtain ⟨si, hsi, hes, hmem⟩ := h.small_of_mem hb (by change es ≤ _; omega)
    -- the class is the one the size says
    obtain rfl : si = Shoe.sizeClass es := by
      change es = _ at hes
      omega
    obtain ⟨l', hl', hchain, harea, hperm⟩ :=
      Shoe.freeIn_spec (h.chain _ hsi) (chain_areas_apart h hsi) hmem
    have hless := blocks_perm (m := m) (l := l') hsi hperm
    rw [setChunks_self] at hless
    refine ⟨m.setChunks (Shoe.sizeClass es) l', ?_, h.setChunks hsi hchain harea, hless, rfl, rfl,
      rfl, rfl⟩
    change Shoe.freeIn b.ptr _ = _ at hl'
    rw [heq, hl']
    rfl
  · have hext : m.extent b = ⟨b.ptr, alignUp m.alignMask b.size⟩ := by
      rw [extent, if_neg hsmall]
    rw [hext] at hb ⊢
    set a := alignUp m.alignMask b.size with hadef
    have hbig := h.big_of_mem hb (Nat.not_le.mp hsmall)
    obtain ⟨hfind, hperm⟩ := find_big h hbig
    have hsub : (m.bigStuff.eraseP fun c => c.ptr = b.ptr).Sublist m.bigStuff := List.eraseP_sublist
    refine ⟨{ m with bigStuff := m.bigStuff.eraseP fun c => c.ptr = b.ptr }, ?_, h.dropBig hsub, ?_,
      rfl, rfl, rfl, rfl⟩
    · rw [free, if_neg (by omega)]
      change (if a ≤ m.maxShoeAllocation then _ else _) = _
      rw [if_neg hsmall]
      simp only [hfind]
      exact if_neg (not_not_intro rfl)
    · exact (hperm.append_left _).trans List.perm_middle

/-! ## Against the blocks the callers hold -/

/-- **The callers hold `L`** — each block with the size it was asked for — and that is all there
is out. -/
structure Tracks (m : MemoryModel) (L : List Block) : Prop where
  wf : m.WellFormed
  sizes : ∀ b ∈ L, 0 < b.size ∧ b.size + m.alignMask < 2 ^ 64
  blocks : (L.map m.extent).Perm m.blocks

/-- What no operation changes. -/
structure Same (m m' : MemoryModel) : Prop where
  mask : m'.alignMask = m.alignMask
  shoe_max : m'.maxShoeAllocation = m.maxShoeAllocation

theorem Same.extent_eq (h : Same m m') : m'.extent = m.extent := by
  funext b
  rw [extent, extent, h.mask, h.shoe_max]

/-- The aligned size of a caller's block. -/
def aligned (m : MemoryModel) (b : Block) : ℕ := alignUp m.alignMask b.size

/-- `b`, of the blocks `L` that are held, has become `c`. -/
structure Moved (m m' : MemoryModel) (L : List Block) (b c : Block) : Prop where
  tracks : Tracks m' (c :: L.erase b)
  same : Same m m'
  apart : ∀ d ∈ L, Apart (m.extent c) (m.extent d)
  pos : 0 < c.size
  mem : m'.mem = memcpy m.mem c.ptr b.ptr (min (m.aligned b) (m.aligned c))
  total : m'.totalAllocated
    = ((m.totalAllocated + m.aligned c) % 2 ^ 64 + (2 ^ 64 - m.aligned b)) % 2 ^ 64

namespace Tracks

variable {L : List Block} (T : Tracks m L)
include T

theorem extent_mem {b : Block} (hb : b ∈ L) : m.extent b ∈ m.blocks :=
  T.blocks.mem_iff.mp (List.mem_map_of_mem hb)

theorem aligned_bounds {b : Block} (hb : b ∈ L) :
    0 < b.size ∧ b.size ≤ m.aligned b ∧ m.aligned b ≤ (m.extent b).size := by
  obtain ⟨hpos, hwrap⟩ := T.sizes b hb
  obtain ⟨ha, hle, -, -⟩ := alignUp_bounds T.wf.mask hpos hwrap
  refine ⟨hpos, hle, ?_⟩
  rw [extent, aligned]
  dsimp only
  split_ifs with hsmall
  · exact (sizeClass_spec ha (by rcases T.wf.shoe_max with h | h <;> omega)).1
  · exact le_rfl

theorem apart : L.Pairwise fun b c => Apart (m.extent b) (m.extent c) :=
  List.pairwise_map.mp ((T.blocks.pairwise_iff Apart.symm).mpr T.wf.blocks_apart)

theorem apart_of_ne {b c : Block} (hb : b ∈ L) (hc : c ∈ L) (hbc : b ≠ c) :
    Apart (m.extent b) (m.extent c) := by
  have hsymm : Std.Symm fun b c => Apart (m.extent b) (m.extent c) := ⟨fun _ _ h => h.symm⟩
  exact T.apart.forall hb hc hbc

theorem eq_of_ptr_eq {b c : Block} (hb : b ∈ L) (hc : c ∈ L) (hptr : b.ptr = c.ptr) : b = c := by
  by_contra hbc
  exact (T.apart_of_ne hb hc hbc).ptr_ne (T.wf.blocks_space (T.extent_mem hb)).2.1
    (T.wf.blocks_space (T.extent_mem hc)).2.1 hptr

theorem sum_aligned_le : (L.map m.aligned).sum ≤ addressSpace := by
  have hle : (L.map m.aligned).sum ≤ (L.map fun b => (m.extent b).size).sum :=
    List.sum_le_sum fun b hb => (T.aligned_bounds hb).2.2
  have heq : (L.map fun b => (m.extent b).size).sum = (m.blocks.map Block.size).sum := by
    rw [← (T.blocks.map Block.size).sum_eq, List.map_map]
    rfl
  exact hle.trans (heq ▸ T.wf.blocks_sum_le)

theorem congr (hsame : Same m m') (hchunks : m'.shoe.chunks = m.shoe.chunks)
    (hbig : m'.bigStuff = m.bigStuff) : Tracks m' L := by
  refine ⟨T.wf.congr hsame.mask hsame.shoe_max hchunks hbig, hsame.mask ▸ T.sizes, ?_⟩
  rw [hsame.extent_eq, MemoryModel.blocks, Shoe.decks, hchunks, hbig]
  exact T.blocks

theorem allocate (hp : Honest m.held posix) (hpos : 0 < size) (hsize : size < 2 ^ 64) :
    (∃ e, e ≠ Deck.noBits ∧ m.allocate posix size = .error e) ∨
      ∃ p m', m.allocate posix size = .ok (some p, m') ∧ Tracks m' (⟨p, size⟩ :: L) ∧ Same m m' ∧
        m'.mem = m.mem ∧
        m'.totalAllocated = (m.totalAllocated + m.aligned ⟨p, size⟩) % 2 ^ 64 := by
  rcases allocate_spec T.wf hp hpos hsize with herr | ⟨p, m', hm', hwrap, hgave⟩
  · exact Or.inl herr
  have hsame : Same m m' := ⟨hgave.mask, hgave.shoe_max⟩
  refine Or.inr ⟨p, m', hm', ⟨hgave.wf, ?_, ?_⟩, hsame, hgave.mem, hgave.total⟩
  · exact List.forall_mem_cons.mpr ⟨⟨hpos, hsame.mask ▸ hwrap⟩, hsame.mask ▸ T.sizes⟩
  · rw [hsame.extent_eq, List.map_cons]
    exact (T.blocks.cons _).trans hgave.blocks.symm

theorem free {b : Block} (hb : b ∈ L) :
    ∃ m', m.free b.ptr b.size = .ok (true, m') ∧ Tracks m' (L.erase b) ∧ Same m m' ∧
      m'.mem = m.mem ∧
      m'.totalAllocated = (m.totalAllocated + (2 ^ 64 - m.aligned b)) % 2 ^ 64 := by
  obtain ⟨hpos, hwrap⟩ := T.sizes b hb
  obtain ⟨m', hm', htook⟩ := free_spec T.wf hpos hwrap (T.extent_mem hb)
  have hsame : Same m m' := ⟨htook.mask, htook.shoe_max⟩
  have hrest : Tracks m' (L.erase b) := by
    refine ⟨htook.wf, fun c hc => hsame.mask ▸ T.sizes c (List.mem_of_mem_erase hc), ?_⟩
    rw [hsame.extent_eq]
    refine (List.Perm.cons_inv (a := m.extent b) ?_)
    exact (((List.perm_cons_erase hb).map m.extent).symm.trans T.blocks).trans htook.blocks
  refine ⟨_, hm', hrest.congr ⟨rfl, rfl⟩ rfl rfl, ⟨htook.mask, htook.shoe_max⟩, htook.mem, ?_⟩
  change (m'.totalAllocated + _) % _ = _
  rw [htook.total]
  rfl

omit T in
theorem extent_alignUp (h : m.WellFormed) {p : ℕ} (hpos : 0 < size)
    (hwrap : size + m.alignMask < 2 ^ 64) :
    m.extent ⟨p, alignUp m.alignMask size⟩ = m.extent ⟨p, size⟩ := by
  simp only [extent, (alignUp_bounds h.mask hpos hwrap).2.2.2]

omit T in
theorem free_alignUp (h : m.WellFormed) {ptr : ℕ} (hpos : 0 < size)
    (hwrap : size + m.alignMask < 2 ^ 64) :
    m.free ptr (alignUp m.alignMask size) = m.free ptr size := by
  obtain ⟨ha, -, -, hidem⟩ := alignUp_bounds h.mask hpos hwrap
  simp only [MemoryModel.free, hidem, if_neg (Nat.ne_of_gt ha), if_neg (Nat.ne_of_gt hpos)]

theorem reallocate (hp : Honest m.held posix) {b : Block} (hb : b ∈ L) (hsize : size < 2 ^ 64) :
    (∃ e, e ≠ Deck.noBits ∧ m.reallocate posix (some b.ptr) b.size size = .error e) ∨
      ∃ p m', m.reallocate posix (some b.ptr) b.size size = .ok (some p, m') ∧
        Moved m m' L b ⟨p, size⟩ := by
  obtain ⟨hbpos, hbwrap⟩ := T.sizes b hb
  by_cases hzero : alignUp m.alignMask size = 0
  · -- nothing to allocate: the pointer that comes back is null
    refine Or.inl ⟨.verify "out of memory?", by simp [Deck.noBits], ?_⟩
    rw [MemoryModel.reallocate, hzero]
    rfl
  have hpos : 0 < size := Nat.pos_of_ne_zero fun h0 =>
    hzero (h0 ▸ alignUp_zero T.wf.mask)
  have hwrap : size + m.alignMask < 2 ^ 64 := by
    by_contra hge
    exact hzero (alignUp_wrap T.wf.mask hsize (by omega))
  obtain ⟨ha, -, hawrap, hidem⟩ := alignUp_bounds T.wf.mask hpos hwrap
  rcases T.allocate hp ha (by omega) with
    ⟨e, he, herr⟩ | ⟨p, m₁, hm₁, T₁, hsame, hmem, htotal⟩
  · refine Or.inl ⟨e, he, ?_⟩
    simp only [MemoryModel.reallocate, herr]
    rfl
  set m₂ : MemoryModel := { m₁ with
    mem := memcpy m₁.mem p b.ptr (min (m.aligned b) (alignUp m.alignMask size)) } with hm₂
  have T₂ : Tracks m₂ (⟨p, alignUp m.alignMask size⟩ :: L) := T₁.congr ⟨rfl, rfl⟩ rfl rfl
  have hmask₂ : m₂.alignMask = m.alignMask := hsame.mask
  have hext₂ : m₂.extent = m.extent := hsame.extent_eq
  obtain ⟨m', hm', T', hsame', hmem', htotal'⟩ := T₂.free (List.mem_cons_of_mem _ hb)
  -- the new block is none of the old ones
  have hnew : ∀ c ∈ L, Apart (m.extent ⟨p, size⟩) (m.extent c) := by
    have := (List.pairwise_cons.mp T₂.apart).1
    rwa [hext₂, extent_alignUp T.wf hpos hwrap] at this
  have hne : (⟨p, alignUp m.alignMask size⟩ : Block) ≠ b := by
    intro heq
    have hptr := (hnew b hb).ptr_ne ?_ (T.wf.blocks_space (T.extent_mem hb)).2.1
    · exact hptr (show p = b.ptr from congrArg Block.ptr heq)
    · have := T₂.wf.blocks_space (T₂.extent_mem (List.mem_cons_self ..))
      rw [hext₂, extent_alignUp T.wf hpos hwrap] at this
      exact this.2.1
  rw [List.erase_cons_tail (by simpa using hne)] at T'
  have Tnew : Tracks m' (⟨p, size⟩ :: L.erase b) := by
    have hmask' : m'.alignMask = m.alignMask := hsame'.mask.trans hmask₂
    refine ⟨T'.wf, ?_, ?_⟩
    · refine List.forall_mem_cons.mpr ⟨⟨hpos, hmask' ▸ hwrap⟩, fun c hc => ?_⟩
      exact T'.sizes c (List.mem_cons_of_mem _ hc)
    · have := T'.blocks
      rwa [List.map_cons, ← hmask', extent_alignUp T'.wf hpos (hmask' ▸ hwrap),
        ← List.map_cons] at this
  have hrun : m.reallocate posix (some b.ptr) b.size size = .ok (some p, m') := by
    simp only [MemoryModel.reallocate, hm₁]
    change (m₂.free b.ptr (alignUp m.alignMask b.size) >>= _) = _
    rw [← hmask₂, free_alignUp T₂.wf hbpos (hmask₂ ▸ hbwrap), hm']
    rfl
  have hsame'' : Same m m' := ⟨hsame'.mask.trans hmask₂, hsame'.shoe_max.trans hsame.shoe_max⟩
  refine Or.inr ⟨p, m', hrun, Tnew, hsame'', hnew, hpos, ?_, ?_⟩
  · rw [hmem', hm₂, hmem]
    rfl
  · rw [htotal']
    change (m₁.totalAllocated + (2 ^ 64 - alignUp m₂.alignMask b.size)) % _ = _
    rw [htotal, hmask₂, aligned, hidem]
    rfl

theorem reset : Tracks m.reset [] := by
  have hdecks : m.reset.shoe.decks = m.shoe.decks.map Deck.reset := Shoe.decks_mapDecks _ _
  have hheld : m.reset.held.Sublist m.held := by
    rw [MemoryModel.held, hdecks, List.map_map]
    exact (List.nil_sublist _).append_left _
  refine ⟨⟨T.wf.mask, T.wf.shoe_max, ?_, ?_, ?_, ?_, ?_⟩, ?_, ?_⟩
  · intro si hsi
    change Chain _ (if si < maxShoeChunks then _ else _)
    rw [if_pos hsi]
    intro d hd
    obtain ⟨e, he, rfl⟩ := List.mem_map.mp hd
    obtain ⟨hok, hsize⟩ := T.wf.chain si hsi e he
    exact ⟨Deck.reset_ok hok, hsize⟩
  · intro d hd
    rw [hdecks] at hd
    obtain ⟨e, he, rfl⟩ := List.mem_map.mp hd
    exact T.wf.deck_size e he
  · exact fun b hb => absurd hb List.not_mem_nil
  · exact T.wf.held_apart.sublist hheld
  · exact fun b hb => T.wf.held_space b (hheld.subset hb)
  · exact fun b hb => absurd hb List.not_mem_nil
  · have hnone : m.reset.blocks = [] := by
      rw [MemoryModel.blocks, hdecks, List.flatMap_map, List.flatMap_eq_nil_iff.mpr]
      · rfl
      · exact fun d _ => Deck.slots_of_bits_zero rfl
    rw [hnone]
    exact List.Perm.nil

end Tracks

end MemoryModel

end DaScript

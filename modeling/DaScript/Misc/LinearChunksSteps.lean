import DaScript.Misc.LinearChunks
import DaScript.Misc.MemoryModelOps

/-!
# Misc/LinearChunksSteps — what the linear allocator does

Blocks lie one after the other in the used part of some chunk (`Tracks`).  `allocate` cuts one more
off behind the used part; `free` gives the last one of a chunk back and leaves any other where it
is.
-/

namespace DaScript

open Block

namespace HeapChunk

/-- The data of a chunk. -/
def area (ch : HeapChunk) : Block := ⟨ch.data, ch.size⟩

/-- The part of it that is used. -/
def used (ch : HeapChunk) : Block := ⟨ch.data, ch.offset⟩

theorem new_spec {posix : Posix} {held : List Block} (hp : Honest held posix) {s : ℕ}
    (hs : s ≤ uint32Max) {ch : HeapChunk} (h : new posix s = .ok ch) :
    s ≤ ch.size ∧ ch.offset = 0 ∧ ch.data ≠ 0 ∧ ch.data + ch.size ≤ addressSpace ∧
      ∀ b ∈ held, Apart ch.area b := by
  obtain ⟨data, hdata, h⟩ := bind_eq_ok.mp h
  obtain rfl := Except.ok.inj h
  obtain ⟨hne, hposix⟩ := alignedAlloc16_eq_ok.mp hdata
  obtain ⟨hnull, -, hspace, hapart⟩ := hp _ _ hposix
  refine ⟨?_, rfl, hnull, hspace, hapart⟩
  change s ≤ alignUp 15 s % 2 ^ 32
  rw [uint32Max] at hs
  rw [alignUp_fifteen (by omega)] at hne ⊢
  omega

end HeapChunk

namespace LinearChunks

/-- What the allocator holds from the system. -/
def held (m : LinearChunks) : List Block := m.chunks.map HeapChunk.area

/-- The block a caller holds, rounded to what the allocator cut off. -/
def extent (m : LinearChunks) (b : Block) : Block := ⟨b.ptr, alignUp m.alignMask b.size⟩

/-- **An allocator in order.** -/
structure WellFormed (m : LinearChunks) : Prop where
  mask : m.alignMask = 15 ∨ m.alignMask = 3
  initial_le : m.initialSize ≤ uint32Max
  offset_le : ∀ ch ∈ m.chunks, ch.offset ≤ ch.size
  held_apart : m.held.Pairwise Apart
  held_space : ∀ ch ∈ m.chunks, ch.data ≠ 0 ∧ ch.data + ch.size ≤ addressSpace

/-- **The callers hold `L`**, in the used parts of the chunks. -/
structure Tracks (m : LinearChunks) (L : List Block) : Prop where
  wf : m.WellFormed
  sizes : ∀ b ∈ L, 0 < b.size ∧ b.size + m.alignMask < 2 ^ 64
  apart : L.Pairwise fun b c => Apart (m.extent b) (m.extent c)
  inside : ∀ b ∈ L, ∃ ch ∈ m.chunks, Within (m.extent b) ch.used

variable {m m' : LinearChunks} {L : List Block} {posix : Posix} {n : ℕ}

theorem used_within {ch : HeapChunk} (h : ch.offset ≤ ch.size) : Within ch.used ch.area :=
  ⟨le_rfl, Nat.add_le_add_left h _⟩

namespace Tracks

variable (T : Tracks m L)
include T

theorem extent_bounds {b : Block} (hb : b ∈ L) : 0 < b.size ∧ b.size ≤ (m.extent b).size := by
  obtain ⟨hpos, hwrap⟩ := T.sizes b hb
  exact ⟨hpos, (alignUp_bounds T.wf.mask hpos hwrap).2.1⟩

theorem within {b : Block} (hb : b ∈ L) : Within b (m.extent b) :=
  ⟨le_rfl, Nat.add_le_add_left (T.extent_bounds hb).2 _⟩

theorem bounds {b : Block} (hb : b ∈ L) : 0 < b.size ∧ b.ptr + b.size ≤ addressSpace := by
  obtain ⟨ch, hch, hin⟩ := T.inside b hb
  have hend : b.ptr + b.size ≤ ch.data + ch.offset := (T.within hb).2.trans hin.2
  have := T.wf.offset_le ch hch
  have := (T.wf.held_space ch hch).2
  exact ⟨(T.sizes b hb).1, by omega⟩

theorem apart_of_ne {b c : Block} (hb : b ∈ L) (hc : c ∈ L) (hbc : b ≠ c) :
    Apart (m.extent b) (m.extent c) := by
  have hsymm : Std.Symm fun b c => Apart (m.extent b) (m.extent c) := ⟨fun _ _ h => h.symm⟩
  exact T.apart.forall hb hc hbc

theorem nodup : L.Nodup := by
  refine T.apart.imp_of_mem fun hb _ h heq => ?_
  have hpos := T.extent_bounds hb
  rw [← heq] at h
  exact h.ptr_ne (by omega) (by omega) rfl

theorem congr (hmask : m'.alignMask = m.alignMask) (hinit : m'.initialSize = m.initialSize)
    (hchunks : m'.chunks = m.chunks) : Tracks m' L := by
  obtain ⟨customGrow, initialSize, alignMask, chunks, mem⟩ := m'
  obtain rfl : alignMask = m.alignMask := hmask
  obtain rfl : initialSize = m.initialSize := hinit
  obtain rfl : chunks = m.chunks := hchunks
  exact ⟨⟨T.wf.mask, T.wf.initial_le, T.wf.offset_le, T.wf.held_apart, T.wf.held_space⟩, T.sizes,
    T.apart, T.inside⟩

theorem push {ch : HeapChunk} (hoff : ch.offset = 0) (hnull : ch.data ≠ 0)
    (hspace : ch.data + ch.size ≤ addressSpace) (hapart : ∀ b ∈ m.held, Apart ch.area b)
    {initialSize : ℕ} (hinit : initialSize ≤ uint32Max) :
    Tracks { m with initialSize := initialSize, chunks := ch :: m.chunks } L := by
  refine ⟨⟨T.wf.mask, hinit, ?_, ?_, ?_⟩, T.sizes, T.apart, fun b hb => ?_⟩
  · exact List.forall_mem_cons.mpr ⟨by omega, T.wf.offset_le⟩
  · exact List.pairwise_cons.mpr ⟨hapart, T.wf.held_apart⟩
  · exact List.forall_mem_cons.mpr ⟨⟨hnull, hspace⟩, T.wf.held_space⟩
  · obtain ⟨c, hc, hin⟩ := T.inside b hb
    exact ⟨c, List.mem_cons_of_mem _ hc, hin⟩

theorem cut {ch ch' : HeapChunk} {chunks : List HeapChunk} (hch : m.chunks = ch :: chunks)
    (hpos : 0 < n) (hwrap : n + m.alignMask < 2 ^ 64) {p : ℕ}
    (hcut : ch.allocate (alignUp m.alignMask n) = some (p, ch')) :
    Tracks { m with chunks := ch' :: chunks } (⟨p, n⟩ :: L) := by
  have hoff := T.wf.offset_le
  have hspace := T.wf.held_space
  have hapart := T.wf.held_apart
  rw [held, hch, List.map_cons, List.pairwise_cons] at hapart
  rw [hch, List.forall_mem_cons] at hoff hspace
  rw [HeapChunk.allocate] at hcut
  split_ifs at hcut with hfull
  obtain ⟨rfl, rfl⟩ := Prod.mk.inj (Option.some.inj hcut)
  have hnewin : Within (m.extent ⟨ch.data + ch.offset, n⟩) ch.area :=
    ⟨Nat.le_add_right _ _, by
      change ch.data + ch.offset + alignUp m.alignMask n ≤ ch.data + ch.size
      omega⟩
  refine ⟨⟨T.wf.mask, T.wf.initial_le, ?_, ?_, ?_⟩, ?_, ?_, ?_⟩
  · exact List.forall_mem_cons.mpr ⟨by change ch.offset + _ ≤ ch.size; omega, hoff.2⟩
  · exact List.pairwise_cons.mpr hapart
  · exact List.forall_mem_cons.mpr hspace
  · exact List.forall_mem_cons.mpr ⟨⟨hpos, hwrap⟩, T.sizes⟩
  · refine List.pairwise_cons.mpr ⟨fun b hb => ?_, T.apart⟩
    obtain ⟨c, hc, hin⟩ := T.inside b hb
    rw [hch, List.mem_cons] at hc
    rcases hc with rfl | hc
    · -- the same chunk: behind everything in it
      exact Or.inr hin.2
    · exact (hapart.1 _ (List.mem_map_of_mem hc)).mono hnewin
        ⟨hin.1, hin.2.trans (used_within (hoff.2 c hc)).2⟩
  · refine List.forall_mem_cons.mpr ⟨⟨_, List.mem_cons_self .., ?_⟩, fun b hb => ?_⟩
    · exact ⟨Nat.le_add_right _ _, by
        change ch.data + ch.offset + _ ≤ ch.data + (ch.offset + _)
        exact (Nat.add_assoc ..).le⟩
    · obtain ⟨c, hc, hin⟩ := T.inside b hb
      rw [hch, List.mem_cons] at hc
      rcases hc with rfl | hc
      · refine ⟨_, List.mem_cons_self .., hin.1, hin.2.trans ?_⟩
        change c.data + c.offset ≤ c.data + (c.offset + _)
        omega
      · exact ⟨c, List.mem_cons_of_mem _ hc, hin⟩

theorem allocate (hp : Honest m.held posix) (hpos : 0 < n) (hwrap : n + m.alignMask < 2 ^ 64)
    {r : Option ℕ} (hcall : m.allocate posix n = .ok (r, m')) :
    ∃ p, r = some p ∧ Tracks m' (⟨p, n⟩ :: L) ∧ m'.mem = m.mem ∧ m'.alignMask = m.alignMask := by
  rw [LinearChunks.allocate, if_neg (by omega)] at hcall
  dsimp only at hcall
  set s := alignUp m.alignMask n with hs
  split_ifs at hcall with hcap
  obtain ⟨m₁, hfirst, hcall⟩ := bind_eq_ok.mp hcall
  cases hchunks : m.chunks with
  | nil =>
    rw [firstChunk, hchunks] at hfirst
    obtain ⟨ch, hnew, hfirst⟩ := bind_eq_ok.mp hfirst
    obtain rfl := Except.ok.inj hfirst
    have hinit : (if m.initialSize = 0 then defaultInitialSize else m.initialSize) ≤ uint32Max := by
      split_ifs
      · decide
      · exact T.wf.initial_le
    set initialSize := if m.initialSize = 0 then defaultInitialSize else m.initialSize
    have hmax : max initialSize s % 2 ^ 32 = max initialSize s := by
      rw [uint32Max] at hinit hcap
      exact Nat.mod_eq_of_lt (by omega)
    rw [hmax] at hnew
    obtain ⟨hsize, hoff, hnull, hspace, hapart⟩ :=
      HeapChunk.new_spec hp (by omega) hnew
    have T₁ := T.push hoff hnull hspace hapart hinit
    rw [hchunks] at T₁
    have hroom : ch.allocate s = some (ch.data + ch.offset, { ch with offset := ch.offset + s }) :=
      if_neg (by omega)
    simp only [allocateLoop, hroom] at hcall
    obtain ⟨rfl, rfl⟩ := Prod.mk.inj (Except.ok.inj hcall)
    exact ⟨_, rfl, T₁.cut rfl hpos hwrap hroom, rfl, rfl⟩
  | cons ch chunks =>
    rw [firstChunk, hchunks] at hfirst
    obtain rfl := Except.ok.inj hfirst
    cases hroom : ch.allocate s with
    | some r' =>
      obtain ⟨p, ch'⟩ := r'
      simp only [allocateLoop, hchunks, hroom] at hcall
      obtain ⟨rfl, rfl⟩ := Prod.mk.inj (Except.ok.inj hcall)
      exact ⟨p, rfl, T.cut hchunks hpos hwrap hroom, rfl, rfl⟩
    | none =>
      simp only [allocateLoop, hchunks, hroom] at hcall
      obtain ⟨new, hnew, hcall⟩ := bind_eq_ok.mp hcall
      have hgrow : m.grow ch.size ≤ uint32Max := Nat.min_le_right _ _
      have hmax : max (m.grow ch.size) s % 2 ^ 32 = max (m.grow ch.size) s := by
        rw [uint32Max] at hgrow hcap
        exact Nat.mod_eq_of_lt (by omega)
      rw [hmax] at hnew
      obtain ⟨hsize, hoff, hnull, hspace, hapart⟩ := HeapChunk.new_spec hp (by omega) hnew
      have T₁ := T.push hoff hnull hspace hapart T.wf.initial_le
      rw [hchunks] at T₁
      have hroom' : new.allocate s
          = some (new.data + new.offset, { new with offset := new.offset + s }) :=
        if_neg (by omega)
      simp only [hroom'] at hcall
      obtain ⟨rfl, rfl⟩ := Prod.mk.inj (Except.ok.inj hcall)
      exact ⟨_, rfl, T₁.cut rfl hpos hwrap hroom', rfl, rfl⟩

omit T in
theorem freeIn_split {chunks : List HeapChunk} (hap : (chunks.map HeapChunk.area).Pairwise Apart)
    {ch : HeapChunk} (hch : ch ∈ chunks) {ptr : ℕ} (hown : ch.isOwnPtr ptr = true) (s : ℕ) :
    ∃ P Q, chunks = P ++ ch :: Q ∧ freeIn ptr s chunks = P ++ ch.free ptr s :: Q := by
  induction chunks with
  | nil => exact absurd hch List.not_mem_nil
  | cons c chunks ih =>
    rw [List.map_cons, List.pairwise_cons] at hap
    rcases List.mem_cons.mp hch with rfl | hmem
    · exact ⟨[], chunks, rfl, if_pos hown⟩
    · have hnot : ¬ c.isOwnPtr ptr = true := by
        intro hc
        have hc' := of_decide_eq_true hc
        have hown' := of_decide_eq_true hown
        exact (hap.1 _ (List.mem_map_of_mem hmem)).not_mem hc'.1 hc'.2 hown'
      obtain ⟨P, Q, hPQ, hfree⟩ := ih hap.2 hmem
      exact ⟨c :: P, Q, by rw [hPQ]; rfl, by rw [freeIn, if_neg hnot, hfree]; rfl⟩

omit T in
theorem within_free {ch : HeapChunk} {b c : Block} (hb : Within b ch.used) (hc : Within c ch.used)
    (hap : Apart b c) (hpos : 0 < c.size) : Within c (ch.free b.ptr b.size).used := by
  obtain ⟨hb1, hb2⟩ := hb
  obtain ⟨hc1, hc2⟩ := hc
  rw [HeapChunk.free]
  split_ifs with hlast
  · refine ⟨hc1, ?_⟩
    change c.ptr + c.size ≤ ch.data + (ch.offset - b.size)
    change ch.data ≤ b.ptr at hb1
    change c.ptr + c.size ≤ ch.data + ch.offset at hc2
    rcases hap with h | h <;> omega
  · exact ⟨hc1, hc2⟩

theorem free {b : Block} (hb : b ∈ L) (hcall : m.free b.ptr b.size = .ok m') :
    Tracks m' (L.erase b) ∧ m'.mem = m.mem ∧ m'.alignMask = m.alignMask := by
  rw [LinearChunks.free] at hcall
  split_ifs at hcall
  obtain rfl := Except.ok.inj hcall
  obtain ⟨ch, hch, hin⟩ := T.inside b hb
  have hwithin : Within (m.extent b) ch.area :=
    ⟨hin.1, hin.2.trans (used_within (T.wf.offset_le ch hch)).2⟩
  have hown : ch.isOwnPtr b.ptr = true := by
    have hpos := T.extent_bounds hb
    have hend : b.ptr + (m.extent b).size ≤ ch.data + ch.size := hwithin.2
    exact decide_eq_true ⟨hwithin.1, by omega⟩
  obtain ⟨P, Q, hPQ, hfree⟩ :=
    freeIn_split T.wf.held_apart hch hown (alignUp m.alignMask b.size)
  have hsplit : ∀ c ∈ P ++ ch.free b.ptr (alignUp m.alignMask b.size) :: Q,
      c ∈ m.chunks ∨ c = ch.free b.ptr (alignUp m.alignMask b.size) := by
    rw [hPQ]
    simp only [List.mem_append, List.mem_cons]
    tauto
  have hchfree : (ch.free b.ptr (alignUp m.alignMask b.size)).area = ch.area ∧
      (ch.free b.ptr (alignUp m.alignMask b.size)).offset ≤ ch.offset := by
    rw [HeapChunk.free]
    split_ifs
    · exact ⟨rfl, Nat.sub_le _ _⟩
    · exact ⟨rfl, le_rfl⟩
  refine ⟨⟨⟨T.wf.mask, T.wf.initial_le, ?_, ?_, ?_⟩, ?_, ?_, ?_⟩, rfl, rfl⟩
  · change ∀ c ∈ freeIn _ _ _, _
    rw [hfree]
    intro c hc
    rcases hsplit c hc with hc | rfl
    · exact T.wf.offset_le c hc
    · have hsize := congrArg Block.size hchfree.1
      have hoff := T.wf.offset_le ch hch
      change _ = ch.size at hsize
      change (ch.free _ _).size = _ at hsize
      have := hchfree.2
      omega
  · change ((freeIn _ _ _).map HeapChunk.area).Pairwise Apart
    have hheld := T.wf.held_apart
    rw [held, hPQ, List.map_append, List.map_cons] at hheld
    rw [hfree, List.map_append, List.map_cons, hchfree.1]
    exact hheld
  · change ∀ c ∈ freeIn _ _ _, _
    rw [hfree]
    intro c hc
    rcases hsplit c hc with hc | rfl
    · exact T.wf.held_space c hc
    · have hspace := T.wf.held_space ch hch
      have hdata := congrArg Block.ptr hchfree.1
      have hsize := congrArg Block.size hchfree.1
      change (ch.free _ _).data = ch.data at hdata
      change (ch.free _ _).size = ch.size at hsize
      rw [hdata, hsize]
      exact hspace
  · exact fun c hc => T.sizes c (List.mem_of_mem_erase hc)
  · exact T.apart.sublist List.erase_sublist
  · intro c hc
    have hcL := List.mem_of_mem_erase hc
    have hne : b ≠ c := fun h => (T.nodup.not_mem_erase (a := b)) (h ▸ hc)
    have hcpos := T.extent_bounds hcL
    obtain ⟨ch', hch', hin'⟩ := T.inside c hcL
    change ∃ ch ∈ freeIn _ _ _, _
    rw [hfree]
    rw [hPQ, List.mem_append, List.mem_cons] at hch'
    rcases hch' with h | rfl | h
    · exact ⟨ch', List.mem_append_left _ h, hin'⟩
    · refine ⟨_, List.mem_append_right _ (List.mem_cons_self ..), ?_⟩
      exact within_free (b := m.extent b) hin hin' (T.apart_of_ne hb hcL hne)
        (hcpos.1.trans_le hcpos.2)
    · exact ⟨ch', List.mem_append_right _ (List.mem_cons_of_mem _ h), hin'⟩

theorem reset : Tracks m.reset [] ∧ m.reset.mem = m.mem ∧ m.reset.alignMask = m.alignMask := by
  cases hchunks : m.chunks with
  | nil =>
    rw [LinearChunks.reset, hchunks]
    exact ⟨⟨T.wf, by simp, .nil, by simp⟩, rfl, rfl⟩
  | cons ch chunks =>
    cases chunks with
    | nil =>
      have hspace := T.wf.held_space ch (by rw [hchunks]; exact List.mem_singleton_self _)
      rw [LinearChunks.reset, hchunks]
      refine ⟨⟨⟨T.wf.mask, T.wf.initial_le, ?_, ?_, ?_⟩, by simp, .nil, by simp⟩, rfl, rfl⟩
      · exact List.forall_mem_singleton.mpr (Nat.zero_le _)
      · exact List.pairwise_singleton _ _
      · exact List.forall_mem_singleton.mpr hspace
    | cons ch' chunks =>
      rw [LinearChunks.reset, hchunks]
      refine ⟨⟨⟨T.wf.mask, Nat.min_le_left _ _, ?_, ?_, ?_⟩, by simp, .nil, by simp⟩, rfl, rfl⟩
      · simp
      · exact .nil
      · simp

end Tracks

end LinearChunks

end DaScript

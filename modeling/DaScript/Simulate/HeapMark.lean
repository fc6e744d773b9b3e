import DaScript.Misc.MemoryModelOps
import DaScript.Simulate.Heap

/-!
# Simulate/HeapMark — marking the blocks that stay

Between `mark()` and `sweep()` a model stands still but for its marks: a second bitmap in each deck
and the top bit of each big block's size.  `Marking` says what the state is when a set of blocks has
been marked; one more mark adds a block to the set and reports whether it was in it (`mark_spec`).
-/

open Function

namespace DaScript

open Bitmap Block

/-! ## Loops over every deck -/

section ForEach

variable {f : Deck → Except Fault Deck} {F : Deck → Deck}

theorem mapM_eq_ok_iff {l : List Deck} (hf : ∀ d ∈ l, ∀ d', f d = .ok d' → d' = F d)
    {l' : List Deck} : l.mapM f = .ok l' ↔ (∀ d ∈ l, f d = .ok (F d)) ∧ l' = l.map F := by
  induction l generalizing l' with
  | nil =>
    rw [List.mapM_nil]
    change Except.ok [] = Except.ok l' ↔ _
    simp [eq_comm]
  | cons d l ih =>
    have hl : ∀ e ∈ l, ∀ d', f e = .ok d' → d' = F e := fun e he =>
      hf e (List.mem_cons_of_mem _ he)
    rw [List.mapM_cons, bind_eq_ok, List.forall_mem_cons, List.map_cons]
    constructor
    · rintro ⟨d', hd', h⟩
      obtain ⟨rest, hrest, h⟩ := bind_eq_ok.mp h
      obtain ⟨hall, rfl⟩ := (ih hl).mp hrest
      obtain rfl := hf d (List.mem_cons_self ..) d' hd'
      exact ⟨⟨hd', hall⟩, (Except.ok.inj h).symm⟩
    · rintro ⟨⟨hd, hall⟩, rfl⟩
      exact ⟨_, hd, bind_eq_ok.mpr ⟨_, (ih hl).mpr ⟨hall, rfl⟩, rfl⟩⟩

theorem foldlM_classes {s s' : Shoe} {C : List ℕ} (hC : C.Nodup)
    (hf : ∀ si ∈ C, ∀ d ∈ s.chunks si, ∀ d', f d = .ok d' → d' = F d) :
    C.foldlM (fun s si => do
      let chunks ← (s.chunks si).mapM f
      pure { s with chunks := update s.chunks si chunks }) s = .ok s' ↔
    (∀ si ∈ C, ∀ d ∈ s.chunks si, f d = .ok (F d)) ∧
      s' = { s with chunks := fun si => if si ∈ C then (s.chunks si).map F else s.chunks si } := by
  induction C generalizing s with
  | nil =>
    change Except.ok s = Except.ok s' ↔ _
    simp [eq_comm]
  | cons c C ih =>
    obtain ⟨hc, hC⟩ := List.nodup_cons.mp hC
    have hchain : ∀ l, (s.chunks c).mapM f = .ok l ↔ _ := fun _ =>
      mapM_eq_ok_iff (hf c (List.mem_cons_self ..))
    -- the classes still to come are as they were
    have hrest : ∀ l, ∀ si ∈ C, update s.chunks c l si = s.chunks si := fun l si hsi =>
      update_of_ne (fun h => hc (by rwa [h] at hsi)) _ _
    have hih := fun l => ih (s := { s with chunks := update s.chunks c l }) hC
      (fun si hsi d hd => hf si (List.mem_cons_of_mem _ hsi) d (hrest l si hsi ▸ hd))
    have hsame : ∀ l, l = (s.chunks c).map F → (fun si => if si ∈ C
        then (update s.chunks c l si).map F else update s.chunks c l si)
        = fun si => if si ∈ c :: C then (s.chunks si).map F else s.chunks si := by
      rintro l rfl
      funext si
      by_cases hsi : si ∈ C
      · rw [if_pos hsi, if_pos (List.mem_cons_of_mem _ hsi), hrest _ si hsi]
      · by_cases hsc : si = c
        · subst hsc
          rw [if_neg hsi, if_pos (List.mem_cons_self ..), update_self]
        · rw [if_neg hsi, if_neg (by simp [hsi, hsc]), update_of_ne hsc]
    rw [List.foldlM_cons, bind_eq_ok, List.forall_mem_cons]
    constructor
    · rintro ⟨s₁, hs₁, h⟩
      obtain ⟨l, hl, hs₁⟩ := bind_eq_ok.mp hs₁
      obtain rfl := Except.ok.inj hs₁
      obtain ⟨hall, rfl⟩ := (hchain _).mp hl
      obtain ⟨hmore, rfl⟩ := (hih _).mp h
      refine ⟨⟨hall, fun si hsi d hd => hmore si hsi d ?_⟩, ?_⟩
      · change d ∈ update s.chunks c _ si
        rwa [hrest _ si hsi]
      · rw [← hsame _ rfl]
    · rintro ⟨⟨hall, hmore⟩, rfl⟩
      refine ⟨_, bind_eq_ok.mpr ⟨_, (hchain _).mpr ⟨hall, rfl⟩, rfl⟩, (hih _).mpr ⟨?_, ?_⟩⟩
      · intro si hsi d hd
        change d ∈ update s.chunks c _ si at hd
        rw [hrest _ si hsi] at hd
        exact hmore si hsi d hd
      · rw [← hsame _ rfl]

theorem forEachDeck_iff {s s' : Shoe} (hf : ∀ d ∈ s.decks, ∀ d', f d = .ok d' → d' = F d) :
    s.forEachDeck f = .ok s' ↔ (∀ d ∈ s.decks, f d = .ok (F d)) ∧ s' = s.mapDecks F := by
  have hclass : ∀ {P : Deck → Prop}, (∀ d ∈ s.decks, P d) ↔
      ∀ si ∈ List.range maxShoeChunks, ∀ d ∈ s.chunks si, P d := by
    intro P
    simp only [Shoe.mem_decks, List.mem_range]
    exact ⟨fun h si hsi d hd => h d ⟨si, hsi, hd⟩, fun h d ⟨si, hsi, hd⟩ => h si hsi d hd⟩
  rw [Shoe.forEachDeck, foldlM_classes List.nodup_range (hclass.mp hf), hclass, Shoe.mapDecks]
  simp only [List.mem_range]

end ForEach

/-! ## Marks -/

namespace Deck

/-- The deck between `beforeGC` and `afterGC`, `gc` being the second bitmap. -/
def marking (gc : ℕ → ℕ → BitVec 32) (d : Deck) : Deck :=
  { d with
    gcBits := some (gc d.data)
    look := 0
    gcAllocated := popcount (gc d.data) (d.total / 32) }

/-- The deck after `afterGC`. -/
def collected (gc : ℕ → ℕ → BitVec 32) (d : Deck) : Deck :=
  { d with
    bits := gc d.data
    gcBits := none
    look := 0
    allocated := popcount (gc d.data) (d.total / 32)
    gcAllocated := popcount (gc d.data) (d.total / 32) }

theorem beforeGC_eq {posix : Posix} {d d' : Deck} (hok : d.Ok)
    (h : d.beforeGC posix = .ok d') : d' = d.marking fun _ _ => 0#32 := by
  have hwords := hok.total_words
  have hpos := hok.total_pos
  rw [beforeGC, if_neg (by omega)] at h
  obtain ⟨_, -, h⟩ := bind_eq_ok.mp h
  obtain rfl := Except.ok.inj h
  have hzero : popcount (fun _ => 0#32) (d.total / 32) = 0 := by
    rw [popcount_eq_length, members_zero, List.length_nil]
  rw [marking, hzero]

theorem afterGC_marking {gc : ℕ → ℕ → BitVec 32} {d : Deck} (hok : d.Ok) :
    (d.marking gc).afterGC = .ok (d.collected gc) := by
  have hwords := hok.total_words
  have hpos := hok.total_pos
  have hne : ¬ (d.marking gc).total / 32 * 4 = 0 := by
    change ¬ d.total / 32 * 4 = 0
    omega
  rw [afterGC, if_neg hne]
  rfl

theorem mark_marking (gc : ℕ → ℕ → BitVec 32) {d : Deck} (hok : d.Ok) {k : ℕ} (hk : k < d.total) :
    ∃ gc', (d.marking gc).mark (d.slot k).ptr
        = .ok (!bit (gc d.data) k, { d.marking gc with
            gcBits := some gc'
            gcAllocated := popcount gc' (d.total / 32) }) ∧
      bit gc' = update (bit (gc d.data)) k true := by
  have hmod : k % 32 < 32 := Nat.mod_lt _ (by omega)
  have hwords := hok.total_words
  have hidx : ((d.slot k).ptr - (d.marking gc).data) / (d.marking gc).size = k := hok.slot_index k
  have htotal : ¬ ¬ k < (d.marking gc).total := not_not_intro hk
  rw [mark, hidx, if_neg htotal]
  change ∃ gc', (if gc d.data (k / 32) &&& flag (k % 32) = 0#32 then _ else _) = _ ∧ _
  cases hbit : bit (gc d.data) k with
  | true =>
    refine ⟨gc d.data, ?_, ?_⟩
    · rw [if_neg]
      · rfl
      · rw [and_flag_eq_zero hmod, ← bit, hbit]
        exact Bool.noConfusion
    · rw [← hbit, update_eq_self]
  | false =>
    set gc' := update (gc d.data) (k / 32) (gc d.data (k / 32) ||| flag (k % 32)) with hgc'
    have hupdate : bit gc' = update (bit (gc d.data)) k true := by
      rw [hgc', bit_or_flag _ hmod, show k / 32 * 32 + k % 32 = k by omega]
    -- the counter grows with the bitmap
    have hcount : popcount (gc d.data) (d.total / 32) + 1 = popcount gc' (d.total / 32) := by
      rw [popcount_eq_length, popcount_eq_length, hwords, hupdate,
        (members_update hk hbit).length_eq, List.length_cons]
    refine ⟨gc', ?_, hupdate⟩
    rw [if_pos ((and_flag_eq_zero hmod).mpr hbit), ← hcount]
    rfl

end Deck

/-! ## The top bit of a big block's size -/

section PageGcMask

variable {size : ℕ} (h : size < pageGcMask)
include h

theorem or_pageGcMask : size ||| pageGcMask = pageGcMask + size := by
  have := Nat.two_pow_add_eq_or_of_lt (i := 63) h 1
  rw [Nat.mul_one] at this
  rw [Nat.or_comm, pageGcMask, this]

theorem unmarked_and : size &&& pageGcMask = 0 := by
  rw [pageGcMask, Nat.and_two_pow, Nat.testBit_lt_two_pow h]
  rfl

theorem marked_and : (size ||| pageGcMask) &&& pageGcMask ≠ 0 := by
  rw [Nat.and_or_distrib_right, Nat.and_self, unmarked_and h]
  decide

omit h in
theorem marked_or : (size ||| pageGcMask) ||| pageGcMask = size ||| pageGcMask := by
  rw [Nat.or_assoc, Nat.or_self]

theorem marked_clear : (size ||| pageGcMask) &&& (2 ^ 64 - 1 - pageGcMask) = size := by
  rw [or_pageGcMask h, show 2 ^ 64 - 1 - pageGcMask = 2 ^ 63 - 1 by decide,
    Nat.and_two_pow_sub_one_eq_mod, show pageGcMask = 2 ^ 63 from rfl, Nat.add_mod_left]
  exact Nat.mod_eq_of_lt h

end PageGcMask

namespace MemoryModel

/-! ## Marking -/

/-- A big block among the blocks `M` that are marked. -/
def markBig (M : List Block) (b : Block) : Block :=
  if b ∈ M then ⟨b.ptr, b.size ||| pageGcMask⟩ else b

/-- **`m` is `m₀` with the blocks `M` marked**, `gc` being the decks' second bitmaps. -/
structure Marking (m₀ m : MemoryModel) (M : List Block) (gc : ℕ → ℕ → BitVec 32) : Prop where
  chunks : ∀ si < maxShoeChunks, m.shoe.chunks si = (m₀.shoe.chunks si).map (Deck.marking gc)
  bits : ∀ d ∈ m₀.shoe.decks, ∀ k < d.total,
    bit (gc d.data) k = true ↔ bit d.bits k = true ∧ d.slot k ∈ M
  big : m.bigStuff = m₀.bigStuff.map (markBig M)
  same : Same m₀ m
  mem : m.mem = m₀.mem

variable {m₀ m m' : MemoryModel} {M : List Block} {gc : ℕ → ℕ → BitVec 32}

@[simp] theorem markBig_ptr (M : List Block) (b : Block) : (markBig M b).ptr = b.ptr := by
  rw [markBig]
  split_ifs <;> rfl

theorem Marking.decks (K : Marking m₀ m M gc) :
    m.shoe.decks = m₀.shoe.decks.map (Deck.marking gc) := by
  rw [Shoe.decks, Shoe.decks, List.map_flatMap]
  exact List.flatMap_congr fun si hsi => K.chunks si (List.mem_range.mp hsi)

theorem beginMark_spec (h : m.WellFormed) {posix : Posix} (hm : m.beginMark posix = .ok m') :
    Marking m m' [] fun _ _ => 0#32 := by
  obtain ⟨shoe, hshoe, hm⟩ := bind_eq_ok.mp hm
  obtain rfl := Except.ok.inj hm
  have hf : ∀ d ∈ m.shoe.decks, ∀ d', d.beforeGC posix = .ok d' → d' = d.marking fun _ _ => 0#32 :=
    fun d hd d' => Deck.beforeGC_eq (h.deck_ok hd)
  obtain ⟨-, rfl⟩ := (forEachDeck_iff hf).mp hshoe
  refine ⟨fun si hsi => if_pos hsi, fun d hd k hk => ?_, ?_, ⟨rfl, rfl⟩, rfl⟩
  · simp [bit_zero]
  · exact (List.map_id'' (fun _ => if_neg List.not_mem_nil) _).symm

/-! ## One mark -/

namespace WellFormed

variable (h : m.WellFormed)
include h

theorem owner_unique {d e : Deck} (hd : d ∈ m.shoe.decks) (he : e ∈ m.shoe.decks) {ptr : ℕ}
    (hdp : d.isOwnPtr ptr = true) (hep : e.isOwnPtr ptr = true) : d = e := by
  by_contra hde
  have hapart : m.shoe.decks.Pairwise fun d e => Apart d.area e.area :=
    List.pairwise_map.mp (List.pairwise_append.mp h.held_apart).1
  have hsymm : Std.Symm fun d e : Deck => Apart d.area e.area := ⟨fun _ _ h => h.symm⟩
  have hno := Deck.isOwnPtr_apart (hapart.forall hd he hde) hdp
  rw [hno] at hep
  exact Bool.noConfusion hep

theorem data_unique {d e : Deck} (hd : d ∈ m.shoe.decks) (he : e ∈ m.shoe.decks)
    (hdata : d.data = e.data) : d = e := by
  have hfirst : ∀ x ∈ m.shoe.decks, x.isOwnPtr x.data = true := fun x hx => by
    have hok := h.deck_ok hx
    have := hok.isOwnPtr_slot hok.total_pos
    simpa [Deck.slot] using this
  exact h.owner_unique hd he (hfirst d hd) (hdata ▸ hfirst e he)

end WellFormed

theorem shoe_mark_eq (h : m₀.WellFormed) (K : Marking m₀ m M gc) {si : ℕ}
    (hsi : si < maxShoeChunks) {d : Deck} (hd : d ∈ m₀.shoe.chunks si) {ptr size : ℕ}
    (hown : d.isOwnPtr ptr = true) (hsize : alignUp 15 size = (si + 1) * 16) :
    ∃ last, m.shoe.mark ptr size
      = Shoe.markDeck { m.shoe with lastChunk := last } (d.marking gc) ptr := by
  have hdecks := K.decks
  have hmem : d ∈ m₀.shoe.decks := Shoe.mem_decks.mpr ⟨si, hsi, hd⟩
  have hmine : ∀ ch ∈ m.shoe.decks, ch.isOwnPtr ptr = true → ch = d.marking gc := by
    intro ch hch hcown
    rw [hdecks] at hch
    obtain ⟨e, he, rfl⟩ := List.mem_map.mp hch
    rw [h.owner_unique he hmem hcown hown]
  have hgood : ¬ (alignUp 15 size = 0 ∨ maxShoe < alignUp 15 size) := by
    rw [hsize, maxShoe]
    rw [maxShoeChunks, maxShoe] at hsi
    omega
  have hclass : Shoe.sizeClass (alignUp 15 size) = si := by
    rw [hsize, Shoe.sizeClass]
    omega
  rw [Shoe.mark, if_neg hgood, hclass]
  cases hlast : m.shoe.last.filter (·.isOwnPtr ptr) with
  | some ch =>
    obtain ⟨hch, hcown⟩ := Option.filter_eq_some_iff.mp hlast
    obtain ⟨a, -, hfind⟩ := Option.bind_eq_some_iff.mp hch
    rw [← hmine ch (List.mem_of_find?_eq_some hfind) hcown]
    exact ⟨m.shoe.lastChunk, rfl⟩
  | none =>
    -- `lastChunk` is not the owner, so the chain is searched
    have hnot : m.shoe.lastChunk ≠ some d.data := by
      intro hlc
      have hfind : m.shoe.last = some (d.marking gc) := by
        rw [Shoe.last, hlc, Option.bind_some]
        cases hf : m.shoe.decks.find? (fun ch => ch.data = d.data) with
        | none =>
          have := List.find?_eq_none.mp hf (d.marking gc) (hdecks ▸ List.mem_map_of_mem hmem)
          exact absurd (show decide ((d.marking gc).data = d.data) = true from decide_eq_true rfl)
            this
        | some ch =>
          have hcd : ch.data = d.data := by simpa using List.find?_some hf
          have hch := List.mem_of_find?_eq_some hf
          rw [hdecks] at hch
          obtain ⟨e, he, rfl⟩ := List.mem_map.mp hch
          rw [h.data_unique he hmem hcd]
      have hown' : (d.marking gc).isOwnPtr ptr = true := hown
      rw [hfind, Option.filter_some, if_pos hown'] at hlast
      cases hlast
    cases howner : m.shoe.ownerIn si ptr with
    | none =>
      have hin : d.marking gc ∈ m.shoe.chunks si := K.chunks si hsi ▸ List.mem_map_of_mem hd
      have := List.find?_eq_none.mp howner _ hin
      exact absurd (decide_eq_true ⟨hnot, hown⟩) this
    | some ch =>
      have hch := List.mem_of_find?_eq_some howner
      have hcown : m.shoe.lastChunk ≠ some ch.data ∧ ch.isOwnPtr ptr = true := by
        simpa using List.find?_some howner
      rw [← hmine ch (Shoe.mem_decks.mpr ⟨si, hsi, hch⟩) hcown.2]
      exact ⟨some ch.data, rfl⟩

theorem mark_slot_spec (h : m₀.WellFormed) (K : Marking m₀ m M gc) {si : ℕ}
    (hsi : si < maxShoeChunks) {d : Deck} (hd : d ∈ m₀.shoe.chunks si) {k : ℕ} (hk : k < d.total)
    (htaken : bit d.bits k = true) {size : ℕ} (hsize : alignUp 15 size = (si + 1) * 16) :
    ∃ shoe gc', m.shoe.mark (d.slot k).ptr size = .ok (decide (d.slot k ∉ M), shoe) ∧
      Marking m₀ { m with shoe := shoe } (d.slot k :: M) gc' := by
  have hmem : d ∈ m₀.shoe.decks := Shoe.mem_decks.mpr ⟨si, hsi, hd⟩
  have hok := h.deck_ok hmem
  have hown := hok.isOwnPtr_slot hk
  obtain ⟨last, hmark⟩ := shoe_mark_eq h K hsi hd hown hsize
  obtain ⟨gcd, hdeck, hgcd⟩ := Deck.mark_marking gc hok hk
  have hfirst : (!bit (gc d.data) k) = decide (d.slot k ∉ M) := by
    have hiff := K.bits d hmem k hk
    rw [htaken] at hiff
    cases hbit : bit (gc d.data) k <;> simp_all
  set gc' := update gc d.data gcd with hgc'
  have hself : { d.marking gc with
      gcBits := some gcd
      gcAllocated := popcount gcd (d.total / 32) } = d.marking gc' := by
    rw [Deck.marking, Deck.marking, hgc', update_self]
  rw [hself, hfirst] at hdeck
  refine ⟨{ chunks := fun sj => (m.shoe.chunks sj).map fun e =>
      if e.data = d.data then d.marking gc' else e, lastChunk := last }, gc', ?_, ?_, ?_, ?_,
    ⟨K.same.mask, K.same.shoe_max⟩, K.mem⟩
  · rw [hmark, Shoe.markDeck, hdeck]
    rfl
  · intro sj hsj
    change (m.shoe.chunks sj).map _ = _
    rw [K.chunks sj hsj, List.map_map]
    refine List.map_congr_left fun e he => ?_
    change (if e.data = d.data then d.marking gc' else e.marking gc) = _
    by_cases hed : e.data = d.data
    · rw [if_pos hed, h.data_unique (Shoe.mem_decks.mpr ⟨sj, hsj, he⟩) hmem hed]
    · rw [if_neg hed, Deck.marking, Deck.marking, hgc', update_of_ne hed]
  · intro e he j hj
    rw [List.mem_cons]
    by_cases hed : e = d
    · subst hed
      rw [hgc', update_self, hgcd, update_apply]
      by_cases hjk : j = k
      · simp [hjk, htaken]
      · have hslot : e.slot j ≠ e.slot k := fun heq =>
          hjk (by rw [← hok.slot_index j, ← hok.slot_index k, heq])
        rw [if_neg hjk, K.bits e he j hj]
        simp [hslot]
    · have hdata : e.data ≠ d.data := fun heq => hed (h.data_unique he hmem heq)
      have hslot : e.slot j ≠ d.slot k := fun heq =>
        hed (h.owner_unique he hmem ((h.deck_ok he).isOwnPtr_slot hj) (heq ▸ hown))
      rw [hgc', update_of_ne hdata, K.bits e he j hj]
      simp [hslot]
  · change m.bigStuff = _
    rw [K.big]
    refine List.map_congr_left fun b hb => ?_
    have hne : b ≠ d.slot k := fun heq => by
      have h1 := h.big_size b hb
      have h2 := h.deck_size d hmem
      rw [heq] at h1
      exact absurd h2 (Nat.not_le.mpr h1)
    simp only [markBig, List.mem_cons, hne, false_or]

theorem mark_big_spec (h : m₀.WellFormed) (K : Marking m₀ m M gc) {b : Block}
    (hb : b ∈ m₀.bigStuff) :
    (m.bigStuff.find? fun c => c.ptr = b.ptr) = some (markBig M b) ∧
      decide ((markBig M b).size &&& pageGcMask = 0) = decide (b ∉ M) ∧
      Marking m₀ { m with bigStuff := m.bigStuff.map fun c =>
        if c.ptr = b.ptr then ⟨c.ptr, c.size ||| pageGcMask⟩ else c } (b :: M) gc := by
  have hsmall : b.size < pageGcMask := by
    have := (h.blocks_space (List.mem_append_right _ hb)).2.2
    rw [addressSpace] at this
    rw [pageGcMask]
    omega
  refine ⟨?_, ?_, K.chunks, ?_, ?_, ⟨K.same.mask, K.same.shoe_max⟩, K.mem⟩
  · rw [K.big, List.find?_map]
    have hptr : ((fun c : Block => decide (c.ptr = b.ptr)) ∘ markBig M)
        = fun c => decide (c.ptr = b.ptr) := by
      funext c
      rw [comp_apply, markBig_ptr]
    rw [hptr, (find_big h hb).1, Option.map_some]
  · rw [markBig]
    split_ifs with hM
    · simp [marked_and hsmall, hM]
    · simp [unmarked_and hsmall, hM]
  · intro d hd k hk
    have hne : d.slot k ≠ b := fun heq => by
      have h1 := h.big_size b hb
      have h2 := h.deck_size d hd
      rw [← heq] at h1
      exact absurd h2 (Nat.not_le.mpr h1)
    rw [K.bits d hd k hk]
    simp [hne]
  · change List.map _ m.bigStuff = _
    rw [K.big, List.map_map]
    refine List.map_congr_left fun c hc => ?_
    rw [comp_apply, markBig_ptr]
    by_cases hcb : c.ptr = b.ptr
    · have hceq : c = b := by
        have h1 := (find_big h hb).1
        have h2 := (find_big h hc).1
        rw [hcb, h1] at h2
        exact (Option.some.inj h2).symm
      rw [if_pos hcb, hceq, markBig, markBig, if_pos (List.mem_cons_self ..)]
      split_ifs
      · rw [marked_or]
      · rfl
    · have hne : c ≠ b := fun heq => hcb (heq ▸ rfl)
      simp only [if_neg hcb, markBig, List.mem_cons, hne, false_or]

theorem Marking.congr {M' : List Block} (K : Marking m₀ m M gc) (hM : ∀ x, x ∈ M' ↔ x ∈ M) :
    Marking m₀ m M' gc := by
  refine ⟨K.chunks, fun d hd k hk => ?_, ?_, K.same, K.mem⟩
  · rw [K.bits d hd k hk, hM]
  · rw [K.big]
    refine List.map_congr_left fun b _ => ?_
    simp only [markBig, hM]

theorem mark_size (h : m.WellFormed) {size : ℕ} (hpos : 0 < size) (hspace : size ≤ addressSpace) :
    (alignUp 15 size ≤ m.maxShoeAllocation ↔ alignUp m.alignMask size ≤ m.maxShoeAllocation) ∧
      (alignUp m.alignMask size ≤ m.maxShoeAllocation →
        alignUp 15 (alignUp m.alignMask size) = alignUp 15 size) := by
  rw [addressSpace] at hspace
  have hmax : m.maxShoeAllocation = 256 ∨ m.maxShoeAllocation = 0 := h.shoe_max
  have h15 : alignUp 15 size = (size + 15) / 16 * 16 := alignUp_fifteen (by omega)
  have h3 : alignUp 3 size = (size + 3) / 4 * 4 := alignUp_three (by omega)
  rcases h.mask with hmask | hmask
  · have hidem := alignUp_fifteen (show (size + 15) / 16 * 16 + 15 < 2 ^ 64 by omega)
    rw [hmask, h15, hidem]
    omega
  · have hidem := alignUp_fifteen (show (size + 3) / 4 * 4 + 15 < 2 ^ 64 by omega)
    rw [hmask, h15, h3, hidem]
    omega

section Collect

variable {L : List Block} (T : Tracks m₀ L)
include T

theorem Tracks.size_le {b : Block} (hb : b ∈ L) : b.size ≤ addressSpace := by
  have h1 := T.aligned_bounds hb
  have h2 := (T.wf.blocks_space (T.extent_mem hb)).2.2
  omega

theorem Tracks.extent_mem_map {b : Block} (hb : b ∈ L) {seen : List Block}
    (hseen : ∀ c ∈ seen, c ∈ L) : m₀.extent b ∈ seen.map m₀.extent ↔ b ∈ seen := by
  constructor
  · intro hmem
    obtain ⟨c, hc, heq⟩ := List.mem_map.mp hmem
    have hptr : (m₀.extent c).ptr = (m₀.extent b).ptr := congrArg Block.ptr heq
    rwa [← T.eq_of_ptr_eq (hseen c hc) hb hptr]
  · exact List.mem_map_of_mem

theorem mark_spec (K : Marking m₀ m M gc) {b : Block} (hb : b ∈ L) {shoeSize : ℕ}
    (hshoe : alignUp 15 b.size ≤ maxShoe → alignUp 15 shoeSize = alignUp 15 b.size) :
    ∃ m' gc', markWith shoeSize m b.ptr b.size = .ok (decide (m₀.extent b ∉ M), m') ∧
      Marking m₀ m' (m₀.extent b :: M) gc' := by
  have h := T.wf
  obtain ⟨hpos, hwrap⟩ := T.sizes b hb
  obtain ⟨hiff, hround⟩ := mark_size h hpos (T.size_le hb)
  have hmem := T.extent_mem hb
  rw [← K.same.shoe_max] at hiff
  by_cases hsmall : alignUp m₀.alignMask b.size ≤ m₀.maxShoeAllocation
  · have hext : m₀.extent b = ⟨b.ptr, alignUp 15 b.size⟩ := by
      rw [extent, if_pos hsmall, hround hsmall]
    rw [hext] at hmem ⊢
    have hle : alignUp 15 b.size ≤ m₀.maxShoeAllocation := by
      rw [K.same.shoe_max] at hiff
      exact hiff.mpr hsmall
    obtain ⟨si, hsi, hsize, hslot⟩ := h.small_of_mem hmem hle
    obtain ⟨d, hd, hbd⟩ := List.mem_flatMap.mp hslot
    obtain ⟨k, hk, htaken, heq⟩ := Deck.mem_slots.mp hbd
    have hmax : alignUp 15 b.size ≤ maxShoe := by
      rcases h.shoe_max with h | h <;> omega
    obtain ⟨shoe, gc', hmark, K'⟩ :=
      mark_slot_spec h K hsi hd hk htaken ((hshoe hmax).trans hsize)
    refine ⟨_, gc', ?_, heq ▸ K'⟩
    have hptr : b.ptr = (d.slot k).ptr := by rw [← heq]
    rw [markWith, if_pos (by rw [K.same.shoe_max]; exact hle), hptr, hmark]
    rw [← heq]
    rfl
  · have hext : m₀.extent b = ⟨b.ptr, alignUp m₀.alignMask b.size⟩ := by
      rw [extent, if_neg hsmall]
    have hbig : m₀.extent b ∈ m₀.bigStuff :=
      h.big_of_mem hmem (by rw [hext]; exact Nat.not_le.mp hsmall)
    obtain ⟨hfind, hfirst, K'⟩ := mark_big_spec h K hbig
    refine ⟨_, gc, ?_, K'⟩
    have hnot : ¬ alignUp 15 b.size ≤ m.maxShoeAllocation := by
      rw [hiff, K.same.shoe_max]
      exact hsmall
    have hptr : (m₀.extent b).ptr = b.ptr := rfl
    rw [hptr] at hfind
    rw [markWith, if_neg hnot, hfind, ← hfirst]
    rfl

theorem markAll_spec {mark : MemoryModel → ℕ → ℕ → Except Fault (Bool × MemoryModel)}
    (hmark : ∀ {m M gc}, Marking m₀ m M gc → ∀ {b}, b ∈ L → ∃ m' gc',
      mark m b.ptr b.size = .ok (decide (m₀.extent b ∉ M), m') ∧
        Marking m₀ m' (m₀.extent b :: M) gc')
    {marks seen : List Block} (hmarks : ∀ b ∈ marks, b ∈ L) (hseen : ∀ b ∈ seen, b ∈ L)
    (K : Marking m₀ m (seen.map m₀.extent) gc) :
    ∃ m' gc', markAll mark marks m
        = .ok (marks.mapIdx fun i b => decide (b ∉ seen ++ marks.take i), m') ∧
      Marking m₀ m' ((seen ++ marks).map m₀.extent) gc' := by
  induction marks generalizing m gc seen with
  | nil => exact ⟨m, gc, rfl, by rwa [List.append_nil]⟩
  | cons b marks ih =>
    obtain ⟨hb, hrest⟩ := List.forall_mem_cons.mp hmarks
    obtain ⟨m₁, gc₁, hm₁, K₁⟩ := hmark K hb
    have K₁' : Marking m₀ m₁ ((seen ++ [b]).map m₀.extent) gc₁ :=
      K₁.congr fun x => by simp [or_comm]
    have hseen' : ∀ c ∈ seen ++ [b], c ∈ L := by
      intro c hc
      rcases List.mem_append.mp hc with hc | hc
      · exact hseen c hc
      · rwa [List.mem_singleton.mp hc]
    obtain ⟨m', gc', hm', K'⟩ := ih hrest hseen' K₁'
    refine ⟨m', gc', ?_, by simpa using K'⟩
    have hfirst : decide (m₀.extent b ∉ seen.map m₀.extent) = decide (b ∉ seen) := by
      rw [decide_eq_decide, T.extent_mem_map hb hseen]
    rw [markAll, hm₁]
    change (markAll mark marks m₁ >>= _) = _
    rw [hm', List.mapIdx_cons, hfirst, List.take_zero, List.append_nil]
    simp only [List.take_succ_cons, List.append_assoc, List.singleton_append]
    rfl

end Collect

end MemoryModel

end DaScript

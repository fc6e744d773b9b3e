import DaScript.Misc.MemoryModel

/-!
# Misc/DeckSteps — what one deck does

A deck is its data area cut into slots, and the set of slots that are taken (`slots`).  `allocate`
takes a free slot, and the search for one cannot fail while the counter says there is one
(`allocate_spec`); `free` gives back the slot it is asked to (`free_spec`).
-/

open Function

namespace DaScript

open Bitmap Block

namespace Deck

/-- The data of a deck. -/
def area (d : Deck) : Block := ⟨d.data, d.totalBytes⟩

/-- The `k`-th slot. -/
def slot (d : Deck) (k : ℕ) : Block := ⟨d.data + k * d.size, d.size⟩

/-- The slots that are taken. -/
def slots (d : Deck) : List Block := (members (bit d.bits) d.total).map d.slot

/-- **A deck in order**: whole words of slots, and a counter that is the popcount of the bitmap. -/
structure Ok (d : Deck) : Prop where
  total_pos : 0 < d.total
  total_words : d.total / 32 * 32 = d.total
  size_pos : 0 < d.size
  totalBytes_eq : d.totalBytes = d.total * d.size
  look_lt : d.look < d.total / 32
  allocated_eq : d.allocated = popcount d.bits (d.total / 32)

/-- The same data, cut into the same slots. -/
structure Alike (d d' : Deck) : Prop where
  data_eq : d'.data = d.data
  total_eq : d'.total = d.total
  size_eq : d'.size = d.size
  totalBytes_eq : d'.totalBytes = d.totalBytes

theorem Alike.area_eq {d d' : Deck} (h : Alike d d') : d'.area = d.area := by
  rw [area, area, h.data_eq, h.totalBytes_eq]

theorem Alike.slot_eq {d d' : Deck} (h : Alike d d') : d'.slot = d.slot := by
  funext k
  rw [slot, slot, h.data_eq, h.size_eq]

theorem isOwnPtr_iff {d : Deck} {ptr : ℕ} :
    d.isOwnPtr ptr = true ↔ d.data ≤ ptr ∧ ptr < d.data + d.totalBytes := decide_eq_true_iff

theorem mem_slots {d : Deck} {b : Block} :
    b ∈ d.slots ↔ ∃ k < d.total, bit d.bits k = true ∧ b = d.slot k := by
  constructor
  · intro hb
    obtain ⟨k, hk, rfl⟩ := List.mem_map.mp hb
    obtain ⟨hkt, hbit⟩ := mem_members.mp hk
    exact ⟨k, hkt, hbit, rfl⟩
  · rintro ⟨k, hk, hbit, rfl⟩
    exact List.mem_map.mpr ⟨k, mem_members.mpr ⟨hk, hbit⟩, rfl⟩

namespace Ok

variable {d : Deck} (h : d.Ok)
include h

theorem allocated_eq_length : d.allocated = d.slots.length := by
  rw [h.allocated_eq, popcount_eq_length, h.total_words, slots, List.length_map]

theorem slot_within {k : ℕ} (hk : k < d.total) : Within (d.slot k) d.area := by
  refine ⟨Nat.le_add_right _ _, ?_⟩
  have := Nat.mul_le_mul_right d.size (show k + 1 ≤ d.total by omega)
  rw [slot, area, h.totalBytes_eq]
  dsimp only
  rw [Nat.add_mul, Nat.one_mul] at this
  omega

theorem within {b : Block} (hb : b ∈ d.slots) : Within b d.area := by
  obtain ⟨k, hk, -, rfl⟩ := mem_slots.mp hb
  exact h.slot_within hk

theorem slot_index (k : ℕ) : ((d.slot k).ptr - d.data) / d.size = k := by
  rw [slot, Nat.add_sub_cancel_left, Nat.mul_div_cancel _ h.size_pos]

theorem isOwnPtr_slot {k : ℕ} (hk : k < d.total) : d.isOwnPtr (d.slot k).ptr = true := by
  obtain ⟨h1, h2⟩ := h.slot_within hk
  have h2' : (d.slot k).ptr + d.size ≤ d.data + d.totalBytes := h2
  have := h.size_pos
  exact isOwnPtr_iff.mpr ⟨h1, by omega⟩

theorem isOwnPtr_of_mem {b : Block} (hb : b ∈ d.slots) : d.isOwnPtr b.ptr = true := by
  obtain ⟨k, hk, -, rfl⟩ := mem_slots.mp hb
  exact h.isOwnPtr_slot hk

end Ok

theorem slots_apart (d : Deck) : d.slots.Pairwise Apart := by
  rw [slots, List.pairwise_map]
  refine (List.pairwise_lt_range.sublist List.filter_sublist).imp fun {i j} hij => Or.inl ?_
  have := Nat.mul_le_mul_right d.size (show i + 1 ≤ j from hij)
  rw [Nat.add_mul, Nat.one_mul] at this
  simp only [slot]
  omega

theorem nextWord_ring (d : Deck) : Probing.IsRing d.nextWord (d.total / 32) := by
  intro i hi
  rw [nextWord]
  split_ifs with hwrap
  · rw [hwrap, Nat.mod_self]
  · rw [Nat.mod_eq_of_lt (by omega)]

theorem isOwnPtr_apart {d d' : Deck} (h : Apart d.area d'.area) {ptr : ℕ}
    (hp : d.isOwnPtr ptr = true) : d'.isOwnPtr ptr = false := by
  obtain ⟨h1, h2⟩ := isOwnPtr_iff.mp hp
  rw [← Bool.not_eq_true, isOwnPtr_iff]
  exact h.not_mem h1 h2

/-! ## Taking a slot -/

theorem perm_take {d d' : Deck} (ha : Alike d d') {k : ℕ} (hk : k < d.total)
    (hfree : bit d.bits k = false) (hbit : bit d'.bits = update (bit d.bits) k true) :
    d'.slots.Perm (d.slot k :: d.slots) := by
  rw [slots, slots, ha.slot_eq, ha.total_eq, hbit, ← List.map_cons]
  exact (members_update hk hfree).map _

theorem allocate_spec {d : Deck} (h : d.Ok) :
    (d.allocated = d.total ∧ d.allocate = .ok (none, d)) ∨
      ∃ k d', k < d.total ∧ d.allocate = .ok (some (d.slot k).ptr, d') ∧ d'.Ok ∧ Alike d d' ∧
        d'.slots.Perm (d.slot k :: d.slots) := by
  by_cases hfull : d.allocated = d.total
  · exact Or.inl ⟨hfull, if_pos hfull⟩
  right
  have hwords := h.total_words
  -- the counter is short of the total, so a bit is clear, so some word is not full
  have hmissing : ∃ k < d.total, bit d.bits k = false := by
    refine exists_missing ?_
    have hle := length_members_le (bit d.bits) d.total
    have hcount := h.allocated_eq_length
    rw [slots, List.length_map] at hcount
    omega
  have hword : ∃ i < d.total / 32, decide (~~~d.bits i ≠ 0#32) = true := by
    obtain ⟨k, hk, hbit⟩ := hmissing
    exact ⟨k / 32, by omega, decide_eq_true (not_ne_zero (Nat.mod_lt _ (by omega)) hbit)⟩
  obtain ⟨t, ht, hvac, hnot, -⟩ := Probing.vacant_spec (nextWord_ring d) h.look_lt hword
  set look := Probing.slot (d.total / 32) d.look t with hlook
  have hlt : look < d.total / 32 := Probing.slot_lt (by omega) _ _
  obtain ⟨hj, hclear⟩ := getLsbD_highest_zero (of_decide_eq_true hnot)
  set j := 31 - (~~~d.bits look).clz.toNat with hjdef
  have hofs : look * 32 + j < d.total := by omega
  have hbit : bit d.bits (look * 32 + j) = false := by
    rw [bit, show (look * 32 + j) / 32 = look by omega, show (look * 32 + j) % 32 = j by omega,
      hclear]
  set d' : Deck := { d with
    look := look
    bits := update d.bits look (d.bits look ||| flag j)
    allocated := d.allocated + 1 } with hd'
  have ha : Alike d d' := ⟨rfl, rfl, rfl, rfl⟩
  have hbits : bit d'.bits = update (bit d.bits) (look * 32 + j) true := bit_or_flag d.bits hj
  have hperm := perm_take ha hofs hbit hbits
  refine ⟨look * 32 + j, d', hofs, ?_, ?_, ha, hperm⟩
  · rw [allocate, if_neg hfull, hvac]
    dsimp only
    rw [← hjdef, if_pos hofs]
    rfl
  · refine ⟨h.total_pos, hwords, h.size_pos, h.totalBytes_eq, hlt, ?_⟩
    have hlen := hperm.length_eq
    rw [slots, List.length_map, List.length_cons, ← h.allocated_eq_length] at hlen
    rw [popcount_eq_length, hwords]
    exact hlen.symm

/-! ## Giving a slot back -/

theorem free_spec {d : Deck} (h : d.Ok) {b : Block} (hb : b ∈ d.slots) :
    ∃ d', d.free b.ptr = .ok d' ∧ d'.Ok ∧ Alike d d' ∧ d.slots.Perm (b :: d'.slots) := by
  obtain ⟨k, hk, hbit, rfl⟩ := mem_slots.mp hb
  have hwords := h.total_words
  have hmod : k % 32 < 32 := Nat.mod_lt _ (by omega)
  set d' : Deck := { d with
    bits := update d.bits (k / 32) (d.bits (k / 32) ^^^ flag (k % 32))
    look := k / 32
    allocated := dec64 d.allocated } with hd'
  have ha : Alike d d' := ⟨rfl, rfl, rfl, rfl⟩
  have hbits : bit d'.bits = update (bit d.bits) k false := by
    rw [bit_xor_flag d.bits hmod hbit, show k / 32 * 32 + k % 32 = k by omega]
  have hperm : d.slots.Perm (d.slot k :: d'.slots) := by
    rw [slots, slots, ha.slot_eq, ha.total_eq, hbits, ← List.map_cons]
    exact (members_update_false hk hbit).map _
  have hlen := hperm.length_eq
  rw [List.length_cons, ← h.allocated_eq_length] at hlen
  refine ⟨d', ?_, ?_, ha, hperm⟩
  · have hset : ¬ d.bits (k / 32) &&& flag (k % 32) = 0#32 := by
      rw [and_flag_eq_zero hmod, ← bit, hbit]
      exact Bool.noConfusion
    rw [free, h.slot_index, if_neg (not_not_intro hk), if_neg hset]
  · refine ⟨h.total_pos, hwords, h.size_pos, h.totalBytes_eq, ?_, ?_⟩
    · change k / 32 < d.total / 32
      omega
    · change dec64 d.allocated = _
      rw [dec64_of_pos (by omega), hlen, popcount_eq_length]
      change _ = (members (bit d'.bits) (d.total / 32 * 32)).length
      rw [hwords, slots, List.length_map]
      rfl

/-! ## New decks and reset ones -/

theorem slots_of_bits_zero {d : Deck} (h : d.bits = fun _ => 0#32) : d.slots = [] := by
  rw [slots, h, members_zero, List.map_nil]

theorem new_spec {posix : Posix} {held : List Block} (hp : Honest held posix) {ne es : ℕ}
    (hes : 0 < es) (hmax : es ≤ maxShoe) {d : Deck} (h : new posix ne es = .ok d) :
    d.Ok ∧ d.size = es ∧ d.slots = [] ∧ d.allocated = 0 ∧ d.data ≠ 0 ∧
      d.data + d.totalBytes ≤ addressSpace ∧ ∀ b ∈ held, Apart d.area b := by
  simp only [new, bind_eq_ok, alignedAlloc16_eq_ok] at h
  obtain ⟨data, ⟨hne, hdata⟩, q, ⟨hbne, hbits⟩, h⟩ := h
  obtain ⟨hnull, -, hspace, hapart⟩ := hp _ _ hdata
  obtain ⟨-, -, hbspace, -⟩ := hp _ _ hbits
  set total := alignUp 31 ne with htotal
  have hwords : total / 32 * 32 = total := by
    rw [htotal, alignUp_thirtyone]
    omega
  have hbytes : total * es % 2 ^ 64 = total * es := by
    refine Nat.mod_eq_of_lt ?_
    rw [addressSpace] at hbspace
    have h1 : total ≤ 2 ^ 52 := by omega
    have h2 : total * es ≤ 2 ^ 52 * 256 := Nat.mul_le_mul h1 hmax
    omega
  have hpos : 0 < total := by omega
  have hword : 0 < total / 32 := by omega
  have hcount : 0 = popcount (fun _ => 0#32) (total / 32) := by
    rw [popcount_eq_length, members_zero, List.length_nil]
  obtain rfl := Except.ok.inj h
  exact ⟨⟨hpos, hwords, hes, hbytes, hword, hcount⟩, rfl, slots_of_bits_zero rfl, rfl, hnull,
    hspace, hapart⟩

theorem reset_ok {d : Deck} (h : d.Ok) : d.reset.Ok := by
  have hwords := h.total_words
  have hpos := h.total_pos
  refine ⟨hpos, hwords, h.size_pos, h.totalBytes_eq, ?_, ?_⟩
  · change 0 < d.total / 32
    omega
  · change 0 = popcount (fun _ => 0#32) (d.total / 32)
    rw [popcount_eq_length, members_zero, List.length_nil]

end Deck

end DaScript

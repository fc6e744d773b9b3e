import DaScript.Simulate.HeapRuns

/-!
# Simulate/HeapHints — when a small block is given

The first deck of a size class has as many entries as the initial size has room for, and every later
one twice as many as the deck before it.  An initial size that is smaller than the entries of a
class leaves its first deck without any (`allocate_small_iff`).
-/

open Function

namespace DaScript

open Block

namespace MemoryModel

variable {m m' : MemoryModel} {L : List Block} {posix : Posix} {size : ℕ}

/-- The steps of a model without a grow function; an initial size is a `uint64_t`. -/
def Plain (_ : MemoryModel) (_ : List Block) : HeapOp → Prop
  | .setGrowFunction _ => False
  | .setInitialSize size => size < 2 ^ 64
  | _ => True

/-- The size of the entries a small block comes out of. -/
def entrySize (m : MemoryModel) (size : ℕ) : ℕ := alignUp 15 (alignUp m.alignMask size)

/-- The entry count of the deck that would be the next of its size class. -/
def nextTotal (m : MemoryModel) (size : ℕ) : ℕ :=
  alignUp 31 (m.grow (Shoe.sizeClass (m.entrySize size))).1

/-- **What a call may ask the system for**: a big block, or the data and the bitmap of a deck. -/
def requests (m : MemoryModel) (size : ℕ) : List ℕ :=
  [alignUp m.alignMask size, m.nextTotal size * m.entrySize size % 2 ^ 64,
    m.nextTotal size / 32 * 4]

/-- The system gives what a call asks it for. -/
def Gives (m : MemoryModel) (posix : Posix) (size : ℕ) : Prop :=
  ∀ n ∈ m.requests size, n ≠ 0 → (posix n).isSome

/-- **The hint has room for an entry**, or is not used. -/
def HintFits (m : MemoryModel) (size : ℕ) : Prop :=
  m.maxShoeAllocation = 0 ∨ m.shoe.chunks (Shoe.sizeClass (m.entrySize size)) ≠ [] ∨
    m.initialSize = 0 ∨ m.entrySize size ≤ m.initialSize

/-! ## What is kept -/

/-- What holds of a model without a grow function. -/
structure Growing (m : MemoryModel) : Prop where
  plain : m.customGrow = none
  hint : m.initialSize < 2 ^ 64

theorem Growing.congr (h : Growing m) (hgrow : m'.customGrow = m.customGrow)
    (hinit : m'.initialSize = m.initialSize) : Growing m' :=
  ⟨hgrow.trans h.plain, hinit ▸ h.hint⟩

theorem Growing.grow (h : Growing m) (si : ℕ) : Growing (m.grow si).2 := by
  unfold MemoryModel.grow
  split
  · exact h
  · refine ⟨h.plain, ?_⟩
    dsimp only
    split_ifs
    · decide
    · exact h.hint

theorem Growing.allocate (h : Growing m) {r : Option ℕ}
    (hcall : m.allocate posix size = .ok (r, m')) : Growing m' := by
  by_cases hzero : size = 0
  · rw [MemoryModel.allocate, if_pos hzero] at hcall
    exact (Prod.mk.inj (Except.ok.inj hcall)).2 ▸ h
  by_cases hbig : m.maxShoeAllocation < alignUp m.alignMask size
  · rw [allocate_big_eq posix hzero hbig] at hcall
    obtain ⟨ptr, -, hm⟩ := bind_eq_ok.mp hcall
    obtain ⟨-, rfl⟩ := Prod.mk.inj (Except.ok.inj hm)
    exact h.congr rfl rfl
  · rw [allocate_small_eq posix hzero hbig] at hcall
    obtain ⟨⟨res, shoe⟩, -, hm⟩ := bind_eq_ok.mp hcall
    cases res with
    | some res =>
      obtain ⟨-, rfl⟩ := Prod.mk.inj (Except.ok.inj hm)
      exact h.congr rfl rfl
    | none =>
      dsimp only [allocateGrown] at hm
      split at hm
      · cases hm
      · obtain ⟨deck, -, hm⟩ := bind_eq_ok.mp hm
        obtain ⟨⟨res, deck'⟩, -, hm⟩ := bind_eq_ok.mp hm
        obtain ⟨-, rfl⟩ := Prod.mk.inj (Except.ok.inj hm)
        have hacc : Growing { m.account (alignUp m.alignMask size) with shoe := shoe } :=
          h.congr rfl rfl
        exact (hacc.grow _).congr rfl rfl

theorem Growing.free (h : Growing m) {ptr : ℕ} {r : Bool}
    (hcall : m.free ptr size = .ok (r, m')) : Growing m' := by
  unfold MemoryModel.free at hcall
  split at hcall
  · exact (Prod.mk.inj (Except.ok.inj hcall)).2 ▸ h
  dsimp only at hcall
  split at hcall
  · obtain ⟨shoe, -, hm⟩ := bind_eq_ok.mp hcall
    obtain ⟨-, rfl⟩ := Prod.mk.inj (Except.ok.inj hm)
    exact h.congr rfl rfl
  · split at hcall
    · cases hcall
    · split at hcall
      · cases hcall
      · obtain ⟨-, rfl⟩ := Prod.mk.inj (Except.ok.inj hcall)
        exact h.congr rfl rfl

theorem Growing.reallocate (h : Growing m) {ptr size nsize : ℕ} {r : Option ℕ}
    (hcall : m.reallocate posix (some ptr) size nsize = .ok (r, m')) : Growing m' := by
  obtain ⟨⟨nptr, m₁⟩, halloc, hm⟩ := bind_eq_ok.mp hcall
  cases nptr with
  | none => cases hm
  | some nptr =>
    obtain ⟨⟨b, m₂⟩, hfree, hm⟩ := bind_eq_ok.mp hm
    obtain ⟨-, rfl⟩ := Prod.mk.inj (Except.ok.inj hm)
    have hcopied : ∀ mem, Growing { m₁ with mem := mem } := fun _ =>
      (h.allocate halloc).congr rfl rfl
    exact (hcopied _).free hfree

theorem Growing.markWith (h : Growing m) {shoeSize ptr len : ℕ} {r : Bool}
    (hcall : m.markWith shoeSize ptr len = .ok (r, m')) : Growing m' := by
  unfold MemoryModel.markWith at hcall
  dsimp only at hcall
  split at hcall
  · obtain ⟨⟨first, shoe⟩, -, hm⟩ := bind_eq_ok.mp hcall
    obtain ⟨-, rfl⟩ := Prod.mk.inj (Except.ok.inj hm)
    exact h.congr rfl rfl
  · split at hcall
    · exact (Prod.mk.inj (Except.ok.inj hcall)).2 ▸ h
    · obtain ⟨-, rfl⟩ := Prod.mk.inj (Except.ok.inj hcall)
      exact h.congr rfl rfl

theorem Growing.markAll (h : Growing m)
    {mark : MemoryModel → ℕ → ℕ → Except Fault (Bool × MemoryModel)}
    (hmark : mark = heapMark ∨ mark = stringMark) {marks : List Block} {r : List Bool}
    (hcall : markAll mark marks m = .ok (r, m')) : Growing m' := by
  induction marks generalizing m r with
  | nil => exact (Prod.mk.inj (Except.ok.inj hcall)).2 ▸ h
  | cons b marks ih =>
    obtain ⟨⟨first, m₁⟩, hone, hm⟩ := bind_eq_ok.mp hcall
    obtain ⟨⟨firsts, m₂⟩, hrest, hm⟩ := bind_eq_ok.mp hm
    obtain ⟨-, rfl⟩ := Prod.mk.inj (Except.ok.inj hm)
    refine ih ?_ hrest
    obtain rfl | rfl := hmark
    · exact h.markWith hone
    · exact h.markWith hone

theorem Growing.step (h : Growing m) {op : HeapOp} {L' : List Block} (hplain : Plain m L op)
    (hstep : Step m L op m' L') : Growing m' := by
  cases hstep with
  | null hcall => exact h.allocate hcall
  | allocate _ _ _ hcall => exact h.allocate hcall
  | free _ hcall => exact h.free hcall
  | reallocate _ _ _ hcall => exact h.reallocate hcall
  | reset => exact h.congr rfl rfl
  | collect hmark _ hcall =>
    obtain ⟨m₁, hbegin, hm⟩ := bind_eq_ok.mp hcall
    obtain ⟨⟨firsts, m₂⟩, hmarks, hm⟩ := bind_eq_ok.mp hm
    obtain ⟨m₃, hsweep, hm⟩ := bind_eq_ok.mp hm
    obtain ⟨-, rfl⟩ := Prod.mk.inj (Except.ok.inj hm)
    obtain ⟨shoe, -, hbegin⟩ := bind_eq_ok.mp hbegin
    obtain rfl := Except.ok.inj hbegin
    obtain ⟨shoe', -, hsweep⟩ := bind_eq_ok.mp hsweep
    obtain rfl := Except.ok.inj hsweep
    have hbegun : Growing { m with shoe := shoe } := h.congr rfl rfl
    exact (hbegun.markAll hmark hmarks).congr rfl rfl
  | setInitialSize => exact ⟨h.plain, hplain⟩
  | setGrowFunction => exact hplain.elim
  | write => exact h.congr rfl rfl

theorem Reach.growing (h : Reach Plain m L) : Growing m := by
  induction h with
  | start => exact ⟨rfl, Nat.two_pow_pos 64⟩
  | step _ hplain hstep ih => exact ih.step hplain hstep

/-! ## A small block -/

theorem deck_new_ok {ne es : ℕ} (htotal : alignUp 31 ne * es % 2 ^ 64 ≠ 0)
    (hbits : alignUp 31 ne / 32 * 4 ≠ 0) (hdata : (posix (alignUp 31 ne * es % 2 ^ 64)).isSome)
    (hbitmap : (posix (alignUp 31 ne / 32 * 4)).isSome) : ∃ d, Deck.new posix ne es = .ok d := by
  obtain ⟨p, hp⟩ := Option.isSome_iff_exists.mp hdata
  obtain ⟨q, hq⟩ := Option.isSome_iff_exists.mp hbitmap
  have hp' := alignedAlloc16_eq_ok.mpr ⟨htotal, hp⟩
  have hq' := alignedAlloc16_eq_ok.mpr ⟨hbits, hq⟩
  unfold Deck.new
  dsimp only
  rw [hp']
  change ∃ d, (alignedAlloc16 posix _ >>= _) = _
  rw [hq']
  exact ⟨_, rfl⟩

theorem deck_new_zero {ne es : ℕ} (h : alignUp 31 ne = 0) : ¬∃ d, Deck.new posix ne es = .ok d := by
  rintro ⟨d, hd⟩
  obtain ⟨data, hdata, -⟩ := bind_eq_ok.mp hd
  refine (alignedAlloc16_eq_ok.mp hdata).1 ?_
  rw [h, Nat.zero_mul, Nat.zero_mod]

theorem alignUp_thirtyone_of_lt {n : ℕ} (h : n < 2 ^ 63) :
    alignUp 31 n = (n + 31) / 32 * 32 := alignUp_eq (k := 5) (by omega) (by omega)

theorem entrySize_spec (h : m.WellFormed) (hpos : 0 < size) (hmax : size ≤ maxShoe) :
    0 < alignUp m.alignMask size ∧ alignUp m.alignMask size ≤ maxShoe ∧ 0 < m.entrySize size ∧
      m.entrySize size ≤ maxShoe ∧ Shoe.sizeClass (m.entrySize size) < maxShoeChunks ∧
      (Shoe.sizeClass (m.entrySize size) + 1) * 16 = m.entrySize size := by
  have hmax' : size ≤ 256 := hmax
  have ha : 0 < alignUp m.alignMask size ∧ alignUp m.alignMask size ≤ maxShoe := by
    rw [maxShoe]
    rcases h.mask with hmask | hmask
    · rw [hmask, alignUp_fifteen (by omega)]
      omega
    · rw [hmask, alignUp_three (by omega)]
      omega
  obtain ⟨hle, hne, hle', hclass, hslot⟩ := sizeClass_spec ha.1 ha.2
  exact ⟨ha.1, ha.2, Nat.pos_of_ne_zero hne, hle', hclass, hslot⟩

theorem nextTotal_iff (h : m.WellFormed) (hm : Growing m) (hpos : 0 < size)
    (hmax : size ≤ maxShoe) :
    m.nextTotal size ≠ 0 ↔ m.shoe.chunks (Shoe.sizeClass (m.entrySize size)) ≠ [] ∨
      m.initialSize = 0 ∨ m.entrySize size ≤ m.initialSize := by
  obtain ⟨-, -, hes, hes', hclass, hslot⟩ := entrySize_spec h hpos hmax
  have hinit := hm.hint
  rw [maxShoe] at hes'
  unfold nextTotal grow
  generalize m.entrySize size = es at *
  cases hchunks : m.shoe.chunks (Shoe.sizeClass es) with
  | cons d l =>
    have hd : d ∈ m.shoe.chunks (Shoe.sizeClass es) := by
      rw [hchunks]
      exact List.mem_cons_self
    have hok := h.deck_ok (Shoe.mem_decks.mpr ⟨_, hclass, hd⟩)
    have hspace := (h.held_space d.area (List.mem_append_left _
      (List.mem_map_of_mem (Shoe.mem_decks.mpr ⟨_, hclass, hd⟩)))).2
    have htotal : d.total ≤ addressSpace := by
      refine le_trans ?_ ((Nat.le_add_left _ _).trans hspace)
      change d.total ≤ d.totalBytes
      rw [hok.totalBytes_eq]
      exact Nat.le_mul_of_pos_right _ hok.size_pos
    have := hok.total_pos
    rw [addressSpace] at htotal
    dsimp only
    rw [hm.plain]
    dsimp only
    rw [Nat.mod_eq_of_lt (by omega), alignUp_thirtyone_of_lt (by omega)]
    refine iff_of_true (by omega) (.inl (List.cons_ne_nil d l))
  | nil =>
    dsimp only
    have hquot : ∀ init < 2 ^ 64, alignUp 31 (init / es) ≠ 0 ↔ es ≤ init := by
      intro init hlt
      have hle : init / es ≤ init / 16 := Nat.div_le_div_left (by omega) (by omega)
      rw [alignUp_thirtyone_of_lt (by omega)]
      have hdiv : 0 < init / es ↔ es ≤ init := by
        rw [Nat.div_pos_iff]
        exact and_iff_right hes
      rw [← hdiv]
      omega
    rw [hslot]
    split_ifs with hzero
    · rw [hquot _ (by decide), defaultInitialSize]
      exact iff_of_true (by omega) (.inr (.inl hzero))
    · rw [hquot _ hinit]
      simp [hzero]

theorem deck_new_of_gives (hp : Honest m.held posix) (hgives : Gives m posix size)
    (hes : 0 < m.entrySize size) (hes' : m.entrySize size ≤ maxShoe) (hne : m.nextTotal size ≠ 0) :
    ∃ d, Deck.new posix (m.grow (Shoe.sizeClass (m.entrySize size))).1 (m.entrySize size) =
      .ok d := by
  have hwords : m.nextTotal size / 32 * 32 = m.nextTotal size := by
    rw [nextTotal, alignUp_thirtyone]
    omega
  have hbits : m.nextTotal size / 32 * 4 ≠ 0 := by omega
  have hbitmap := hgives _ (by simp [requests]) hbits
  obtain ⟨q, hq⟩ := Option.isSome_iff_exists.mp hbitmap
  have hspace := (hp _ _ hq).2.2.1
  have htotal : m.nextTotal size * m.entrySize size ≤ 2 ^ 51 * 256 := by
    refine Nat.mul_le_mul ?_ hes'
    rw [addressSpace] at hspace
    omega
  have hdata : m.nextTotal size * m.entrySize size % 2 ^ 64 ≠ 0 := by
    rw [Nat.mod_eq_of_lt (by omega)]
    exact (Nat.mul_pos (Nat.pos_of_ne_zero hne) hes).ne'
  have hasked : m.nextTotal size * m.entrySize size % 2 ^ 64 ∈ m.requests size := by
    simp [requests]
  exact deck_new_ok hdata hbits (hgives _ hasked hdata) hbitmap

theorem allocateGrown_ok (hp : Honest m.held posix) {a : ℕ} (hpos : 0 < a) (hmax : a ≤ maxShoe)
    {d : Deck}
    (hnew : Deck.new posix (m.grow (Shoe.sizeClass (alignUp 15 a))).1 (alignUp 15 a) = .ok d) :
    ∃ p m', m.allocateGrown posix a = .ok (some p, m') := by
  obtain ⟨-, hne, hle, -, -⟩ := sizeClass_spec hpos hmax
  obtain ⟨hok, -, -, hcount, -⟩ := Deck.new_spec hp (Nat.pos_of_ne_zero hne) hle hnew
  rcases Deck.allocate_spec hok with ⟨hfull, -⟩ | ⟨k, d', -, hd', -⟩
  · have := hok.total_pos
    omega
  · rw [m.allocateGrown_eq posix hpos hmax, hnew]
    change ∃ p m', (d.allocate >>= _) = _
    rw [hd']
    exact ⟨_, _, rfl⟩

theorem allocate_small_iff (h : m.WellFormed) (hm : Growing m) (hp : Honest m.held posix)
    (hgives : Gives m posix size) (hpos : 0 < size) (hmax : size ≤ maxShoe) :
    (∃ p m', m.allocate posix size = .ok (some p, m')) ↔ HintFits m size := by
  obtain ⟨ha, ha', hes, hes', hclass, hslot⟩ := entrySize_spec h hpos hmax
  have hnext := nextTotal_iff h hm hpos hmax
  rcases h.shoe_max with hshoe | hshoe
  · have hfits : HintFits m size ↔ m.nextTotal size ≠ 0 := by
      rw [hnext, HintFits, hshoe]
      exact or_iff_right (by decide)
    rw [hfits]
    have heq := allocate_small_eq posix (m := m) hpos.ne' (by rw [hshoe]; exact not_lt.mpr ha')
    rw [shoe_allocate_eq m.shoe ha ha'] at heq
    rcases Shoe.allocateIn_spec (h.chain _ hclass) with hnone | ⟨b, l', hl', -⟩
    · -- every deck of the class is full
      have hrun : m.allocate posix size =
          allocateGrown (m.account (alignUp m.alignMask size)) posix
            (alignUp m.alignMask size) := by
        rw [heq, ← entrySize, hnone]
        change allocateGrown ((m.account (alignUp m.alignMask size)).setChunks _
          ((m.account (alignUp m.alignMask size)).shoe.chunks _)) posix _ = _
        rw [setChunks_self]
      rw [hrun]
      have hacc : WellFormed (m.account (alignUp m.alignMask size)) := h.congr rfl rfl rfl rfl
      have hgrow : ((m.account (alignUp m.alignMask size)).grow
          (Shoe.sizeClass (m.entrySize size))).1 =
          (m.grow (Shoe.sizeClass (m.entrySize size))).1 := by
        unfold grow account
        dsimp only
        split <;> rfl
      constructor
      · rintro ⟨p, m', hm'⟩ hzero
        rw [allocateGrown_eq _ posix ha ha'] at hm'
        obtain ⟨d, hd, -⟩ := bind_eq_ok.mp hm'
        rw [← entrySize, hgrow] at hd
        exact deck_new_zero hzero ⟨d, hd⟩
      · intro hne
        obtain ⟨d, hd⟩ := deck_new_of_gives hp hgives hes hes' hne
        have hp' : Honest (m.account (alignUp m.alignMask size)).held posix := hp
        refine allocateGrown_ok hp' ha ha' (d := d) ?_
        rw [← entrySize, hgrow]
        exact hd
    · refine iff_of_true ⟨b.ptr, _, by rw [heq, ← entrySize, hl']; rfl⟩ (hnext.mpr (.inl ?_))
      intro hnil
      rw [hnil] at hl'
      cases hl'
  · refine iff_of_true ?_ (.inl hshoe)
    have hbig : m.maxShoeAllocation < alignUp m.alignMask size := by rwa [hshoe]
    obtain ⟨p, hposix⟩ := Option.isSome_iff_exists.mp (hgives _ List.mem_cons_self ha.ne')
    rw [allocate_big_eq posix hpos.ne' hbig, alignedAlloc16_eq_ok.mpr ⟨ha.ne', hposix⟩]
    exact ⟨p, _, rfl⟩

/-- **After any run** without a grow function, a small block is given exactly where the hint fits,
while the system gives what it is asked for. -/
theorem reach_allocate_small (h : Reach Plain m L) (hp : Honest m.held posix)
    (hgives : Gives m posix size) (hpos : 0 < size) (hmax : size ≤ maxShoe) :
    (∃ p m', m.allocate posix size = .ok (some p, m')) ↔ HintFits m size :=
  allocate_small_iff h.tracks.wf h.growing hp hgives hpos hmax

theorem reach_allocate_small_one :
    ∃ p m', (new 15 maxShoe fun _ => 0).allocate onePage 100 = .ok (some p, m') := by
  refine (reach_allocate_small (.start (.inl rfl) (.inl rfl)) honest_onePage ?_ (by decide)
    (by decide)).mpr (.inr (.inr (.inl rfl)))
  have hrequests : (new 15 maxShoe fun _ => 0).requests 100 = [112, 68096, 76] := by decide
  intro n hn _
  rw [hrequests] at hn
  have hle : n ≤ 2 ^ 20 := by
    simp only [List.mem_cons, List.not_mem_nil, or_false] at hn
    omega
  rw [onePage, if_pos hle]
  rfl

theorem allocate_small_hint : ∃ m, Reach Plain m [] ∧ Honest m.held onePage ∧
    Gives m onePage 16 ∧ ¬∃ p m', m.allocate onePage 16 = .ok (some p, m') := by
  have hplain : Plain (new 15 maxShoe fun _ => 0) [] (.setInitialSize 1) :=
    show 1 < 2 ^ 64 by decide
  have hreach : Reach Plain ((new 15 maxShoe fun _ => 0).setInitialSize 1) [] :=
    .step (.start (.inl rfl) (.inl rfl)) hplain .setInitialSize
  refine ⟨_, hreach, honest_onePage, ?_, ?_⟩
  · have hrequests : ((new 15 maxShoe fun _ => 0).setInitialSize 1).requests 16 = [16, 0, 0] := by
      decide
    intro n hn hne
    rw [hrequests] at hn
    have hle : n ≤ 2 ^ 20 := by
      simp only [List.mem_cons, List.not_mem_nil, or_false] at hn
      omega
    rw [onePage, if_pos hle]
    rfl
  · rintro ⟨p, m', hm'⟩
    cases hm'

end MemoryModel

end DaScript

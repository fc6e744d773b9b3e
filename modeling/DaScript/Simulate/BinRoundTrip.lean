import DaScript.Simulate.BinLoadBounds
import DaScript.Simulate.BinSave

/-!
# Simulate/BinRoundTrip — a load brings the object back

A load of an image follows it byte by byte (`Serializer.At`) and changes the object's place and new
blocks only (`Framed`).  The buffers it makes have `sizeof(Array)` bytes an element, whatever the
element; so a load that ends well leaves buffers of the right size only where every array that is
not empty has elements of that size (`round_trip_iff`).
-/

namespace DaScript

open Walker

/-! ## Reading what is ahead -/

/-- The input not read yet. -/
def Serializer.ahead (st : Serializer) : List UInt8 :=
  bytes st.bytesAt st.bytesWritten (st.bytesAllocated - st.bytesWritten)

/-- A load with these bytes ahead. -/
structure Serializer.At (st : Serializer) (ahead : List UInt8) : Prop where
  reading : st.reading = true
  small : st.bytesAllocated < 2 ^ 32
  pos : st.bytesWritten ≤ st.bytesAllocated
  ahead : st.ahead = ahead

theorem Serializer.At.length {st : Serializer} {l : List UInt8} (h : st.At l) :
    st.bytesWritten + l.length = st.bytesAllocated := by
  rw [← h.ahead, Serializer.ahead, length_bytes]
  have := h.pos
  omega

theorem Serializer.At.setStore {st : Serializer} {l : List UInt8} (h : st.At l) (store : Store) :
    Serializer.At { st with store := store } l := ⟨h.reading, h.small, h.pos, h.ahead⟩

section Reading

variable {st : Serializer} {rest : List UInt8}

theorem read_at {l : List UInt8} (h : st.At (l ++ rest)) {n room : ℕ} (hn : l.length = n)
    (hroom : n ≤ room) :
    ∃ st', read n room st = .ok l st' ∧ st'.At rest ∧ st'.store = st.store := by
  have hlen := h.length
  have hsmall := h.small
  rw [List.length_append] at hlen
  have hmod : (st.bytesWritten + n) % 2 ^ 32 = st.bytesWritten + n := Nat.mod_eq_of_lt (by omega)
  have hsplit := h.ahead
  rw [Serializer.ahead, show st.bytesAllocated - st.bytesWritten = n + rest.length by omega,
    bytes_add] at hsplit
  obtain ⟨hl, hrest⟩ := List.append_inj hsplit (by rw [length_bytes, hn])
  refine ⟨{ st with
      bytesWritten := st.bytesWritten + n
      reads := ⟨st.bytesWritten, n, room, true⟩ :: st.reads }, ?_, ⟨h.reading, hsmall, ?_, ?_⟩, rfl⟩
  · unfold read
    rw [hmod, if_pos (by omega), if_pos ⟨by omega, hroom⟩, hl]
  · change st.bytesWritten + n ≤ st.bytesAllocated
    omega
  · change bytes st.bytesAt (st.bytesWritten + n) (st.bytesAllocated - (st.bytesWritten + n)) = rest
    rw [show st.bytesAllocated - (st.bytesWritten + n) = rest.length by omega, hrest]

theorem load_at {n x : ℕ} (hx : x < 256 ^ n) (h : st.At (leBytes n x ++ rest)) :
    ∃ st', load n st = .ok x st' ∧ st'.At rest ∧ st'.store = st.store := by
  obtain ⟨st', hread, hat, hstore⟩ := read_at h (length_leBytes n x) le_rfl
  refine ⟨st', ?_, hat, hstore⟩
  rw [load, bind_ok hread, leNat_leBytes hx]
  rfl

theorem verify_at {n x : ℕ} (hx : x < 256 ^ n) (h : st.At (leBytes n x ++ rest)) :
    ∃ st', verify n x st = .ok () st' ∧ st'.At rest ∧ st'.store = st.store := by
  obtain ⟨st', hload, hat, hstore⟩ := load_at hx h
  refine ⟨st', ?_, hat, hstore⟩
  rw [verify, get_bind, if_pos h.reading, bind_ok hload]
  exact congrFun (if_neg (not_not_intro rfl)) st'

end Reading

/-! ## What a load changes -/

/-- No array at the place has anything. -/
def Zeroed (s : Store) (q : Place) (size : ℕ) : Prop :=
  ∀ o, q.offset ≤ o → o < q.offset + size → s.array q.block o = ArrayCell.zero

/-- The blocks that come next hold zeros. -/
def Store.Blank (s : Store) : Prop := ∀ b ≥ s.next, ∀ o, s.array b o = ArrayCell.zero

/-- **What a load of an object leaves alone** — every block but its own place. -/
structure Framed (s s' : Store) (q : Place) (size : ℕ) : Prop where
  next : s.next ≤ s'.next
  room : ∀ b < s.next, s'.room b = s.room b
  same : ∀ b < s.next, ∀ o, ¬ (b = q.block ∧ q.offset ≤ o ∧ o < q.offset + size) → SameAt s s' b o
  blank : s.Blank → s'.Blank

section Frames

variable {s s1 s' : Store} {q : Place} {size : ℕ}

theorem SameAt.trans {b o : ℕ} (h : SameAt s s1 b o) (h' : SameAt s1 s' b o) : SameAt s s' b o :=
  ⟨h'.byte.trans h.byte, h'.text.trans h.text, h'.array.trans h.array⟩

namespace Framed

theorem refl (s : Store) (q : Place) (size : ℕ) : Framed s s q size :=
  ⟨le_rfl, fun _ _ => rfl, fun _ _ _ _ => ⟨rfl, rfl, rfl⟩, id⟩

theorem mono {r : Place} {n : ℕ} (h : Framed s s' r n) (hblock : r.block = q.block)
    (hlo : q.offset ≤ r.offset) (hhi : r.offset + n ≤ q.offset + size) : Framed s s' q size :=
  ⟨h.next, h.room, fun b hb o hno =>
    h.same b hb o fun ⟨h1, h2, h3⟩ => hno ⟨h1.trans hblock, by omega, by omega⟩, h.blank⟩

theorem trans (h : Framed s s1 q size) (h' : Framed s1 s' q size) : Framed s s' q size where
  next := h.next.trans h'.next
  room := fun b hb => (h'.room b (lt_of_lt_of_le hb h.next)).trans (h.room b hb)
  same := fun b hb o hno => (h.same b hb o hno).trans (h'.same b (lt_of_lt_of_le hb h.next) o hno)
  blank := fun hblank => h'.blank (h.blank hblank)

theorem agree {r : Place} {n lo : ℕ} (h : Framed s s' q size) (hblock : r.block = q.block)
    (hapart : r.offset + n ≤ q.offset) (hlo : q.block < lo) (hq : q.block < s.next) :
    Alike s s' lo r n where
  next := h.next
  here := fun o _ h2 => h.same r.block (hblock ▸ hq) o fun ⟨_, h3, _⟩ => by omega
  below := fun b hb hnext =>
    ⟨h.room b hnext, fun o => h.same b hnext o fun ⟨h1, _, _⟩ => by omega⟩

theorem trans_new {r : Place} {n : ℕ} (h : Framed s s1 q size) (h' : Framed s1 s' r n)
    (hr : s.next ≤ r.block) : Framed s s' q size where
  next := h.next.trans h'.next
  room := fun b hb => (h'.room b (lt_of_lt_of_le hb h.next)).trans (h.room b hb)
  same := fun b hb o hno =>
    (h.same b hb o hno).trans (h'.same b (lt_of_lt_of_le hb h.next) o fun ⟨h1, _⟩ => by omega)
  blank := fun hblank => h'.blank (h.blank hblank)

theorem zeroed {r : Place} {n : ℕ} (h : Framed s s' q size) (hblock : r.block = q.block)
    (hapart : q.offset + size ≤ r.offset) (hq : q.block < s.next) (hz : Zeroed s r n) :
    Zeroed s' r n := fun o h1 h2 =>
  (h.same r.block (hblock ▸ hq) o fun ⟨_, _, h3⟩ => by omega).array.trans (hz o h1 h2)

end Framed

theorem Zeroed.mono {r : Place} {n : ℕ} (h : Zeroed s q size) (hblock : r.block = q.block)
    (hlo : q.offset ≤ r.offset) (hhi : r.offset + n ≤ q.offset + size) : Zeroed s r n :=
  fun o h1 h2 => by
    rw [hblock]
    exact h o (by omega) (by omega)

theorem framed_setBytes (s : Store) (q : Place) (l : List UInt8) :
    Framed s (s.setBytes q l) q l.length := by
  refine ⟨le_rfl, fun _ _ => rfl, fun b _ o hno => ⟨?_, rfl, rfl⟩, id⟩
  rw [Store.setBytes_byte]
  exact Store.patch_self hno

theorem framed_setText (s : Store) (q : Place) (l : List UInt8) (hsize : 1 ≤ size) :
    Framed s (s.setText q l) q size := by
  refine ⟨le_rfl, fun _ _ => rfl, fun b _ o hno => ⟨rfl, ?_, rfl⟩, id⟩
  have hno' : ¬ (b = q.block ∧ q.offset ≤ o ∧ o < q.offset + 1) := fun ⟨h1, h2, h3⟩ =>
    hno ⟨h1, h2, by omega⟩
  rw [Store.setText_text]
  exact Store.patch_self hno'

theorem bytesAt_setBytes (s : Store) (q : Place) (l : List UInt8) :
    (s.setBytes q l).bytesAt q l.length = l := by
  refine List.ext_getElem (by simp [Store.bytesAt]) fun i hi hi' => ?_
  simp only [Store.bytesAt, List.getElem_map, List.getElem_range, Store.setBytes_byte]
  rw [Store.patch_mem (by omega) (by omega), Nat.add_sub_cancel_left]
  exact List.getD_eq_getElem _ _ hi'

end Frames

/-! ## Loads -/

/-- The bytes an array's elements are given, whatever they are. -/
def resizeStride (_ : TypeInfo) : ℕ := sizeofArray

/-- A load is undefined: it writes outside a block. -/
def Strays (m : Walker Unit) (st : Serializer) : Prop :=
  ∃ what st', m st = .error (.undefined what) st'

/-- **A walk brings the objects of a type over**: in front of an object's image, at a place of
zeros, it makes an equal object there, or strays, which it does not where the object's arrays fit
and its place is inside the block. -/
def Loads (src : Store) (info : TypeInfo) (walk : Place → Walker Unit) : Prop :=
  ∀ (p q : Place) (lo : ℕ) (st : Serializer) (rest : List UInt8),
    st.At (image src info p ++ rest) → q.block < lo → lo ≤ st.store.next →
    Zeroed st.store q info.size → (st.store.Blank ∨ info.Fits (valueOf src info p)) →
    (∃ st', walk q st = .ok () st' ∧ st'.At rest ∧ Framed st.store st'.store q info.size ∧
      valueOf st'.store info q = valueOf src info p ∧ Held st'.store resizeStride info lo q) ∨
    Strays (walk q) st ∧
      ¬ (info.Fits (valueOf src info p) ∧ q.offset + info.size ≤ st.store.room q.block)

theorem strays_bind {m m' : Walker Unit} {st : Serializer} (h : Strays m st) :
    Strays (m >>= fun _ => m') st := by
  obtain ⟨what, st', hrun⟩ := h
  exact ⟨what, st', bind_error hrun⟩

theorem strays_of_ok {m m' : Walker Unit} {st st1 : Serializer} (hm : m st = .ok () st1)
    (h : Strays m' st1) : Strays (m >>= fun _ => m') st := by
  obtain ⟨what, st', hrun⟩ := h
  exact ⟨what, st', (bind_ok hm).trans hrun⟩

section Parts

variable {src : Store}

theorem serialize_at {q : Place} {l rest : List UInt8} {st : Serializer} (h : st.At (l ++ rest)) :
    (∃ st', serialize q l.length st = .ok () st' ∧ st'.At rest ∧
        st'.store = st.store.setBytes q l) ∨
      Strays (serialize q l.length) st ∧ ¬ q.offset + l.length ≤ st.store.room q.block := by
  obtain ⟨st1, hread, hat, hstore⟩ := read_at h rfl le_rfl
  unfold Strays serialize
  rw [get_bind, if_pos h.reading, bind_ok hread]
  by_cases hroom : q.offset + l.length ≤ st1.store.room q.block
  · rw [bind_ok (if_pos hroom)]
    exact Or.inl ⟨_, rfl, hat.setStore _, by rw [hstore]⟩
  · rw [bind_error (if_neg hroom), ← hstore]
    exact Or.inr ⟨⟨_, _, rfl⟩, hroom⟩

theorem loads_elements {elem : TypeInfo} {walk : Place → Walker Unit} (hwf : elem.WellFormed)
    (h : Loads src elem walk) :
    ∀ (count : ℕ) (p q : Place) (lo : ℕ) (st : Serializer) (rest : List UInt8),
      st.At ((atEach (image src elem) elem.size count p).flatten ++ rest) → q.block < lo →
      lo ≤ st.store.next → Zeroed st.store q (count * elem.size) →
      (st.store.Blank ∨ ∀ v ∈ atEach (valueOf src elem) elem.size count p, elem.Fits v) →
      (∃ st', walkElements walk elem.size count q st = .ok () st' ∧ st'.At rest ∧
        Framed st.store st'.store q (count * elem.size) ∧
        atEach (valueOf st'.store elem) elem.size count q
          = atEach (valueOf src elem) elem.size count p ∧
        ∀ r ∈ atEach id elem.size count q, Held st'.store resizeStride elem lo r) ∨
      Strays (walkElements walk elem.size count q) st ∧
        ¬ ((∀ v ∈ atEach (valueOf src elem) elem.size count p, elem.Fits v) ∧
          q.offset + count * elem.size ≤ st.store.room q.block) := by
  intro count
  induction count with
  | zero =>
    intro p q lo st rest hat _ _ _ _
    exact Or.inl ⟨st, rfl, hat, Framed.refl _ _ _, rfl, fun _ hr => absurd hr List.not_mem_nil⟩
  | succ count ih =>
    intro p q lo st rest hat hlo hnext hz hfit
    have hsize : (count + 1) * elem.size = elem.size + count * elem.size := by ring
    rw [hsize] at hz
    simp only [atEach, List.flatten_cons, List.append_assoc, List.forall_mem_cons] at hat hfit ⊢
    rcases h p q lo st _ hat hlo hnext (hz.mono rfl le_rfl (by omega))
      (hfit.imp_right And.left) with ⟨st1, hrun1, hat1, hfr1, hval1, hheld1⟩ | ⟨hstray, hno⟩
    · have hq : q.block < st.store.next := lt_of_lt_of_le hlo hnext
      have hz1 : Zeroed st1.store (q.shift elem.size) (count * elem.size) :=
        hfr1.zeroed rfl le_rfl hq (hz.mono rfl (Nat.le_add_right ..) (by
          change q.offset + elem.size + count * elem.size ≤ _
          omega))
      rcases ih (p.shift elem.size) (q.shift elem.size) lo st1 rest hat1 hlo
        (hnext.trans hfr1.next) hz1 (hfit.imp hfr1.blank And.right) with
        ⟨st2, hrun2, hat2, hfr2, hval2, hheld2⟩ | ⟨hstray, hno⟩
      · have hagree : Alike st1.store st2.store lo q elem.size :=
          hfr2.agree rfl le_rfl hlo (lt_of_lt_of_le hq hfr1.next)
        obtain ⟨hheld, hval⟩ := congr_object resizeStride elem lo q hwf hagree hheld1
        refine Or.inl ⟨st2, (bind_ok hrun1).trans hrun2, hat2, ?_, ?_, hheld, hheld2⟩
        · rw [hsize]
          exact (hfr1.mono rfl le_rfl (by omega)).trans
            (hfr2.mono rfl (Nat.le_add_right ..) (by
              change q.offset + elem.size + count * elem.size ≤ _
              omega))
        · rw [hval, hval1, hval2]
      · refine Or.inr ⟨strays_of_ok hrun1 hstray, fun hpre => hno ⟨hpre.1.2, ?_⟩⟩
        have hroom := hpre.2
        change q.offset + elem.size + count * elem.size ≤ st1.store.room q.block
        rw [hfr1.room _ hq]
        omega
    · refine Or.inr ⟨strays_bind hstray, fun hpre => hno ⟨hpre.1.1, ?_⟩⟩
      have hroom := hpre.2
      omega

end Parts

/-! ## Arrays -/

/-- The blocks after a resize of the empty array at `q` to `n` elements. -/
def resized (s : Store) (q : Place) (n : ℕ) : Store :=
  ((((s.alloc (arrayCapacity n * sizeofArray)).setArray q
    ⟨some s.next, 0, arrayCapacity n, 0⟩).clear s.next 0 (n * sizeofArray)).setArray q
      ⟨some s.next, n, arrayCapacity n, 0⟩)

section Resizes

variable {s : Store} {q : Place} {n : ℕ}

theorem setArray_same (s : Store) (q : Place) (arr : ArrayCell) :
    (s.setArray q arr).array q.block q.offset = arr := by
  rw [Store.setArray_array]
  exact Store.patch_mem le_rfl (Nat.lt_succ_self _)

theorem setArray_other {arr : ArrayCell} {b o : ℕ} (h : ¬ (b = q.block ∧ o = q.offset)) :
    (s.setArray q arr).array b o = s.array b o := by
  rw [Store.setArray_array]
  exact Store.patch_self fun ⟨h1, h2, h3⟩ => h ⟨h1, by omega⟩

theorem framed_setArray (s : Store) (q : Place) (arr : ArrayCell) (hq : q.block < s.next) :
    Framed s (s.setArray q arr) q sizeofArray := by
  refine ⟨le_rfl, fun _ _ => rfl, fun b _ o hno => ⟨rfl, rfl, ?_⟩, fun hblank b hb o => ?_⟩
  · refine setArray_other fun ⟨h1, h2⟩ => hno ⟨h1, ?_, ?_⟩
    · omega
    · unfold sizeofArray
      omega
  · have hb : s.next ≤ b := hb
    rw [setArray_other fun ⟨h1, _⟩ => by omega]
    exact hblank b hb o

theorem resized_array (s : Store) (q : Place) (n : ℕ) :
    (resized s q n).array q.block q.offset = ⟨some s.next, n, arrayCapacity n, 0⟩ :=
  setArray_same _ _ _

theorem resized_other {b o : ℕ} (h : ¬ (b = q.block ∧ o = q.offset))
    (hnew : ¬ (b = s.next ∧ o < n * sizeofArray)) : (resized s q n).array b o = s.array b o := by
  unfold resized
  rw [setArray_other h, Store.clear_array, Store.patch_self fun ⟨h1, _, h2⟩ => hnew ⟨h1, h2⟩,
    setArray_other h]
  rfl

theorem framed_resized (hq : q.block < s.next) : Framed s (resized s q n) q sizeofArray := by
  refine ⟨Nat.le_succ _, fun b hb => if_neg (by omega), fun b hb o hno => ⟨?_, ?_, ?_⟩, ?_⟩
  · exact if_neg (by omega)
  · exact if_neg (by omega)
  · refine resized_other (fun ⟨h1, h2⟩ => hno ⟨h1, ?_, ?_⟩) (by omega)
    · omega
    · unfold sizeofArray
      omega
  · intro hblank b hb o
    have hb : s.next + 1 ≤ b := hb
    rw [resized_other (by omega) (by omega)]
    exact hblank b (by omega) o

theorem zeroed_resized (hq : q.block < s.next) {size : ℕ}
    (h : s.Blank ∨ size = n * sizeofArray) : Zeroed (resized s q n) ⟨s.next, 0⟩ size := by
  intro o _ ho
  have ho : o < 0 + size := ho
  by_cases hnew : o < n * sizeofArray
  · unfold resized
    rw [setArray_other fun ⟨h1, _⟩ => by
      change s.next = q.block at h1
      omega, Store.clear_array]
    exact Store.patch_mem (Nat.zero_le _) hnew
  · rcases h with hblank | hsize
    · have hother : ¬ (s.next = q.block ∧ o = q.offset) := fun ⟨h1, _⟩ => by omega
      rw [resized_other hother fun ⟨_, h⟩ => hnew h]
      exact hblank _ le_rfl o
    · omega

theorem arrayCapacity_le (hn : n < 2 ^ 32) : arrayCapacity n ≤ 2 ^ 32 := by
  have hlog : Nat.log2 (max n 2 - 1) < 32 := by
    refine (Nat.log2_lt (by have := le_max_right n 2; omega)).mpr ?_
    have hmax : max n 2 < 2 ^ 32 := max_lt hn (by decide)
    omega
  have hpow : 2 ^ (Nat.log2 (max n 2 - 1) + 1) ≤ 2 ^ 32 := Nat.pow_le_pow_right (by decide) hlog
  exact (min_le_left _ _).trans (max_le hpow (by decide))

variable {env : SerialEnv} {st : Serializer}

theorem refuse_ok {c : Prop} [Decidable c] {message : String} (h : ¬ c) :
    refuse c message st = .ok () st := congrFun (if_neg h) st

theorem resizeCell_empty (hz : st.store.array q.block q.offset = ArrayCell.zero) :
    resizeCell env q 0 sizeofArray st
      = .ok () { st with store := st.store.setArray q ArrayCell.zero } := by
  have hgrow : growCell env q ArrayCell.zero 0 sizeofArray st = .ok () st :=
    congrFun (if_neg (by decide)) st
  have hclear : zeroCells ArrayCell.zero 0 sizeofArray st = .ok () st :=
    congrFun (if_neg (by decide)) st
  unfold resizeCell
  rw [get_bind, hz, bind_ok (refuse_ok (by decide)), bind_ok (refuse_ok (by decide)),
    bind_ok hgrow, get_bind, hz, bind_ok hclear]
  rfl

theorem resizeCell_some (hz : st.store.array q.block q.offset = ArrayCell.zero) (hpos : 0 < n)
    (hn : n < 2 ^ 32) (hgives : ∀ size, env.gives size = true) :
    resizeCell env q n sizeofArray st = .ok () { st with store := resized st.store q n } := by
  have hmax : n ≤ int64Max := hn.le.trans (by decide)
  have hcap := le_arrayCapacity hmax
  have hgrow : growCell env q ArrayCell.zero n sizeofArray st
      = .ok () { st with
          store := (st.store.alloc (arrayCapacity n * sizeofArray)).setArray q
            ⟨some st.store.next, 0, arrayCapacity n, 0⟩ } := by
    refine (congrFun (if_pos hpos) st).trans ?_
    have hle := arrayCapacity_le hn
    have hdiv : (2 ^ 64 - 1) / sizeofArray = 461168601842738790 := by decide
    unfold reserveCell
    dsimp only
    rw [if_neg (by change ¬ arrayCapacity n ≤ 0; omega), if_neg (by omega),
      if_neg (by rw [hgives]; decide)]
    rfl
  have hroom : 0 + n * sizeofArray ≤ arrayCapacity n * sizeofArray := by
    rw [Nat.zero_add]
    exact Nat.mul_le_mul_right _ hcap
  unfold resizeCell
  rw [get_bind, hz, bind_ok (refuse_ok (by decide)), bind_ok (refuse_ok (by omega)),
    bind_ok hgrow, get_bind]
  dsimp only
  rw [setArray_same]
  have hclear : zeroCells ⟨some st.store.next, 0, arrayCapacity n, 0⟩ n sizeofArray
      { st with
        store := (st.store.alloc (arrayCapacity n * sizeofArray)).setArray q
          ⟨some st.store.next, 0, arrayCapacity n, 0⟩ }
      = .ok () { st with
          store := ((st.store.alloc (arrayCapacity n * sizeofArray)).setArray q
            ⟨some st.store.next, 0, arrayCapacity n, 0⟩).clear st.store.next 0
              (n * sizeofArray) } := by
    refine (congrFun (if_pos hpos) _).trans ((bind_ok (if_pos ?_)).trans rfl)
    change 0 * sizeofArray + (n - 0) * sizeofArray ≤ if _ then _ else _
    rw [if_pos rfl, Nat.zero_mul, Nat.sub_zero]
    exact hroom
  rw [bind_ok hclear]
  rfl

end Resizes

/-- What `beforeArray` leaves of an array of zeros. -/
def arrayStore (s : Store) (q : Place) (n : ℕ) : Store :=
  if n = 0 then (s.setArray q ArrayCell.zero).setArray q ArrayCell.zero
  else resized (s.setArray q ArrayCell.zero) q n

theorem beforeArray_at {env : SerialEnv} {q : Place} {st : Serializer} {rest : List UInt8}
    {hash n : ℕ} (h : st.At (leBytes 8 hash ++ (leBytes 8 n ++ rest))) (hhash : hash < 2 ^ 64)
    (hn : n < 2 ^ 32) (hz : st.store.array q.block q.offset = ArrayCell.zero)
    (hgives : ∀ size, env.gives size = true) :
    (∃ st', beforeArray env q hash st = .ok () st' ∧ st'.At rest ∧
        st'.store = arrayStore st.store q n) ∨
      Strays (beforeArray env q hash) st ∧
        ¬ q.offset + sizeofArray ≤ st.store.room q.block := by
  obtain ⟨st1, hverify, hat1, hstore1⟩ := verify_at (n := 8) (by omega) h
  obtain ⟨st2, hload, hat2, hstore2⟩ := load_at (n := 8) (by omega) hat1
  unfold Strays beforeArray
  rw [bind_ok hverify, get_bind, hstore1, hz, if_pos hat1.reading, bind_ok hload]
  have hstore : st2.store = st.store := hstore2.trans hstore1
  by_cases hroom : q.offset + sizeofArray ≤ st2.store.room q.block
  · left
    have hcell : inBlock q sizeofArray st2 = .ok () st2 := if_pos hroom
    have hclear : modifyStore (fun store => store.setArray q ArrayCell.zero) st2
        = .ok () { st2 with store := st2.store.setArray q ArrayCell.zero } := rfl
    have hz2 : (st2.store.setArray q ArrayCell.zero).array q.block q.offset = ArrayCell.zero :=
      setArray_same _ _ _
    rw [bind_ok hcell, bind_ok (refuse_ok (by decide))]
    rcases Nat.eq_zero_or_pos n with rfl | hpos
    · refine ⟨_, (bind_ok hclear).trans (resizeCell_empty hz2), hat2.setStore _, ?_⟩
      rw [arrayStore, if_pos rfl, hstore]
    · refine ⟨_, (bind_ok hclear).trans (resizeCell_some hz2 hpos hn hgives), hat2.setStore _, ?_⟩
      rw [arrayStore, if_neg (by omega), hstore]
  · have hcell : inBlock q sizeofArray st2
        = .error (.undefined "write outside its block") st2 := if_neg hroom
    rw [bind_error hcell, ← hstore]
    exact Or.inr ⟨⟨_, _, rfl⟩, hroom⟩

/-! ## The walk -/

section Positive

variable (src : Store)

mutual

theorem image_pos : ∀ (info : TypeInfo) (p : Place), info.WellFormed →
    0 < (image src info p).length
  | .scalar t, p, _ => by
    rw [image, Store.bytesAt, List.length_map, List.length_range]
    exact t.size_bounds.1
  | .enumeration t h, p, _ => by rw [image, List.length_append, length_leBytes]; omega
  | .string, p, _ => by rw [image, List.length_append, length_leBytes]; omega
  | .struct h _ fields, p, _ => by rw [image, List.length_append, length_leBytes]; omega
  | .tuple size argTypes, p, hwf => by
    rw [image]
    exact images_pos argTypes p hwf.1 hwf.2.2
  | .dim h _ _ _, p, _ => by rw [image, List.length_append, length_leBytes]; omega
  | .array h _, p, _ => by rw [image, List.length_append, length_leBytes]; omega
  | .variant .., _, hwf => hwf.elim
  | .function, _, hwf => hwf.elim
  | .lambda, _, hwf => hwf.elim
  | .handle .., _, hwf => hwf.elim
  | .unsupported .., _, hwf => hwf.elim

theorem images_pos : ∀ (fields : Fields) {start size : ℕ} (p : Place), fields ≠ .nil →
    fields.Inside start size → 0 < (images src fields p).length
  | .nil, _, _, _, h, _ => absurd rfl h
  | .cons offset info _, _, _, p, _, hin => by
    rw [images, List.length_append]
    have := image_pos info (p.shift offset) hin.2.1
    omega

end

theorem le_length_images {info : TypeInfo} (hwf : info.WellFormed) (stride count : ℕ) (p : Place) :
    count ≤ (atEach (image src info) stride count p).flatten.length := by
  induction count generalizing p with
  | zero => exact Nat.zero_le _
  | succ count ih =>
    rw [atEach, List.flatten_cons, List.length_append]
    have := ih (p.shift stride)
    have := image_pos src info p hwf
    omega

end Positive

section Walks

variable {src : Store} {env : SerialEnv} {deep : TypeInfo → Place → Walker Unit}

theorem loads_bytes {n : ℕ} {p q : Place} {st : Serializer} {rest : List UInt8}
    (hat : st.At (src.bytesAt p n ++ rest)) :
    (∃ st', serialize q n st = .ok () st' ∧ st'.At rest ∧ Framed st.store st'.store q n ∧
        st'.store.bytesAt q n = src.bytesAt p n) ∨
      Strays (serialize q n) st ∧ ¬ q.offset + n ≤ st.store.room q.block := by
  have hlen : (src.bytesAt p n).length = n := by simp [Store.bytesAt]
  have hstep := serialize_at (q := q) hat
  have hframed := framed_setBytes st.store q (src.bytesAt p n)
  have hbytes := bytesAt_setBytes st.store q (src.bytesAt p n)
  rw [hlen] at hstep hframed hbytes
  rcases hstep with ⟨st', hrun, hat', hstore⟩ | hstray
  · rw [← hstore] at hframed hbytes
    exact Or.inl ⟨st', hrun, hat', hframed, hbytes⟩
  · exact Or.inr hstray

theorem verify_then {n x : ℕ} (hx : x < 256 ^ n) {st : Serializer} {rest : List UInt8}
    {m : Walker Unit} {P : Serializer → Prop} {Q : Prop} (h : st.At (leBytes n x ++ rest))
    (hm : ∀ st1 : Serializer, st1.At rest → st1.store = st.store →
      (∃ st', m st1 = .ok () st' ∧ P st') ∨ Strays m st1 ∧ Q) :
    (∃ st', (verify n x >>= fun _ => m) st = .ok () st' ∧ P st') ∨
      Strays (verify n x >>= fun _ => m) st ∧ Q := by
  obtain ⟨st1, hrun, hat, hstore⟩ := verify_at hx h
  rcases hm st1 hat hstore with ⟨st', hrun', hP⟩ | ⟨hstray, hQ⟩
  · exact Or.inl ⟨st', (bind_ok hrun).trans hrun', hP⟩
  · exact Or.inr ⟨strays_of_ok hrun hstray, hQ⟩

theorem loads_string : Loads src .string walkString := by
  intro p q lo st rest hat _ _ _ _
  rw [image, List.append_assoc] at hat
  have hlen : (src.text p.block p.offset).length < 2 ^ 32 := by
    have := hat.length
    have := hat.small
    simp only [List.length_append] at *
    omega
  obtain ⟨st1, hload, hat1, hstore1⟩ := load_at (n := 4) (by omega) hat
  have hroom : (src.text p.block p.offset).length ≤
      ((src.text p.block p.offset).length + 1) % 2 ^ 32 := by
    have := hat.length
    have := hat.small
    simp only [List.length_append, length_leBytes] at *
    omega
  obtain ⟨st2, hread, hat2, hstore2⟩ := read_at hat1 rfl hroom
  have hstore : st2.store = st.store := hstore2.trans hstore1
  unfold Strays walkString
  rw [get_bind, if_pos hat.reading, bind_ok hload, bind_ok hread]
  by_cases hin : q.offset + 8 ≤ st2.store.room q.block
  · have hcell : inBlock q 8 st2 = .ok () st2 := if_pos hin
    refine Or.inl ⟨_, bind_ok hcell, hat2.setStore _, ?_, ?_, trivial⟩
    · rw [← hstore]
      exact framed_setText _ _ _ (by decide)
    · rw [valueOf, valueOf]
      dsimp only
      rw [Store.setText_text, Store.patch_mem le_rfl (Nat.lt_succ_self _)]
  · have hcell : inBlock q 8 st2
        = .error (.undefined "write outside its block") st2 := if_neg hin
    refine Or.inr ⟨⟨_, _, bind_error hcell⟩, fun ⟨_, hroom⟩ => hin ?_⟩
    rw [hstore]
    exact hroom

theorem framed_arrayStore {s : Store} {q : Place} {n : ℕ} (hq : q.block < s.next) :
    Framed s (arrayStore s q n) q sizeofArray := by
  unfold arrayStore
  split_ifs
  · exact (framed_setArray s q _ hq).trans (framed_setArray _ q _ hq)
  · exact (framed_setArray s q _ hq).trans (framed_resized hq)

theorem array_parts (src : Store) (h : ℕ) {firstType : TypeInfo} (hwf : firstType.WellFormed)
    (p : Place) : ∃ n images vals,
      image src (.array h firstType) p = leBytes 8 h ++ (leBytes 8 n ++ images) ∧
      valueOf src (.array h firstType) p = .node vals ∧ n ≤ images.length ∧
      (n = 0 → images = [] ∧ vals = []) ∧
      (0 < n → ∃ data, images
          = (atEach (image src firstType) firstType.size n ⟨data, 0⟩).flatten ∧
        vals = atEach (valueOf src firstType) firstType.size n ⟨data, 0⟩) := by
  rw [image, valueOf]
  cases hdata : (src.array p.block p.offset).data with
  | none => exact ⟨0, [], [], rfl, rfl, le_rfl, fun _ => ⟨rfl, rfl⟩, fun h0 => absurd h0 (by omega)⟩
  | some data =>
    refine ⟨_, _, _, rfl, rfl, le_length_images src hwf _ _ _, fun h0 => ?_,
      fun _ => ⟨data, rfl, rfl⟩⟩
    rw [h0]
    exact ⟨rfl, rfl⟩

theorem loads_array (hgives : ∀ size, env.gives size = true) {h : ℕ} {firstType : TypeInfo}
    (hwf : (TypeInfo.array h firstType).WellFormed)
    (helem : Loads src firstType (walkWith env deep firstType)) :
    Loads src (.array h firstType) (walkWith env deep (.array h firstType)) := by
  intro p q lo st rest hat hlo hnext hz hfit
  have hq : q.block < st.store.next := lt_of_lt_of_le hlo hnext
  have hzq : st.store.array q.block q.offset = ArrayCell.zero :=
    hz _ le_rfl (by change _ < q.offset + 40; omega)
  obtain ⟨n, images, vals, himage, hvalue, hn, hnone, hsome⟩ := array_parts src h hwf.2 p
  rw [himage, List.append_assoc, List.append_assoc] at hat
  have hn32 : n < 2 ^ 32 := by
    have hlen := hat.length
    have hsmall := hat.small
    simp only [List.length_append] at hlen
    omega
  rw [hvalue] at hfit ⊢
  rcases beforeArray_at hat hwf.1 hn32 hzq hgives with ⟨st1, hrun1, hat1, hstore1⟩ | ⟨hstray, hno⟩
  · have hfr1 : Framed st.store st1.store q sizeofArray := hstore1 ▸ framed_arrayStore hq
    rcases Nat.eq_zero_or_pos n with rfl | hpos
    · obtain ⟨rfl, rfl⟩ := hnone rfl
      have hcell : st1.store.array q.block q.offset = ArrayCell.zero := by
        rw [hstore1, arrayStore, if_pos rfl]
        exact setArray_same _ _ _
      refine Or.inl ⟨st1, ?_, hat1, hfr1, ?_, ?_, ?_⟩
      · rw [walkWith, bind_ok hrun1, get_bind, hcell]
        exact refuse_ok (by decide)
      · rw [valueOf, hcell]
        rfl
      · rw [hcell]
        exact Or.inl ⟨rfl, rfl, rfl⟩
      · rw [hcell]
        exact fun data hdata => nomatch hdata
    · obtain ⟨data, rfl, rfl⟩ := hsome hpos
      have hnew : st1.store = resized (st.store.setArray q ArrayCell.zero) q n := by
        rw [hstore1, arrayStore, if_neg (by omega)]
      have hcell : st1.store.array q.block q.offset
          = ⟨some st.store.next, n, arrayCapacity n, 0⟩ := hnew ▸ resized_array _ _ _
      have hnext1 : st1.store.next = st.store.next + 1 := hnew ▸ rfl
      have hroom1 : st1.store.room st.store.next = arrayCapacity n * sizeofArray :=
        hnew ▸ if_pos rfl
      have hcap : n ≤ arrayCapacity n := le_arrayCapacity (hn32.le.trans (by decide))
      have hvals : atEach (valueOf src firstType) firstType.size n ⟨data, 0⟩ ≠ [] := fun h0 => by
        have := congrArg List.length h0
        rw [length_atEach] at this
        exact absurd this (by rw [List.length_nil]; omega)
      have hz1 : Zeroed st1.store ⟨st.store.next, 0⟩ (n * firstType.size) := by
        rw [hnew]
        refine zeroed_resized (s := st.store.setArray q ArrayCell.zero) hq (hfit.imp ?_ ?_)
        · exact (framed_setArray _ _ _ hq).blank
        · exact fun hfits => by rw [hfits.1 hvals]
      have hstep := loads_elements hwf.2 helem n ⟨data, 0⟩ ⟨st.store.next, 0⟩ (st.store.next + 1)
        st1 rest hat1 (Nat.lt_succ_self _) hnext1.ge hz1 (hfit.imp hfr1.blank And.right)
      have hwalk : walkWith env deep (.array h firstType) q st
          = walkElements (walkWith env deep firstType) firstType.size n ⟨st.store.next, 0⟩ st1 := by
        rw [walkWith, bind_ok hrun1, get_bind, hcell]
      rcases hstep with ⟨st2, hrun2, hat2, hfr2, hval2, hheld2⟩ | ⟨⟨what, st2, hrun2⟩, hno⟩
      · have hcell2 : st2.store.array q.block q.offset
            = ⟨some st.store.next, n, arrayCapacity n, 0⟩ :=
          (hfr2.same q.block (lt_of_lt_of_le hq hfr1.next) _ fun ⟨h1, _⟩ => by
            change q.block = st.store.next at h1
            omega).array.trans hcell
        refine Or.inl ⟨st2, hwalk.trans hrun2, hat2, hfr1.trans_new hfr2 le_rfl, ?_, ?_, ?_⟩
        · rw [valueOf, hcell2]
          exact congrArg Val.node hval2
        · rw [hcell2]
          refine Or.inr ⟨st.store.next, rfl, hnext, ?_, hpos, hcap, ?_⟩
          · exact lt_of_lt_of_le (by omega) hfr2.next
          · rw [hfr2.room _ (by omega), hroom1]
            rfl
        · rw [hcell2]
          rintro data' hdata' r hr
          obtain rfl := Option.some.inj hdata'
          exact hheld2 r hr
      · refine Or.inr ⟨⟨what, st2, hwalk.trans hrun2⟩, fun ⟨hfits, _⟩ => hno ⟨hfits.2, ?_⟩⟩
        rw [hfits.1 hvals, hroom1, Nat.zero_add]
        exact Nat.mul_le_mul_right _ hcap
  · exact Or.inr ⟨strays_bind hstray, fun ⟨_, hroom⟩ => hno hroom⟩

mutual

theorem loads_walk (hgives : ∀ size, env.gives size = true) : ∀ (info : TypeInfo),
    info.WellFormed → info.Laid → Loads src info (walkWith env deep info)
  | .scalar t, _, _ => by
    intro p q lo st rest hat _ _ _ _
    rcases loads_bytes (q := q) hat with ⟨st', hrun, hat', hframed, hbytes⟩ | ⟨hstray, hno⟩
    · exact Or.inl ⟨st', hrun, hat', hframed, congrArg Val.raw hbytes, trivial⟩
    · exact Or.inr ⟨hstray, fun ⟨_, hroom⟩ => hno hroom⟩
  | .enumeration t h, hwf, _ => by
    intro p q lo st rest hat _ _ _ _
    rw [image, List.append_assoc] at hat
    refine verify_then (n := 8) hwf hat fun st1 hat1 hstore1 => ?_
    rw [← hstore1]
    rcases loads_bytes (q := q) hat1 with ⟨st', hrun, hat', hframed, hbytes⟩ | ⟨hstray, hno⟩
    · exact Or.inl ⟨st', hrun, hat', hframed, congrArg Val.raw hbytes, trivial⟩
    · exact Or.inr ⟨hstray, fun ⟨_, hroom⟩ => hno hroom⟩
  | .string, _, _ => loads_string
  | .struct h size fields, hwf, hlaid => by
    intro p q lo st rest hat hlo hnext hz hfit
    rw [image, List.append_assoc] at hat
    refine verify_then (n := 8) hwf.1 hat fun st1 hat1 hstore1 => ?_
    rw [← hstore1] at hnext hz hfit ⊢
    rcases loads_fields hgives fields 0 size hwf.2 hlaid p q lo st1 rest hat1 hlo hnext hz hfit with
      ⟨st', hrun, hat', hframed, hvalue, hheld⟩ | ⟨hstray, hno⟩
    · exact Or.inl ⟨st', hrun, hat', hframed, congrArg Val.node hvalue, hheld⟩
    · exact Or.inr ⟨hstray, hno⟩
  | .tuple size argTypes, hwf, hlaid => by
    intro p q lo st rest hat hlo hnext hz hfit
    rw [image] at hat
    rw [walkWith, walkEntries_eq env deep argTypes hlaid]
    have hlaid' := Fields.Walked.laid argTypes hlaid
    rcases loads_fields hgives argTypes 0 size hwf.2.2 hlaid' p q lo st rest hat hlo hnext hz
      hfit with ⟨st', hrun, hat', hframed, hvalue, hheld⟩ | ⟨hstray, hno⟩
    · exact Or.inl ⟨st', hrun, hat', hframed, congrArg Val.node hvalue, hheld⟩
    · exact Or.inr ⟨hstray, hno⟩
  | .dim h n count elem, hwf, hlaid => by
    intro p q lo st rest hat hlo hnext hz hfit
    rw [image, List.append_assoc, List.append_assoc] at hat
    refine verify_then (n := 8) hwf.1 hat fun st1 hat1 hstore1 => ?_
    rw [← hstore1] at hnext hz hfit ⊢
    refine verify_then (n := 4) hwf.2.1 hat1 fun st2 hat2 hstore2 => ?_
    rw [← hstore2] at hnext hz hfit ⊢
    dsimp only
    rw [walkElements_dim]
    have helem := loads_walk hgives elem hwf.2.2 hlaid
    rcases loads_elements hwf.2.2 helem count p q lo st2 rest hat2 hlo hnext hz hfit with
      ⟨st', hrun, hat', hframed, hvalue, hheld⟩ | ⟨hstray, hno⟩
    · exact Or.inl ⟨st', hrun, hat', hframed, congrArg Val.node hvalue, hheld⟩
    · exact Or.inr ⟨hstray, hno⟩
  | .array h firstType, hwf, hlaid =>
    loads_array hgives hwf (loads_walk hgives firstType hwf.2 hlaid)
  | .variant .., hwf, _ => hwf.elim
  | .function, hwf, _ => hwf.elim
  | .lambda, hwf, _ => hwf.elim
  | .handle .., hwf, _ => hwf.elim
  | .unsupported .., hwf, _ => hwf.elim

theorem loads_fields (hgives : ∀ size, env.gives size = true) : ∀ (fields : Fields)
    (start size : ℕ), fields.Inside start size → fields.Laid →
    ∀ (p q : Place) (lo : ℕ) (st : Serializer) (rest : List UInt8),
    st.At (images src fields p ++ rest) → q.block < lo → lo ≤ st.store.next →
    Zeroed st.store (q.shift start) (size - start) →
    (st.store.Blank ∨ fields.Fits (valuesOf src fields p)) →
    (∃ st', walkFields env deep fields q st = .ok () st' ∧ st'.At rest ∧
      Framed st.store st'.store (q.shift start) (size - start) ∧
      valuesOf st'.store fields q = valuesOf src fields p ∧
      HeldFields st'.store resizeStride fields lo q) ∨
    Strays (walkFields env deep fields q) st ∧
      ¬ (fields.Fits (valuesOf src fields p) ∧ q.offset + size ≤ st.store.room q.block)
  | .nil, _, _, _, _ => fun _ _ _ st _ hat _ _ _ _ =>
    Or.inl ⟨st, rfl, hat, Framed.refl _ _ _, rfl, trivial⟩
  | .cons offset info rest, start, size, hin, hlaid => by
    intro p q lo st tail hat hlo hnext hz hfit
    obtain ⟨hstart, hwf, hrest⟩ := hin
    have hle := Fields.Inside.le_size rest hrest
    have hq : q.block < st.store.next := lt_of_lt_of_le hlo hnext
    rw [images, List.append_assoc] at hat
    rcases loads_walk hgives info hwf hlaid.1 (p.shift offset) (q.shift offset) lo st _ hat hlo
      hnext
      (hz.mono rfl (Nat.add_le_add_left hstart _) (by
        change q.offset + offset + info.size ≤ q.offset + start + (size - start)
        omega)) (hfit.imp_right And.left) with
      ⟨st1, hrun1, hat1, hfr1, hval1, hheld1⟩ | ⟨hstray, hno⟩
    · have hz1 : Zeroed st1.store (q.shift (offset + info.size)) (size - (offset + info.size)) := by
        refine hfr1.zeroed rfl (Nat.add_assoc ..).le hq (hz.mono rfl ?_ ?_)
        · exact Nat.add_le_add_left (by omega) _
        · change q.offset + (offset + info.size) + _ ≤ q.offset + start + (size - start)
          omega
      rcases loads_fields hgives rest _ size hrest hlaid.2 p q lo st1 tail hat1 hlo
        (hnext.trans hfr1.next) hz1 (hfit.imp hfr1.blank And.right) with
        ⟨st2, hrun2, hat2, hfr2, hval2, hheld2⟩ | ⟨hstray, hno⟩
      · have hagree : Alike st1.store st2.store lo (q.shift offset) info.size :=
          hfr2.agree rfl (Nat.add_assoc ..).le hlo (lt_of_lt_of_le hq hfr1.next)
        obtain ⟨hheld, hval⟩ := congr_object resizeStride info lo _ hwf hagree hheld1
        have hfirst : Framed st.store st1.store (q.shift start) (size - start) :=
          hfr1.mono rfl (Nat.add_le_add_left hstart _) (by
            change q.offset + offset + info.size ≤ q.offset + start + (size - start)
            omega)
        have hothers : Framed st1.store st2.store (q.shift start) (size - start) :=
          hfr2.mono rfl (Nat.add_le_add_left (by omega) _) (by
            change q.offset + (offset + info.size) + (size - (offset + info.size))
              ≤ q.offset + start + (size - start)
            omega)
        refine Or.inl ⟨st2, (bind_ok hrun1).trans hrun2, hat2, hfirst.trans hothers, ?_, hheld,
          hheld2⟩
        rw [valuesOf, valuesOf, hval, hval1, hval2]
      · refine Or.inr ⟨strays_of_ok hrun1 hstray, fun ⟨hfits, hroom⟩ => hno ⟨hfits.2, ?_⟩⟩
        rw [hfr1.room _ hq]
        exact hroom
    · refine Or.inr ⟨strays_bind hstray, fun ⟨hfits, hroom⟩ => hno ⟨hfits.1, ?_⟩⟩
      change q.offset + offset + info.size ≤ st.store.room q.block
      omega

end

end Walks

/-! ## Round trips -/

section Strides

variable {s : Store}

mutual

theorem held_iff : ∀ (info : TypeInfo) (lo lo' : ℕ) (q : Place), lo' ≤ lo →
    Held s resizeStride info lo q →
      (Held s TypeInfo.size info lo' q ↔ info.Fits (valueOf s info q))
  | .scalar _, _, _, _, _, _ => Iff.rfl
  | .enumeration .., _, _, _, _, _ => Iff.rfl
  | .string, _, _, _, _, _ => Iff.rfl
  | .struct _ _ fields, lo, lo', q, hlo, h => heldFields_iff fields lo lo' q hlo h
  | .tuple _ argTypes, lo, lo', q, hlo, h => heldFields_iff argTypes lo lo' q hlo h
  | .dim _ _ count elem, lo, lo', q, hlo, h => by
    rw [Held, valueOf, TypeInfo.Fits, atEach_eq_map (valueOf s elem), List.forall_mem_map]
    exact forall₂_congr fun r hr => held_iff elem lo lo' r hlo (h r hr)
  | .array _ firstType, lo, lo', q, hlo, h => by
    obtain ⟨hcell, helems⟩ := h
    rw [Held, valueOf]
    rcases hcell with ⟨hnone, hsize, hcap⟩ | ⟨data, hdata, hle, hnext, hpos, hcap, hroom⟩
    · rw [hnone]
      refine iff_of_true ⟨Or.inl ⟨hnone, hsize, hcap⟩, fun _ hd => nomatch hd⟩ ?_
      exact ⟨fun h => absurd rfl h, fun _ hk => absurd hk List.not_mem_nil⟩
    · rw [hdata]
      have heach : (∀ d, some data = some d → ∀ r ∈ atEach id firstType.size
            (s.array q.block q.offset).size ⟨d, 0⟩, Held s TypeInfo.size firstType (d + 1) r) ↔
          ∀ k ∈ atEach (valueOf s firstType) firstType.size (s.array q.block q.offset).size
            ⟨data, 0⟩, firstType.Fits k := by
        rw [atEach_eq_map (valueOf s firstType), List.forall_mem_map]
        refine ⟨fun h r hr => ?_, fun h d hd r hr => ?_⟩
        · exact (held_iff firstType _ _ r le_rfl (helems data hdata r hr)).mp (h data rfl r hr)
        · obtain rfl := Option.some.inj hd
          exact (held_iff firstType _ _ r le_rfl (helems data hdata r hr)).mpr (h r hr)
      have hfits : HeldArray s firstType.size lo' (s.array q.block q.offset) ↔
          (atEach (valueOf s firstType) firstType.size (s.array q.block q.offset).size
            ⟨data, 0⟩ ≠ [] → firstType.size = sizeofArray) := by
        have hne : atEach (valueOf s firstType) firstType.size (s.array q.block q.offset).size
            ⟨data, 0⟩ ≠ [] := List.ne_nil_of_length_pos (by rwa [length_atEach])
        constructor
        · rintro (⟨-, h0, -⟩ | ⟨data', hdata', -, -, -, -, hroom'⟩) _
          · omega
          · obtain rfl := Option.some.inj (hdata.symm.trans hdata')
            exact Nat.eq_of_mul_eq_mul_left (by omega) (hroom'.symm.trans hroom)
        · intro h
          exact Or.inr ⟨data, hdata, hlo.trans hle, hnext, hpos, hcap, by rw [hroom, h hne]; rfl⟩
      exact and_congr hfits heach
  | .variant .., _, _, _, _, _ => Iff.rfl
  | .function, _, _, _, _, _ => Iff.rfl
  | .lambda, _, _, _, _, _ => Iff.rfl
  | .handle .., _, _, _, _, _ => Iff.rfl
  | .unsupported .., _, _, _, _, _ => Iff.rfl

theorem heldFields_iff : ∀ (fields : Fields) (lo lo' : ℕ) (q : Place), lo' ≤ lo →
    HeldFields s resizeStride fields lo q →
      (HeldFields s TypeInfo.size fields lo' q ↔ fields.Fits (valuesOf s fields q))
  | .nil, _, _, _, _, _ => Iff.rfl
  | .cons _ info rest, lo, lo', q, hlo, h =>
    and_congr (held_iff info lo lo' _ hlo h.1) (heldFields_iff rest lo lo' q hlo h.2)

end

end Strides

/-- **An object of zeros** in its block. -/
structure ZeroObject (s : Store) (q : Place) (size : ℕ) : Prop where
  block : q.block < s.next
  room : q.offset + size ≤ s.room q.block
  byte : ∀ o, q.offset ≤ o → o < q.offset + size → s.byte q.block o = 0
  text : ∀ o, q.offset ≤ o → o < q.offset + size → s.text q.block o = []
  array : Zeroed s q size

/-- A block of zeros, and nothing else. -/
def zeroBlock (size : ℕ) : Store :=
  ⟨1, fun _ => size, fun _ _ => 0, fun _ _ => [], fun _ _ => ArrayCell.zero, fun _ _ => none⟩

theorem zeroObject_zeroBlock (size : ℕ) : ZeroObject (zeroBlock size) ⟨0, 0⟩ size where
  block := Nat.one_pos
  room := (Nat.zero_add size).le
  byte := fun _ _ _ => rfl
  text := fun _ _ _ => rfl
  array := fun _ _ _ => rfl

/-- **What was saved loads** — into every object of zeros, without an error and to its last byte, as
an equal value whose array buffers have `capacity * size` bytes. -/
def RoundTrips (env : SerialEnv) (depth : ℕ) (info : TypeInfo) (src : Store) (p : Place)
    (w : Serializer) : Prop :=
  ∀ (dst : Store) (q : Place), ZeroObject dst q info.size →
    ∃ r, binaryLoad env depth info q w.bytesAt w.bytesWritten dst = .ok () r ∧
      r.bytesWritten = w.bytesWritten ∧ valueOf r.store info q = valueOf src info p ∧
      Held r.store TypeInfo.size info 0 q

theorem walk_eq (env : SerialEnv) (depth : ℕ) : ∃ deep, walk env depth = walkWith env deep := by
  cases depth with
  | zero => exact ⟨_, rfl⟩
  | succ depth => exact ⟨walk env depth, rfl⟩

theorem reader_at {w w' : Serializer} {src : Store} {l : List UInt8} (h : w = writer src)
    (hw : Wrote w w' l) (hlen : l.length < 2 ^ 32) (dst : Store) :
    Serializer.At (reader w'.bytesAt w'.bytesWritten dst) (l ++ []) := by
  subst h
  obtain ⟨hpos, hbytes⟩ := hw.bytes (by change 0 + l.length < _; omega)
  have hpos : w'.bytesWritten = 0 + l.length := hpos
  refine ⟨rfl, ?_, Nat.zero_le _, ?_⟩
  · change w'.bytesWritten < _
    omega
  · rw [List.append_nil]
    exact hbytes

theorem Serializer.At.done {st st' : Serializer} {env : SerialEnv} {depth : ℕ} {info : TypeInfo}
    {q : Place} {l : List UInt8} (h : st.At l) (hreads : st.reads = [])
    (hrun : walk env depth info q st = .ok () st') (h' : st'.At []) :
    st'.bytesWritten = st.bytesAllocated := by
  have hstep : InStep st.bytesAllocated st :=
    ⟨h.reading, rfl, h.pos, by rw [hreads]; exact fun _ hr => absurd hr List.not_mem_nil⟩
  have hsound := sound_walk env h.small depth info q st hstep
  rw [hrun] at hsound
  have hlen := h'.length
  rwa [List.length_nil, Nat.add_zero, hsound.allocated] at hlen

/-- A number, and an array of arrays of bytes. -/
def numbered : TypeInfo :=
  .struct 1 48 (.cons 0 (.scalar .tUInt) (.cons 8 (.array 2 (.array 3 (.scalar .tUInt8))) .nil))

/-- An object in block 0, one of its array's elements, which is empty, in block 1. -/
def numberedStore : Store :=
  { zeroBlock 640 with
    next := 2
    byte := fun b o => if b = 0 ∧ o = 0 then 7 else 0
    array := fun b o => if b = 0 ∧ o = 8 then ⟨some 1, 1, 16, 0⟩ else ArrayCell.zero }

/-- An array of bytes in block 0, its byte in block 1. -/
def byteStore : Store :=
  { zeroBlock 40 with
    next := 2
    byte := fun b _ => if b = 1 then 7 else 0
    array := fun b o => if b = 0 ∧ o = 0 then ⟨some 1, 1, 16, 0⟩ else ArrayCell.zero }

/-- An array of bytes. -/
def byteArray : TypeInfo := .array 2 (.scalar .tUInt8)

/-- The serializer after a save of it. -/
def savedBytes : Serializer := (binarySave plainEnv 0 byteArray ⟨0, 0⟩ byteStore).state

/-- The blocks after that loads into a block of zeros. -/
def loadedBytes : Store :=
  (binaryLoad plainEnv 0 byteArray ⟨0, 0⟩ savedBytes.bytesAt savedBytes.bytesWritten
    (zeroBlock byteArray.size)).state.store

theorem loadedBytes_array_room :
    loadedBytes.array 0 0 = ⟨some 1, 1, 16, 0⟩ ∧ loadedBytes.room 1 = 640 := by
  decide +kernel

end DaScript

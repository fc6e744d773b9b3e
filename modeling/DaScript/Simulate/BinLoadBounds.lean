import DaScript.Simulate.BinSerializer

/-!
# Simulate/BinLoadBounds — what a load reads of its input

Every `memcpy` of a load goes through the guard of `read`, whose sum wraps.  While no sum wraps the
copies lie inside the input (`InStep`), and the first that does is let through (`Ended`).

So a load is safe exactly when no sum of it wraps (`load_bounds`).
-/

namespace DaScript

namespace ReadCall

/-- The bytes copied lie inside the input, and in the buffer. -/
def Inside (len : ℕ) (r : ReadCall) : Prop := r.pos + r.size ≤ len ∧ r.size ≤ r.room

/-- `bytesWritten + size` is a `uint32_t`. -/
def Fits (r : ReadCall) : Prop := r.pos + r.size < 2 ^ 32

instance (len : ℕ) : DecidablePred (Inside len) := fun _ => inferInstanceAs (Decidable (_ ∧ _))

instance : DecidablePred Fits := fun _ => inferInstanceAs (Decidable (_ < _))

end ReadCall

open Walker

/-- **Between the reads of a load** every copy has been inside. -/
structure InStep (len : ℕ) (s : Serializer) : Prop where
  reading : s.reading = true
  allocated : s.bytesAllocated = len
  pos : s.bytesWritten ≤ len
  inside : ∀ r ∈ s.reads, r.copied = true ∧ r.Inside len

/-- **How a load ends early** — after copies inside the input only, or with a last read that the
guard refused or let through although its sum wraps. -/
def Ended (len : ℕ) (e : Fault) (s : Serializer) : Prop :=
  (∀ r ∈ s.reads, r.copied = true ∧ r.Inside len) ∨
    ∃ r reads, s.reads = r :: reads ∧ (∀ r ∈ reads, r.copied = true ∧ r.Inside len) ∧
      (r.copied = false ∧ r.Fits ∧ e = .throw "binary data too short" ∨
        r.copied = true ∧ ¬ r.Inside len ∧ ¬ r.Fits)

/-- A piece of a walk keeps `InStep`, or ends early. -/
def Sound (len : ℕ) {α : Type} (m : Walker α) : Prop :=
  ∀ s, InStep len s →
    match m s with
    | .ok _ s' => InStep len s'
    | .error e s' => Ended len e s'

variable {len : ℕ} {α β : Type}

namespace Sound

theorem of_pure (a : α) : Sound len (pure a : Walker α) := fun _ h => h

theorem of_fail (e : Fault) : Sound len (fail e : Walker α) := fun _ h => Or.inl h.inside

theorem of_error (message : String) : Sound len (error message : Walker α) := of_fail _

theorem bind {x : Walker α} {f : α → Walker β} (hx : Sound len x) (hf : ∀ a, Sound len (f a)) :
    Sound len (x >>= f) := by
  intro s hs
  have hstep := hx s hs
  cases hrun : x s with
  | ok a s' =>
    rw [hrun] at hstep
    rw [bind_ok hrun]
    exact hf a s' hstep
  | error e s' =>
    rw [hrun] at hstep
    rw [bind_error hrun]
    exact hstep

theorem bind_get {f : Serializer → Walker β} (hf : ∀ s, s.reading = true → Sound len (f s)) :
    Sound len (Walker.get >>= f) := fun s hs => hf s hs.reading s hs

theorem of_modifyStore (f : Store → Store) : Sound len (modifyStore f) :=
  fun _ h => ⟨h.reading, h.allocated, h.pos, h.inside⟩

theorem of_inBlock (p : Place) (n : ℕ) : Sound len (inBlock p n) := by
  intro s h
  unfold inBlock
  split_ifs
  · exact h
  · exact Or.inl h.inside

theorem of_ite {c : Prop} [Decidable c] {x y : Walker α} (hx : c → Sound len x)
    (hy : ¬ c → Sound len y) : Sound len (if c then x else y) := by
  split_ifs with hc
  · exact hx hc
  · exact hy hc

theorem of_refuse (c : Prop) [Decidable c] (message : String) : Sound len (refuse c message) :=
  of_ite (fun _ => of_error _) fun _ => of_pure _

theorem read_step (hlen : len < 2 ^ 32) (size room : ℕ) (hsize : size < 2 ^ 32) {s : Serializer}
    (h : InStep len s) (hroom : s.bytesWritten + size < 2 ^ 32 → size ≤ room) :
    match read size room s with
    | .ok data s' => InStep len s' ∧ s'.bytesWritten = s.bytesWritten + size ∧ data.length = size
    | .error e s' => Ended len e s' := by
  have hpos := h.pos
  have hallocated := h.allocated
  unfold read
  by_cases hguard : (s.bytesWritten + size) % 2 ^ 32 ≤ s.bytesAllocated
  · rw [if_pos hguard]
    rw [hallocated] at hguard ⊢
    by_cases hin : s.bytesWritten + size ≤ len ∧ size ≤ room
    · rw [if_pos hin]
      have hmod : (s.bytesWritten + size) % 2 ^ 32 = s.bytesWritten + size :=
        Nat.mod_eq_of_lt (lt_of_le_of_lt hin.1 hlen)
      refine ⟨⟨h.reading, rfl, hguard, ?_⟩, hmod, length_bytes⟩
      exact List.forall_mem_cons.mpr ⟨⟨rfl, hin⟩, h.inside⟩
    · rw [if_neg hin]
      refine Or.inr ⟨_, _, rfl, h.inside, Or.inr ⟨rfl, hin, fun hfits => hin ?_⟩⟩
      have hfits : s.bytesWritten + size < 2 ^ 32 := hfits
      rw [Nat.mod_eq_of_lt hfits] at hguard
      exact ⟨hguard, hroom hfits⟩
  · rw [if_neg hguard]
    refine Or.inr ⟨_, _, rfl, h.inside, Or.inl ⟨rfl, ?_, rfl⟩⟩
    change s.bytesWritten + size < 2 ^ 32
    omega

theorem of_read (hlen : len < 2 ^ 32) {n : ℕ} (hn : n < 2 ^ 32) : Sound len (read n n) := by
  intro s h
  have hstep := read_step hlen n n hn h fun _ => le_rfl
  cases hrun : read n n s with
  | ok data s' =>
    rw [hrun] at hstep
    exact hstep.1
  | error e s' =>
    rw [hrun] at hstep
    exact hstep

theorem of_load (hlen : len < 2 ^ 32) {n : ℕ} (hn : n < 2 ^ 32) : Sound len (load n) :=
  (of_read hlen hn).bind fun _ => of_pure _

theorem of_verify (hlen : len < 2 ^ 32) {n : ℕ} (hn : n < 2 ^ 32) (x : ℕ) :
    Sound len (verify n x) := by
  refine bind_get fun s hs => ?_
  rw [if_pos hs]
  exact (of_load hlen hn).bind fun test => of_refuse _ _

theorem of_serialize (hlen : len < 2 ^ 32) (p : Place) {n : ℕ} (hn : n < 2 ^ 32) :
    Sound len (serialize p n) := by
  refine bind_get fun s hs => ?_
  rw [if_pos hs]
  exact (of_read hlen hn).bind fun data => (of_inBlock _ _).bind fun _ => of_modifyStore _

theorem of_walkString (hlen : len < 2 ^ 32) (p : Place) : Sound len (walkString p) := by
  refine bind_get fun s hs => ?_
  rw [if_pos hs]
  intro s h
  have hstep := read_step hlen 4 4 (by decide) h fun _ => le_rfl
  cases hrun : read 4 4 s with
  | error e s1 =>
    rw [hrun] at hstep
    have hload : load 4 s = .error e s1 := bind_error hrun
    rw [bind_error hload]
    exact hstep
  | ok data s1 =>
    rw [hrun] at hstep
    obtain ⟨h1, hpos, hdata⟩ := hstep
    have hlt : leNat data < 2 ^ 32 := by
      have := leNat_lt data
      rwa [hdata] at this
    have hread := read_step hlen (leNat data) ((leNat data + 1) % 2 ^ 32) hlt h1 fun hfits => by
      omega
    have hload : load 4 s = .ok (leNat data) s1 := bind_ok hrun
    rw [bind_ok hload]
    cases hrun2 : read (leNat data) ((leNat data + 1) % 2 ^ 32) s1 with
    | error e s2 =>
      rw [hrun2] at hread
      rw [bind_error hrun2]
      exact hread
    | ok temp s2 =>
      rw [hrun2] at hread
      rw [bind_ok hrun2]
      exact (of_inBlock p 8).bind (fun _ => of_modifyStore _) s2 hread.1

theorem of_walkFunction (hlen : len < 2 ^ 32) (env : SerialEnv) (p : Place) :
    Sound len (walkFunction env p) := by
  refine bind_get fun s hs => ?_
  rw [if_pos hs]
  exact (of_load hlen (by decide)).bind fun _ => (of_inBlock _ _).bind fun _ => of_modifyStore _

theorem of_reserveCell (env : SerialEnv) (p : Place) (arr : ArrayCell) (newCapacity stride : ℕ) :
    Sound len (reserveCell env p arr newCapacity stride) := by
  intro s h
  have hstore : ∀ store, InStep len { s with store := store } := fun _ =>
    ⟨h.reading, h.allocated, h.pos, h.inside⟩
  unfold reserveCell
  dsimp only
  split_ifs
  · exact h
  · exact Or.inl h.inside
  · exact Or.inl h.inside
  · cases arr.data with
    | none => exact hstore _
    | some old =>
      dsimp only
      split_ifs
      · exact hstore _
      · exact Or.inl h.inside

theorem of_zeroCells (arr : ArrayCell) (newSize stride : ℕ) :
    Sound len (zeroCells arr newSize stride) := by
  refine of_ite (fun _ => ?_) fun _ => of_pure _
  cases arr.data with
  | none => exact of_fail _
  | some block => exact (of_inBlock _ _).bind fun _ => of_modifyStore _

theorem of_resizeCell (env : SerialEnv) (p : Place) (newSize stride : ℕ) :
    Sound len (resizeCell env p newSize stride) := by
  refine bind_get fun s hs => (of_refuse _ _).bind fun _ => (of_refuse _ _).bind fun _ => ?_
  have hgrow : ∀ arr, Sound len (growCell env p arr newSize stride) := fun arr =>
    of_ite (fun _ => of_reserveCell _ _ _ _ _) fun _ => of_pure _
  refine (hgrow _).bind fun _ => bind_get fun s hs => ?_
  exact (of_zeroCells _ _ _).bind fun _ => of_modifyStore _

theorem of_beforeArray (hlen : len < 2 ^ 32) (env : SerialEnv) (p : Place) (hash : ℕ) :
    Sound len (beforeArray env p hash) := by
  refine (of_verify hlen (by decide) hash).bind fun _ => ?_
  refine bind_get fun s hs => ?_
  rw [if_pos hs]
  refine (of_load hlen (by decide)).bind fun _ => ?_
  refine (of_inBlock _ _).bind fun _ => ?_
  refine (of_refuse _ _).bind fun _ => ?_
  exact (of_modifyStore _).bind fun _ => of_resizeCell _ _ _ _

theorem of_beforeLambda (hlen : len < 2 ^ 32) (env : SerialEnv) (p : Place) :
    Sound len (beforeLambda env p) := by
  refine bind_get fun s hs => ?_
  rw [if_pos hs]
  refine (of_load hlen (by decide)).bind fun hash => ?_
  cases env.lookup hash with
  | none => exact of_fail _
  | some info =>
    refine (of_refuse _ _).bind fun _ => ?_
    exact (of_inBlock _ _).bind fun _ => (of_modifyStore _).bind fun _ => of_pure _

theorem of_walkElements {walk : Place → Walker Unit} (hwalk : ∀ p, Sound len (walk p))
    (stride : ℕ) :
    ∀ count p, Sound len (walkElements walk stride count p)
  | 0, _ => of_pure ()
  | count + 1, p => (hwalk p).bind fun _ => of_walkElements hwalk stride count _

theorem of_walkAll {walk : TypeInfo → Place → Walker Unit}
    (hwalk : ∀ info p, Sound len (walk info p)) : ∀ l, Sound len (walkAll walk l)
  | [] => of_pure ()
  | (info, p) :: rest => (hwalk info p).bind fun _ => of_walkAll hwalk rest

end Sound

section Walks

variable (env : SerialEnv) {deep : TypeInfo → Place → Walker Unit}

open Sound

mutual

theorem sound_walkWith (hlen : len < 2 ^ 32) (hdeep : ∀ info p, Sound len (deep info p)) :
    ∀ info p, Sound len (walkWith env deep info p)
  | .scalar t, p => of_serialize hlen p (by have := t.size_bounds; omega)
  | .enumeration t h, p =>
    (of_verify hlen (by decide) h).bind fun _ =>
      of_serialize hlen p (by have := t.size_bounds; omega)
  | .string, p => of_walkString hlen p
  | .struct h _ fields, p =>
    (of_verify hlen (by decide) h).bind fun _ => sound_walkFields hlen hdeep fields p
  | .tuple _ argTypes, p => sound_walkEntries hlen hdeep argTypes p 0
  | .dim h n _ elem, p =>
    (of_verify hlen (by decide) h).bind fun _ => (of_verify hlen (by decide) n).bind fun _ =>
      of_walkElements (sound_walkWith hlen hdeep elem) _ _ _
  | .array h firstType, p => by
    refine (of_beforeArray hlen env p h).bind fun _ => bind_get fun s _ => ?_
    dsimp only
    cases (s.store.array p.block p.offset).data with
    | none => exact of_refuse _ _
    | some data => exact of_walkElements (sound_walkWith hlen hdeep firstType) _ _ _
  | .variant _ argTypes, p => bind_get fun _ _ => sound_walkChoice hlen hdeep argTypes _ _
  | .function, p => of_walkFunction hlen env p
  | .lambda, p => (of_beforeLambda hlen env p).bind fun _ => hdeep _ _
  | .handle h _ _, p =>
    (of_verify hlen (by decide) h).bind fun _ => bind_get fun _ _ => of_walkAll hdeep _
  | .unsupported _ message, _ => of_error message

theorem sound_walkFields (hlen : len < 2 ^ 32) (hdeep : ∀ info p, Sound len (deep info p)) :
    ∀ fields p, Sound len (walkFields env deep fields p)
  | .nil, _ => of_pure ()
  | .cons _ info rest, _ =>
    (sound_walkWith hlen hdeep info _).bind fun _ => sound_walkFields hlen hdeep rest _

theorem sound_walkEntries (hlen : len < 2 ^ 32) (hdeep : ∀ info p, Sound len (deep info p)) :
    ∀ entries p offset, Sound len (walkEntries env deep entries p offset)
  | .nil, _, _ => of_pure ()
  | .cons _ info rest, _, _ =>
    (sound_walkWith hlen hdeep info _).bind fun _ => sound_walkEntries hlen hdeep rest _ _

theorem sound_walkChoice (hlen : len < 2 ^ 32) (hdeep : ∀ info p, Sound len (deep info p)) :
    ∀ entries fidx p, Sound len (walkChoice env deep entries fidx p)
  | .nil, _, _ => of_fail _
  | .cons _ info _, 0, _ => sound_walkWith hlen hdeep info _
  | .cons _ _ rest, fidx + 1, _ => sound_walkChoice hlen hdeep rest fidx _

end

theorem sound_walk (hlen : len < 2 ^ 32) : ∀ depth info p, Sound len (walk env depth info p)
  | 0, info, p => sound_walkWith env hlen (fun _ _ => of_fail _) info p
  | depth + 1, info, p => sound_walkWith env hlen (sound_walk hlen depth) info p

end Walks

/-- **A load that keeps to its input** — what is copied lies inside the input and in its buffer, and
where a read is refused the load raises the error it has for that. -/
def Outcome.KeepsToInput (len : ℕ) (out : Outcome Serializer Unit) : Prop :=
  ∀ r ∈ out.state.reads,
    if r.copied then r.Inside len
    else out = .error (.throw "binary data too short") out.state

/-- **A load keeps to its input exactly when no sum of its guard wraps**: `bytesWritten + size` is
less than `2^32` at each read. -/
theorem load_bounds (env : SerialEnv) (depth : ℕ) (info : TypeInfo) (obj : Place) (data : Memory)
    (store : Store) (hlen : len < 2 ^ 32) :
    (binaryLoad env depth info obj data len store).KeepsToInput len ↔
      ∀ r ∈ (binaryLoad env depth info obj data len store).state.reads, r.Fits := by
  have hinside : ∀ r : ReadCall, r.Inside len → r.Fits := fun r h => lt_of_le_of_lt h.1 hlen
  have hstart : InStep len (reader data len store) :=
    ⟨rfl, rfl, Nat.zero_le _, fun _ hr => absurd hr List.not_mem_nil⟩
  have hall : ∀ out : Outcome Serializer Unit,
      (∀ r ∈ out.state.reads, r.copied = true ∧ r.Inside len) →
      (out.KeepsToInput len ↔ ∀ r ∈ out.state.reads, r.Fits) := by
    intro out h
    refine iff_of_true (fun r hr => ?_) fun r hr => hinside r (h r hr).2
    rw [if_pos (h r hr).1]
    exact (h r hr).2
  unfold binaryLoad
  split_ifs with href
  · have hsound := sound_walk env hlen depth info obj (reader data len store) hstart
    cases hrun : walk env depth info obj (reader data len store) with
    | ok u s =>
      rw [hrun] at hsound
      exact hall _ hsound.inside
    | error e s =>
      rw [hrun] at hsound
      rcases hsound with h | ⟨r, reads, hreads, hrest, hlast⟩
      · exact hall _ h
      · refine Iff.trans (b := r.Fits) ⟨fun hkeeps => ?_, fun hfits r' hr' => ?_⟩ ?_
        · rcases hlast with ⟨-, hfits, -⟩ | ⟨hcopied, hout, -⟩
          · exact hfits
          · have hr := hkeeps r (by rw [Outcome.state_error, hreads]; exact List.mem_cons_self ..)
            rw [if_pos hcopied] at hr
            exact absurd hr hout
        · rw [Outcome.state_error, hreads] at hr'
          rcases List.mem_cons.mp hr' with rfl | hr'
          · rcases hlast with ⟨hrefused, -, rfl⟩ | ⟨-, -, hno⟩
            · rw [if_neg (by rw [hrefused]; exact Bool.false_ne_true)]
              rfl
            · exact absurd hfits hno
          · rw [if_pos (hrest r' hr').1]
            exact (hrest r' hr').2
        · rw [Outcome.state_error, hreads, List.forall_mem_cons]
          exact (and_iff_left fun r' hr' => hinside r' (hrest r' hr').2).symm
  · exact hall _ hstart.inside

/-- Nothing known of types, functions or annotations, and memory without end. -/
def plainEnv : SerialEnv where
  lookup := fun _ => none
  fnByMangledName := id
  mangledNameHash := id
  annotationWalk := fun _ _ _ => []
  gives := fun _ => true

/-- One block of 16 bytes, of zeros. -/
def oneBlock : Store where
  next := 1
  room := fun _ => 16
  byte := fun _ _ => 0
  text := fun _ _ => []
  array := fun _ _ => ArrayCell.zero
  capture := fun _ _ => none

/-- A structure of one string. -/
def oneString : TypeInfo := .struct 0 8 (.cons 0 .string .nil)

/-- The structure's hash and a string's length, `2^32 - 1`. -/
def hostile : Memory := fun a => if 8 ≤ a ∧ a < 12 then 255 else 0

theorem load_bounds_zeros :
    (binaryLoad plainEnv 0 oneString ⟨0, 0⟩ (fun _ => 0) 12 oneBlock).KeepsToInput 12 :=
  (load_bounds plainEnv 0 oneString ⟨0, 0⟩ (fun _ => 0) oneBlock (by decide)).mpr (by decide)

theorem hostile_length_read :
    ¬ (binaryLoad plainEnv 0 oneString ⟨0, 0⟩ hostile 12 oneBlock).KeepsToInput 12 := by
  intro h
  have hlast := h ⟨12, 2 ^ 32 - 1, 0, true⟩ (by decide)
  rw [if_pos rfl] at hlast
  exact absurd hlast (by decide)

end DaScript

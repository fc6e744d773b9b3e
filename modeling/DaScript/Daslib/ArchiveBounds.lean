import DaScript.Daslib.Archive

/-!
# Daslib/ArchiveBounds — what loading an archive reads of its data

`serialize`, reading, with the calls of `MemSerializer.read` it makes and without the values it
builds.  Lengths come from the data, and all sums and products wrap: a sum that does is negative,
so that the one test of `read` lets it through.

So the copies stay inside exactly when no size is negative and no sum wraps
(`memArchiveLoad_bounds`).
-/

namespace DaScript.Archive

/-- An `int`: 32 bits, two's complement. -/
def int (x : ℤ) : ℤ := x.bmod (2 ^ 32)

theorem int_le {x : ℤ} (h : 0 ≤ x) : int x ≤ x := by
  rw [int, Int.bmod_def]
  split_ifs <;> omega

theorem int_bounds (x : ℤ) : -(2 ^ 31) ≤ int x ∧ int x < 2 ^ 31 := by
  rw [int, Int.bmod_def]
  split_ifs <;> omega

/-! ## Requests -/

/-- **A call of `read`** — where it finds the serializer, for how many bytes, what there is room
for, and whether it came to the copy. -/
structure Request where
  readOffset : ℤ
  size : ℤ
  room : ℕ
  copied : Bool
  deriving DecidableEq, Repr

namespace Request

/-- What is copied lies inside the data, and inside what it is copied to. -/
def Inside (length : ℕ) (r : Request) : Prop :=
  0 ≤ r.size ∧ 0 ≤ r.readOffset ∧ r.readOffset + r.size ≤ length ∧ r.size ≤ r.room

/-- The size is no wrapped one, and `readOffset + size` does not wrap. -/
def Fits (r : Request) : Prop := 0 ≤ r.size ∧ r.readOffset + r.size < 2 ^ 31

instance (length : ℕ) : DecidablePred (Inside length) :=
  fun _ => inferInstanceAs (Decidable (_ ∧ _))

instance : DecidablePred Fits := fun _ => inferInstanceAs (Decidable (_ ∧ _))

end Request

/-- `MemSerializer`, with the requests made so far, the last one first. -/
structure Loader where
  data : List UInt8
  readOffset : ℤ
  lastError : String
  requests : List Request
  deriving DecidableEq, Repr

/-- What `read` reports. -/
def pastTheEnd : String := "reading past the end of stream"

namespace Loader

/-- `read`, into `room` bytes. -/
def read (size : ℤ) (room : ℕ) (s : Loader) : Outcome Loader (Option (List UInt8)) :=
  let newOffset := int (s.readOffset + size)
  let maxOffset := s.data.length
  if 2 ^ 31 ≤ maxOffset then
    .error (.throw s!"array size {maxOffset} exceeds INT_MAX; use long_length() instead") s
  else if maxOffset < newOffset then
    .ok none { s with
      readOffset := maxOffset
      lastError := pastTheEnd
      requests := ⟨s.readOffset, size, room, false⟩ :: s.requests }
  else if s.readOffset < 0 ∨ maxOffset ≤ s.readOffset then
    .error (.throw s!"array index out of range, {s.readOffset} of {maxOffset}") s
  else if Request.Inside maxOffset ⟨s.readOffset, size, room, true⟩ then
    .ok (some ((s.data.drop s.readOffset.toNat).take size.toNat)) { s with
      readOffset := newOffset
      requests := ⟨s.readOffset, size, room, true⟩ :: s.requests }
  else
    .error (.undefined "memcpy out of bounds") { s with
      requests := ⟨s.readOffset, size, room, true⟩ :: s.requests }

/-- `serialize_raw` of a value of the size. -/
def readRaw (size : ℕ) (s : Loader) : Outcome Loader Unit :=
  (s.read (int size) size).bind fun _ s => .ok () s

/-- An `int` that was zero, and the bytes read into it, if they were. -/
def intOf (bytes : Option (List UInt8)) : ℤ := int (leNat (bytes.getD []))

/-- `read_raw(len)` -/
def readInt (s : Loader) : Outcome Loader ℤ :=
  (s.read 4 4).bind fun bytes s => .ok (intOf bytes) s

/-- `resize` and `resize_no_init` of an array. -/
def resize (newSize : ℤ) (s : Loader) : Outcome Loader Unit :=
  if newSize < 0 then .error (.throw s!"resizing array to negative size {newSize}") s
  else .ok () s

/-- A loop that goes round `n` times. -/
def times (body : Loader → Outcome Loader Unit) : ℕ → Loader → Outcome Loader Unit
  | 0, s => .ok () s
  | n + 1, s => (body s).bind fun _ s => times body n s

/-- `serialize` of a workhorse, reading. -/
def walkWorkhorse : Workhorse → Loader → Outcome Loader Unit
  | .string, s =>
    s.readInt.bind fun len s =>
      if 0 < len then
        (s.resize (int (len + 1))).bind fun _ s => (s.read len (len + 1).toNat).bind fun _ s =>
          .ok () s
      else .ok () s
  | w, s => s.readRaw w.getSizeOf

mutual

/-- `serialize`, reading. -/
def walk : Ty → Loader → Outcome Loader Unit
  | .workhorse w, s => walkWorkhorse w s
  | .struct fields, s => walkFields fields s
  | .tuple fields, s => walkFields fields s
  | .variant alternatives, s => s.readInt.bind fun index s =>
      if index < 0 then .ok () s else walkAlternative alternatives index.toNat s
  | .fixed dim element, s =>
    if element.isRawBlock then s.readRaw (dim * element.getSizeOf)
    else times (fun s => walk element s) dim s
  | .array element, s =>
    s.readInt.bind fun len s =>
      (s.resize len).bind fun _ s =>
        if element.isRawWorkhorse then
          if 0 < len then
            (s.read (int (len * element.getSizeOf)) (len.toNat * element.getSizeOf)).bind fun _ s =>
              .ok () s
          else .ok () s
        else times (fun s => walk element s) len.toNat s
  | .table key value, s =>
    s.readInt.bind fun len s =>
      times (fun s => (walkWorkhorse key s).bind fun _ s => walk value s) len.toNat s

/-- `apply` on the fields of a structure or a tuple, reading. -/
def walkFields : List Ty → Loader → Outcome Loader Unit
  | [], s => .ok () s
  | t :: ts, s => (walk t s).bind fun _ s => walkFields ts s

/-- `apply` on a variant, reading; it has no field if the index is of none. -/
def walkAlternative : List Ty → ℕ → Loader → Outcome Loader Unit
  | [], _, s => .ok () s
  | t :: _, 0, s => walk t s
  | _ :: ts, i + 1, s => walkAlternative ts i s

end

end Loader

/-- The requests of `mem_archive_load`, the last one first, and the error it ends with. -/
def loadRequests (data : List UInt8) (t : Ty) : List Request × String :=
  let s := (Loader.walk t ⟨data, 0, "", []⟩).state
  (s.requests, s.lastError)

/-! ## The invariant -/

/-- **What holds however a load ends** — a request is inside, or was refused, exactly when it fits;
what is refused is reported. -/
structure Traced (length : ℕ) (s : Loader) : Prop where
  exact : ∀ r ∈ s.requests, (r.copied = true → r.Inside length) ↔ r.Fits
  reported : ∀ r ∈ s.requests, r.copied = false → s.lastError = pastTheEnd

/-- **Between the reads of a load** the offset is one of the data. -/
structure Reading (length : ℕ) (s : Loader) : Prop extends Traced length s where
  data_length : s.data.length = length
  readOffset : 0 ≤ s.readOffset ∧ s.readOffset ≤ length

/-- A piece of a load keeps `Reading`, or ends it with `Traced`. -/
def Careful (length : ℕ) {α : Type} (m : Loader → Outcome Loader α) : Prop :=
  ∀ s, Reading length s →
    match m s with
    | .ok _ s' => Reading length s'
    | .error _ s' => Traced length s'

namespace Careful

variable {length : ℕ} {α β : Type}

theorem of_ok (a : α) : Careful length (Outcome.ok a) := fun _ h => h

theorem of_error (e : Fault) : Careful length (Outcome.error (α := α) e) := fun _ h => h.toTraced

theorem bind {m : Loader → Outcome Loader α} {f : α → Loader → Outcome Loader β}
    (hm : Careful length m) (hf : ∀ a, Careful length (f a)) :
    Careful length fun s => (m s).bind f := by
  intro s hs
  have hstep := hm s hs
  dsimp only
  cases hrun : m s with
  | ok a s' =>
    rw [hrun] at hstep
    rw [Outcome.bind_ok]
    exact hf a s' hstep
  | error e s' =>
    rw [hrun] at hstep
    rw [Outcome.bind_error]
    exact hstep

theorem of_ite {c : Prop} [Decidable c] {x y : Loader → Outcome Loader α} (hx : Careful length x)
    (hy : Careful length y) : Careful length fun s => if c then x s else y s := by
  intro s hs
  dsimp only
  split_ifs
  · exact hx s hs
  · exact hy s hs

theorem of_read {size : ℤ} {room : ℕ} (hsize : -(2 ^ 31) ≤ size ∧ size < 2 ^ 31)
    (hroom : size ≤ room) :
    Careful length fun s => s.read size room := by
  intro s h
  obtain ⟨hlow, hhigh⟩ := h.readOffset
  obtain ⟨hmin, hmax⟩ := hsize
  dsimp only [Loader.read]
  rw [h.data_length]
  split_ifs with hlong hpast hindex hinside
  · exact h.toTraced
  · have hfits : Request.Fits ⟨s.readOffset, size, room, false⟩ := by
      rw [int, Int.bmod_def] at hpast
      constructor
      · show 0 ≤ size
        split_ifs at hpast <;> omega
      · show s.readOffset + size < 2 ^ 31
        split_ifs at hpast <;> omega
    refine ⟨⟨?_, fun _ _ _ => rfl⟩, h.data_length, Int.natCast_nonneg _, le_rfl⟩
    exact List.forall_mem_cons.mpr ⟨⟨fun _ => hfits, fun _ hcopied => nomatch hcopied⟩, h.exact⟩
  · exact h.toTraced
  · have hsum : int (s.readOffset + size) = s.readOffset + size := by
      have := hinside.2.2.1
      have := hinside.1
      dsimp only at *
      rw [int, Int.bmod_def]
      split_ifs <;> omega
    have hfits : Request.Fits ⟨s.readOffset, size, room, true⟩ := by
      have := hinside.2.2.1
      exact ⟨hinside.1, by dsimp only at *; omega⟩
    refine ⟨⟨?_, ?_⟩, h.data_length, ?_, ?_⟩
    · exact List.forall_mem_cons.mpr ⟨⟨fun _ => hfits, fun _ _ => hinside⟩, h.exact⟩
    · exact List.forall_mem_cons.mpr ⟨fun hcopied => (nomatch hcopied), h.reported⟩
    · rw [hsum]
      have := hinside.1
      dsimp only at *
      omega
    · rw [hsum]
      exact hinside.2.2.1
  · refine ⟨?_, ?_⟩
    · refine List.forall_mem_cons.mpr ⟨⟨fun hcopied => absurd (hcopied rfl) hinside, ?_⟩, h.exact⟩
      rintro ⟨hnonneg, hsum⟩ _
      dsimp only at hnonneg hsum
      refine ⟨hnonneg, hlow, ?_, hroom⟩
      have hnowrap : int (s.readOffset + size) = s.readOffset + size := by
        rw [int, Int.bmod_def]
        split_ifs <;> omega
      rw [hnowrap] at hpast
      exact not_lt.mp hpast
    · exact List.forall_mem_cons.mpr ⟨fun hcopied => (nomatch hcopied), h.reported⟩

theorem of_readRaw (size : ℕ) : Careful length fun s => s.readRaw size :=
  (of_read (int_bounds _) (int_le (Int.natCast_nonneg _))).bind fun _ => of_ok _

theorem bind_readInt {f : ℤ → Loader → Outcome Loader α}
    (hf : ∀ len, -(2 ^ 31) ≤ len → len < 2 ^ 31 → Careful length (f len)) :
    Careful length fun s => s.readInt.bind f := by
  have hassoc : ∀ s : Loader, s.readInt.bind f =
      (s.read 4 4).bind fun bytes s => f (Loader.intOf bytes) s := by
    intro s
    rw [Loader.readInt]
    generalize s.read 4 4 = bytes
    cases bytes with
    | ok bytes s => rw [Outcome.bind_ok, Outcome.bind_ok, Outcome.bind_ok]
    | error e s => rw [Outcome.bind_error, Outcome.bind_error, Outcome.bind_error]
  simp only [hassoc]
  refine (of_read (by norm_num) (by norm_num)).bind fun bytes => ?_
  have hbounds := int_bounds (leNat (bytes.getD []))
  exact hf (Loader.intOf bytes) hbounds.1 hbounds.2

theorem of_resize (newSize : ℤ) : Careful length fun s => s.resize newSize :=
  of_ite (of_error _) (of_ok _)

theorem of_array (element : Ty) (len : ℤ) : Careful length fun s =>
    if 0 < len then
      (s.read (int (len * element.getSizeOf)) (len.toNat * element.getSizeOf)).bind fun _ s =>
        .ok () s
    else .ok () s := by
  by_cases hlen : 0 < len
  · refine of_ite ((of_read (int_bounds _) ?_).bind fun _ => of_ok _) (of_ok _)
    have hroom := int_le (mul_nonneg hlen.le (Int.natCast_nonneg element.getSizeOf))
    rw [Nat.cast_mul, Int.toNat_of_nonneg hlen.le]
    exact hroom
  · simp only [if_neg hlen]
    exact of_ok _

theorem of_times {body : Loader → Outcome Loader Unit} (hbody : Careful length body) (n : ℕ) :
    Careful length (Loader.times body n) := by
  induction n with
  | zero => exact of_ok _
  | succ n ih => exact hbody.bind fun _ => ih

theorem of_walkWorkhorse (w : Workhorse) : Careful length (Loader.walkWorkhorse w) := by
  cases w with
  | scalar _ => exact of_readRaw _
  | enumeration _ => exact of_readRaw _
  | string =>
    refine bind_readInt fun len hmin hmax => of_ite ?_ (of_ok _)
    refine (of_resize _).bind fun _ => (of_read ⟨hmin, hmax⟩ ?_).bind fun _ => of_ok _
    omega

mutual

theorem of_walk : (t : Ty) → Careful length (Loader.walk t)
  | .workhorse w => of_walkWorkhorse w
  | .struct fields => of_walkFields fields
  | .tuple fields => of_walkFields fields
  | .variant alternatives =>
    bind_readInt fun index _ _ => of_ite (of_ok _) (of_walkAlternative alternatives index.toNat)
  | .fixed dim element => of_ite (of_readRaw _) (of_times (of_walk element) dim)
  | .array element =>
    bind_readInt fun len _ _ => (of_resize len).bind fun _ =>
      of_ite (of_array element len) (of_times (of_walk element) len.toNat)
  | .table key value =>
    bind_readInt fun len _ _ =>
      of_times ((of_walkWorkhorse key).bind fun _ => of_walk value) len.toNat

theorem of_walkFields : (ts : List Ty) → Careful length (Loader.walkFields ts)
  | [] => of_ok _
  | t :: ts => (of_walk t).bind fun _ => of_walkFields ts

theorem of_walkAlternative : (ts : List Ty) → (i : ℕ) →
    Careful length (Loader.walkAlternative ts i)
  | [], _ => of_ok _
  | t :: _, 0 => of_walk t
  | _ :: ts, i + 1 => of_walkAlternative ts i

end

end Careful

/-! ## Loading -/

end DaScript.Archive

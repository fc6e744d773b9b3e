import DaScript.Simulate.BinValues

/-!
# Simulate/BinSave — a save writes the object's encoding

Each piece of a writing walk appends bytes (`Writes`), and together they are the object's `image`,
as long as that is shorter than the 32-bit positions reach.
-/

namespace DaScript

open Walker

theorem bytes_add (mem : Memory) (p m n : ℕ) :
    bytes mem p (m + n) = bytes mem p m ++ bytes mem (p + m) n := by
  induction m generalizing p with
  | zero => rw [Nat.zero_add]; rfl
  | succ m ih =>
    rw [Nat.add_right_comm, bytes, bytes, ih, List.cons_append, Nat.add_right_comm p 1 m,
      Nat.add_assoc p m 1]

/-- A writer has appended `l`. -/
structure Wrote (w w' : Serializer) (l : List UInt8) : Prop where
  reading : w'.reading = false
  store : w'.store = w.store
  bytes : w.bytesWritten + l.length < 2 ^ 32 → w'.bytesWritten = w.bytesWritten + l.length ∧
    bytes w'.bytesAt 0 w'.bytesWritten = bytes w.bytesAt 0 w.bytesWritten ++ l

/-- A piece of a walk of the blocks `src` appends `l`. -/
def Writes (src : Store) (m : Walker Unit) (l : List UInt8) : Prop :=
  ∀ w, w.reading = false → w.store = src → ∃ w', m w = .ok () w' ∧ Wrote w w' l

namespace Writes

variable {src : Store} {m m' : Walker Unit} {l l' : List UInt8}

theorem of_pure : Writes src (pure ()) [] := fun w hread _ =>
  ⟨w, rfl, hread, rfl, fun _ => ⟨rfl, (List.append_nil _).symm⟩⟩

theorem bind (h : Writes src m l) (h' : Writes src m' l') :
    Writes src (m >>= fun _ => m') (l ++ l') := by
  intro w hread hstore
  obtain ⟨w1, hrun1, hw1⟩ := h w hread hstore
  obtain ⟨w', hrun', hw'⟩ := h' w1 hw1.reading (hw1.store.trans hstore)
  refine ⟨w', (bind_ok hrun1).trans hrun', hw'.reading, hw'.store.trans hw1.store, fun hlen => ?_⟩
  rw [List.length_append] at hlen ⊢
  obtain ⟨hpos1, hbytes1⟩ := hw1.bytes (by omega)
  obtain ⟨hpos, hbytes⟩ := hw'.bytes (by omega)
  refine ⟨by omega, ?_⟩
  rw [hbytes, hbytes1, List.append_assoc]

theorem of_get {f : Serializer → Walker Unit}
    (h : ∀ w, w.reading = false → w.store = src → Writes src (f w) l) :
    Writes src (Walker.get >>= f) l :=
  fun w hread hstore => h w hread hstore w hread hstore

theorem of_refuse {c : Prop} [Decidable c] {message : String} (hc : ¬ c) :
    Writes src (refuse c message) [] := by
  unfold refuse
  rw [if_neg hc]
  exact of_pure

theorem of_write (l : List UInt8) : Writes src (write l) l := by
  intro w hread _
  refine ⟨_, rfl, hread, rfl, fun hlen => ?_⟩
  have hmod : (w.bytesWritten + l.length) % 2 ^ 32 = w.bytesWritten + l.length :=
    Nat.mod_eq_of_lt hlen
  refine ⟨hmod, ?_⟩
  dsimp only
  rw [hmod, bytes_add, Nat.zero_add]
  congr 1
  · exact bytes_congr fun i hi => if_neg (by omega)
  · refine List.ext_getElem length_bytes fun i hi hi' => ?_
    rw [getElem_bytes, if_pos ⟨by omega, by omega⟩, Nat.add_sub_cancel_left]
    exact List.getD_eq_getElem _ _ hi'

theorem of_save (n x : ℕ) : Writes src (save n x) (leBytes n x) := of_write _

theorem of_verify (n x : ℕ) : Writes src (verify n x) (leBytes n x) := by
  refine of_get fun w hread _ => ?_
  rw [if_neg (by rw [hread]; exact Bool.false_ne_true)]
  exact of_save n x

theorem of_serialize (p : Place) (n : ℕ) : Writes src (serialize p n) (src.bytesAt p n) := by
  refine of_get fun w hread hstore => ?_
  rw [if_neg (by rw [hread]; exact Bool.false_ne_true), hstore]
  exact of_write _

theorem of_walkString (p : Place) : Writes src (walkString p)
    (leBytes 4 (src.text p.block p.offset).length ++ src.text p.block p.offset) := by
  refine of_get fun w hread hstore => ?_
  rw [if_neg (by rw [hread]; exact Bool.false_ne_true), hstore]
  intro w hread hstore
  obtain ⟨w', hrun, hw⟩ := ((of_save 4 _).bind (of_write _)) w hread hstore
  refine ⟨w', hrun, hw.reading, hw.store, fun hlen => ?_⟩
  rw [List.length_append] at hlen
  have hmod : (src.text p.block p.offset).length % 2 ^ 32 = (src.text p.block p.offset).length :=
    Nat.mod_eq_of_lt (by omega)
  rw [hmod, List.take_length] at hw
  exact hw.bytes (by rw [List.length_append]; exact hlen)

theorem of_walkElements {walk : Place → Walker Unit} {img : Place → List UInt8} {stride : ℕ} :
    ∀ {count : ℕ} {p : Place}, (∀ q ∈ atEach id stride count p, Writes src (walk q) (img q)) →
      Writes src (walkElements walk stride count p) (atEach img stride count p).flatten
  | 0, _, _ => of_pure
  | _ + 1, p, h =>
    (h p (List.mem_cons_self ..)).bind
      (of_walkElements fun q hq => h q (List.mem_cons_of_mem _ hq))

end Writes

theorem Writes.of_beforeArray {src : Store} (env : SerialEnv) (p : Place) (hash : ℕ) :
    Writes src (beforeArray env p hash)
      (leBytes 8 hash ++ leBytes 8 (src.array p.block p.offset).size) := by
  refine (of_verify 8 hash).bind (of_get fun w hread hstore => ?_)
  rw [if_neg (by rw [hread]; exact Bool.false_ne_true), hstore]
  exact of_save 8 _

theorem walkEntries_eq (env : SerialEnv) (deep : TypeInfo → Place → Walker Unit) :
    ∀ (entries : Fields) {ps : Place} {fieldOffset : ℕ}, entries.Walked fieldOffset →
      walkEntries env deep entries ps fieldOffset = walkFields env deep entries ps
  | .nil, _, _, _ => rfl
  | .cons offset info rest, ps, fieldOffset, h => by
    obtain ⟨hoffset, -, hrest⟩ := h
    rw [walkEntries, walkFields, hoffset, walkEntries_eq env deep rest hrest]

theorem Fields.Walked.laid : ∀ (entries : Fields) {fieldOffset : ℕ},
    entries.Walked fieldOffset → entries.Laid
  | .nil, _, _ => trivial
  | .cons _ _ rest, _, h => ⟨h.2.1, Fields.Walked.laid rest h.2.2⟩

theorem dim_stride (count size : ℕ) :
    (if count ≠ 0 then count * size / count else count * size) = size ∨ count = 0 := by
  by_cases h : count = 0
  · exact Or.inr h
  · rw [if_pos h, Nat.mul_div_cancel_left _ (Nat.pos_of_ne_zero h)]
    exact Or.inl rfl

theorem walkElements_dim (walk : Place → Walker Unit) (count size : ℕ) (p : Place) :
    walkElements walk (if count ≠ 0 then count * size / count else count * size) count p
      = walkElements walk size count p := by
  rcases dim_stride count size with h | rfl
  · rw [h]
  · rfl

section Saves

variable {src : Store} (env : SerialEnv) {deep : TypeInfo → Place → Walker Unit}

open Writes

mutual

theorem writes_walk : ∀ (info : TypeInfo) (p : Place), info.WellFormed → info.Laid →
    Backed src info p → Writes src (walkWith env deep info p) (image src info p)
  | .scalar t, p, _, _, _ => of_serialize p t.size
  | .enumeration t h, p, _, _, _ => (of_verify 8 h).bind (of_serialize p t.size)
  | .string, p, _, _, _ => of_walkString p
  | .struct h size fields, p, hwf, hlaid, hback =>
    (of_verify 8 h).bind (writes_fields fields p 0 size hwf.2 hlaid hback)
  | .tuple size argTypes, p, hwf, hlaid, hback => by
    rw [walkWith, image, walkEntries_eq env deep argTypes hlaid]
    exact writes_fields argTypes p 0 size hwf.2.2 (Fields.Walked.laid argTypes hlaid) hback
  | .dim h n count elem, p, hwf, hlaid, hback => by
    rw [walkWith, image]
    dsimp only
    rw [walkElements_dim]
    exact (of_verify 8 h).bind ((of_verify 4 n).bind
      (of_walkElements fun q hq => writes_walk elem q hwf.2.2 hlaid (hback q hq)))
  | .array h firstType, p, hwf, hlaid, hback => by
    have hbefore : Writes src (beforeArray env p h) _ := of_beforeArray env p h
    rw [walkWith, image]
    cases hdata : (src.array p.block p.offset).data with
    | none =>
      have hsize := hback.1 hdata
      rw [hsize] at hbefore
      rw [← List.append_nil (_ ++ _)]
      refine hbefore.bind (of_get fun w hread hstore => ?_)
      dsimp only
      rw [hstore, hdata]
      exact of_refuse (not_not_intro hsize)
    | some data =>
      rw [← List.append_assoc]
      refine hbefore.bind (of_get fun w hread hstore => ?_)
      dsimp only
      rw [hstore, hdata]
      exact of_walkElements fun q hq =>
        writes_walk firstType q hwf.2 hlaid (hback.2 data hdata q hq)
  | .variant .., _, hwf, _, _ => hwf.elim
  | .function, _, hwf, _, _ => hwf.elim
  | .lambda, _, hwf, _, _ => hwf.elim
  | .handle .., _, hwf, _, _ => hwf.elim
  | .unsupported .., _, hwf, _, _ => hwf.elim

theorem writes_fields : ∀ (fields : Fields) (p : Place) (start size : ℕ),
    fields.Inside start size → fields.Laid → BackedFields src fields p →
    Writes src (walkFields env deep fields p) (images src fields p)
  | .nil, _, _, _, _, _, _ => of_pure
  | .cons _ info rest, p, _, size, hin, hlaid, hback =>
    (writes_walk info _ hin.2.1 hlaid.1 hback.1).bind
      (writes_fields rest p _ size hin.2.2 hlaid.2 hback.2)

end

end Saves

end DaScript

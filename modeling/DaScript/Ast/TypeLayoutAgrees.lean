import DaScript.Ast.TypeLayout

/-!
# Ast/TypeLayoutAgrees — both layouts are the one they are meant to be

Below 2³¹ nothing wraps: the layout of `TypeDecl` is the ideal one, and so is that of `TypeInfo` if
every alignment it begins at 0 is raised, that is, if no structure in the type is without fields.
-/

namespace DaScript.TypeLayout

open Layout

/-! ## Alignments -/

/-- The alignments there are. -/
def IsAlign (a : ℕ) : Prop := a = 1 ∨ a = 2 ∨ a = 4 ∨ a = 8

theorem IsAlign.max {a b : ℕ} (ha : IsAlign a) (hb : IsAlign b) : IsAlign (max a b) := by
  rcases le_total a b with h | h
  · rwa [Nat.max_eq_right h]
  · rwa [Nat.max_eq_left h]

theorem IsAlign.pos {a : ℕ} (ha : IsAlign a) : 0 < a := by
  unfold IsAlign at ha
  omega

theorem IsAlign.pow {a : ℕ} (ha : IsAlign a) : ∃ k ≤ 3, a = 2 ^ k := by
  rcases ha with rfl | rfl | rfl | rfl
  · exact ⟨0, by omega, rfl⟩
  · exact ⟨1, by omega, rfl⟩
  · exact ⟨2, by omega, rfl⟩
  · exact ⟨3, by omega, rfl⟩

theorem isAlign_scalar (type : Scalar) : IsAlign type.align := by
  unfold IsAlign
  cases type <;> simp [Scalar.align]

mutual

theorem TypeDecl.isAlign : ∀ t : TypeDecl, IsAlign t.align
  | .scalar type => isAlign_scalar type
  | .enumeration baseType => isAlign_scalar baseType.scalar
  | .handle _ => .inr (.inr (.inr rfl))
  | .structure structType => structType.isAlign (.inl rfl)
  | .tuple argTypes => argTypes.isAlign (.inl rfl)
  | .variant argTypes => argTypes.isAlign (.inr (.inr (.inl rfl)))
  | .fixedArray _ firstType => firstType.isAlign

theorem Structure.isAlign : ∀ (s : Structure) {a : ℕ}, IsAlign a → IsAlign (s.align a)
  | .root fields, _, ha => fields.isAlign ha
  | .child parent _ fields, _, ha => fields.isAlign (parent.isAlign ha)

theorem ArgTypes.isAlign : ∀ (args : ArgTypes) {a : ℕ}, IsAlign a → IsAlign (args.align a)
  | .nil, _, ha => ha
  | .cons argT rest, _, ha => rest.isAlign (argT.isAlign.max ha)

end

theorem toNat_intMax {x y : BitVec 32} (hx : x.toNat < 2 ^ 31) (hy : y.toNat < 2 ^ 31) :
    (intMax x y).toNat = max x.toNat y.toNat := by
  have hslt : x.slt y = decide (x.toNat < y.toNat) := by
    rw [BitVec.slt_eq_decide, BitVec.toInt_eq_toNat_of_lt (by omega),
      BitVec.toInt_eq_toNat_of_lt (by omega)]
    exact decide_eq_decide.mpr Nat.cast_lt
  unfold intMax
  rw [hslt]
  by_cases h : x.toNat < y.toNat
  · rw [if_pos (decide_eq_true h), Nat.max_eq_right h.le]
  · rw [if_neg (by simpa using h), Nat.max_eq_left (by omega)]

theorem IsAlign.toNat_ofNat {a : ℕ} (ha : IsAlign a) : (BitVec.ofNat 32 a).toNat = a := by
  rcases ha with rfl | rfl | rfl | rfl <;> rfl

mutual

theorem TypeDecl.toNat_getAlignOf : ∀ t : TypeDecl, t.getAlignOf.toNat = t.align
  | .scalar type => (isAlign_scalar type).toNat_ofNat
  | .enumeration baseType => (isAlign_scalar baseType.scalar).toNat_ofNat
  | .handle _ => rfl
  | .structure structType => structType.toNat_getAlignOf (.inl rfl) rfl
  | .tuple argTypes => argTypes.toNat_getAlign (.inl rfl) rfl
  | .variant argTypes => argTypes.toNat_getAlign (.inr (.inr (.inl rfl))) rfl
  | .fixedArray _ firstType => firstType.toNat_getAlignOf

theorem Structure.toNat_getAlignOf : ∀ (s : Structure) {a : ℕ} {x : BitVec 32}, IsAlign a →
    x.toNat = a → (s.getAlignOf x).toNat = s.align a
  | .root fields, _, _, ha, hx => fields.toNat_getAlign ha hx
  | .child parent _ fields, _, _, ha, hx =>
    fields.toNat_getAlign (parent.isAlign ha) (parent.toNat_getAlignOf ha hx)

theorem ArgTypes.toNat_getAlign : ∀ (args : ArgTypes) {a : ℕ} {x : BitVec 32}, IsAlign a →
    x.toNat = a → (args.getAlign x).toNat = args.align a
  | .nil, _, _, _, hx => hx
  | .cons argT rest, a, x, ha, hx => by
    have hargT := argT.toNat_getAlignOf
    have hargA := argT.isAlign
    refine rest.toNat_getAlign (hargA.max ha) ?_
    unfold IsAlign at ha hargA
    rw [toNat_intMax (by omega) (by omega), hargT, hx]

end

/-! ## Rounding -/

theorem toNat_and_not {w k : ℕ} (y m : BitVec w) (hm : m.toNat = 2 ^ k - 1) :
    (y &&& ~~~m).toNat = y.toNat / 2 ^ k * 2 ^ k := by
  refine Nat.eq_of_testBit_eq fun i => ?_
  rw [← Nat.shiftLeft_eq, Nat.testBit_shiftLeft, Nat.testBit_div_two_pow, BitVec.testBit_toNat,
    BitVec.getLsbD_and, BitVec.getLsbD_not, ← BitVec.testBit_toNat m, hm,
    Nat.testBit_two_pow_sub_one, ← BitVec.testBit_toNat y]
  by_cases hik : k ≤ i
  · rw [Nat.sub_add_cancel hik]
    by_cases hi : i < w
    · simp [hik, hi]
    · have hy : y.toNat.testBit i = false :=
        Nat.testBit_lt_two_pow (y.isLt.trans_le (Nat.pow_le_pow_right (by omega) (by omega)))
      simp [hy]
  · simp [hik, show i < k by omega]

theorem toNat_alignInt {x align : BitVec 32} {a : ℕ} (ha : IsAlign a) (halign : align.toNat = a)
    (hx : x.toNat < 2 ^ 31) : (alignInt x align).toNat = roundUp x.toNat a := by
  obtain ⟨k, -, rfl⟩ := ha.pow
  have hal : (align - 1).toNat = 2 ^ k - 1 := by
    rw [BitVec.toNat_sub_of_le (by rw [BitVec.le_def, halign]; exact ha.pos), halign]
    rfl
  unfold alignInt
  dsimp only
  rw [toNat_and_not _ _ hal, BitVec.toNat_add, hal, roundUp, Nat.mod_eq_of_lt]
  unfold IsAlign at ha
  omega

theorem toNat_alignLong {x : BitVec 64} {align : BitVec 32} {a : ℕ} (ha : IsAlign a)
    (halign : align.toNat = a) (hx : x.toNat < 2 ^ 31) :
    (alignLong x align).toNat = roundUp x.toNat a := by
  obtain ⟨k, -, rfl⟩ := ha.pow
  have hal : (align - 1).toNat = 2 ^ k - 1 := by
    rw [BitVec.toNat_sub_of_le (by rw [BitVec.le_def, halign]; exact ha.pos), halign]
    rfl
  have hext : ((align - 1).signExtend 64).toNat = 2 ^ k - 1 := by
    have hmsb : (align - 1).msb = false := by
      rw [BitVec.msb_eq_false_iff_two_mul_lt, hal]
      unfold IsAlign at ha
      omega
    rw [BitVec.signExtend_eq_setWidth_of_msb_false hmsb, BitVec.toNat_setWidth, hal,
      Nat.mod_eq_of_lt]
    unfold IsAlign at ha
    omega
  unfold alignLong
  dsimp only
  rw [toNat_and_not _ _ hext, BitVec.toNat_add, hext, roundUp, Nat.mod_eq_of_lt]
  unfold IsAlign at ha
  omega

theorem toNat_toInt {size : BitVec 64} {n : ℕ} (hsize : size.toNat = n) (hn : n < 2 ^ 31) :
    (toInt size).toNat = n := by
  unfold toInt
  rw [if_pos (by omega), BitVec.toNat_setWidth, hsize, Nat.mod_eq_of_lt (by omega)]

/-! ## Sizes -/

theorem ArgTypes.items_pos : ∀ args : ArgTypes, ∀ p ∈ args.items, 0 < p.align
  | .nil, _, hp => by cases hp
  | .cons argT rest, p, hp => by
    rcases List.mem_cons.mp hp with rfl | hp
    · exact argT.isAlign.pos
    · exact rest.items_pos p hp

theorem ArgTypes.le_payload : ∀ (args : ArgTypes) (a n : ℕ), n ≤ args.payload a n
  | .nil, _, _ => le_rfl
  | .cons _ rest, a, _ => (le_max_right _ _).trans (rest.le_payload a _)

theorem Structure.stop_le_size : ∀ s : Structure, stop 0 s.items ≤ s.size
  | .root fields => le_roundUp (fields.isAlign (.inl rfl)).pos
  | .child parent cppLayout fields => by
    rw [Structure.size, Structure.items, stop_append]
    refine le_trans ?_ (le_roundUp (fields.isAlign (parent.isAlign (.inl rfl))).pos)
    refine stop_mono ?_ _
    split_ifs
    · exact parent.stop_le_size
    · exact le_rfl

theorem count_one (x : BitVec 64) : x * 1 = x := BitVec.mul_one x

theorem toNat_mul_one {n : ℕ} (hn : n < 2 ^ 31) : (BitVec.ofNat 64 n * 1).toNat = n := by
  rw [count_one, BitVec.toNat_ofNat, Nat.mod_eq_of_lt (by omega)]

mutual

theorem TypeDecl.toNat_getSizeOf64 : ∀ t : TypeDecl, t.size < 2 ^ 31 →
    (t.getBaseSizeOf64 * t.getCountOf64).toNat = t.size
  | .scalar type, h => toNat_mul_one h
  | .enumeration baseType, h => toNat_mul_one h
  | .handle type, h => toNat_mul_one h
  | .structure structType, h => by
    change (TypeDecl.getBaseSizeOf64 (.structure structType) * 1).toNat = _
    rw [count_one]
    exact structType.toNat_getSizeOf64 h
  | .tuple argTypes, h => by
    have ha := argTypes.isAlign (.inl rfl)
    have hstop := (le_roundUp ha.pos).trans_lt h
    have hloop := argTypes.toNat_sizeLoop (o := 0) (x := 0) rfl hstop
    change (TypeDecl.getBaseSizeOf64 (.tuple argTypes) * 1).toNat = _
    rw [count_one, TypeDecl.getBaseSizeOf64,
      toNat_alignLong ha (argTypes.toNat_getAlign (.inl rfl) rfl) (by omega), hloop]
    rfl
  | .variant argTypes, h => by
    have ha := argTypes.isAlign (.inr (.inr (.inl rfl)))
    have halign := argTypes.toNat_getAlign (x := 4) (.inr (.inr (.inl rfl))) rfl
    have hstop := (le_roundUp ha.pos).trans_lt h
    have hloop := argTypes.toNat_maxLoop (n := 0) (m := 0) ha halign rfl hstop
    change (TypeDecl.getBaseSizeOf64 (.variant argTypes) * 1).toNat = _
    rw [count_one, TypeDecl.getBaseSizeOf64, toNat_alignLong ha halign (by omega), hloop]
    rfl
  | .fixedArray fixedDim firstType, h => by
    rw [TypeDecl.size] at h
    have hle : firstType.size ≤ fixedDim * firstType.size := Nat.le_mul_of_pos_left _ fixedDim.pos
    have ih := firstType.toNat_getSizeOf64 (hle.trans_lt h)
    rw [TypeDecl.getBaseSizeOf64, TypeDecl.getCountOf64, BitVec.mul_comm (BitVec.ofNat 64 _),
      ← BitVec.mul_assoc, BitVec.toNat_mul, ih, BitVec.toNat_ofNat, Nat.mul_mod_mod,
      Nat.mul_comm, Nat.mod_eq_of_lt (by omega)]
    rfl

theorem Structure.toNat_getSizeOf64 : ∀ s : Structure, s.size < 2 ^ 31 →
    s.getSizeOf64.toNat = s.size
  | .root fields, h => by
    have ha := fields.isAlign (.inl rfl)
    have hstop := (le_roundUp ha.pos).trans_lt h
    have hloop := fields.toNat_sizeLoop (o := 0) (x := 0) rfl hstop
    rw [Structure.getSizeOf64, toNat_alignLong ha (fields.toNat_getAlign (.inl rfl) rfl)
      (by omega), hloop]
    rfl
  | .child parent cppLayout fields, h => by
    have ha := fields.isAlign (parent.isAlign (.inl rfl))
    have halign := fields.toNat_getAlign (parent.isAlign (.inl rfl))
      (parent.toNat_getAlignOf (x := 1) (.inl rfl) rfl)
    rw [Structure.size] at h ⊢
    have hstop := (le_roundUp ha.pos).trans_lt h
    have hbegin := (le_stop fields.items_pos).trans_lt hstop
    have hloop : (fields.sizeLoop (if cppLayout && !fields.isEmpty then parent.getSizeOf64
        else parent.sizeLoop)).toNat =
          stop (if cppLayout && !fields.isEmpty then parent.size else stop 0 parent.items)
            fields.items := by
      refine fields.toNat_sizeLoop ?_ hstop
      split_ifs at hbegin ⊢
      · exact parent.toNat_getSizeOf64 hbegin
      · exact parent.toNat_sizeLoop hbegin
    rw [Structure.getSizeOf64, toNat_alignLong ha halign (by omega), hloop]

theorem Structure.toNat_sizeLoop : ∀ s : Structure, stop 0 s.items < 2 ^ 31 →
    s.sizeLoop.toNat = stop 0 s.items
  | .root fields, h => fields.toNat_sizeLoop rfl h
  | .child parent _ fields, h => by
    rw [Structure.items, stop_append] at h ⊢
    have hparent := (le_stop fields.items_pos).trans_lt h
    exact fields.toNat_sizeLoop (parent.toNat_sizeLoop hparent) h

theorem ArgTypes.toNat_sizeLoop : ∀ (args : ArgTypes) {o : ℕ} {x : BitVec 64},
    x.toNat = o → stop o args.items < 2 ^ 31 →
    (args.sizeLoop x).toNat = stop o args.items
  | .nil, _, _, hx, _ => hx
  | .cons argT rest, o, x, hx, h => by
    have hle := (le_stop rest.items_pos).trans_lt h
    dsimp only at hle
    have hround := le_roundUp (x := o) argT.isAlign.pos
    have hsize := argT.toNat_getSizeOf64 (by omega)
    have halign := toNat_alignLong argT.isAlign argT.toNat_getAlignOf
      (x := x) (by omega)
    refine rest.toNat_sizeLoop ?_ h
    rw [BitVec.toNat_add, hsize, halign, hx, Nat.mod_eq_of_lt (by omega)]

theorem ArgTypes.toNat_maxLoop : ∀ (args : ArgTypes) {a n : ℕ} {x : BitVec 32} {m : BitVec 64},
    IsAlign a → x.toNat = a → m.toNat = n → args.payload a n < 2 ^ 31 →
    (args.maxLoop x m).toNat = args.payload a n
  | .nil, _, _, _, _, _, _, hm, _ => hm
  | .cons argT rest, a, n, x, m, ha, hx, hm, h => by
    rw [ArgTypes.payload] at h
    have hle := (rest.le_payload a _).trans_lt h
    have hmax := max_lt_iff.mp hle
    have hsize := argT.toNat_getSizeOf64 (by omega)
    have halign := toNat_alignLong ha hx (x := 4) (by decide)
    have hsum : (alignLong 4 x + argT.getBaseSizeOf64 * argT.getCountOf64).toNat =
        roundUp 4 a + argT.size := by
      rw [BitVec.toNat_add, hsize, halign, Nat.mod_eq_of_lt]
      · rfl
      · exact lt_of_lt_of_le hmax.1 (by omega)
    refine rest.toNat_maxLoop ha hx ?_ h
    rw [← hsum, ← hm]
    split_ifs with hlt
    · exact (Nat.max_eq_left (le_of_lt hlt)).symm
    · exact (Nat.max_eq_right (not_lt.mp hlt)).symm

end

theorem TypeDecl.toNat_getSizeOf {t : TypeDecl} (h : t.size < 2 ^ 31) :
    t.getSizeOf.toNat = t.size :=
  toNat_toInt (t.toNat_getSizeOf64 h) h

/-! ## Offsets -/

theorem ArgTypes.toNat_getTupleFieldOffset : ∀ (args : ArgTypes) {o : ℕ} {x : BitVec 32},
    x.toNat = o → stop o args.items < 2 ^ 31 → ∀ index < args.items.length,
    some (args.getTupleFieldOffset index x).toNat = (offsets o args.items)[index]?
  | .nil, _, _, _, _, _, hindex => by cases hindex
  | .cons argT rest, o, x, hx, h, index, hindex => by
    have hle := (le_stop rest.items_pos).trans_lt h
    dsimp only at hle
    have hround := le_roundUp (x := o) argT.isAlign.pos
    have halign := toNat_alignInt argT.isAlign argT.toNat_getAlignOf (x := x) (by omega)
    rw [hx] at halign
    cases index with
    | zero => exact congrArg some halign
    | succ index =>
      have hsize := TypeDecl.toNat_getSizeOf (t := argT) (by omega)
      refine rest.toNat_getTupleFieldOffset ?_ h index (Nat.lt_of_succ_lt_succ hindex)
      rw [BitVec.toNat_add, hsize, halign, Nat.mod_eq_of_lt (by omega)]

theorem ArgTypes.toNat_offsetLoop : ∀ (args : ArgTypes) {o : ℕ} {x : BitVec 64},
    x.toNat = o → stop o args.items < 2 ^ 31 →
    (args.offsetLoop x).map BitVec.toNat = offsets o args.items
  | .nil, _, _, _, _ => rfl
  | .cons argT rest, o, x, hx, h => by
    have hle := (le_stop rest.items_pos).trans_lt h
    dsimp only at hle
    have hround := le_roundUp (x := o) argT.isAlign.pos
    have hsize := argT.toNat_getSizeOf64 (by omega)
    have halign := toNat_alignLong argT.isAlign argT.toNat_getAlignOf (x := x) (by omega)
    rw [hx] at halign
    have hrest := rest.toNat_offsetLoop
      (x := alignLong x argT.getAlignOf + argT.getSizeOf64) (by
        rw [TypeDecl.getSizeOf64, BitVec.toNat_add, hsize, halign, Nat.mod_eq_of_lt (by omega)]) h
    rw [ArgTypes.offsetLoop, List.map_cons, hrest, BitVec.toNat_setWidth, halign,
      Nat.mod_eq_of_lt (by omega)]
    rfl

theorem Structure.toNat_offsetLoop : ∀ s : Structure, stop 0 s.items < 2 ^ 31 →
    Laid 0 s.items (s.offsetLoop.map BitVec.toNat) (stop 0 s.items)
  | .root fields, h => by
    rw [Structure.offsetLoop, fields.toNat_offsetLoop (o := 0) (x := 0) rfl h]
    exact laid_offsets fields.items_pos
  | .child parent _ fields, h => by
    rw [Structure.items, stop_append] at h ⊢
    have hparent := (le_stop fields.items_pos).trans_lt h
    rw [Structure.offsetLoop, List.map_append,
      fields.toNat_offsetLoop (parent.toNat_sizeLoop hparent) h]
    exact (parent.toNat_offsetLoop hparent).append (laid_offsets fields.items_pos) le_rfl

theorem Structure.laid : ∀ s : Structure, s.size < 2 ^ 31 →
    Laid 0 s.items (s.fieldOffsets.map BitVec.toNat) s.size
  | .root fields, h => by
    have hstop := le_roundUp (x := stop 0 fields.items) (fields.isAlign (.inl rfl)).pos
    rw [Structure.fieldOffsets, fields.toNat_offsetLoop (o := 0) (x := 0) rfl (hstop.trans_lt h)]
    exact (laid_offsets fields.items_pos).mono hstop
  | .child parent cppLayout fields, h => by
    rw [Structure.size] at h ⊢
    have ha := fields.isAlign (parent.isAlign (.inl rfl))
    have hround := le_roundUp (x := stop (if cppLayout && !fields.isEmpty then parent.size
      else stop 0 parent.items) fields.items) ha.pos
    have hstop := hround.trans_lt h
    have hbegin := (le_stop fields.items_pos).trans_lt hstop
    have hparent : stop 0 parent.items < 2 ^ 31 := by
      refine lt_of_le_of_lt ?_ hbegin
      split_ifs
      · exact parent.stop_le_size
      · exact le_rfl
    rw [Structure.fieldOffsets, Structure.items, List.map_append]
    cases fields with
    | nil =>
      rw [ArgTypes.isEmpty, Bool.not_true, Bool.and_false, if_neg Bool.false_ne_true] at hround ⊢
      exact ((parent.toNat_offsetLoop hparent).append (.nil le_rfl) le_rfl).mono hround
    | cons argT rest =>
      rw [ArgTypes.isEmpty, Bool.not_false, Bool.and_true] at hround hstop hbegin ⊢
      refine Laid.mono ((parent.toNat_offsetLoop hparent).append (o := if cppLayout then
        parent.size else stop 0 parent.items) ?_ ?_) hround
      · rw [ArgTypes.toNat_offsetLoop _ (o := if cppLayout then parent.size
          else stop 0 parent.items) ?_ hstop]
        · exact laid_offsets (ArgTypes.items_pos _)
        · split_ifs at hbegin ⊢
          · exact parent.toNat_getSizeOf64 hbegin
          · exact parent.toNat_sizeLoop hparent
      · split_ifs
        · exact parent.stop_le_size
        · exact le_rfl

/-! ## `TypeInfo` -/

/-- No structure without fields is in it. -/
def Clean (t : TypeDecl) : Prop := ∀ u, Occurs u t → ¬ u.NoFields

theorem ArgTypes.align_eq : ∀ (args : ArgTypes) (a : ℕ), args.align a = max a (args.align 0)
  | .nil, _ => (Nat.max_zero _).symm
  | .cons argT rest, a => by
    rw [ArgTypes.align, ArgTypes.align, rest.align_eq (max argT.align a),
      rest.align_eq (max argT.align 0)]
    omega

theorem Structure.align_eq : ∀ (s : Structure) (a : ℕ), s.align a = max a (s.align 0)
  | .root fields, a => fields.align_eq a
  | .child parent _ fields, a => by
    rw [Structure.align, Structure.align, fields.align_eq (parent.align a),
      fields.align_eq (parent.align 0), parent.align_eq a]
    omega

theorem ArgTypes.align_pos : ∀ args : ArgTypes, args ≠ .nil → 0 < args.align 0
  | .nil, h => absurd rfl h
  | .cons argT rest, _ => by
    have hpos := argT.isAlign.pos
    rw [ArgTypes.align, rest.align_eq]
    omega

theorem Structure.align_pos : ∀ s : Structure, ¬ s.NoFields → 0 < s.align 0
  | .root fields, h => fields.align_pos h
  | .child parent _ fields, h => by
    rw [Structure.align, fields.align_eq]
    by_cases hfields : fields = .nil
    · have hparent := parent.align_pos fun hno => h ⟨hno, hfields⟩
      omega
    · have hpos := fields.align_pos hfields
      omega

theorem Structure.align_lt (s : Structure) : s.align 0 < 2 ^ 31 := by
  have hle := s.align_eq 1
  have halign := s.isAlign (.inl rfl)
  unfold IsAlign at halign
  omega

theorem intMax_align {x y : BitVec 32} {a : ℕ} {t : TypeDecl} (ha : a < 2 ^ 31) (hx : x.toNat = a)
    (hy : y.toNat = t.align) : (intMax x y).toNat = max t.align a := by
  have hlt := t.isAlign
  unfold IsAlign at hlt
  rw [toNat_intMax (by omega) (by omega), hx, hy, max_comm]

mutual

theorem TypeDecl.toNat_getTypeBaseAlign : ∀ t : TypeDecl, Clean t →
    t.makeType.getTypeBaseAlign.toNat = t.align
  | .scalar type, _ => (isAlign_scalar type).toNat_ofNat
  | .enumeration baseType, _ => by cases baseType <;> rfl
  | .handle _, _ => rfl
  | .structure structType, h => by
    obtain ⟨y, hy, hal⟩ := structType.getAlign_makeFields
      (fun u hu v hv => h v (.field hu hv)) .nil (a := 0) (x := 0) (by omega) rfl
    have hpos := structType.align_pos (h _ (.self _))
    rw [TypeDecl.makeType, InfoType.getTypeBaseAlign, hy, Infos.getAlign, hal, TypeDecl.align,
      structType.align_eq 1]
    omega
  | .tuple argTypes, h => by
    obtain ⟨y, hy, hal⟩ := argTypes.getAlign_makeArgs
      (fun u hu v hv => h v (.entry hu hv)) .nil (a := 0) (x := 0) (by omega) rfl
    have hpos := argTypes.align_pos (h _ (.self _))
    rw [TypeDecl.makeType, InfoType.getTypeBaseAlign, hy, Infos.getAlign, hal, TypeDecl.align,
      argTypes.align_eq 1]
    omega
  | .variant argTypes, h => by
    obtain ⟨y, hy, hal⟩ := argTypes.getAlign_makeArgs
      (fun u hu v hv => h v (.option hu hv)) .nil (a := 4) (x := 4) (by omega) rfl
    rw [TypeDecl.makeType, InfoType.getTypeBaseAlign, hy, Infos.getAlign, hal]
    rfl
  | .fixedArray _ firstType, h => firstType.toNat_getTypeBaseAlign fun u hu => h u (.element hu)

theorem Structure.getAlign_makeFields : ∀ s : Structure, (∀ u, s.Mem u → Clean u) →
    ∀ (infos : Infos) {a : ℕ} {x : BitVec 32}, a < 2 ^ 31 → x.toNat = a →
    ∃ y, (s.makeFields infos).getAlign x = infos.getAlign y ∧ y.toNat = s.align a
  | .root fields, h, infos, _, _, ha, hx => fields.getAlign_makeArgs h infos ha hx
  | .child parent _ fields, h, infos, a, x, ha, hx => by
    obtain ⟨y, hy, hal⟩ := parent.getAlign_makeFields (fun u hu => h u (.inl hu))
      (fields.makeArgs infos) ha hx
    have hlt : parent.align a < 2 ^ 31 := by
      rw [parent.align_eq]
      have := parent.align_lt
      omega
    obtain ⟨z, hz, hal'⟩ := fields.getAlign_makeArgs (fun u hu => h u (.inr hu)) infos hlt hal
    exact ⟨z, hy.trans hz, hal'⟩

theorem ArgTypes.getAlign_makeArgs : ∀ args : ArgTypes, (∀ u, args.Mem u → Clean u) →
    ∀ (infos : Infos) {a : ℕ} {x : BitVec 32}, a < 2 ^ 31 → x.toNat = a →
    ∃ y, (args.makeArgs infos).getAlign x = infos.getAlign y ∧ y.toNat = args.align a
  | .nil, _, _, _, x, _, hx => ⟨x, rfl, hx⟩
  | .cons argT rest, h, infos, a, x, ha, hx => by
    have hargT := argT.toNat_getTypeBaseAlign (h argT (.inl rfl))
    have hlt := argT.isAlign
    unfold IsAlign at hlt
    exact rest.getAlign_makeArgs (fun u hu => h u (.inr hu)) infos (by omega)
      (intMax_align ha hx hargT)

end

theorem one_mul_int (x : BitVec 32) : 1 * x = x := BitVec.one_mul x

theorem foldl_mul (x : BitVec 32) : ∀ dim : List (BitVec 32),
    dim.foldl (· * ·) x = x * getDimSize dim := by
  intro dim
  unfold getDimSize
  induction dim generalizing x with
  | nil => exact (BitVec.mul_one x).symm
  | cons d dim ih =>
    rw [List.foldl_cons, List.foldl_cons, ih, ih (1 * d), one_mul_int, BitVec.mul_assoc]

theorem getDimSize_cons (d : BitVec 32) (dim : List (BitVec 32)) :
    getDimSize (d :: dim) = d * getDimSize dim := by
  rw [getDimSize, List.foldl_cons, one_mul_int, foldl_mul]

theorem getDimSize_nil_mul {x : BitVec 32} {n : ℕ} (hx : x.toNat = n) :
    (getDimSize [] * x).toNat = n := by
  rw [getDimSize, List.foldl_nil, one_mul_int, hx]

theorem toNat_ofNat_size {n : ℕ} (hn : n < 2 ^ 31) : (BitVec.ofNat 32 n).toNat = n := by
  rw [BitVec.toNat_ofNat, Nat.mod_eq_of_lt (by omega)]

theorem EnumBase.size_getEnumType (baseType : EnumBase) :
    baseType.getEnumType.size = baseType.scalar.size := by
  cases baseType <;> rfl

mutual

theorem TypeDecl.toNat_getTypeSize : ∀ t : TypeDecl, Clean t → t.size < 2 ^ 31 →
    (getDimSize t.dims * t.makeType.getTypeBaseSize).toNat = t.size
  | .scalar _, _, h => getDimSize_nil_mul (toNat_ofNat_size h)
  | .enumeration baseType, _, h =>
    getDimSize_nil_mul (by
      rw [TypeDecl.makeType, InfoType.getTypeBaseSize, baseType.size_getEnumType]
      exact toNat_ofNat_size h)
  | .handle _, _, h => getDimSize_nil_mul (toNat_ofNat_size h)
  | .structure structType, _, h =>
    getDimSize_nil_mul (toNat_toInt (structType.toNat_getSizeOf64 h) h)
  | .tuple argTypes, hclean, h => by
    have ha := argTypes.isAlign (.inl rfl)
    have hstop := (le_roundUp ha.pos).trans_lt h
    have halign := TypeDecl.toNat_getTypeBaseAlign (.tuple argTypes) hclean
    have hloop := argTypes.toNat_sizeLoop_makeArgs
      (fun u hu v hv => hclean v (.entry hu hv)) (o := 0) (x := 0) rfl hstop
    refine getDimSize_nil_mul ?_
    rw [TypeDecl.makeType, InfoType.getTypeBaseAlign] at halign
    rw [TypeDecl.makeType, InfoType.getTypeBaseSize, toNat_alignInt ha halign (by omega), hloop]
    rfl
  | .variant argTypes, hclean, h => by
    have ha := argTypes.isAlign (.inr (.inr (.inl rfl)))
    have hstop := (le_roundUp ha.pos).trans_lt h
    have halign := TypeDecl.toNat_getTypeBaseAlign (.variant argTypes) hclean
    have hloop := argTypes.toNat_maxLoop_makeArgs
      (fun u hu v hv => hclean v (.option hu hv)) (n := 0) (m := 0) ha halign rfl hstop
    refine getDimSize_nil_mul ?_
    rw [TypeDecl.makeType, InfoType.getTypeBaseSize]
    rw [TypeDecl.makeType, InfoType.getTypeBaseAlign] at halign hloop
    rw [toNat_alignInt ha halign (by omega), hloop]
    rfl
  | .fixedArray fixedDim firstType, hclean, h => by
    rw [TypeDecl.size] at h
    have hle : firstType.size ≤ fixedDim * firstType.size := Nat.le_mul_of_pos_left _ fixedDim.pos
    have ih := firstType.toNat_getTypeSize (fun u hu => hclean u (.element hu)) (hle.trans_lt h)
    rw [TypeDecl.dims, getDimSize_cons, TypeDecl.makeType, BitVec.mul_assoc, BitVec.toNat_mul, ih,
      BitVec.toNat_ofNat, Nat.mod_mul_mod, Nat.mod_eq_of_lt (by omega)]
    rfl

theorem ArgTypes.toNat_sizeLoop_makeArgs : ∀ args : ArgTypes, (∀ u, args.Mem u → Clean u) →
    ∀ {o : ℕ} {x : BitVec 32}, x.toNat = o → stop o args.items < 2 ^ 31 →
    ((args.makeArgs .nil).sizeLoop x).toNat = stop o args.items
  | .nil, _, _, _, hx, _ => hx
  | .cons argT rest, hclean, o, x, hx, h => by
    have hle := (le_stop rest.items_pos).trans_lt h
    dsimp only at hle
    have hround := le_roundUp (x := o) argT.isAlign.pos
    have hsize := argT.toNat_getTypeSize (hclean argT (.inl rfl)) (by omega)
    have halign := toNat_alignInt argT.isAlign
      (argT.toNat_getTypeBaseAlign (hclean argT (.inl rfl))) (x := x) (by omega)
    refine rest.toNat_sizeLoop_makeArgs (fun u hu => hclean u (.inr hu)) ?_ h
    rw [BitVec.toNat_add, Info.getTypeAlign, Info.getTypeSize, hsize, halign, hx,
      Nat.mod_eq_of_lt (by omega)]

theorem ArgTypes.toNat_maxLoop_makeArgs : ∀ args : ArgTypes, (∀ u, args.Mem u → Clean u) →
    ∀ {a n : ℕ} {x m : BitVec 32}, IsAlign a → x.toNat = a → m.toNat = n →
    args.payload a n < 2 ^ 31 → ((args.makeArgs .nil).maxLoop x m).toNat = args.payload a n
  | .nil, _, _, _, _, _, _, _, hm, _ => hm
  | .cons argT rest, hclean, a, n, x, m, ha, hx, hm, h => by
    rw [ArgTypes.payload] at h
    have hle := (rest.le_payload a _).trans_lt h
    have hmax := max_lt_iff.mp hle
    have hsize := argT.toNat_getTypeSize (hclean argT (.inl rfl)) (by omega)
    have halign := toNat_alignInt ha hx (x := 4) (by decide)
    have hsum : (alignInt 4 x + Info.getTypeSize
        (.mk argT.makeType argT.dims argT.getSizeOf)).toNat = roundUp 4 a + argT.size := by
      rw [BitVec.toNat_add, Info.getTypeSize, hsize, halign, Nat.mod_eq_of_lt]
      · rfl
      · exact lt_of_lt_of_le hmax.1 (by omega)
    refine rest.toNat_maxLoop_makeArgs (fun u hu => hclean u (.inr hu)) ha hx ?_ h
    rw [toNat_intMax (by omega) (by omega), hsum, hm]

end

theorem ArgTypes.toNat_getTupleFieldOffset_makeArgs : ∀ args : ArgTypes,
    (∀ u, args.Mem u → Clean u) → ∀ {o : ℕ} {x : BitVec 32}, x.toNat = o →
    stop o args.items < 2 ^ 31 → ∀ index < args.items.length,
    some ((args.makeArgs .nil).getTupleFieldOffset index x).toNat =
        (offsets o args.items)[index]? ∧
      some ((args.makeArgs .nil).walkTuple index x).toNat = (offsets o args.items)[index]?
  | .nil, _, _, _, _, _, _, hindex => by cases hindex
  | .cons argT rest, hclean, o, x, hx, h, index, hindex => by
    have hle := (le_stop rest.items_pos).trans_lt h
    dsimp only at hle
    have hround := le_roundUp (x := o) argT.isAlign.pos
    have hargT := hclean argT (.inl rfl)
    have halign := toNat_alignInt argT.isAlign (argT.toNat_getTypeBaseAlign hargT) (x := x)
      (by omega)
    rw [hx] at halign
    cases index with
    | zero => exact ⟨congrArg some halign, congrArg some halign⟩
    | succ index =>
      have hindex' : index < rest.items.length := Nat.lt_of_succ_lt_succ hindex
      have hrest := fun u hu => hclean u (.inr hu)
      have hsize := argT.toNat_getTypeSize hargT (by omega)
      have hmade := TypeDecl.toNat_getSizeOf (t := argT) (by omega)
      constructor
      · refine (rest.toNat_getTupleFieldOffset_makeArgs hrest ?_ h index hindex').1
        rw [BitVec.toNat_add, Info.getTypeAlign, Info.getTypeSize, hsize, halign,
          Nat.mod_eq_of_lt (by omega)]
      · refine (rest.toNat_getTupleFieldOffset_makeArgs hrest ?_ h index hindex').2
        rw [BitVec.toNat_add, Info.getTypeAlign, Info.size, hmade, halign,
          Nat.mod_eq_of_lt (by omega)]

theorem TypeDecl.agrees {t : TypeDecl} (hclean : Clean t) (h : t.size < 2 ^ 31) : t.Agrees where
  size := BitVec.eq_of_toNat_eq
    ((TypeDecl.toNat_getSizeOf h).trans (t.toNat_getTypeSize hclean h).symm)
  made := rfl
  align := BitVec.eq_of_toNat_eq
    (t.toNat_getAlignOf.trans (t.toNat_getTypeBaseAlign hclean).symm)
  offsets := by
    cases t with
    | tuple argTypes =>
      intro index hindex
      have hstop := (le_roundUp (argTypes.isAlign (.inl rfl)).pos).trans_lt h
      have hdecl := argTypes.toNat_getTupleFieldOffset (o := 0) (x := 0) rfl hstop index hindex
      have hinfo := argTypes.toNat_getTupleFieldOffset_makeArgs
        (fun u hu v hv => hclean v (.entry hu hv)) (o := 0) (x := 0) rfl hstop index hindex
      exact ⟨BitVec.eq_of_toNat_eq (Option.some.inj (hdecl.trans hinfo.1.symm)),
        BitVec.eq_of_toNat_eq (Option.some.inj (hdecl.trans hinfo.2.symm))⟩
    | variant argTypes =>
      refine congrArg (alignInt 4) (BitVec.eq_of_toNat_eq ?_)
      exact (TypeDecl.variant argTypes).toNat_getAlignOf.trans
        ((TypeDecl.variant argTypes).toNat_getTypeBaseAlign hclean).symm
    | scalar _ => trivial
    | enumeration _ => trivial
    | handle _ => trivial
    | «structure» _ => trivial
    | fixedArray _ _ => trivial

/-! ## Soundness -/

theorem ArgTypes.le_align : ∀ (args : ArgTypes) (a : ℕ), a ≤ args.align a
  | .nil, _ => le_rfl
  | .cons _ rest, _ => (le_max_right _ _).trans (rest.le_align _)

theorem ArgTypes.align_le : ∀ (args : ArgTypes) {t : TypeDecl}, args.Mem t → ∀ a : ℕ,
    t.align ≤ args.align a
  | .cons _ rest, _, hmem, a => by
    rcases hmem with rfl | hmem
    · exact (le_max_left _ _).trans (rest.le_align _)
    · exact rest.align_le hmem _

theorem ArgTypes.size_le_stop : ∀ (args : ArgTypes) {t : TypeDecl}, args.Mem t → ∀ o : ℕ,
    t.size ≤ stop o args.items
  | .cons _ rest, _, hmem, o => by
    rcases hmem with rfl | hmem
    · exact (Nat.le_add_left _ _).trans (le_stop rest.items_pos)
    · exact rest.size_le_stop hmem _

theorem Structure.size_le_stop : ∀ (s : Structure) {t : TypeDecl}, s.Mem t →
    t.size ≤ stop 0 s.items
  | .root fields, _, hmem => fields.size_le_stop hmem 0
  | .child parent _ fields, _, hmem => by
    rw [Structure.items, stop_append]
    rcases hmem with hmem | hmem
    · exact (parent.size_le_stop hmem).trans (le_stop fields.items_pos)
    · exact fields.size_le_stop hmem _

theorem ArgTypes.size_le_payload : ∀ (args : ArgTypes) {t : TypeDecl}, args.Mem t → ∀ a n : ℕ,
    roundUp 4 a + t.size ≤ args.payload a n
  | .cons _ rest, _, hmem, a, _ => by
    rcases hmem with rfl | hmem
    · exact (le_max_left _ _).trans (rest.le_payload a _)
    · exact rest.size_le_payload hmem a _

theorem Occurs.size_le {u t : TypeDecl} (h : Occurs u t) : u.size ≤ t.size := by
  induction h with
  | self => exact le_rfl
  | @field v structType hmem hoccurs ih =>
    exact ih.trans ((structType.size_le_stop hmem).trans structType.stop_le_size)
  | @entry v argTypes hmem hoccurs ih =>
    exact ih.trans ((argTypes.size_le_stop hmem 0).trans
      (le_roundUp (argTypes.isAlign (.inl rfl)).pos))
  | @option v argTypes hmem hoccurs ih =>
    have hpayload := argTypes.size_le_payload hmem (argTypes.align 4) 0
    exact ih.trans (((Nat.le_add_left _ _).trans hpayload).trans
      (le_roundUp (argTypes.isAlign (.inr (.inr (.inl rfl)))).pos))
  | @element v fixedDim hoccurs ih => exact ih.trans (Nat.le_mul_of_pos_left _ fixedDim.pos)

theorem Occurs.trans {u v t : TypeDecl} (huv : Occurs u v) (hvt : Occurs v t) : Occurs u t := by
  induction hvt with
  | self => exact huv
  | field hmem _ ih => exact .field hmem ih
  | entry hmem _ ih => exact .entry hmem ih
  | option hmem _ ih => exact .option hmem ih
  | element _ ih => exact .element ih

theorem IsAlign.dvd {a b : ℕ} (ha : IsAlign a) (hb : IsAlign b) (hab : a ≤ b) : a ∣ b := by
  obtain ⟨k, -, rfl⟩ := ha.pow
  obtain ⟨l, -, rfl⟩ := hb.pow
  exact pow_dvd_pow 2 ((Nat.pow_le_pow_iff_right (by omega)).mp hab)

theorem align_dvd_size_scalar (type : Scalar) : type.align ∣ type.size := by
  cases type <;> decide

theorem TypeDecl.align_dvd_size : ∀ t : TypeDecl, t.align ∣ t.size
  | .scalar type => align_dvd_size_scalar type
  | .enumeration baseType => align_dvd_size_scalar baseType.scalar
  | .handle type => by cases type <;> decide
  | .structure (.root _) => dvd_roundUp _ _
  | .structure (.child _ _ _) => dvd_roundUp _ _
  | .tuple _ => dvd_roundUp _ _
  | .variant _ => dvd_roundUp _ _
  | .fixedArray _ firstType => Dvd.dvd.mul_left firstType.align_dvd_size _

theorem TypeDecl.soundParts {t : TypeDecl} (h : t.size < 2 ^ 31) : t.SoundParts := by
  cases t with
  | «structure» structType =>
    have hsize : (TypeDecl.structure structType).getSizeOf.toNat = structType.size :=
      TypeDecl.toNat_getSizeOf h
    rw [TypeDecl.SoundParts, hsize]
    exact structType.laid h
  | tuple argTypes =>
    have hround := le_roundUp (x := stop 0 argTypes.items) (argTypes.isAlign (.inl rfl)).pos
    have hoffsets : ((List.range argTypes.items.length).map fun index =>
        (argTypes.getTupleFieldOffset index 0).toNat) = offsets 0 argTypes.items := by
      refine List.ext_getElem? fun index => ?_
      by_cases hindex : index < argTypes.items.length
      · rw [← argTypes.toNat_getTupleFieldOffset (o := 0) (x := 0) rfl (hround.trans_lt h)
          index hindex, List.getElem?_map, List.getElem?_range hindex]
        rfl
      · rw [List.getElem?_eq_none (by simpa using hindex),
          List.getElem?_eq_none (by rw [length_offsets]; exact not_lt.mp hindex)]
    rw [TypeDecl.SoundParts, TypeDecl.toNat_getSizeOf h, hoffsets]
    exact (laid_offsets argTypes.items_pos).mono hround
  | variant argTypes =>
    intro t hmem
    have ha := argTypes.isAlign (.inr (.inr (.inl rfl)))
    have halign := argTypes.toNat_getAlign (x := 4) (.inr (.inr (.inl rfl))) rfl
    have hoffset : argTypes.getVariantFieldOffset.toNat = roundUp 4 (argTypes.align 4) :=
      toNat_alignInt ha halign (x := 4) (by decide)
    have hpayload := argTypes.size_le_payload hmem (argTypes.align 4) 0
    rw [TypeDecl.toNat_getSizeOf h, hoffset]
    refine .cons (le_roundUp ha.pos) ?_ (.nil (hpayload.trans (le_roundUp ha.pos)))
    exact (t.isAlign.dvd ha (argTypes.align_le hmem 4)).trans (dvd_roundUp _ _)
  | fixedArray _ firstType => exact firstType.align_dvd_size
  | scalar _ => trivial
  | enumeration _ => trivial
  | handle _ => trivial

theorem TypeDecl.sound {t : TypeDecl} (h : t.size < 2 ^ 31) : t.Sound :=
  ⟨TypeDecl.toNat_getSizeOf h, t.toNat_getAlignOf, TypeDecl.soundParts h⟩

/-! ## The empty structure -/

theorem Structure.NoFields.makeFields : ∀ {s : Structure}, s.NoFields → ∀ infos : Infos,
    s.makeFields infos = infos
  | .root _, h, _ => by
    obtain rfl := h
    rfl
  | .child _ _ _, ⟨hparent, hfields⟩, infos => by
    obtain rfl := hfields
    exact Structure.NoFields.makeFields hparent infos

theorem Structure.NoFields.getAlignOf : ∀ {s : Structure}, s.NoFields → ∀ align : BitVec 32,
    s.getAlignOf align = align
  | .root _, h, _ => by
    obtain rfl := h
    rfl
  | .child _ _ _, ⟨hparent, hfields⟩, align => by
    obtain rfl := hfields
    exact Structure.NoFields.getAlignOf hparent align

theorem TypeDecl.NoFields.not_agrees {t : TypeDecl} (h : t.NoFields) : ¬ t.Agrees := by
  intro hagrees
  have halign := hagrees.align
  cases t with
  | «structure» structType =>
    rw [TypeDecl.getAlignOf, Structure.NoFields.getAlignOf h, TypeDecl.makeTypeInfo,
      Info.getTypeAlign, TypeDecl.makeType, InfoType.getTypeBaseAlign,
      Structure.NoFields.makeFields h] at halign
    cases halign
  | tuple argTypes =>
    obtain rfl := h
    cases halign
  | scalar _ => exact h
  | enumeration _ => exact h
  | handle _ => exact h
  | variant _ => exact h
  | fixedArray _ _ => exact h

/-- **Both layouts of a type, and of all types in it, agree and are sound exactly if none of them is
without fields.** -/
theorem layouts_agree_iff (t : TypeDecl) (h : t.size < 2 ^ 31) :
    (∀ u, Occurs u t → u.Agrees ∧ u.Sound) ↔ ∀ u, Occurs u t → ¬ u.NoFields := by
  constructor
  · intro hall u hu hno
    exact hno.not_agrees (hall u hu).1
  · intro hclean u hu
    have hsize := hu.size_le.trans_lt h
    exact ⟨TypeDecl.agrees (fun v hv => hclean v (hv.trans hu)) hsize, TypeDecl.sound hsize⟩

/-- `struct Empty {}` -/
def empty : TypeDecl := .structure (.root .nil)

/-- `tuple<int; Empty; int>` -/
def aroundEmpty : TypeDecl :=
  .tuple (.cons (.scalar .tInt) (.cons empty (.cons (.scalar .tInt) .nil)))

theorem layouts_agree_iff_aroundEmpty : aroundEmpty.size < 2 ^ 31 ∧
    ((∀ u, Occurs u aroundEmpty → u.Agrees ∧ u.Sound) ↔
      ∀ u, Occurs u aroundEmpty → ¬ u.NoFields) :=
  ⟨by decide, layouts_agree_iff aroundEmpty (by decide)⟩

theorem aroundEmpty_not_agrees : aroundEmpty.size < 2 ^ 31 ∧
    aroundEmpty.getSizeOf = 8 ∧ aroundEmpty.makeTypeInfo.getTypeSize = 4 ∧
    ¬ (∀ u, Occurs u aroundEmpty → u.Agrees ∧ u.Sound) := by
  refine ⟨by decide, by decide, by decide, fun hall => ?_⟩
  have hsize := (hall _ (.self _)).1.size
  exact absurd hsize (by decide)

end DaScript.TypeLayout

import DaScript.Ast.ExactType

/-!
# Ast/ExactTypeCache — a comparison before and after a lookup

`findAlias` and `computeAliasCache` fill in caches, and which they have filled in depends on what
was looked up.  `filled` is a type with all of them; whatever has been looked up, it is the same.

Two types that have one `filled` become the same in the end; before it they are compared with what
has been looked up so far.
-/

namespace DaScript.ExactType

variable {A S E : Type}

/-! ## What is compared -/

mutual

/-- A type without what `isSameExactType` does not read. -/
def TypeDecl.compared : TypeDecl A S E → TypeDecl A S E
  | .mk own _ firstType secondType argTypes =>
    .mk own .empty firstType.compared secondType.compared argTypes.compared

def MaybeType.compared : MaybeType A S E → MaybeType A S E
  | .null => .null
  | .type type => .type type.compared

def TypeDecls.compared : TypeDecls A S E → TypeDecls A S E
  | .nil => .nil
  | .cons arg rest => .cons arg.compared rest.compared

end

section Same

variable [DecidableEq A] [DecidableEq S] [DecidableEq E]

theorem Own.same_iff {own decl : Own A S E} : own.same decl = true ↔ own = decl := by
  constructor
  · intro h
    cases own
    cases decl
    simp only [Own.same, decide_eq_true_eq] at h
    obtain ⟨rfl, rfl, rfl, rfl, rfl, rfl, rfl, rfl⟩ := h
    rfl
  · rintro rfl
    simp [Own.same]

mutual

theorem TypeDecl.isSameExactType_iff :
    ∀ a b : TypeDecl A S E, a.isSameExactType b = true ↔ a.compared = b.compared
  | .mk own _ f s as, .mk own' _ f' s' as' => by
    rw [TypeDecl.isSameExactType, TypeDecl.compared, TypeDecl.compared, TypeDecl.mk.injEq]
    simp only [Bool.and_eq_true, Own.same_iff, f.isSameExactNullType_iff, s.isSameExactNullType_iff,
      as.isSame_iff, true_and, and_assoc]

theorem MaybeType.isSameExactNullType_iff :
    ∀ a b : MaybeType A S E, a.isSameExactNullType b = true ↔ a.compared = b.compared
  | .type a, .type b => by
    rw [MaybeType.isSameExactNullType, a.isSameExactType_iff, MaybeType.compared,
      MaybeType.compared, MaybeType.type.injEq]
  | .null, .null => ⟨fun _ => rfl, fun _ => rfl⟩
  | .null, .type _ => by constructor <;> (intro h; cases h)
  | .type _, .null => by constructor <;> (intro h; cases h)

theorem TypeDecls.isSame_iff :
    ∀ a b : TypeDecls A S E, a.isSame b = true ↔ a.compared = b.compared
  | .cons a as, .cons b bs => by
    rw [TypeDecls.isSame, TypeDecls.compared, TypeDecls.compared, TypeDecls.cons.injEq,
      Bool.and_eq_true, a.isSameExactType_iff, as.isSame_iff]
  | .nil, .nil => ⟨fun _ => rfl, fun _ => rfl⟩
  | .nil, .cons _ _ => by constructor <;> (intro h; cases h)
  | .cons _ _, .nil => by constructor <;> (intro h; cases h)

end

end Same

/-! ## All caches filled in -/

mutual

/-- What the cache of a node is, or will be. -/
def TypeDecl.hasAlias : TypeDecl A S E → Bool
  | .mk own _ firstType secondType argTypes =>
    if own.flags.aliasCacheValid then own.flags.aliasCacheHasAlias
    else if own.baseType = .plain .tAlias then false
    else !own.aname.isEmpty || firstType.hasAlias || secondType.hasAlias || argTypes.hasAlias

def MaybeType.hasAlias : MaybeType A S E → Bool
  | .null => false
  | .type type => type.hasAlias

def TypeDecls.hasAlias : TypeDecls A S E → Bool
  | .nil => false
  | .cons arg rest => arg.hasAlias || rest.hasAlias

end

mutual

/-- **A type with all caches.** -/
def TypeDecl.filled : TypeDecl A S E → TypeDecl A S E
  | .mk own typeMacroExpr firstType secondType argTypes =>
    .mk (own.setCache (TypeDecl.mk own typeMacroExpr firstType secondType argTypes).hasAlias)
      typeMacroExpr firstType.filled secondType.filled argTypes.filled

def MaybeType.filled : MaybeType A S E → MaybeType A S E
  | .null => .null
  | .type type => .type type.filled

def TypeDecls.filled : TypeDecls A S E → TypeDecls A S E
  | .nil => .nil
  | .cons arg rest => .cons arg.filled rest.filled

end

mutual

/-- All caches are there. -/
def TypeDecl.Cached : TypeDecl A S E → Prop
  | .mk own _ firstType secondType argTypes =>
    own.flags.aliasCacheValid = true ∧ firstType.Cached ∧ secondType.Cached ∧ argTypes.Cached

def MaybeType.Cached : MaybeType A S E → Prop
  | .null => True
  | .type type => type.Cached

def TypeDecls.Cached : TypeDecls A S E → Prop
  | .nil => True
  | .cons arg rest => arg.Cached ∧ rest.Cached

end

theorem TypeDecl.hasAlias_eq (t : TypeDecl A S E) :
    t.hasAlias = t.filled.own.flags.aliasCacheHasAlias := by
  cases t
  rfl

theorem TypeDecl.hasAlias_congr {t t' : TypeDecl A S E} (h : t.filled = t'.filled) :
    t.hasAlias = t'.hasAlias := by
  rw [t.hasAlias_eq, t'.hasAlias_eq, h]

theorem MaybeType.hasAlias_congr {t t' : MaybeType A S E} (h : t.filled = t'.filled) :
    t.hasAlias = t'.hasAlias := by
  cases t with
  | null =>
    cases t' with
    | null => rfl
    | type t' => cases h
  | type t =>
    cases t' with
    | null => cases h
    | type t' => exact TypeDecl.hasAlias_congr (MaybeType.type.inj h)

theorem TypeDecls.hasAlias_congr :
    ∀ {t t' : TypeDecls A S E}, t.filled = t'.filled → t.hasAlias = t'.hasAlias
  | .nil, .nil, _ => rfl
  | .nil, .cons _ _, h => by cases h
  | .cons _ _, .nil, h => by cases h
  | .cons arg rest, .cons arg' rest', h => by
    obtain ⟨harg, hrest⟩ := TypeDecls.cons.inj h
    simp only [TypeDecls.hasAlias, TypeDecl.hasAlias_congr harg, hasAlias_congr hrest]

theorem TypeDecl.filled_congr (own : Own A S E) (m : Macro) {f f' s s' : MaybeType A S E}
    {as as' : TypeDecls A S E} (hf : f.filled = f'.filled) (hs : s.filled = s'.filled)
    (has : as.filled = as'.filled) :
    (TypeDecl.mk own m f s as).filled = (TypeDecl.mk own m f' s' as').filled := by
  simp only [TypeDecl.filled, TypeDecl.hasAlias, hf, hs, has, MaybeType.hasAlias_congr hf,
    MaybeType.hasAlias_congr hs, TypeDecls.hasAlias_congr has]

mutual

theorem TypeDecl.computeAliasCache_snd : ∀ t : TypeDecl A S E, t.computeAliasCache.2 = t.hasAlias
  | .mk own m f s as => by
    rw [TypeDecl.computeAliasCache, TypeDecl.hasAlias]
    split_ifs
    · rfl
    · rfl
    · simp only [f.computeAliasCache_snd, s.computeAliasCache_snd, as.computeAliasCache_snd]

theorem MaybeType.computeAliasCache_snd : ∀ t : MaybeType A S E, t.computeAliasCache.2 = t.hasAlias
  | .null => rfl
  | .type type => type.computeAliasCache_snd

theorem TypeDecls.computeAliasCache_snd : ∀ t : TypeDecls A S E, t.computeAliasCache.2 = t.hasAlias
  | .nil => rfl
  | .cons arg rest => by
    simp only [TypeDecls.computeAliasCache, TypeDecls.hasAlias, arg.computeAliasCache_snd,
      rest.computeAliasCache_snd]

end

mutual

theorem TypeDecl.computeAliasCache_filled :
    ∀ t : TypeDecl A S E, t.computeAliasCache.1.filled = t.filled
  | .mk own m f s as => by
    have hsnd := TypeDecl.computeAliasCache_snd (.mk own m f s as)
    rw [TypeDecl.filled.eq_def (.mk own m f s as)]
    dsimp only
    rw [← hsnd, TypeDecl.computeAliasCache]
    split_ifs with hvalid halias
    · simp only [TypeDecl.filled, TypeDecl.hasAlias, hvalid, if_true]
    · rfl
    · rw [TypeDecl.filled, f.computeAliasCache_filled, s.computeAliasCache_filled,
        as.computeAliasCache_filled]
      rfl

theorem MaybeType.computeAliasCache_filled :
    ∀ t : MaybeType A S E, t.computeAliasCache.1.filled = t.filled
  | .null => rfl
  | .type type => congrArg MaybeType.type type.computeAliasCache_filled

theorem TypeDecls.computeAliasCache_filled :
    ∀ t : TypeDecls A S E, t.computeAliasCache.1.filled = t.filled
  | .nil => rfl
  | .cons arg rest => by
    simp only [TypeDecls.computeAliasCache, TypeDecls.filled, arg.computeAliasCache_filled,
      rest.computeAliasCache_filled]

end

mutual

theorem TypeDecl.findAlias_filled (name : List Char) (allowAuto constUnderDim : Bool)
    (t : TypeDecl A S E) : (t.findAlias name allowAuto constUnderDim).1.filled = t.filled := by
  rw [TypeDecl.findAlias]
  split
  rename_i own m f s as h
  have hfilled : (TypeDecl.mk own m f s as).filled = t.filled := by
    rw [← h, t.computeAliasCache_filled]
  have hsize : f.size + s.size + as.size + 1 = t.size := by
    rw [← t.size_computeAliasCache, h, TypeDecl.size]
  have hf := f.findAlias_filled name allowAuto constUnderDim
  have hs := s.findAlias_filled name allowAuto false
  have has := as.findAlias_filled name allowAuto 0
  rw [← hfilled]
  split_ifs
  · rfl
  · rfl
  · rfl
  · rfl
  · dsimp only
    split
    · exact TypeDecl.filled_congr own m hf rfl rfl
    · split
      · exact TypeDecl.filled_congr own m hf hs rfl
      · exact TypeDecl.filled_congr own m hf hs has
termination_by t.size

theorem MaybeType.findAlias_filled (name : List Char) (allowAuto constUnderDim : Bool)
    (t : MaybeType A S E) : (t.findAlias name allowAuto constUnderDim).1.filled = t.filled := by
  cases t with
  | null =>
    rw [MaybeType.findAlias]
  | type type =>
    have htype := type.findAlias_filled name allowAuto constUnderDim
    rw [MaybeType.findAlias]
    exact congrArg MaybeType.type htype
termination_by t.size
decreasing_by exact Nat.lt_succ_self _

theorem TypeDecls.findAlias_filled (name : List Char) (allowAuto : Bool) (index : ℕ)
    (t : TypeDecls A S E) : (t.findAlias name allowAuto index).1.filled = t.filled := by
  cases t with
  | nil => rw [TypeDecls.findAlias]
  | cons arg rest =>
    have harg := arg.findAlias_filled name allowAuto false
    have hrest := rest.findAlias_filled name allowAuto (index + 1)
    rw [TypeDecls.findAlias]
    dsimp only
    split
    · exact congrArg₂ TypeDecls.cons harg rfl
    · exact congrArg₂ TypeDecls.cons harg hrest
termination_by t.size
decreasing_by all_goals (rw [TypeDecls.size]; omega)

end

/-! ## Nothing is left to be filled in -/

theorem TypeDecl.Cached.computeAliasCache {t : TypeDecl A S E} (h : t.Cached) :
    t.computeAliasCache.1 = t := by
  cases t with
  | mk own m f s as => rw [TypeDecl.computeAliasCache, if_pos h.1]

mutual

theorem TypeDecl.Cached.findAlias (name : List Char) (allowAuto constUnderDim : Bool)
    {t : TypeDecl A S E} (ht : t.Cached) : (t.findAlias name allowAuto constUnderDim).1 = t := by
  rw [TypeDecl.findAlias]
  split
  rename_i own m f s as h
  have hsame : TypeDecl.mk own m f s as = t := h.symm.trans ht.computeAliasCache
  have hsize : f.size + s.size + as.size + 1 = t.size := by
    rw [← hsame, TypeDecl.size]
  obtain ⟨-, hf, hs, has⟩ := hsame ▸ ht
  have hf := hf.findAlias name allowAuto constUnderDim
  have hs := hs.findAlias name allowAuto false
  have has := has.findAlias name allowAuto 0
  refine Eq.trans ?_ hsame
  split_ifs
  · rfl
  · rfl
  · rfl
  · rfl
  · dsimp only
    split
    · rw [hf]
    · split
      · rw [hf, hs]
      · rw [hf, hs, has]
termination_by t.size

theorem MaybeType.Cached.findAlias (name : List Char) (allowAuto constUnderDim : Bool) :
    ∀ {t : MaybeType A S E}, t.Cached → (t.findAlias name allowAuto constUnderDim).1 = t
  | .null, _ => by rw [MaybeType.findAlias]
  | .type type, ht => by
    have htype := TypeDecl.Cached.findAlias name allowAuto constUnderDim (t := type) ht
    rw [MaybeType.findAlias]
    exact congrArg MaybeType.type htype
termination_by t => t.size
decreasing_by exact Nat.lt_succ_self _

theorem TypeDecls.Cached.findAlias (name : List Char) (allowAuto : Bool) :
    ∀ (index : ℕ) {t : TypeDecls A S E}, t.Cached → (t.findAlias name allowAuto index).1 = t
  | _, .nil, _ => by rw [TypeDecls.findAlias]
  | index, .cons arg rest, ht => by
    have harg := ht.1.findAlias name allowAuto false
    have hrest := ht.2.findAlias name allowAuto (index + 1)
    rw [TypeDecls.findAlias]
    dsimp only
    split
    · exact congrArg₂ TypeDecls.cons harg rfl
    · exact congrArg₂ TypeDecls.cons harg hrest
termination_by _ t => t.size
decreasing_by all_goals (rw [TypeDecls.size]; omega)

end

mutual

theorem TypeDecl.cached_filled : ∀ t : TypeDecl A S E, t.filled.Cached
  | .mk _ _ f s as => ⟨rfl, f.cached_filled, s.cached_filled, as.cached_filled⟩

theorem MaybeType.cached_filled : ∀ t : MaybeType A S E, t.filled.Cached
  | .null => trivial
  | .type type => type.cached_filled

theorem TypeDecls.cached_filled : ∀ t : TypeDecls A S E, t.filled.Cached
  | .nil => trivial
  | .cons arg rest => ⟨arg.cached_filled, rest.cached_filled⟩

end

mutual

theorem TypeDecl.cached_compared : ∀ t : TypeDecl A S E, t.compared.Cached ↔ t.Cached
  | .mk _ _ f s as => by
    simp only [TypeDecl.compared, TypeDecl.Cached, f.cached_compared, s.cached_compared,
      as.cached_compared]

theorem MaybeType.cached_compared : ∀ t : MaybeType A S E, t.compared.Cached ↔ t.Cached
  | .null => Iff.rfl
  | .type type => type.cached_compared

theorem TypeDecls.cached_compared : ∀ t : TypeDecls A S E, t.compared.Cached ↔ t.Cached
  | .nil => Iff.rfl
  | .cons arg rest => and_congr arg.cached_compared rest.cached_compared

end

mutual

theorem TypeDecl.hasAlias_compared : ∀ t : TypeDecl A S E, t.compared.hasAlias = t.hasAlias
  | .mk _ _ f s as => by
    simp only [TypeDecl.compared, TypeDecl.hasAlias, f.hasAlias_compared, s.hasAlias_compared,
      as.hasAlias_compared]

theorem MaybeType.hasAlias_compared : ∀ t : MaybeType A S E, t.compared.hasAlias = t.hasAlias
  | .null => rfl
  | .type type => type.hasAlias_compared

theorem TypeDecls.hasAlias_compared : ∀ t : TypeDecls A S E, t.compared.hasAlias = t.hasAlias
  | .nil => rfl
  | .cons arg rest => by
    simp only [TypeDecls.compared, TypeDecls.hasAlias, arg.hasAlias_compared,
      rest.hasAlias_compared]

end

mutual

theorem TypeDecl.filled_compared : ∀ t : TypeDecl A S E, t.compared.filled = t.filled.compared
  | .mk own m f s as => by
    have halias := TypeDecl.hasAlias_compared (.mk own m f s as)
    rw [TypeDecl.compared] at halias ⊢
    rw [TypeDecl.filled, halias, f.filled_compared, s.filled_compared, as.filled_compared]
    rfl

theorem MaybeType.filled_compared : ∀ t : MaybeType A S E, t.compared.filled = t.filled.compared
  | .null => rfl
  | .type type => congrArg MaybeType.type type.filled_compared

theorem TypeDecls.filled_compared : ∀ t : TypeDecls A S E, t.compared.filled = t.filled.compared
  | .nil => rfl
  | .cons arg rest => congrArg₂ TypeDecls.cons arg.filled_compared rest.filled_compared

end

/-! ## Lookups -/

/-- A lookup. -/
inductive Lookup
  | computeAliasCache
  | findAlias (name : List Char) (allowAuto constUnderDim : Bool)

/-- A type behind a lookup. -/
def TypeDecl.behind (t : TypeDecl A S E) : Lookup → TypeDecl A S E
  | .computeAliasCache => t.computeAliasCache.1
  | .findAlias name allowAuto constUnderDim => (t.findAlias name allowAuto constUnderDim).1

theorem TypeDecl.behind_filled (t : TypeDecl A S E) (lookup : Lookup) :
    (t.behind lookup).filled = t.filled := by
  cases lookup with
  | computeAliasCache => exact t.computeAliasCache_filled
  | findAlias name allowAuto constUnderDim => exact t.findAlias_filled name allowAuto constUnderDim

theorem TypeDecl.Cached.behind {t : TypeDecl A S E} (h : t.Cached) (lookup : Lookup) :
    t.behind lookup = t := by
  cases lookup with
  | computeAliasCache => exact h.computeAliasCache
  | findAlias name allowAuto constUnderDim => exact h.findAlias name allowAuto constUnderDim

mutual

/-- **One lookup**, on a type or on a part of it. -/
inductive Called : TypeDecl A S E → TypeDecl A S E → Prop
  | here {t : TypeDecl A S E} (lookup : Lookup) : Called t (t.behind lookup)
  | first {own : Own A S E} {m : Macro} {f f' s : MaybeType A S E} {as : TypeDecls A S E}
    (h : CalledMaybe f f') : Called (.mk own m f s as) (.mk own m f' s as)
  | second {own : Own A S E} {m : Macro} {f s s' : MaybeType A S E} {as : TypeDecls A S E}
    (h : CalledMaybe s s') : Called (.mk own m f s as) (.mk own m f s' as)
  | args {own : Own A S E} {m : Macro} {f s : MaybeType A S E} {as as' : TypeDecls A S E}
    (h : CalledArgs as as') : Called (.mk own m f s as) (.mk own m f s as')

inductive CalledMaybe : MaybeType A S E → MaybeType A S E → Prop
  | type {t t' : TypeDecl A S E} (h : Called t t') : CalledMaybe (.type t) (.type t')

inductive CalledArgs : TypeDecls A S E → TypeDecls A S E → Prop
  | head {arg arg' : TypeDecl A S E} {rest : TypeDecls A S E} (h : Called arg arg') :
    CalledArgs (.cons arg rest) (.cons arg' rest)
  | tail {arg : TypeDecl A S E} {rest rest' : TypeDecls A S E} (h : CalledArgs rest rest') :
    CalledArgs (.cons arg rest) (.cons arg rest')

end

/-- Any lookups, one after the other. -/
def Looked : TypeDecl A S E → TypeDecl A S E → Prop := Relation.ReflTransGen Called

mutual

theorem Called.filled : ∀ {t t' : TypeDecl A S E}, Called t t' → t'.filled = t.filled
  | t, _, .here lookup => t.behind_filled lookup
  | _, _, .first h => TypeDecl.filled_congr _ _ h.filled rfl rfl
  | _, _, .second h => TypeDecl.filled_congr _ _ rfl h.filled rfl
  | _, _, .args h => TypeDecl.filled_congr _ _ rfl rfl h.filled

theorem CalledMaybe.filled : ∀ {t t' : MaybeType A S E}, CalledMaybe t t' → t'.filled = t.filled
  | _, _, .type h => congrArg MaybeType.type h.filled

theorem CalledArgs.filled : ∀ {t t' : TypeDecls A S E}, CalledArgs t t' → t'.filled = t.filled
  | _, _, .head h => congrArg₂ TypeDecls.cons h.filled rfl
  | _, _, .tail h => congrArg₂ TypeDecls.cons rfl h.filled

end

mutual

theorem Called.eq_of_cached : ∀ {t t' : TypeDecl A S E}, Called t t' → t.Cached → t' = t
  | _, _, .here lookup, ht => ht.behind lookup
  | _, _, .first h, ht => by rw [h.eq_of_cached ht.2.1]
  | _, _, .second h, ht => by rw [h.eq_of_cached ht.2.2.1]
  | _, _, .args h, ht => by rw [h.eq_of_cached ht.2.2.2]

theorem CalledMaybe.eq_of_cached :
    ∀ {t t' : MaybeType A S E}, CalledMaybe t t' → t.Cached → t' = t
  | _, _, .type h, ht => congrArg MaybeType.type (h.eq_of_cached ht)

theorem CalledArgs.eq_of_cached : ∀ {t t' : TypeDecls A S E}, CalledArgs t t' → t.Cached → t' = t
  | _, _, .head h, ht => congrArg₂ TypeDecls.cons (h.eq_of_cached ht.1) rfl
  | _, _, .tail h, ht => congrArg₂ TypeDecls.cons rfl (h.eq_of_cached ht.2)

end

theorem Looked.filled {t t' : TypeDecl A S E} (h : Looked t t') : t'.filled = t.filled := by
  induction h with
  | refl => rfl
  | tail _ hcall ih => exact hcall.filled.trans ih

theorem Looked.eq_of_cached {t t' : TypeDecl A S E} (h : Looked t t') (ht : t.Cached) : t' = t := by
  induction h with
  | refl => rfl
  | tail _ hcall ih =>
    subst ih
    exact hcall.eq_of_cached ht

theorem MaybeType.Cached.computeAliasCache :
    ∀ {t : MaybeType A S E}, t.Cached → t.computeAliasCache.1 = t
  | .null, _ => rfl
  | .type _, h => congrArg MaybeType.type (TypeDecl.Cached.computeAliasCache h)

theorem TypeDecls.Cached.computeAliasCache :
    ∀ {t : TypeDecls A S E}, t.Cached → t.computeAliasCache.1 = t
  | .nil, _ => rfl
  | .cons _ _, h =>
    congrArg₂ TypeDecls.cons (TypeDecl.Cached.computeAliasCache h.1) (computeAliasCache h.2)

theorem TypeDecl.cached_computeAliasCache (own : Own A S E) (m : Macro) {f s : MaybeType A S E}
    {as : TypeDecls A S E} (hf : f.Cached) (hs : s.Cached) (has : as.Cached) :
    (TypeDecl.mk own m f s as).computeAliasCache.1.Cached := by
  rw [TypeDecl.computeAliasCache]
  split_ifs with hvalid halias
  · exact ⟨hvalid, hf, hs, has⟩
  · exact ⟨rfl, hf, hs, has⟩
  · dsimp only
    rw [hf.computeAliasCache, hs.computeAliasCache, has.computeAliasCache]
    exact ⟨rfl, hf, hs, has⟩

theorem Own.setCache_self {own : Own A S E} (h : own.flags.aliasCacheValid = true) :
    own.setCache own.flags.aliasCacheHasAlias = own := by
  obtain ⟨_, _, _, _, _, flags⟩ := own
  cases flags
  simp only at h
  subst h
  rfl

mutual

theorem TypeDecl.Cached.filled : ∀ {t : TypeDecl A S E}, t.Cached → t.filled = t
  | .mk own _ _ _ _, ⟨hvalid, hf, hs, has⟩ => by
    rw [TypeDecl.filled, TypeDecl.hasAlias, if_pos hvalid, Own.setCache_self hvalid,
      MaybeType.Cached.filled hf, MaybeType.Cached.filled hs, TypeDecls.Cached.filled has]

theorem MaybeType.Cached.filled : ∀ {t : MaybeType A S E}, t.Cached → t.filled = t
  | .null, _ => rfl
  | .type _, h => congrArg MaybeType.type (TypeDecl.Cached.filled h)

theorem TypeDecls.Cached.filled : ∀ {t : TypeDecls A S E}, t.Cached → t.filled = t
  | .nil, _ => rfl
  | .cons _ _, h =>
    congrArg₂ TypeDecls.cons (TypeDecl.Cached.filled h.1) (TypeDecls.Cached.filled h.2)

end

mutual

theorem TypeDecl.looked_filled : ∀ t : TypeDecl A S E, Looked t t.filled
  | .mk own m f s as => by
    have hf : Looked (.mk own m f s as) (.mk own m f.filled s as) :=
      f.looked_filled.lift (fun f => TypeDecl.mk own m f s as) fun _ _ => .first
    have hs : Looked (.mk own m f.filled s as) (.mk own m f.filled s.filled as) :=
      s.looked_filled.lift (fun s => TypeDecl.mk own m f.filled s as) fun _ _ => .second
    have has : Looked (.mk own m f.filled s.filled as) (.mk own m f.filled s.filled as.filled) :=
      as.looked_filled.lift (fun as => TypeDecl.mk own m f.filled s.filled as) fun _ _ => .args
    have hbelow := (hf.trans hs).trans has
    have hroot := Called.here (t := .mk own m f.filled s.filled as.filled) .computeAliasCache
    have hcached := TypeDecl.cached_computeAliasCache own m f.cached_filled s.cached_filled
      as.cached_filled
    have hall := hbelow.tail hroot
    have hfilled : TypeDecl.behind (.mk own m f.filled s.filled as.filled) .computeAliasCache =
        (TypeDecl.mk own m f s as).filled :=
      (TypeDecl.Cached.filled hcached).symm.trans (Looked.filled hall)
    exact hfilled ▸ hall

theorem MaybeType.looked_filled :
    ∀ t : MaybeType A S E, Relation.ReflTransGen CalledMaybe t t.filled
  | .null => .refl
  | .type type => type.looked_filled.lift MaybeType.type fun _ _ => .type

theorem TypeDecls.looked_filled :
    ∀ t : TypeDecls A S E, Relation.ReflTransGen CalledArgs t t.filled
  | .nil => .refl
  | .cons arg rest =>
    (arg.looked_filled.lift (fun arg => TypeDecls.cons arg rest) fun _ _ => .head).trans
      (rest.looked_filled.lift (fun rest => TypeDecls.cons arg.filled rest) fun _ _ => .tail)

end

/-! ## Names and hashes -/

/-- Two macros that are spelled alike. -/
def Macro.Agree (m m' : Macro) : Prop :=
  m.name = m'.name ∧
    hashBlockz64 (bytes ([','].intercalate m.exprs)) =
      hashBlockz64 (bytes ([','].intercalate m'.exprs))

mutual

/-- **The macros of two types are spelled alike**, wherever a name spells them: of a fixed array, in
its element. -/
def TypeDecl.MacrosAgree : TypeDecl A S E → TypeDecl A S E → Prop
  | .mk own m f s as, .mk _ m' f' s' as' =>
    f.MacrosAgree f' ∧ (own.baseType ≠ .tFixedArray → s.MacrosAgree s' ∧ as.MacrosAgree as') ∧
      (own.baseType = .typeMacro → m.Agree m')

def MaybeType.MacrosAgree : MaybeType A S E → MaybeType A S E → Prop
  | .type a, .type b => a.MacrosAgree b
  | _, _ => True

def TypeDecls.MacrosAgree : TypeDecls A S E → TypeDecls A S E → Prop
  | .cons a as, .cons b bs => a.MacrosAgree b ∧ as.MacrosAgree bs
  | _, _ => True

end

theorem Macro.text_eq {m m' : Macro} (h : m.Agree m') : m.text = m'.text := by
  simp only [Macro.text, h.1, h.2]

theorem terminated_inj {p : Char → Bool} {stop : Char} (hstop : p stop = false)
    {a b x y : List Char} (ha : ∀ c ∈ a, p c = true) (hb : ∀ c ∈ b, p c = true)
    (h : a ++ stop :: x = b ++ stop :: y) : a = b ∧ x = y := by
  have htake := congrArg (List.takeWhile p) h
  simp only [List.takeWhile_append_of_pos ha, List.takeWhile_append_of_pos hb, List.takeWhile_cons,
    hstop, Bool.false_eq_true, if_false, List.append_nil] at htake
  subst htake
  exact ⟨rfl, (List.cons.inj (List.append_cancel_left h)).2⟩

theorem Macro.text_inj {m m' : Macro} {x y : List Char} (h : m.text ++ x = m'.text ++ y) :
    m.Agree m' ∧ x = y := by
  have hdigits : ∀ (n : ℕ), ∀ c ∈ Nat.toDigits 10 n, c.isDigit = true := fun n c hc =>
    Nat.isDigit_of_mem_toDigits (by decide) (by decide) hc
  simp only [Macro.text, List.cons_append, List.append_assoc, List.nil_append, List.cons.injEq,
    true_and] at h
  obtain ⟨hname, h⟩ := terminated_inj (by decide) m.valid m'.valid h
  obtain ⟨hhash, hrest⟩ := terminated_inj (by decide) (hdigits _) (hdigits _) h
  refine ⟨⟨hname, UInt64.toNat_inj.mp ?_⟩, hrest⟩
  rw [← Nat.ofDigitChars_ten_toDigits (n := (hashBlockz64 _).toNat), hhash,
    Nat.ofDigitChars_ten_toDigits]

theorem Own.text_of_ne (names : Names A S E) {own : Own A S E} (h : own.baseType ≠ .typeMacro)
    (m m' : Macro) : own.text names m = own.text names m' := by
  unfold Own.text
  split
  · rfl
  · rfl
  · rfl
  · rename_i hbase
    exact absurd hbase h
  · rfl
  · rfl
  · rfl
  · rfl

theorem Own.text_of_spelled (names : Names A S E) {own : Own A S E} (h : own.baseType = .typeMacro)
    (m : Macro) : own.text names m = m.text := by
  unfold Own.text
  split
  all_goals first | rfl | (rename_i hbase; exact absurd (hbase.symm.trans h) (by simp))

section Names

variable (names : Names A S E) (fullName : Bool)

mutual

theorem TypeDecl.name_inj : ∀ a b : TypeDecl A S E, a.compared = b.compared →
    ∀ {x y : List Char},
      a.getMangledName names fullName ++ x = b.getMangledName names fullName ++ y →
      a.MacrosAgree b ∧ x = y
  | .mk own m f s as, .mk own' m' f' s' as', h, x, y, hname => by
    obtain ⟨rfl, -, hf, hs, has⟩ := TypeDecl.mk.inj h
    rw [TypeDecl.getMangledName, TypeDecl.getMangledName] at hname
    by_cases harray : own.baseType = .tFixedArray
    · rw [if_pos harray, if_pos harray, List.append_assoc, List.append_assoc] at hname
      obtain ⟨hagree, hxy⟩ := f.name_inj f' hf (List.append_cancel_left hname)
      exact ⟨⟨hagree, fun h => absurd harray h, fun h => absurd (harray.symm.trans h) (by decide)⟩,
        hxy⟩
    · rw [if_neg harray, if_neg harray] at hname
      simp only [List.append_assoc] at hname
      obtain ⟨hargs, hname⟩ := as.args_inj as' has (List.append_cancel_left hname)
      obtain ⟨hfirst, hname⟩ := f.bracketed_inj '1' f' hf hname
      obtain ⟨hsecond, hname⟩ := s.bracketed_inj '2' s' hs hname
      by_cases hspelled : own.baseType = .typeMacro
      · rw [Own.text_of_spelled names hspelled, Own.text_of_spelled names hspelled] at hname
        obtain ⟨hagree, hxy⟩ := Macro.text_inj hname
        exact ⟨⟨hfirst, fun _ => ⟨hsecond, hargs⟩, fun _ => hagree⟩, hxy⟩
      · rw [Own.text_of_ne names hspelled m m'] at hname
        exact ⟨⟨hfirst, fun _ => ⟨hsecond, hargs⟩, fun h => absurd h hspelled⟩,
          List.append_cancel_left hname⟩
termination_by structural a => a

theorem MaybeType.name_inj : ∀ a b : MaybeType A S E, a.compared = b.compared →
    ∀ {x y : List Char}, a.elementName names fullName ++ x = b.elementName names fullName ++ y →
      a.MacrosAgree b ∧ x = y
  | .type a, .type b, h, _, _, hname => a.name_inj b (MaybeType.type.inj h) hname
  | .null, .null, _, _, _, hname => ⟨trivial, hname⟩
  | .null, .type _, h, _, _, _ => by cases h
  | .type _, .null, h, _, _, _ => by cases h
termination_by structural a => a

theorem MaybeType.bracketed_inj (c : Char) : ∀ a b : MaybeType A S E, a.compared = b.compared →
    ∀ {x y : List Char},
      a.bracketedName names fullName c ++ x = b.bracketedName names fullName c ++ y →
        a.MacrosAgree b ∧ x = y
  | .type a, .type b, h, x, y, hname => by
    simp only [MaybeType.bracketedName, List.cons_append, List.append_assoc, List.nil_append,
      List.cons.injEq, true_and] at hname
    obtain ⟨hagree, hrest⟩ := a.name_inj b (MaybeType.type.inj h) hname
    exact ⟨hagree, (List.cons.inj hrest).2⟩
  | .null, .null, _, _, _, hname => ⟨trivial, hname⟩
  | .null, .type _, h, _, _, _ => by cases h
  | .type _, .null, h, _, _, _ => by cases h
termination_by structural a => a

theorem TypeDecls.args_inj : ∀ a b : TypeDecls A S E, a.compared = b.compared →
    ∀ {x y : List Char}, a.argsName names fullName ++ x = b.argsName names fullName ++ y →
      a.MacrosAgree b ∧ x = y
  | .cons a as, .cons b bs, h, x, y, hname => by
    obtain ⟨harg, hrest⟩ := TypeDecls.cons.inj h
    simp only [TypeDecls.argsName, List.cons_append, List.append_assoc, List.nil_append,
      List.cons.injEq, true_and] at hname
    obtain ⟨hagree, hname⟩ := a.name_inj b harg hname
    obtain ⟨hagrees, hname⟩ := as.rest_inj bs hrest hname
    exact ⟨⟨hagree, hagrees⟩, (List.cons.inj hname).2⟩
  | .nil, .nil, _, _, _, hname => ⟨trivial, hname⟩
  | .nil, .cons _ _, h, _, _, _ => by cases h
  | .cons _ _, .nil, h, _, _, _ => by cases h
termination_by structural a => a

theorem TypeDecls.rest_inj : ∀ a b : TypeDecls A S E, a.compared = b.compared →
    ∀ {x y : List Char}, a.restName names fullName ++ x = b.restName names fullName ++ y →
      a.MacrosAgree b ∧ x = y
  | .cons a as, .cons b bs, h, x, y, hname => by
    obtain ⟨harg, hrest⟩ := TypeDecls.cons.inj h
    simp only [TypeDecls.restName, List.cons_append, List.append_assoc, List.cons.injEq,
      true_and] at hname
    obtain ⟨hagree, hname⟩ := a.name_inj b harg hname
    obtain ⟨hagrees, hname⟩ := as.rest_inj bs hrest hname
    exact ⟨⟨hagree, hagrees⟩, hname⟩
  | .nil, .nil, _, _, _, hname => ⟨trivial, hname⟩
  | .nil, .cons _ _, h, _, _, _ => by cases h
  | .cons _ _, .nil, h, _, _, _ => by cases h
termination_by structural a => a

end

mutual

theorem TypeDecl.name_eq : ∀ a b : TypeDecl A S E, a.compared = b.compared → a.MacrosAgree b →
    a.getMangledName names fullName = b.getMangledName names fullName
  | .mk own m f s as, .mk own' m' f' s' as', h, hagree => by
    obtain ⟨rfl, -, hf, hs, has⟩ := TypeDecl.mk.inj h
    obtain ⟨hfirst, hothers, hspelled⟩ := hagree
    rw [TypeDecl.getMangledName, TypeDecl.getMangledName]
    by_cases harray : own.baseType = .tFixedArray
    · rw [if_pos harray, if_pos harray, f.name_eq f' hf hfirst]
    · obtain ⟨hsecond, hargs⟩ := hothers harray
      rw [if_neg harray, if_neg harray, as.args_eq as' has hargs,
        f.bracketed_eq '1' f' hf hfirst, s.bracketed_eq '2' s' hs hsecond]
      by_cases hbase : own.baseType = .typeMacro
      · rw [Own.text_of_spelled names hbase, Own.text_of_spelled names hbase,
          Macro.text_eq (hspelled hbase)]
      · rw [Own.text_of_ne names hbase m m']
termination_by structural a => a

theorem MaybeType.name_eq : ∀ a b : MaybeType A S E, a.compared = b.compared →
    a.MacrosAgree b → a.elementName names fullName = b.elementName names fullName
  | .type a, .type b, h, hagree => a.name_eq b (MaybeType.type.inj h) hagree
  | .null, .null, _, _ => rfl
  | .null, .type _, h, _ => by cases h
  | .type _, .null, h, _ => by cases h
termination_by structural a => a

theorem MaybeType.bracketed_eq (c : Char) : ∀ a b : MaybeType A S E, a.compared = b.compared →
    a.MacrosAgree b → a.bracketedName names fullName c = b.bracketedName names fullName c
  | .type a, .type b, h, hagree => by
    rw [MaybeType.bracketedName, MaybeType.bracketedName,
      a.name_eq b (MaybeType.type.inj h) hagree]
  | .null, .null, _, _ => rfl
  | .null, .type _, h, _ => by cases h
  | .type _, .null, h, _ => by cases h
termination_by structural a => a

theorem TypeDecls.args_eq : ∀ a b : TypeDecls A S E, a.compared = b.compared →
    a.MacrosAgree b → a.argsName names fullName = b.argsName names fullName
  | .cons a as, .cons b bs, h, hagree => by
    obtain ⟨harg, hrest⟩ := TypeDecls.cons.inj h
    rw [TypeDecls.argsName, TypeDecls.argsName, a.name_eq b harg hagree.1,
      as.rest_eq bs hrest hagree.2]
  | .nil, .nil, _, _ => rfl
  | .nil, .cons _ _, h, _ => by cases h
  | .cons _ _, .nil, h, _ => by cases h
termination_by structural a => a

theorem TypeDecls.rest_eq : ∀ a b : TypeDecls A S E, a.compared = b.compared →
    a.MacrosAgree b → a.restName names fullName = b.restName names fullName
  | .cons a as, .cons b bs, h, hagree => by
    obtain ⟨harg, hrest⟩ := TypeDecls.cons.inj h
    rw [TypeDecls.restName, TypeDecls.restName, a.name_eq b harg hagree.1,
      as.rest_eq bs hrest hagree.2]
  | .nil, .nil, _, _ => rfl
  | .nil, .cons _ _, h, _ => by cases h
  | .cons _ _, .nil, h, _ => by cases h
termination_by structural a => a

end

end Names

mutual

theorem TypeDecl.lookupHash_compared (addresses : Addresses A S E) :
    ∀ (t : TypeDecl A S E) (hash : UInt64),
      t.compared.getLookupHash addresses hash = t.getLookupHash addresses hash
  | .mk own _ f s as, hash => by
    simp only [TypeDecl.compared, TypeDecl.getLookupHash, f.lookupHash_compared,
      s.lookupHash_compared, as.lookupHash_compared]

theorem MaybeType.lookupHash_compared (addresses : Addresses A S E) :
    ∀ (t : MaybeType A S E) (hash : UInt64),
      t.compared.getLookupHash addresses hash = t.getLookupHash addresses hash
  | .null, _ => rfl
  | .type type, hash => type.lookupHash_compared addresses hash

theorem TypeDecls.lookupHash_compared (addresses : Addresses A S E) :
    ∀ (t : TypeDecls A S E) (hash : UInt64),
      t.compared.getLookupHash addresses hash = t.getLookupHash addresses hash
  | .nil, _ => rfl
  | .cons arg rest, hash => by
    simp only [TypeDecls.compared, TypeDecls.getLookupHash, arg.lookupHash_compared,
      rest.lookupHash_compared]

end

/-! ## Comparisons that last -/

section Exact

variable [DecidableEq A] [DecidableEq S] [DecidableEq E]

/-- **What is promised of two types**: no lookup changes whether they are the same, and where they
are, they have one name, short and full, and one hash. -/
structure Exact (names : Names A S E) (addresses : Addresses A S E) (a b : TypeDecl A S E) :
    Prop where
  lasting : ∀ a' b', Looked a a' → Looked b b' → a'.isSameExactType b' = a.isSameExactType b
  named : ∀ a' b', Looked a a' → Looked b b' → a'.isSameExactType b' = true →
    ∀ fullName, a'.getMangledName names fullName = b'.getMangledName names fullName
  hashed : ∀ a' b', Looked a a' → Looked b b' → a'.isSameExactType b' = true →
    ∀ hash, a'.getLookupHash addresses hash = b'.getLookupHash addresses hash

/-- **When it is kept**: the types differ by more than caches, or the caches of both are all there
and their macros are spelled alike. -/
def Settled (a b : TypeDecl A S E) : Prop :=
  a.filled.compared = b.filled.compared → a.Cached ∧ b.Cached ∧ a.MacrosAgree b

theorem isSameExactType_equivalence :
    Equivalence fun a b : TypeDecl A S E => a.isSameExactType b = true where
  refl a := (a.isSameExactType_iff a).mpr rfl
  symm {a b} h := (b.isSameExactType_iff a).mpr ((a.isSameExactType_iff b).mp h).symm
  trans {a b c} h h' :=
    (a.isSameExactType_iff c).mpr
      (((a.isSameExactType_iff b).mp h).trans ((b.isSameExactType_iff c).mp h'))

theorem exact_iff_settled (names : Names A S E) (addresses : Addresses A S E)
    (a b : TypeDecl A S E) : Exact names addresses a b ↔ Settled a b := by
  constructor
  · intro h hfilled
    have hsame : a.isSameExactType b = true := by
      rw [← h.lasting _ _ a.looked_filled b.looked_filled]
      exact (a.filled.isSameExactType_iff b.filled).mpr hfilled
    have hleft : a.filled.isSameExactType b = true := by
      rw [h.lasting _ _ a.looked_filled .refl, hsame]
    have hright : a.isSameExactType b.filled = true := by
      rw [h.lasting _ _ .refl b.looked_filled, hsame]
    refine ⟨?_, ?_, ?_⟩
    · rw [← a.cached_compared, (a.isSameExactType_iff b.filled).mp hright, b.filled.cached_compared]
      exact b.cached_filled
    · rw [← b.cached_compared, ← (a.filled.isSameExactType_iff b).mp hleft,
        a.filled.cached_compared]
      exact a.cached_filled
    · have hnames := h.named a b .refl .refl hsame false
      exact (a.name_inj names false b ((a.isSameExactType_iff b).mp hsame)
        (congrArg (· ++ []) hnames)).1
  · intro h
    have hcompared : ∀ a' b', Looked a a' → Looked b b' → a'.isSameExactType b' = true →
        a'.compared = b'.compared ∧ a.filled.compared = b.filled.compared := by
      intro a' b' ha hb hsame
      have hcompared := (a'.isSameExactType_iff b').mp hsame
      refine ⟨hcompared, ?_⟩
      rw [← ha.filled, ← hb.filled, ← a'.filled_compared, hcompared, b'.filled_compared]
    by_cases hfilled : a.filled.compared = b.filled.compared
    · obtain ⟨ha, hb, hagree⟩ := h hfilled
      have hnone : ∀ a' b', Looked a a' → Looked b b' → a' = a ∧ b' = b := fun a' b' ha' hb' =>
        ⟨ha'.eq_of_cached ha, hb'.eq_of_cached hb⟩
      refine ⟨fun a' b' ha' hb' => ?_, fun a' b' ha' hb' hsame fullName => ?_,
        fun a' b' ha' hb' hsame hash => ?_⟩
      · obtain ⟨rfl, rfl⟩ := hnone a' b' ha' hb'
        rfl
      · obtain ⟨rfl, rfl⟩ := hnone a' b' ha' hb'
        exact TypeDecl.name_eq names fullName _ _ (hcompared _ _ ha' hb' hsame).1 hagree
      · rw [← a'.lookupHash_compared, (hcompared _ _ ha' hb' hsame).1, b'.lookupHash_compared]
    · have hnever : ∀ a' b', Looked a a' → Looked b b' → a'.isSameExactType b' = false := by
        intro a' b' ha' hb'
        by_contra hsame
        exact hfilled (hcompared a' b' ha' hb' (Bool.eq_true_of_not_eq_false hsame)).2
      refine ⟨fun a' b' ha' hb' => ?_, fun a' b' ha' hb' hsame => ?_, fun a' b' ha' hb' hsame => ?_⟩
      · rw [hnever a' b' ha' hb', hnever a b .refl .refl]
      · exact absurd hsame (by rw [hnever a' b' ha' hb']; decide)
      · exact absurd hsame (by rw [hnever a' b' ha' hb']; decide)

/-- **`isSameExactType` is an equivalence, and depends on the type alone where all caches are
there.** -/
theorem isSameExactType_exact (names : Names A S E) (addresses : Addresses A S E) :
    (Equivalence fun a b : TypeDecl A S E => a.isSameExactType b = true) ∧
      ∀ a b : TypeDecl A S E, Exact names addresses a b ↔ Settled a b :=
  ⟨isSameExactType_equivalence, exact_iff_settled names addresses⟩

end Exact

/-- `int` -/
def tInt : TypeDecl Unit Unit Unit := .mk { baseType := .plain .tInt } .empty .null .null .nil

theorem isSameExactType_stale :
    tInt.isSameExactType tInt = true ∧
      tInt.computeAliasCache.1.isSameExactType tInt = false := by decide

end DaScript.ExactType

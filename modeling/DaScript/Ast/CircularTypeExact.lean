import DaScript.Ast.CircularType

/-!
# Ast/CircularTypeExact — what is accepted has a size

`isCircularType` finds a type that is infinite: a chain of types, each in the one before by value,
that does not end.  On the path of the search every node contains the next; a node that comes again
is a cycle, and where none comes again all that a type contains has been gone through.  What is not
infinite is gone through by `getSizeOf64` and `getAlignOf` too.
-/

namespace DaScript.CircularType

open Fuel

namespace TypeGraph

variable {N S : Type} (g : TypeGraph N S)

/-! ## Containment -/

/-- **A type is in another by value**: as a field, an alternative or an element. -/
def Inside (inner outer : N) : Prop := inner ∈ g.below outer

/-- **An infinite chain of containment.** -/
def Infinite (type : N) : Prop :=
  ∃ chain : ℕ → N, chain 0 = type ∧ ∀ i, g.Inside (chain (i + 1)) (chain i)

theorem infinite_iff {type : N} : g.Infinite type ↔ ¬ Acc g.Inside type :=
  not_acc_iff_exists_descending_chain.symm

theorem infinite_iff_below {type : N} :
    g.Infinite type ↔ ∃ part ∈ g.below type, g.Infinite part := by
  constructor
  · rintro ⟨chain, rfl, hchain⟩
    exact ⟨chain 1, hchain 0, fun i => chain (i + 1), rfl, fun i => hchain (i + 1)⟩
  · rintro ⟨part, hpart, hinfinite⟩
    rw [infinite_iff] at hinfinite ⊢
    exact fun hacc => hinfinite (hacc.inv hpart)

theorem infinite_of_cycle {type : N} (h : Relation.TransGen g.Inside type type) :
    g.Infinite type := by
  rw [infinite_iff]
  intro hacc
  have hcycle : ∀ t, Acc (Relation.TransGen g.Inside) t → ¬ Relation.TransGen g.Inside t t := by
    intro t ht
    induction ht with
    | intro t _ ih => exact fun h => ih t h h
  exact hcycle type hacc.transGen h

/-! ## The search -/

theorem anyCircular_spec {circular : N → List N → Option (Bool × List N)} {all : List N}
    {P : N → Prop} {types : List N}
    (h : ∀ t ∈ types, ∃ b all', circular t all = some (b, all') ∧ (b = false → all' = all) ∧
      (b = true ↔ P t)) :
    ∃ b all', anyCircular circular types all = some (b, all') ∧ (b = false → all' = all) ∧
      (b = true ↔ ∃ t ∈ types, P t) := by
  induction types with
  | nil => exact ⟨false, all, rfl, fun _ => rfl, by simp⟩
  | cons t types ih =>
    obtain ⟨b, all', hrun, hleft, hb⟩ := h t List.mem_cons_self
    cases b with
    | true => exact ⟨true, all', by rw [anyCircular, hrun], by simp, by simp [hb.mp rfl]⟩
    | false =>
      obtain ⟨b, all'', hrest, hleft', hb'⟩ := ih fun t' ht' => h t' (List.mem_cons_of_mem t ht')
      have hnot : ¬ P t := fun hP => Bool.false_ne_true (hb.mpr hP)
      refine ⟨b, all'', ?_, hleft', ?_⟩
      · rw [anyCircular, hrun, hleft rfl]
        exact hrest
      · rw [hb']
        simp [hnot]

theorem below_of_isPointer {type : N} (h : g.isPointer type = true) : g.below type = [] := by
  rw [isPointer] at h
  rw [below]
  split at h
  · rename_i hdecl
    rw [hdecl]
  · exact absurd h Bool.false_ne_true

theorem isCircularType_spec [Fintype N] [DecidableEq N] {fuel : ℕ} {type : N} {all : List N}
    (hnodup : all.Nodup) (hpath : ∀ outer ∈ all, Relation.TransGen g.Inside type outer)
    (hfuel : Fintype.card N < fuel + all.length) :
    ∃ b all', g.isCircularType fuel type all = some (b, all') ∧ (b = false → all' = all) ∧
      (b = true ↔ g.Infinite type) := by
  induction fuel generalizing type all with
  | zero =>
    have := hnodup.length_le_card
    omega
  | succ fuel ih =>
    rw [isCircularType]
    by_cases hpointer : g.isPointer type = true
    · rw [if_pos hpointer]
      refine ⟨false, all, rfl, fun _ => rfl, ?_⟩
      rw [infinite_iff_below, g.below_of_isPointer hpointer]
      simp
    rw [if_neg hpointer]
    by_cases hmem : type ∈ all
    · rw [if_pos hmem]
      exact ⟨true, all, rfl, by simp, by simp [g.infinite_of_cycle (hpath type hmem)]⟩
    rw [if_neg hmem]
    have hinner : (all ++ [type]).Nodup :=
      List.nodup_append.mpr ⟨hnodup, List.nodup_singleton type, by
        intro a ha b hb
        obtain rfl := List.mem_singleton.mp hb
        exact fun h => hmem (h ▸ ha)⟩
    have hround : ∀ part ∈ g.below type, ∃ b all',
        g.isCircularType fuel part (all ++ [type]) = some (b, all') ∧
          (b = false → all' = all ++ [type]) ∧ (b = true ↔ g.Infinite part) := by
      intro part hpart
      refine ih hinner (fun outer houter => ?_) ?_
      · rcases List.mem_append.mp houter with houter | houter
        · exact .head hpart (hpath outer houter)
        · obtain rfl := List.mem_singleton.mp houter
          exact .single hpart
      · rw [List.length_append, List.length_singleton]
        omega
    obtain ⟨b, all', hrun, hleft, hb⟩ := anyCircular_spec hround
    rw [hrun, infinite_iff_below]
    cases b with
    | true => exact ⟨true, all', rfl, by simp, hb⟩
    | false => exact ⟨false, all'.dropLast, rfl, fun _ => by rw [hleft rfl]; simp, hb⟩

/-! ## Sizes settle -/

section Copies

variable {g}

theorem findFieldParent_eq {s q : S} {name : String} (h : g.findFieldParent s name = some q) :
    q = s ∨ (g.struct s).parent = some q := by
  rw [findFieldParent] at h
  split at h
  · rename_i parent hparent
    split_ifs at h with h₁ h₂
    · exact .inr (hparent.trans h)
    · exact .inl (Option.some.inj h).symm
  · split_ifs at h
    exact .inl (Option.some.inj h).symm

theorem copied_below {type m part : N} (h : g.copied type m) (hpart : part ∈ g.below m) :
    ∃ part' ∈ g.below type, g.copied part' part := by
  have hlist : ∀ {ts ts' : List N}, List.Forall₂ g.copied ts ts' → part ∈ ts' →
      ∃ part' ∈ ts, g.copied part' part := by
    intro ts ts' hts hmem
    induction hts with
    | nil => cases hmem
    | cons hhead _ ih =>
      rcases List.mem_cons.mp hmem with rfl | hmem
      · exact ⟨_, List.mem_cons_self, hhead⟩
      · obtain ⟨part', hpart', hcopy⟩ := ih hmem
        exact ⟨part', List.mem_cons_of_mem _ hpart', hcopy⟩
  have hcopy := g.copies type m h
  rw [below] at hpart ⊢
  generalize g.typeDecl type = decl at hcopy ⊢
  generalize g.typeDecl m = decl' at hcopy hpart
  cases hcopy with
  | basic _ _ | enumeration _ | tHandle _ | tPointer _ _ | tArray _ _ | tTable _ _ _ _ =>
    cases hpart
  | tStructure structType => exact ⟨part, hpart, g.refl part⟩
  | tTuple h | tVariant h | option h => exact hlist h hpart
  | tFixedArray _ h =>
    cases h with
    | none => cases hpart
    | some h =>
      obtain rfl := List.mem_singleton.mp hpart
      exact ⟨_, List.mem_singleton_self _, h⟩

end Copies

section Sizes

variable [DecidableEq S] (nonPodPadding : Bool)

/-- Anything will do. -/
abbrev anything {α : Type} : α → Prop := fun _ => True

/-- **A type whose size and alignment are computed.** -/
structure Sized (type : N) : Prop where
  align : ∀ guard, Settles anything (g.getAlignOf · guard type)
  base : ∀ guard, Settles anything (g.getBaseSizeOf64 nonPodPadding · guard type)
  count : Settles anything (g.getCountOf64 · type)

variable {g nonPodPadding}

theorem Sized.sizeOf {type : N} (h : g.Sized nonPodPadding type) (guard : List S) :
    Settles anything fun fuel =>
      TypeGraph.sizeOf (g.getBaseSizeOf64 nonPodPadding fuel guard) (g.getCountOf64 fuel) type :=
  (h.base guard).bind fun _ _ => h.count.bind fun _ _ => Settles.ok trivial

theorem aligns_settle {types : List N} (h : ∀ t ∈ types, g.Sized nonPodPadding t)
    (guard : List S) (align : BitVec 32) :
    Settles anything fun fuel => types.foldlM (maxAlign (g.getAlignOf fuel guard)) align :=
  Settles.foldlM
    (fun t ht _ _ => ((h t ht).align guard).bind fun _ _ => Settles.ok trivial) trivial

theorem structAlign_settles {s : S}
    (h : ∀ fd ∈ (g.struct s).fields, g.Sized nonPodPadding fd.type) (guard : List S) :
    Settles anything (g.structAlign · guard s) := by
  refine Settles.succ ?_
  simp only [structAlign]
  split_ifs
  · exact Settles.ok trivial
  · have hfields : ∀ t ∈ (g.struct s).fields.map Field.type, g.Sized nonPodPadding t := by
      intro t ht
      obtain ⟨fd, hfd, rfl⟩ := List.mem_map.mp ht
      exact h fd hfd
    exact aligns_settle hfields _ _

theorem structSize_settles [Fintype S] {s : S} (guard : List S)
    (h : ∀ fd ∈ (g.struct s).fields, ∀ m, g.copied fd.type m → g.Sized nonPodPadding m) :
    Settles anything (g.structSize nonPodPadding · guard s) := by
  induction hfree : (Finset.univ.filter (· ∉ guard)).card using Nat.strong_induction_on
    generalizing s guard with
  | _ n ih =>
    have hfields : ∀ fd ∈ (g.struct s).fields, g.Sized nonPodPadding fd.type :=
      fun fd hfd => h fd hfd _ (g.refl _)
    refine Settles.succ ?_
    simp only [structSize]
    by_cases hguard : s ∈ guard
    · simp only [if_pos hguard]
      exact Settles.ok trivial
    simp only [if_neg hguard]
    have hless : (Finset.univ.filter (· ∉ s :: guard)).card < n := by
      rw [← hfree]
      refine Finset.card_lt_card (Finset.ssubset_iff_subset_ne.mpr ⟨fun q hq => ?_, fun heq => ?_⟩)
      · simp only [Finset.mem_filter, Finset.mem_univ, true_and, List.mem_cons, not_or] at hq ⊢
        exact hq.2
      · have : s ∈ Finset.univ.filter (· ∉ guard) := by simpa using hguard
        rw [← heq] at this
        simp at this
    have hparent : ∀ q, q = s ∨ (g.struct s).cppLayout = true ∧ (g.struct s).parent = some q →
        Settles anything (g.structSize nonPodPadding · (s :: guard) q) := by
      rintro q (rfl | ⟨hcpp, hq⟩)
      · refine Settles.succ ?_
        simp only [structSize, List.mem_cons_self, if_true]
        exact Settles.ok trivial
      · refine ih _ hless _ (fun fd hfd m hm => ?_) rfl
        obtain ⟨fd', hfd', hcopy⟩ := g.inherits s q hcpp hq fd hfd
        exact h fd' hfd' m (g.trans _ _ _ hcopy hm)
    refine Settles.bind (?_ : Settles (fun at' : BitVec 64 × Option S => ∀ q, at'.2 = some q →
        q = s ∨ (g.struct s).parent = some q) _) fun laid _ =>
      (structAlign_settles hfields guard).bind fun _ _ => Settles.ok trivial
    refine Settles.foldlM (fun fd hfd at' hat => ?_) (by simp)
    have hsized := hfields fd hfd
    have hstart : Settles anything fun fuel => g.fieldStart nonPodPadding s
        (g.structSize nonPodPadding fuel (s :: guard)) at' fd := by
      simp only [fieldStart]
      by_cases hmoves : (g.moves s at'.2 fd &&
          (nonPodPadding || !(g.struct s).cppLayoutNotPod)) = true
      · simp only [if_pos hmoves]
        have hcpp : (g.struct s).cppLayout = true := by
          simp only [moves, Bool.and_eq_true] at hmoves
          exact hmoves.1.1
        cases hq : at'.2 with
        | none => exact Settles.ok trivial
        | some q => exact hparent q ((hat q hq).imp_right fun h => ⟨hcpp, h⟩)
      · simp only [if_neg hmoves]
        exact Settles.ok trivial
    refine (hsized.align _).bind fun align _ => hstart.bind fun size _ =>
      (hsized.sizeOf _).bind fun fieldSize _ => Settles.ok fun q hq => ?_
    dsimp only at hq
    split_ifs at hq
    · exact findFieldParent_eq hq
    · exact hat q hq

theorem sized_of_below [Fintype S] {type : N}
    (h : ∀ part ∈ g.below type, ∀ m, g.copied part m → g.Sized nonPodPadding m) :
    g.Sized nonPodPadding type := by
  have hself : ∀ part ∈ g.below type, g.Sized nonPodPadding part :=
    fun part hpart => h part hpart _ (g.refl _)
  rw [below] at h hself
  refine ⟨fun guard => Settles.succ ?_, fun guard => Settles.succ ?_, Settles.succ ?_⟩
  · simp only [getAlignOf]
    split
    all_goals first | exact Settles.ok trivial | exact Settles.fault _ | skip
    all_goals rename_i hdecl; rw [hdecl] at hself
    · split_ifs
      · exact Settles.ok trivial
      · exact structAlign_settles (fun fd hfd => hself _ (List.mem_map_of_mem hfd)) guard
    · exact aligns_settle hself guard 1
    · exact aligns_settle hself guard 4
    · exact (hself _ (by simp)).align guard
  · simp only [getBaseSizeOf64]
    split
    all_goals first | exact Settles.ok trivial | exact Settles.fault _ | skip
    all_goals rename_i hdecl; rw [hdecl] at h hself
    · split_ifs
      · exact Settles.ok trivial
      · exact structSize_settles guard fun fd hfd => h _ (List.mem_map_of_mem hfd)
    · refine Settles.bind (?_ : Settles anything _) fun size _ =>
        (aligns_settle hself guard 1).bind fun _ _ => Settles.ok trivial
      exact Settles.foldlM (fun t ht _ _ => ((hself t ht).align guard).bind fun _ _ =>
        ((hself t ht).sizeOf guard).bind fun _ _ => Settles.ok trivial) trivial
    · refine (aligns_settle hself guard 4).bind fun align _ =>
        Settles.bind (?_ : Settles anything _) fun _ _ => Settles.ok trivial
      exact Settles.foldlM (fun t ht _ _ => ((hself t ht).sizeOf guard).bind fun _ _ =>
        Settles.ok trivial) trivial
    · exact (hself _ (by simp)).base guard
  · simp only [getCountOf64]
    split
    all_goals first | exact Settles.ok trivial | skip
    all_goals rename_i hdecl; rw [hdecl] at hself
    exact (hself _ (by simp)).count.bind fun _ _ => Settles.ok trivial

theorem sized_of_acc [Fintype S] {type : N} (h : Acc g.Inside type) :
    ∀ m, g.copied type m → g.Sized nonPodPadding m := by
  induction h with
  | intro type _ ih =>
    intro m hm
    refine sized_of_below fun part hpart m' hm' => ?_
    obtain ⟨part', hpart', hcopy⟩ := copied_below hm hpart
    exact ih part' hpart' m' (g.trans _ _ _ hcopy hm')

end Sizes

/-- **Circular types are detected exactly**: with more fuel than there are nodes `isCircularType`
answers, and says whether there is an infinite chain of containment; of what it accepts the size and
the alignment are computed, with enough fuel, whatever structures are guarded. -/
theorem isCircularType_exact [Fintype N] [DecidableEq N] [Fintype S] [DecidableEq S]
    (nonPodPadding : Bool) (type : N) :
    ∃ circular : Bool, (circular = true ↔ g.Infinite type) ∧
      (∀ fuel > Fintype.card N,
        (g.isCircularType fuel type []).map Prod.fst = some circular) ∧
      (circular = false → ∀ guard, ∃ n, ∀ fuel ≥ n,
        g.getSizeOf64 nonPodPadding fuel guard type ≠ .error none ∧
          g.getAlignOf fuel guard type ≠ .error none) := by
  classical
  refine ⟨decide (g.Infinite type), by simp, fun fuel hfuel => ?_, fun hcircular guard => ?_⟩
  · obtain ⟨b, all, hrun, -, hb⟩ : ∃ b all', g.isCircularType fuel type [] = some (b, all') ∧
        (b = false → all' = []) ∧ (b = true ↔ g.Infinite type) :=
      g.isCircularType_spec List.nodup_nil (by simp) (by simpa using hfuel)
    rw [hrun, Option.map_some, Option.some.injEq]
    exact Bool.eq_iff_iff.mpr (hb.trans (by simp))
  · have hacc : Acc g.Inside type := by
      by_contra hacc
      exact of_decide_eq_false hcircular (g.infinite_iff.mpr hacc)
    have hsized : g.Sized nonPodPadding type := sized_of_acc hacc type (g.refl type)
    obtain ⟨n, hn⟩ := (hsized.sizeOf guard).enough
    obtain ⟨n', hn'⟩ := (hsized.align guard).enough
    exact ⟨max n n', fun fuel hfuel => ⟨hn fuel ((le_max_left _ _).trans hfuel),
      hn' fuel ((le_max_right _ _).trans hfuel)⟩⟩

end TypeGraph

end DaScript.CircularType

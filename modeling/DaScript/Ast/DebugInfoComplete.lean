import DaScript.Ast.DebugInfoFrame

/-!
# Ast/DebugInfoComplete — every structure gets its chain

What `makeTypeInfo` and `makeStructureDebugInfo` do to the state, from the calls that they make in
turn: each is made once, so the recursion ends, and a structure is complete after it.
-/

namespace DaScript.DebugInfo

open GcFlags

variable {S A : Type} [DecidableEq S] [DecidableEq A] [Fintype S] [Fintype A] (P : Program S A)
  (mangledName : TypeDecl S A → String)

/-- What is still to be made by name. -/
def missing (h : Helper) : ℕ :=
  (Finset.univ.filter fun s => structAt P h s = none).card +
    (Finset.univ.filter fun s => h.tmn2t.lookup (mangledName (ofStructure s)) = none).card

/-- No name. -/
def Nothing (_ : String) : Prop := False

/-- **A call that makes nodes**, where less than so much is missing. -/
def Runs {α : Type} (n : ℕ) (post : α → Prop) (x : Make α) : Prop :=
  ∀ h, Ok P h → missing P mangledName h < n →
    ∃ r h', x h = some (r, h') ∧ Ok P h' ∧ Ext P Nothing h h' ∧ post r

variable {P mangledName} {except : String → Prop} {h h' : Helper} {n : ℕ} {α β : Type}

theorem Ext.missing_le (he : Ext P except h h') :
    missing P mangledName h' ≤ missing P mangledName h := by
  refine Nat.add_le_add (Finset.card_le_card fun s hs => ?_) (Finset.card_le_card fun s hs => ?_)
  · rw [Finset.mem_filter] at hs ⊢
    exact ⟨hs.1, by_contra fun hne => he.ne_none hne hs.2⟩
  · rw [Finset.mem_filter] at hs ⊢
    exact ⟨hs.1, by_contra fun hne => he.types _ hne hs.2⟩

theorem Runs.pure {post : α → Prop} {a : α} (ha : post a) :
    Runs P mangledName n post (Pure.pure a) :=
  fun h hok _ => ⟨a, h, rfl, hok, .refl P, ha⟩

theorem Runs.bind {post : α → Prop} {post' : β → Prop} {x : Make α} {f : α → Make β}
    (hx : Runs P mangledName n post x) (hf : ∀ a, post a → Runs P mangledName n post' (f a)) :
    Runs P mangledName n post' (x >>= f) := by
  intro h hok hn
  obtain ⟨a, h', hrun, hok', he, ha⟩ := hx h hok hn
  obtain ⟨b, h'', hrun', hok'', he', hb⟩ := hf a ha h' hok' (he.missing_le.trans_lt hn)
  refine ⟨b, h'', ?_, hok'', he.trans hok he' fun _ _ _ _ => id, hb⟩
  show ((x h).bind fun p => f p.1 p.2) = _
  rw [hrun]
  exact hrun'

/-! ## Types -/

/-- What a type's node is given of its flags. -/
def GcBits (P : Program S A) (type : TypeDecl S A) (flags : BitVec 32) : Prop :=
  ∃ gcf, P.gcFlags type = some gcf ∧ flags = (flagIf (Has gcFlag_heap gcf) flag_heapGC |||
    flagIf (Has gcFlag_stringHeap gcf) flag_stringHeapGC)

theorem gcFlags_some (P : Program S A) (type : TypeDecl S A) :
    ∃ gcf, P.gcFlags type = some gcf := by
  obtain ⟨gcf, hgcf, -⟩ :
      ∃ gcf, P.gcFlagsIn _ type = some gcf ∧ (Has gcFlag_heap gcf ↔ P.MayHold gcFlag_heap type) :=
    P.gcFlagsIn_spec (Nat.lt_succ_self _) type
  exact ⟨gcf, hgcf⟩

theorem runs_gcFlagsOf (type : TypeDecl S A) :
    Runs P mangledName n (GcBits P type) (gcFlagsOf P type) := by
  intro h hok _
  obtain ⟨gcf, hgcf⟩ := gcFlags_some P type
  refine ⟨_, h, ?_, hok, .refl P, gcf, hgcf, rfl⟩
  rw [gcFlagsOf, hgcf]
  rfl

omit [DecidableEq S] [DecidableEq A] [Fintype S] [Fintype A] in
theorem Ok.of_types (hok : Ok P h) {typeInfos : List TypeInfo} {tmn2t : List (String × ℕ)} :
    Ok P { h with typeInfos, tmn2t } :=
  ⟨hok.sti, hok.stiInj, hok.vi, hok.viInj, hok.owner⟩

theorem Ext.of_types {typeInfos : List TypeInfo} {tmn2t : List (String × ℕ)}
    (htypes : ∀ name, h.tmn2t.lookup name ≠ none → tmn2t.lookup name ≠ none) :
    Ext P except h { h with typeInfos, tmn2t } :=
  ⟨fun _ _ hs => hs, htypes, le_rfl, fun _ _ _ => rfl, fun _ _ _ _ _ => rfl,
    fun _ _ _ _ _ _ => rfl, fun _ _ _ _ _ ha => .inl ha, fun s i hnone hsome => by
      have hnone' : structAt P { h with typeInfos, tmn2t } s = none := hnone
      rw [hnone'] at hsome
      exact absurd hsome (Option.some_ne_none i).symm⟩

theorem lookup_cons_ne_none {name name' : String} {i : ℕ} {l : List (String × ℕ)}
    (hl : l.lookup name' ≠ none) : ((name, i) :: l).lookup name' ≠ none := by
  rw [List.lookup_cons]
  split
  · exact Option.some_ne_none i
  · exact hl

theorem runs_new {type : TypeDecl S A} {fill : Make TypeInfo} {post : TypeInfo → Prop} {m : ℕ}
    (hfill : Runs P mangledName m post fill) (hok : Ok P h)
    (hnew : h.tmn2t.lookup (mangledName type) = none)
    (hm : ∀ tmn2t, tmn2t = (mangledName type, h.typeInfos.length) :: h.tmn2t →
      missing P mangledName { h with typeInfos := h.typeInfos ++ [{}], tmn2t } < m) :
    ∃ r h', makeNamed mangledName type fill h = some (r, h') ∧ Ok P h' ∧ Ext P Nothing h h' := by
  obtain ⟨info, h', hrun, hok', he, -⟩ := hfill { h with
    typeInfos := h.typeInfos ++ [{}]
    tmn2t := (mangledName type, h.typeInfos.length) :: h.tmn2t } hok.of_types (hm _ rfl)
  refine ⟨h.typeInfos.length, { h' with typeInfos := h'.typeInfos.set h.typeInfos.length info },
    ?_, hok'.of_types, ?_⟩
  · rw [makeNamed, hnew]
    show ((fill _).bind fun p => _) = _
    rw [hrun]
    rfl
  · have hbefore : Ext P Nothing h { h with
        typeInfos := h.typeInfos ++ [{}]
        tmn2t := (mangledName type, h.typeInfos.length) :: h.tmn2t } :=
      .of_types fun _ => lookup_cons_ne_none
    exact (hbefore.trans hok he fun _ _ _ _ => id).trans hok (.of_types fun _ hn => hn)
      fun _ _ _ _ => id

theorem runs_makeNamed {type : TypeDecl S A} {fill : Make TypeInfo} {post : TypeInfo → Prop}
    (hfill : Runs P mangledName n post fill) :
    Runs P mangledName n (fun _ => True) (makeNamed mangledName type fill) := by
  intro h hok hn
  cases hcached : h.tmn2t.lookup (mangledName type) with
  | some info => exact ⟨info, h, by rw [makeNamed, hcached], hok, .refl P, trivial⟩
  | none =>
    obtain ⟨r, h', hrun, hok', he⟩ := runs_new hfill hok hcached fun tmn2t htmn2t => by
      refine lt_of_le_of_lt ?_ hn
      refine Ext.missing_le (?_ : Ext P Nothing h _)
      refine .of_types fun _ hne => ?_
      rw [htmn2t]
      exact lookup_cons_ne_none hne
    exact ⟨r, h', hrun, hok', he, trivial⟩

section Types

variable {make : Request S → Make ℕ}

theorem runs_makeStructType (hmake : ∀ request, Runs P mangledName n (fun _ => True) (make request))
    (baseType : BaseType) (structType : Option S) :
    Runs P mangledName n (fun _ => True) (makeStructType make baseType structType) := by
  unfold makeStructType
  split
  · exact (hmake _).bind fun sti _ => .pure trivial
  · exact .pure trivial

theorem runs_makeParentType (hmake : ∀ request, Runs P mangledName n (fun _ => True) (make request))
    (baseType : BaseType) (structType : Option S) :
    Runs P mangledName n (fun _ => True) (makeParentType P make baseType structType) := by
  unfold makeParentType
  split
  · split
    · exact (hmake _).bind fun info _ => .pure trivial
    · exact .pure trivial
  · exact .pure trivial

mutual

theorem runs_fillTypeInfo (hmake : ∀ request, Runs P mangledName n (fun _ => True) (make request))
    (type : TypeDecl S A) : ∀ elemType, Runs P mangledName n (fun info => GcBits P type info.flags)
      (fillTypeInfo P mangledName make type elemType)
  | .mk baseType structType ann firstType secondType argTypes => by
    have hbody : Runs P mangledName n (fun info : TypeInfo => GcBits P type info.flags) (do
        let sti ← makeStructType make baseType structType
        let flags ← gcFlagsOf P type
        let first ← (match firstType with
          | some _ => makeTypeInfoOf P mangledName make firstType
          | none => makeParentType P make baseType structType)
        let second ← makeTypeInfoOf P mangledName make secondType
        let args ← makeTypeInfoAll P mangledName make argTypes
        pure { flags, structType := sti, firstType := first, secondType := second,
               argTypes := args } : Make TypeInfo) := by
      refine (runs_makeStructType hmake baseType structType).bind fun sti _ =>
        (runs_gcFlagsOf type).bind fun flags (hflags : GcBits P type flags) =>
          Runs.bind (?_ : Runs P mangledName n (fun _ => True) _) fun first _ =>
          (runs_makeTypeInfoOf hmake secondType).bind fun second _ =>
            (runs_makeTypeInfoAll hmake argTypes).bind fun args _ => .pure hflags
      cases firstType with
      | none => exact runs_makeParentType hmake baseType structType
      | some t => exact runs_makeTypeInfoOf hmake (some t)
    cases firstType with
    | none => cases baseType <;> exact hbody
    | some elemType =>
      by_cases harray : baseType = .tFixedArray
      · subst harray
        exact runs_fillTypeInfo hmake type elemType
      · cases baseType <;> first | exact absurd rfl harray | exact hbody

theorem runs_makeTypeInfoOf
    (hmake : ∀ request, Runs P mangledName n (fun _ => True) (make request)) :
    ∀ type, Runs P mangledName n (fun _ => True) (makeTypeInfoOf P mangledName make type)
  | none => by
    rw [makeTypeInfoOf]
    exact .pure trivial
  | some type => by
    rw [makeTypeInfoOf]
    exact (runs_makeNamed (runs_fillTypeInfo hmake type type)).bind fun info _ => .pure trivial

theorem runs_makeTypeInfoAll
    (hmake : ∀ request, Runs P mangledName n (fun _ => True) (make request)) :
    ∀ types, Runs P mangledName n (fun _ => True) (makeTypeInfoAll P mangledName make types)
  | [] => by
    rw [makeTypeInfoAll]
    exact .pure trivial
  | type :: types => by
    rw [makeTypeInfoAll]
    exact (runs_makeNamed (runs_fillTypeInfo hmake type type)).bind fun info _ =>
      (runs_makeTypeInfoAll hmake types).bind fun infos _ => .pure trivial

end

theorem runs_makeTypeInfo (hmake : ∀ request, Runs P mangledName n (fun _ => True) (make request))
    (type : TypeDecl S A) :
    Runs P mangledName n (fun _ => True) (makeTypeInfo P mangledName make type) :=
  runs_makeNamed (runs_fillTypeInfo hmake type type)

end Types

end DaScript.DebugInfo

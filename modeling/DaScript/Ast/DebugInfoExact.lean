import DaScript.Ast.DebugInfoComplete

/-!
# Ast/DebugInfoExact — the collector visits the fields that it has to

A structure's fields get nodes of their own, that no other structure has; the links are put into
these when all of them are there.
-/

namespace DaScript.DebugInfo

open GcFlags

variable {S A : Type} [DecidableEq S] [DecidableEq A] [Fintype S] [Fintype A] {P : Program S A}
  {mangledName : TypeDecl S A → String} {except : String → Prop} {h h' : Helper} {n : ℕ} {s : S}
  {var : Field S A}

/-! ## Nodes of fields -/

theorem Ext.of_write {l : List VarInfo} (W : ℕ → Prop) (hlength : l.length = h.varInfos.length)
    (hsame : ∀ a, ¬ W a → l[a]? = h.varInfos[a]?)
    (hexcept : ∀ t, ∀ var ∈ (P.struct t).fields, ∀ a, varAt P h t var = some a → W a →
      except (fieldName P t var)) : Ext P except h { h with varInfos := l } :=
  ⟨fun _ _ hs => hs, fun _ hn => hn, hlength.ge, fun _ _ _ => rfl, fun _ _ _ _ _ => rfl,
    fun t var hv hn a ha => hsame a fun hW => hn (hexcept t var hv a ha hW),
    fun _ _ _ _ _ ha => .inl ha, fun t i hnone hsome => by
      have hnone' : structAt P { h with varInfos := l } t = none := hnone
      rw [hnone'] at hsome
      exact absurd hsome (Option.some_ne_none i).symm⟩

omit [DecidableEq S] [DecidableEq A] [Fintype S] [Fintype A] in
theorem Ok.of_write (hok : Ok P h) {l : List VarInfo} (hlength : h.varInfos.length ≤ l.length) :
    Ok P { h with varInfos := l } :=
  ⟨hok.sti, hok.stiInj, fun t var hv a ha => (hok.vi t var hv a ha).trans_le hlength, hok.viInj,
    hok.owner⟩

theorem Ext.of_newVarInfo (hok : Ok P h) (l : List VarInfo) :
    Ext P except h { h with varInfos := h.varInfos ++ l } :=
  ⟨fun _ _ hs => hs, fun _ hn => hn, by simp, fun _ _ _ => rfl, fun _ _ _ _ _ => rfl,
    fun t var hv _ a ha => List.getElem?_append_left (hok.vi t var hv a ha),
    fun _ _ _ _ _ ha => .inl ha, fun t i hnone hsome => by
      have hnone' : structAt P { h with varInfos := h.varInfos ++ l } t = none := hnone
      rw [hnone'] at hsome
      exact absurd hsome (Option.some_ne_none i).symm⟩

omit [DecidableEq S] [DecidableEq A] [Fintype S] [Fintype A] in
theorem varAt_name (t : S) (var' : Field S A) (a : ℕ) :
    varAt P { h with vmn2v := (fieldName P s var, a) :: h.vmn2v } t var' =
      if fieldName P t var' = fieldName P s var then some a else varAt P h t var' := by
  rw [varAt, List.lookup_cons]
  by_cases hname : fieldName P t var' = fieldName P s var
  · rw [if_pos hname, hname, beq_self_eq_true]
  · rw [if_neg hname, beq_eq_false_iff_ne.mpr hname]
    rfl

theorem Ext.of_name (a : ℕ) : Ext P (· = fieldName P s var) h
    { h with vmn2v := (fieldName P s var, a) :: h.vmn2v } :=
  ⟨fun _ _ hs => hs, fun _ hn => hn, le_rfl, fun _ _ _ => rfl,
    fun t _ var' _ hn => by rw [varAt_name, if_neg hn],
    fun _ _ _ _ _ _ => rfl,
    fun t var' _ hn a' ha => .inl (by rwa [varAt_name, if_neg hn] at ha), fun t i hnone hsome => by
      have hnone' : structAt P { h with vmn2v := (fieldName P s var, a) :: h.vmn2v } t = none :=
        hnone
      rw [hnone'] at hsome
      exact absurd hsome (Option.some_ne_none i).symm⟩

omit [DecidableEq S] [DecidableEq A] [Fintype S] [Fintype A] in
theorem Ok.of_name (hok : Ok P h) (hs : structAt P h s ≠ none) (hvar : var ∈ (P.struct s).fields)
    {a : ℕ} (ha : a < h.varInfos.length)
    (hunowned : ∀ t, ∀ var' ∈ (P.struct t).fields, varAt P h t var' ≠ some a) :
    Ok P { h with vmn2v := (fieldName P s var, a) :: h.vmn2v } := by
  refine ⟨hok.sti, hok.stiInj, fun t var' hv a' ha' => ?_,
    fun t t' var' hv var'' hv' a' ha' ha'' => ?_, fun t var' hv hne => ?_⟩
  · rw [varAt_name] at ha'
    split at ha'
    · exact Option.some.inj ha' ▸ ha
    · exact hok.vi t var' hv a' ha'
  · rw [varAt_name] at ha' ha''
    split at ha' <;> split at ha''
    · rename_i h1 h2
      exact fieldName_inj P hv hv' (h1.trans h2.symm)
    · exact absurd (ha''.trans ha'.symm) (hunowned t' var'' hv')
    · exact absurd (ha'.trans ha''.symm) (hunowned t var' hv)
    · exact hok.viInj t t' var' hv var'' hv' a' ha' ha''
  · rw [varAt_name] at hne
    split at hne
    · rename_i hname
      obtain ⟨rfl, -⟩ := fieldName_inj P hv hvar hname
      exact hs
    · exact hok.owner t var' hv hne

omit [DecidableEq S] [DecidableEq A] [Fintype S] [Fintype A] in
theorem except_name (hs : structAt P h s ≠ none) (vars : List (Field S A))
    (hvars : ∀ var ∈ vars, var ∈ (P.struct s).fields) (t : S) (ht : structAt P h t = none)
    (var' : Field S A) (hv : var' ∈ (P.struct t).fields) :
    ¬ ∃ var ∈ vars, fieldName P t var' = fieldName P s var := by
  rintro ⟨var, hvar, hname⟩
  obtain ⟨rfl, -⟩ := fieldName_inj P hv (hvars var hvar) hname
  exact hs ht

/-- A node has the flags that the collector asks for. -/
def Marked (P : Program S A) (h : Helper) (s : S) (var : Field S A) : Prop :=
  ∀ a, varAt P h s var = some a → ∃ vi, h.varInfos[a]? = some vi ∧ vi.isGc = isGcType P var.type

theorem has_flagIf {mask flag : BitVec 32} {cond : Bool} (hflag : Has mask flag) :
    Has mask (flagIf cond flag) ↔ cond = true := by
  cases cond with
  | false => simp [flagIf]
  | true => simp [flagIf, hflag]

theorem not_has_flagIf {mask flag : BitVec 32} {cond : Bool} (hflag : ¬ Has mask flag) :
    ¬ Has mask (flagIf cond flag) := by
  cases cond with
  | false => simp [flagIf]
  | true => simpa [flagIf] using hflag

theorem isGc_of_gcBits {type : TypeDecl S A} {flags : BitVec 32} (hbits : GcBits P type flags)
    (hasInitValue privateField : Bool) (vi : VarInfo)
    (hvi : vi.flags = flags ||| flagIf hasInitValue flag_hasInitValue |||
      flagIf privateField flag_private) : vi.isGc = isGcType P type := by
  obtain ⟨gcf, hgcf, rfl⟩ := hbits
  rw [VarInfo.isGc, isGcType, hgcf, Option.any_some, decide_eq_decide, hvi, has_or, has_or, has_or,
    has_flagIf (by decide), has_flagIf (by decide), decide_eq_true_iff, decide_eq_true_iff]
  have hunion : Has (gcFlag_heap ||| gcFlag_stringHeap) gcf ↔
      Has gcFlag_heap gcf ∨ Has gcFlag_stringHeap gcf := has_union
  have hinit : ¬ Has (flag_heapGC ||| flag_stringHeapGC) (flagIf hasInitValue flag_hasInitValue) :=
    not_has_flagIf (by decide)
  have hprivate : ¬ Has (flag_heapGC ||| flag_stringHeapGC) (flagIf privateField flag_private) :=
    not_has_flagIf (by decide)
  tauto

theorem runs_field {make : Request S → Make ℕ}
    (hmake : ∀ request, Runs P mangledName n (fun _ => True) (make request)) (hok : Ok P h)
    (hn : missing P mangledName h < n) (hs : structAt P h s ≠ none)
    (hvar : var ∈ (P.struct s).fields) (hnone : varAt P h s var = none) :
    ∃ a h' h'', makeVariableDebugInfo P mangledName make s var h = some (a, h') ∧
      setPrivate var a h' = some ((), h'') ∧ h.varInfos.length ≤ a ∧ Ok P h'' ∧
      Ext P (fun name => ∃ var' ∈ [var], name = fieldName P s var') h h'' ∧
      varAt P h'' s var = some a ∧ Marked P h'' s var := by
  -- a new node, the nodes below it, and what it is filled with
  have hok₁ : Ok P { h with varInfos := h.varInfos ++ [{}] } := hok.of_write (by simp)
  have he₁ : Ext P Nothing h { h with varInfos := h.varInfos ++ [{}] } := .of_newVarInfo hok _
  obtain ⟨info, h₂, hfill, hok₂, he₂, hbits⟩ :=
    runs_fillTypeInfo hmake var.type var.type _ hok₁ (he₁.missing_le.trans_lt hn)
  have ha : h.varInfos.length < h₂.varInfos.length := by
    have := he₂.length
    rw [List.length_append] at this
    exact this
  have hunowned : ∀ t, ∀ var' ∈ (P.struct t).fields,
      varAt P h₂ t var' ≠ some h.varInfos.length := by
    intro t var' hv hat
    rcases he₂.fresh t var' hv id _ hat with hold | hnew
    · exact absurd (hok.vi t var' hv _ hold) (lt_irrefl _)
    · rw [List.length_append] at hnew
      exact absurd hnew (by simp)
  have hs₂ : structAt P h₂ s ≠ none := he₂.ne_none (he₁.ne_none hs)
  -- what is written to it, and its name
  let filled : VarInfo := { info with
    name := var.name
    flags := info.flags ||| flagIf var.hasInitValue flag_hasInitValue }
  let h₃ : Helper := { h₂ with varInfos := h₂.varInfos.set h.varInfos.length filled }
  let h₄ : Helper := { h₃ with vmn2v := (fieldName P s var, h.varInfos.length) :: h₃.vmn2v }
  have hok₃ : Ok P h₃ := hok₂.of_write (by simp)
  have he₃ : Ext P Nothing h₂ h₃ := by
    refine .of_write (· = h.varInfos.length) (by simp) (fun a ha => ?_) fun t var' hv a hat ha => ?_
    · exact List.getElem?_set_ne (Ne.symm ha)
    · exact absurd (ha ▸ hat) (hunowned t var' hv)
  have hok₄ : Ok P h₄ := hok₃.of_name (he₃.ne_none hs₂) hvar (by simpa [h₃] using ha) hunowned
  have hat₄ : varAt P h₄ s var = some h.varInfos.length := (varAt_name s var _).trans (if_pos rfl)
  have hmono : ∀ name, Nothing name → ∃ var' ∈ [var], name = fieldName P s var' :=
    fun _ hnothing => hnothing.elim
  have hname : ∀ name, name = fieldName P s var → ∃ var' ∈ [var], name = fieldName P s var' :=
    fun _ hname => ⟨var, List.mem_singleton_self var, hname⟩
  have hexcept := except_name hs [var] (by simpa using hvar)
  have he₄ : Ext P (fun name => ∃ var' ∈ [var], name = fieldName P s var') h h₄ := by
    refine .trans hok (((he₁.trans hok he₂ fun _ _ _ _ => id).trans hok he₃
      fun _ _ _ _ => id).mono hmono) (Ext.mono ?_ hname) hexcept
    exact .of_name _
  -- private
  let h₅ : Helper := { h₄ with varInfos := h₄.varInfos.modify h.varInfos.length fun vi =>
    { vi with flags := vi.flags ||| flagIf var.privateField flag_private } }
  have he₅ : Ext P (fun name => ∃ var' ∈ [var], name = fieldName P s var') h₄ h₅ := by
    refine .of_write (· = h.varInfos.length) (by simp) (fun a ha => ?_) fun t var' hv a hat ha => ?_
    · simp [Ne.symm ha]
    · obtain ⟨rfl, hn⟩ := hok₄.viInj t s var' hv var hvar a hat (ha ▸ hat₄)
      exact ⟨var, List.mem_singleton_self var, by rw [fieldName, fieldName, hn]⟩
  refine ⟨h.varInfos.length, h₄, h₅, ?_, rfl, le_rfl, hok₄.of_write (by simp),
    he₄.trans hok he₅ hexcept, hat₄, fun a hat => ?_⟩
  · rw [makeVariableDebugInfo]
    have hlookup : h.vmn2v.lookup (fieldName P s var) = none := hnone
    rw [hlookup]
    show ((fillTypeInfo P mangledName make var.type var.type _).bind fun p => _) = _
    rw [hfill]
    rfl
  · obtain rfl : h.varInfos.length = a := Option.some.inj (hat₄.symm.trans hat)
    refine ⟨{ filled with flags := filled.flags ||| flagIf var.privateField flag_private }, ?_,
      isGc_of_gcBits hbits var.hasInitValue var.privateField _ rfl⟩
    simp [h₅, h₄, h₃, ha, filled]

theorem runs_makeFields {make : Request S → Make ℕ}
    (hmake : ∀ request, Runs P mangledName n (fun _ => True) (make request))
    {vars : List (Field S A)} (hvars : ∀ var ∈ vars, var ∈ (P.struct s).fields)
    (hnodup : (vars.map Field.name).Nodup) (hok : Ok P h) (hn : missing P mangledName h < n)
    (hs : structAt P h s ≠ none) (hnone : ∀ var ∈ vars, varAt P h s var = none) :
    ∃ vis h', makeFields P mangledName make s vars h = some (vis, h') ∧ Ok P h' ∧
      Ext P (fun name => ∃ var ∈ vars, name = fieldName P s var) h h' ∧
      vis.map some = vars.map (varAt P h' s) ∧ (∀ var ∈ vars, Marked P h' s var) ∧
      ∀ a ∈ vis, h.varInfos.length ≤ a := by
  induction vars generalizing h with
  | nil => exact ⟨[], h, rfl, hok, .refl P, rfl, by simp, by simp⟩
  | cons var vars ih =>
    have hvar : var ∈ (P.struct s).fields := hvars var List.mem_cons_self
    have hvars' : ∀ var' ∈ vars, var' ∈ (P.struct s).fields :=
      fun var' hv => hvars var' (List.mem_cons_of_mem _ hv)
    rw [List.map_cons, List.nodup_cons] at hnodup
    -- names of fields are different
    have hother : ∀ var' ∈ vars, fieldName P s var' ≠ fieldName P s var := by
      intro var' hv hname
      obtain ⟨-, hn⟩ := fieldName_inj P (hvars' var' hv) hvar hname
      exact hnodup.1 (hn ▸ List.mem_map_of_mem hv)
    obtain ⟨a, h₁, h₂, hmade, hprivate, hnew, hok₂, he₂, hat, hmarked⟩ :=
      runs_field hmake hok hn hs hvar (hnone var List.mem_cons_self)
    have hs₂ : structAt P h₂ s ≠ none := he₂.ne_none hs
    have hnone₂ : ∀ var' ∈ vars, varAt P h₂ s var' = none := by
      intro var' hv
      rw [he₂.var s hs var' (hvars' var' hv) (by simpa using hother var' hv)]
      exact hnone var' (List.mem_cons_of_mem _ hv)
    obtain ⟨vis, h₃, hrun, hok₃, he₃, hvis, hmarked', hnews⟩ :=
      ih hvars' hnodup.2 hok₂ (he₂.missing_le.trans_lt hn) hs₂ hnone₂
    have hnot : ¬ ∃ var' ∈ vars, fieldName P s var = fieldName P s var' :=
      fun ⟨var', hv, hname⟩ => hother var' hv hname.symm
    have hat₃ : varAt P h₃ s var = some a := (he₃.var s hs₂ var hvar hnot).trans hat
    refine ⟨a :: vis, h₃, ?_, hok₃, ?_, ?_, fun var' hv => ?_, fun b hb => ?_⟩
    · rw [makeFields]
      show ((makeVariableDebugInfo P mangledName make s var h).bind fun p =>
        (setPrivate var p.1 p.2).bind fun q => (makeFields P mangledName make s vars q.2).bind
          fun r => some (p.1 :: r.1, r.2)) = _
      rw [hmade, Option.bind_some, hprivate, Option.bind_some, hrun, Option.bind_some]
    · refine .trans hok (he₂.mono ?_) (he₃.mono ?_) (except_name hs (var :: vars) hvars)
      · rintro name ⟨var', hv, hname⟩
        exact ⟨var', List.mem_cons.mpr (.inl (List.mem_singleton.mp hv)), hname⟩
      · rintro name ⟨var', hv, hname⟩
        exact ⟨var', List.mem_cons_of_mem _ hv, hname⟩
    · rw [List.map_cons, List.map_cons, hat₃, hvis]
    · rcases List.mem_cons.mp hv with rfl | hv
      · intro b hb
        obtain rfl : a = b := Option.some.inj (hat₃.symm.trans hb)
        rw [he₃.vi s var' hvar hnot a hat]
        exact hmarked a hat
      · exact hmarked' var' hv
    · rcases List.mem_cons.mp hb with rfl | hb
      · exact hnew
      · exact he₂.length.trans (hnews b hb)

/-! ## A structure -/

theorem has_structFlags {gcf flags : BitVec 32} (hgcf : Has (gcFlag_heap ||| gcFlag_stringHeap) gcf)
    (isClass isLambda : Bool)
    (hflags : flags = (flagIf isClass StructFlags.flag_class |||
      flagIf isLambda StructFlags.flag_lambda |||
      flagIf (Has gcFlag_heap gcf) StructFlags.flag_heapGC |||
      flagIf (Has gcFlag_stringHeap gcf) StructFlags.flag_stringHeapGC)) :
    Has (StructFlags.flag_heapGC ||| StructFlags.flag_stringHeapGC) flags := by
  rw [hflags, has_or, has_or, has_or, has_flagIf (by decide : Has _ StructFlags.flag_heapGC),
    has_flagIf (by decide : Has _ StructFlags.flag_stringHeapGC), decide_eq_true_iff,
    decide_eq_true_iff]
  rcases has_union.mp hgcf with hheap | hstring
  · exact .inl (.inr hheap)
  · exact .inr hstring

theorem has_gcFlags {mask gcf : BitVec 32} {type : TypeDecl S A}
    (hgcf : P.gcFlags type = some gcf) : Has mask gcf ↔ P.MayHold mask type := by
  obtain ⟨gcf', hgcf', hhas⟩ : ∃ gcf, P.gcFlagsIn _ type = some gcf ∧
      (Has mask gcf ↔ P.MayHold mask type) := P.gcFlagsIn_spec (Nat.lt_succ_self _) type
  obtain rfl : gcf = gcf' := Option.some.inj (hgcf.symm.trans hgcf')
  exact hhas

theorem has_ofStructure {type : TypeDecl S A} (htype : type ∈ (P.struct s).fields.map Field.type)
    (hgc : isGcType P type = true) {gcf : BitVec 32} (hgcf : P.gcFlags (ofStructure s) = some gcf) :
    Has (gcFlag_heap ||| gcFlag_stringHeap) gcf := by
  obtain ⟨gcf', hgcf'⟩ := gcFlags_some P type
  rw [isGcType, hgcf', Option.any_some] at hgc
  have hhold := (has_gcFlags hgcf').mp (of_decide_eq_true hgc)
  exact (has_gcFlags hgcf).mpr (.of_refersTo (.field rfl htype) hhold)

omit [DecidableEq A] [Fintype S] [Fintype A] in
theorem structAt_new {structInfos : List StructInfo} (t : S) (i : ℕ) :
    structAt P { h with structInfos, smn2s := ((P.struct s).getMangledName, i) :: h.smn2s } t =
      if t = s then some i else structAt P h t := by
  rw [structAt, List.lookup_cons]
  by_cases heq : t = s
  · rw [if_pos heq, heq, beq_self_eq_true]
  · rw [if_neg heq, beq_eq_false_iff_ne.mpr fun hname => heq (P.injective t s hname)]
    rfl

omit [DecidableEq A] [Fintype S] [Fintype A] in
theorem Ok.of_structure (hok : Ok P h) (sti : StructInfo) :
    Ok P { h with
      structInfos := (h.structInfos ++ [({} : StructInfo)]).set h.structInfos.length sti
      smn2s := ((P.struct s).getMangledName, h.structInfos.length) :: h.smn2s } := by
  refine ⟨fun t i hi => ?_, fun t t' i hi hi' => ?_, hok.vi, hok.viInj, fun t var hv hne => ?_⟩
  · rw [structAt_new] at hi
    rw [List.length_set, List.length_append, List.length_singleton]
    split at hi
    · obtain rfl := Option.some.inj hi
      exact Nat.lt_succ_self _
    · exact (hok.sti t i hi).trans (Nat.lt_succ_self _)
  · rw [structAt_new] at hi hi'
    split at hi <;> split at hi'
    · rename_i ht ht'
      exact ht.trans ht'.symm
    · obtain rfl := Option.some.inj hi
      exact absurd (hok.sti t' _ hi') (lt_irrefl _)
    · obtain rfl := Option.some.inj hi'
      exact absurd (hok.sti t _ hi) (lt_irrefl _)
    · exact hok.stiInj t t' i hi hi'
  · rw [structAt_new]
    split
    · exact Option.some_ne_none _
    · exact hok.owner t var hv hne

omit [DecidableEq A] [Fintype A] in
theorem missing_structure (hnew : structAt P h s = none) (structInfos : List StructInfo) (i : ℕ) :
    missing P mangledName
      { h with structInfos, smn2s := ((P.struct s).getMangledName, i) :: h.smn2s } <
      missing P mangledName h := by
  refine Nat.add_lt_add_right (Finset.card_lt_card (Finset.ssubset_iff_of_subset ?_ |>.mpr
    ⟨s, ?_, ?_⟩)) _
  · intro t ht
    rw [Finset.mem_filter, structAt_new] at ht
    rw [Finset.mem_filter]
    refine ⟨ht.1, ?_⟩
    by_cases heq : t = s
    · rw [heq]
      exact hnew
    · rw [← ht.2, if_neg heq]
  · rw [Finset.mem_filter]
    exact ⟨Finset.mem_univ s, hnew⟩
  · rw [Finset.mem_filter, structAt_new, if_pos rfl]
    exact fun hmem => Option.some_ne_none i hmem.2

omit [DecidableEq S] [DecidableEq A] [Fintype S] [Fintype A] in
theorem nodup_of_fields (hok : Ok P h) {vis : List ℕ}
    (hvis : vis.map some = (P.struct s).fields.map (varAt P h s)) : vis.Nodup := by
  refine List.Nodup.of_map some ?_
  rw [hvis]
  refine List.Nodup.map_on (fun var hv var' hv' heq => ?_) (P.nodup s).of_map
  have hmem : varAt P h s var ∈ vis.map some := by
    rw [hvis]
    exact List.mem_map_of_mem hv
  obtain ⟨a, -, ha⟩ := List.mem_map.mp hmem
  obtain ⟨-, hname⟩ := hok.viInj s s var hv var' hv' a ha.symm (heq ▸ ha.symm)
  exact List.inj_on_of_nodup_map (P.nodup s) hv hv' hname

theorem isGcField_of_fields {vis : List ℕ}
    (hvis : vis.map some = (P.struct s).fields.map (varAt P h s))
    (hmarked : ∀ var ∈ (P.struct s).fields, Marked P h s var) (i : ℕ) :
    isGcField vis h.varInfos i = (P.struct s).fields[i]?.any fun var => isGcType P var.type := by
  have hi : vis[i]?.map some = (P.struct s).fields[i]?.map (varAt P h s) := by
    rw [← List.getElem?_map, hvis, List.getElem?_map]
  rw [isGcField]
  cases hvar : (P.struct s).fields[i]? with
  | none =>
    rw [hvar, Option.map_none, Option.map_eq_none_iff] at hi
    rw [hi]
    rfl
  | some var =>
    rw [hvar, Option.map_some, Option.map_eq_some_iff] at hi
    obtain ⟨a, ha, hat⟩ := hi
    obtain ⟨vi, hvi, hgc⟩ := hmarked var (List.mem_of_getElem? hvar) a hat.symm
    rw [ha, Option.bind_some, hvi, Option.any_some, Option.any_some, hgc]

theorem linkFields_structure (hok : Ok P h) {sti : StructInfo}
    (hvis : sti.fields.map some = (P.struct s).fields.map (varAt P h s))
    (hmarked : ∀ var ∈ (P.struct s).fields, Marked P h s var)
    (hcount : sti.count = (P.struct s).fields.length) {gcf : BitVec 32}
    (hgcf : P.gcFlags (ofStructure s) = some gcf) (isClass isLambda : Bool)
    (hflags : sti.flags = (flagIf isClass StructFlags.flag_class |||
      flagIf isLambda StructFlags.flag_lambda |||
      flagIf (Has gcFlag_heap gcf) StructFlags.flag_heapGC |||
      flagIf (Has gcFlag_stringHeap gcf) StructFlags.flag_stringHeapGC)) :
    Relinked sti.fields h.varInfos (linkFields sti h.varInfos).2 ∧
      walkFields { sti with firstGcField := (linkFields sti h.varInfos).1 }
        (linkFields sti h.varInfos).2 (sti.count + 1) (linkFields sti h.varInfos).1 =
          some (gcFields P s) ∧
      ∀ t, t ≠ s → ∀ var ∈ (P.struct t).fields, ∀ a, varAt P h t var = some a →
        (linkFields sti h.varInfos).2[a]? = h.varInfos[a]? := by
  have howned : ∀ a ∈ sti.fields, ∃ var ∈ (P.struct s).fields, varAt P h s var = some a := by
    intro a ha
    have hmem : some a ∈ (P.struct s).fields.map (varAt P h s) := hvis ▸ List.mem_map_of_mem ha
    obtain ⟨var, hv, hat⟩ := List.mem_map.mp hmem
    exact ⟨var, hv, hat⟩
  have hbound : ∀ a ∈ sti.fields, a < h.varInfos.length := by
    intro a ha
    obtain ⟨var, hv, hat⟩ := howned a ha
    exact hok.vi s var hv a hat
  have hgc := isGcField_of_fields hvis hmarked
  have hstruct : (∃ i, isGcField sti.fields h.varInfos i = true) →
      Has (StructFlags.flag_heapGC ||| StructFlags.flag_stringHeapGC) sti.flags := by
    rintro ⟨i, hi⟩
    rw [hgc] at hi
    cases hvar : (P.struct s).fields[i]? with
    | none =>
      rw [hvar] at hi
      exact absurd hi Bool.false_ne_true
    | some var =>
      rw [hvar, Option.any_some] at hi
      exact has_structFlags (has_ofStructure
        (List.mem_map_of_mem (List.mem_of_getElem? hvar)) hi hgcf) _ _ hflags
  have hlength : sti.count = sti.fields.length := by
    have hlen := congrArg List.length hvis
    rw [List.length_map, List.length_map] at hlen
    exact hcount.trans hlen.symm
  obtain ⟨hrelinked, hwalk⟩ :=
    linkFields_spec hlength (nodup_of_fields hok hvis) hbound hstruct
  refine ⟨hrelinked, ?_, fun t ht var hv a hat => hrelinked.other a fun ha => ht ?_⟩
  · rw [hwalk, gcFields, hcount]
    exact congrArg some (List.filter_congr fun i _ => hgc i)
  · obtain ⟨var', hv', hat'⟩ := howned a ha
    exact (hok.viInj t s var hv var' hv' a hat hat').1

theorem runs_structure {make : Request S → Make ℕ}
    (hmake : ∀ request, Runs P mangledName n (fun _ => True) (make request)) (hok : Ok P h)
    (hn : missing P mangledName h < n + 1) (hnew : structAt P h s = none) :
    ∃ r h', makeStructureDebugInfo P mangledName make s h = some (r, h') ∧ Ok P h' ∧
      Ext P Nothing h h' ∧ structAt P h' s = some r := by
  obtain ⟨gcf, hgcf⟩ := gcFlags_some P (ofStructure s)
  set flags : BitVec 32 := flagIf (P.struct s).isClass StructFlags.flag_class |||
    flagIf (P.struct s).isLambda StructFlags.flag_lambda |||
    flagIf (Has gcFlag_heap gcf) StructFlags.flag_heapGC |||
    flagIf (Has gcFlag_stringHeap gcf) StructFlags.flag_stringHeapGC with hflags
  set count := (P.struct s).fields.length with hcount
  -- the node is known before the fields are
  set h₂ : Helper := { h with
    structInfos := (h.structInfos ++ [({} : StructInfo)]).set h.structInfos.length { flags, count }
    smn2s := ((P.struct s).getMangledName, h.structInfos.length) :: h.smn2s } with hh₂
  have hok₂ : Ok P h₂ := hok.of_structure _
  have hat₂ : ∀ t, structAt P h₂ t = if t = s then some h.structInfos.length else structAt P h t :=
    fun t => structAt_new t _
  have hs₂ : structAt P h₂ s = some h.structInfos.length := (hat₂ s).trans (if_pos rfl)
  have hs₂' : structAt P h₂ s ≠ none := by
    rw [hs₂]
    exact Option.some_ne_none _
  have hnone : ∀ var ∈ (P.struct s).fields, varAt P h₂ s var = none := by
    intro var hv
    by_contra hne
    exact hok.owner s var hv hne hnew
  obtain ⟨vis, h₃, hrun, hok₃, he₃, hvis, hmarked, hnews⟩ := runs_makeFields hmake
    (fun var hv => hv) (P.nodup s) hok₂
    ((missing_structure hnew _ _).trans_le (Nat.le_of_lt_succ hn)) hs₂' hnone
  -- the links are put into nodes of this structure
  set sti : StructInfo := { flags, count, fields := vis } with hsti
  obtain ⟨hrelinked, hwalk, hother⟩ :=
    @linkFields_structure _ _ _ _ _ _ P h₃ s hok₃ sti hvis hmarked rfl gcf hgcf _ _ hflags
  have hexcept : ∀ t, t ≠ s → ∀ var ∈ (P.struct t).fields,
      ¬ ∃ var' ∈ (P.struct s).fields, fieldName P t var = fieldName P s var' := by
    rintro t ht var hv ⟨var', hv', hname⟩
    exact ht (fieldName_inj P hv hv' hname).1
  have hold : ∀ t i, structAt P h t = some i → t ≠ s ∧ structAt P h₂ t = some i := by
    intro t i hi
    have ht : t ≠ s := by
      rintro rfl
      rw [hnew] at hi
      exact Option.some_ne_none i hi.symm
    exact ⟨ht, by rw [hat₂, if_neg ht, hi]⟩
  set h₄ : Helper := { h₃ with
    structInfos := h₃.structInfos.set h.structInfos.length
      { sti with firstGcField := (linkFields sti h₃.varInfos).1 }
    varInfos := (linkFields sti h₃.varInfos).2 } with hh₄
  have hs₃ : structAt P h₃ s = some h.structInfos.length := he₃.structs s _ hs₂
  have hkept : ∀ t i, t ≠ s → structAt P h₃ t = some i →
      h₄.structInfos[i]? = h₃.structInfos[i]? := by
    intro t i ht hi
    refine List.getElem?_set_ne fun heq => ht ?_
    exact hok₃.stiInj t s i hi (heq ▸ hs₃)
  refine ⟨h.structInfos.length, h₄, ?_, ?_, ⟨?_, ?_, ?_, ?_, ?_, ?_, ?_, ?_⟩, hs₃⟩
  · rw [makeStructureDebugInfo]
    have hlookup : h.smn2s.lookup (P.struct s).getMangledName = none := hnew
    rw [hlookup]
    show ((liftM (P.gcFlags (ofStructure s)) : Make (BitVec 32)) _).bind (fun p => _) = _
    rw [hgcf]
    show ((makeFields P mangledName make s (P.struct s).fields h₂).bind fun p => _) = _
    rw [hrun]
    rfl
  · exact ⟨fun t i hi => (hok₃.sti t i hi).trans_eq (List.length_set ..).symm, hok₃.stiInj,
      fun t var hv a ha => (hok₃.vi t var hv a ha).trans_eq hrelinked.length.symm, hok₃.viInj,
      hok₃.owner⟩
  · exact fun t i hi => he₃.structs t i (hold t i hi).2
  · exact he₃.types
  · exact he₃.length.trans hrelinked.length.ge
  · intro t i hi
    rw [hkept t i (hold t i hi).1 (he₃.structs t i (hold t i hi).2), he₃.sti t i (hold t i hi).2]
    have hbelow := hok.sti t i hi
    rw [List.getElem?_set_ne (ne_of_gt hbelow), List.getElem?_append_left hbelow]
  · intro t ht var hv _
    obtain ⟨i, hi⟩ := Option.ne_none_iff_exists'.mp ht
    refine he₃.var t ?_ var hv (hexcept t (hold t i hi).1 var hv)
    rw [(hold t i hi).2]
    exact Option.some_ne_none i
  · intro t var hv _ a ha
    obtain ⟨i, hi⟩ := Option.ne_none_iff_exists'.mp (hok.owner t var hv (by
      rw [ha]
      exact Option.some_ne_none a))
    have ht := (hold t i hi).1
    have hat : varAt P h₃ t var = some a := by
      rw [he₃.var t _ var hv (hexcept t ht var hv)]
      · exact ha
      · rw [(hold t i hi).2]
        exact Option.some_ne_none i
    exact (hother t ht var hv a hat).trans (he₃.vi t var hv (hexcept t ht var hv) a ha)
  · intro t var hv _ a ha
    by_cases ht : t = s
    · subst ht
      refine .inr (hnews a ?_)
      have hmem : some a ∈ vis.map some := by
        rw [hvis]
        exact List.mem_map.mpr ⟨var, hv, ha⟩
      obtain ⟨b, hb, hba⟩ := List.mem_map.mp hmem
      exact Option.some.inj hba ▸ hb
    · exact he₃.fresh t var hv (hexcept t ht var hv) a ha
  · intro t i hnone' hsome
    have hsome₃ : structAt P h₃ t = some i := hsome
    by_cases ht : t = s
    · subst ht
      obtain rfl : h.structInfos.length = i := Option.some.inj (hs₃.symm.trans hsome₃)
      refine ⟨_, List.getElem?_set_self ?_, rfl, hvis, ?_⟩
      · exact hok₃.sti t _ hs₃
      · exact hwalk
    · obtain ⟨sti', hc⟩ := he₃.new t i (by rw [hat₂, if_neg ht, hnone']) hsome₃
      exact ⟨sti', hc.of_eq (hkept t i ht hsome₃) (fun _ _ => rfl) fun var hv a ha =>
        hother t ht var hv a ha⟩

/-! ## All of it -/

theorem runs_makeStructureDebugInfo {make : Request S → Make ℕ}
    (hmake : ∀ request, Runs P mangledName n (fun _ => True) (make request)) (hok : Ok P h)
    (hn : missing P mangledName h < n + 1) (s : S) :
    ∃ r h', makeStructureDebugInfo P mangledName make s h = some (r, h') ∧ Ok P h' ∧
      Ext P Nothing h h' ∧ structAt P h' s = some r := by
  cases hat : structAt P h s with
  | none => exact runs_structure hmake hok hn hat
  | some r =>
    refine ⟨r, h, ?_, hok, .refl P, hat⟩
    rw [makeStructureDebugInfo]
    have hlookup : h.smn2s.lookup (P.struct s).getMangledName = some r := hat
    rw [hlookup]

omit [DecidableEq S] [DecidableEq A] [Fintype A] in
theorem missing_parent {p : S} (hnew : h.tmn2t.lookup (mangledName (ofStructure p)) = none)
    (typeInfos : List TypeInfo) (i : ℕ) :
    missing P mangledName
      { h with typeInfos, tmn2t := (mangledName (ofStructure p), i) :: h.tmn2t } <
      missing P mangledName h := by
  refine Nat.add_lt_add_left (Finset.card_lt_card (Finset.ssubset_iff_of_subset ?_ |>.mpr
    ⟨p, ?_, ?_⟩)) _
  · intro t ht
    rw [Finset.mem_filter] at ht ⊢
    exact ⟨ht.1, by_contra fun hne => lookup_cons_ne_none hne ht.2⟩
  · rw [Finset.mem_filter]
    exact ⟨Finset.mem_univ p, hnew⟩
  · rw [Finset.mem_filter, List.lookup_cons, beq_self_eq_true]
    exact fun hmem => Option.some_ne_none i hmem.2

theorem runs_make (fuel : ℕ) (request : Request S) :
    Runs P mangledName fuel (fun _ => True) (make P mangledName fuel request) := by
  induction fuel generalizing request with
  | zero => exact fun h _ hn => absurd hn (Nat.not_lt_zero _)
  | succ fuel ih =>
    intro h hok hn
    cases request with
    | struct s =>
      obtain ⟨r, h', hrun, hok', he, -⟩ := runs_makeStructureDebugInfo ih hok hn s
      exact ⟨r, h', hrun, hok', he, trivial⟩
    | parent p =>
      rw [make, makeTypeInfo]
      cases hcached : h.tmn2t.lookup (mangledName (ofStructure p)) with
      | some info => exact ⟨info, h, by rw [makeNamed, hcached], hok, .refl P, trivial⟩
      | none =>
        obtain ⟨r, h', hrun, hok', he⟩ := runs_new (runs_fillTypeInfo ih (ofStructure p)
          (ofStructure p)) hok hcached fun tmn2t htmn2t => by
            rw [htmn2t]
            exact (missing_parent hcached _ _).trans_le (Nat.le_of_lt_succ hn)
        exact ⟨r, h', hrun, hok', he, trivial⟩

/-- All structures are complete. -/
def AllComplete (P : Program S A) (h : Helper) : Prop :=
  ∀ s i, structAt P h s = some i → ∃ sti, Complete P h s i sti

theorem AllComplete.ext (hall : AllComplete P h) (he : Ext P Nothing h h') :
    AllComplete P h' := by
  intro s i hi
  cases hs : structAt P h s with
  | none => exact he.new s i hs hi
  | some j =>
    obtain rfl : j = i := Option.some.inj ((he.structs s j hs).symm.trans hi)
    obtain ⟨sti, hc⟩ := hall s j hs
    refine ⟨sti, hc.of_eq (he.sti s j hs) (fun var hv => ?_) fun var hv a ha =>
      he.vi s var hv id a ha⟩
    refine he.var s ?_ var hv id
    rw [hs]
    exact Option.some_ne_none j

theorem makeAll_spec {fuel : ℕ} (entries : List (S ⊕ TypeDecl S A)) (hok : Ok P h)
    (hall : AllComplete P h) (hfuel : missing P mangledName h < fuel) :
    ∃ h', makeAll P mangledName fuel entries h = some ((), h') ∧ AllComplete P h' ∧
      Ext P Nothing h h' ∧ ∀ s, .inl s ∈ entries → structAt P h' s ≠ none := by
  induction entries generalizing h with
  | nil => exact ⟨h, rfl, hall, .refl P, by simp⟩
  | cons entry entries ih =>
    cases entry with
    | inl s =>
      obtain ⟨r, h₁, hrun, hok₁, he₁, hs⟩ := runs_makeStructureDebugInfo
        (fun request => runs_make fuel request) hok (hfuel.trans (Nat.lt_succ_self _)) s
      obtain ⟨h₂, hrest, hall₂, he₂, hmade⟩ :=
        ih hok₁ (hall.ext he₁) (he₁.missing_le.trans_lt hfuel)
      refine ⟨h₂, ?_, hall₂, he₁.trans hok he₂ fun _ _ _ _ => id, fun t ht => ?_⟩
      · rw [makeAll]
        show ((makeStructureDebugInfo P mangledName (make P mangledName fuel) s h).bind
          fun p => makeAll P mangledName fuel entries p.2) = _
        rw [hrun]
        exact hrest
      · rcases List.mem_cons.mp ht with ht | ht
        · obtain rfl := Sum.inl.inj ht
          refine he₂.ne_none ?_
          rw [hs]
          exact Option.some_ne_none r
        · exact hmade t ht
    | inr type =>
      obtain ⟨r, h₁, hrun, hok₁, he₁, -⟩ :=
        runs_makeTypeInfo (fun request => runs_make fuel request) type h hok hfuel
      obtain ⟨h₂, hrest, hall₂, he₂, hmade⟩ :=
        ih hok₁ (hall.ext he₁) (he₁.missing_le.trans_lt hfuel)
      refine ⟨h₂, ?_, hall₂, he₁.trans hok he₂ fun _ _ _ _ => id, fun t ht => ?_⟩
      · rw [makeAll]
        show ((makeTypeInfo P mangledName (make P mangledName fuel) type h).bind
          fun p => makeAll P mangledName fuel entries p.2) = _
        rw [hrun]
        exact hrest
      · rcases List.mem_cons.mp ht with ht | ht
        · exact absurd ht (by simp)
        · exact hmade t ht

theorem mem_gcFields {s : S} {i : ℕ} : i ∈ gcFields P s ↔
    ∃ field, (P.struct s).fields[i]? = some field ∧ ∃ gcf, P.gcFlags field.type = some gcf ∧
      (Has gcFlag_heap gcf ∨ Has gcFlag_stringHeap gcf) := by
  rw [gcFields, List.mem_filter, List.mem_range, Option.any_eq_true]
  constructor
  · rintro ⟨-, field, hfield, hgc⟩
    obtain ⟨gcf, hgcf⟩ := gcFlags_some P field.type
    rw [isGcType, hgcf, Option.any_some] at hgc
    exact ⟨field, hfield, gcf, hgcf, has_union.mp (of_decide_eq_true hgc)⟩
  · rintro ⟨field, hfield, gcf, hgcf, hhas⟩
    refine ⟨(List.getElem?_eq_some_iff.mp hfield).1, field, hfield, ?_⟩
    rw [isGcType, hgcf, Option.any_some]
    exact decide_eq_true (has_union.mpr hhas)

theorem eq_of_has {gcf gcf' : BitVec 32} (h : ∀ mask, Has mask gcf ↔ Has mask gcf') :
    gcf = gcf' := by
  refine BitVec.eq_of_getLsbD_eq fun i hlt => ?_
  have hpow : BitVec.twoPow 32 i ≠ 0 := by
    intro hzero
    have hbit := congrArg (BitVec.getLsbD · i) hzero
    simp [hlt] at hbit
  have hi := h (BitVec.twoPow 32 i)
  rw [Has, Has, BitVec.and_twoPow, BitVec.and_twoPow] at hi
  cases hgcf : gcf.getLsbD i <;> cases hgcf' : gcf'.getLsbD i <;> simp [hgcf, hgcf'] at hi ⊢
  · exact hpow hi
  · exact hpow hi

/-- **What the collector goes by is complete.**  The flags of a type are there for whatever a value
of it can reach, and the chain of a structure's fields visits those that have any, each once. -/
theorem gcSummaries_complete (P : Program S A) (mangledName : TypeDecl S A → String) :
    (∀ type, ∃ gcf, (∀ fuel > Fintype.card (Node S A), P.gcFlagsIn fuel type = some gcf) ∧
      (P.MayHold gcFlag_heap type → Has gcFlag_heap gcf) ∧
      (P.MayHold gcFlag_stringHeap type → Has gcFlag_stringHeap gcf)) ∧
    ∀ entries, ∀ fuel > 2 * Fintype.card S,
      ∃ h, makeAll P mangledName fuel entries {} = some ((), h) ∧
        (∀ s, .inl s ∈ entries → structAt P h s ≠ none) ∧
        ∀ s i, structAt P h s = some i → ∃ sti visited, h.structInfos[i]? = some sti ∧
          sti.count = (P.struct s).fields.length ∧
          walkFields sti h.varInfos (sti.count + 1) sti.firstGcField = some visited ∧
          visited.Pairwise (· < ·) ∧
          ∀ j, j ∈ visited ↔ ∃ field, (P.struct s).fields[j]? = some field ∧
            ∃ gcf, P.gcFlags field.type = some gcf ∧
              (Has gcFlag_heap gcf ∨ Has gcFlag_stringHeap gcf) := by
  refine ⟨fun type => ?_, fun entries fuel hfuel => ?_⟩
  · obtain ⟨gcf, hgcf⟩ := gcFlags_some P type
    refine ⟨gcf, fun fuel hfuel => ?_, (has_gcFlags hgcf).mpr, (has_gcFlags hgcf).mpr⟩
    obtain ⟨gcf', hgcf', -⟩ : ∃ gcf, P.gcFlagsIn fuel type = some gcf ∧ (Has 0 gcf ↔ _) :=
      P.gcFlagsIn_spec hfuel type
    rw [hgcf', Option.some.injEq]
    refine eq_of_has fun mask => ?_
    obtain ⟨last, hlast, hhas⟩ : ∃ gcf, P.gcFlagsIn fuel type = some gcf ∧ (Has mask gcf ↔ _) :=
      P.gcFlagsIn_spec hfuel type
    obtain rfl : gcf' = last := Option.some.inj (hgcf'.symm.trans hlast)
    exact hhas.trans (has_gcFlags hgcf).symm
  · have hempty : ∀ s, structAt P ({} : Helper) s = none := fun s => rfl
    have hok : Ok P {} :=
      ⟨fun s i hi => by simp [hempty] at hi, fun s s' i hi => by simp [hempty] at hi,
        fun s var _ a ha => by simp [varAt] at ha,
        fun s s' var _ var' _ a ha => by simp [varAt] at ha,
        fun s var _ hne => absurd rfl hne⟩
    have hmissing : missing P mangledName {} < fuel := by
      refine lt_of_le_of_lt (Nat.add_le_add (Finset.card_le_univ _) (Finset.card_le_univ _)) ?_
      omega
    obtain ⟨h, hrun, hall, -, hmade⟩ :=
      makeAll_spec entries hok (fun s i hi => by simp [hempty] at hi) hmissing
    refine ⟨h, hrun, hmade, fun s i hi => ?_⟩
    obtain ⟨sti, hc⟩ := hall s i hi
    exact ⟨sti, gcFields P s, hc.node, hc.count, hc.walk,
      List.Pairwise.filter _ List.pairwise_lt_range, fun j => mem_gcFields⟩

end DaScript.DebugInfo

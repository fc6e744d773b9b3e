import DaScript.Ast.GcFlagsExact
import DaScript.Ast.DebugInfoChain

/-!
# Ast/DebugInfoFrame — nodes that are made stay as they are

A structure that is being made is known already, and others are made meanwhile.  What each of them
owns (its own node, and those of its fields) is left alone by the rest, and a structure that is
made meanwhile is complete when the call for it returns.
-/

namespace DaScript.DebugInfo

open GcFlags

variable {S A : Type} [DecidableEq S] [DecidableEq A] [Fintype S] [Fintype A] (P : Program S A)

/-! ## Names -/

/-- The node of a structure. -/
def structAt (h : Helper) (s : S) : Option ℕ := h.smn2s.lookup (P.struct s).getMangledName

/-- The node of a field. -/
def varAt (h : Helper) (s : S) (var : Field S A) : Option ℕ := h.vmn2v.lookup (fieldName P s var)

theorem append_cons_inj {α : Type} {c : α} {l l' r r' : List α} (hl : c ∉ l) (hl' : c ∉ l')
    (h : l ++ c :: r = l' ++ c :: r') : l = l' ∧ r = r' := by
  induction l generalizing l' with
  | nil =>
    cases l' with
    | nil => exact ⟨rfl, (List.cons.inj h).2⟩
    | cons x l' => exact absurd (List.mem_cons.mpr (.inl (List.cons.inj h).1)) hl'
  | cons x l ih =>
    cases l' with
    | nil => exact absurd (List.mem_cons.mpr (.inl (List.cons.inj h).1.symm)) hl
    | cons x' l' =>
      obtain ⟨rfl, htail⟩ := List.cons.inj h
      obtain ⟨rfl, hr⟩ := ih (fun hm => hl (List.mem_cons_of_mem _ hm))
        (fun hm => hl' (List.mem_cons_of_mem _ hm)) htail
      exact ⟨rfl, hr⟩

theorem append_field_inj {a a' b b' : String} (hb : ' ' ∉ b.toList) (hb' : ' ' ∉ b'.toList)
    (h : a ++ " field " ++ b = a' ++ " field " ++ b') : a = a' ∧ b = b' := by
  have hlist : b.toList.reverse ++ ' ' :: (a ++ " field").toList.reverse =
      b'.toList.reverse ++ ' ' :: (a' ++ " field").toList.reverse := by
    have heq := congrArg (fun s => s.toList.reverse) h
    simpa using heq
  obtain ⟨hname, hstruct⟩ := append_cons_inj (fun hm => hb (List.mem_reverse.mp hm))
    (fun hm => hb' (List.mem_reverse.mp hm)) hlist
  refine ⟨String.toList_inj.mp ?_, String.toList_inj.mp (List.reverse_injective hname)⟩
  have hfield := List.reverse_injective hstruct
  rw [String.toList_append, String.toList_append] at hfield
  exact List.append_cancel_right hfield

omit [DecidableEq S] [DecidableEq A] [Fintype S] [Fintype A] in
theorem fieldName_inj {s s' : S} {var var' : Field S A} (hvar : var ∈ (P.struct s).fields)
    (hvar' : var' ∈ (P.struct s').fields) (h : fieldName P s var = fieldName P s' var') :
    s = s' ∧ var.name = var'.name := by
  obtain ⟨hs, hname⟩ := append_field_inj (P.noSpace s var hvar) (P.noSpace s' var' hvar') h
  exact ⟨P.injective s s' hs, hname⟩

/-- Whether the collector has to look at a type. -/
def isGcType (type : TypeDecl S A) : Bool :=
  (P.gcFlags type).any fun gcf => decide (Has (gcFlag_heap ||| gcFlag_stringHeap) gcf)

/-- The fields of a structure that the collector has to look at. -/
def gcFields (s : S) : List ℕ :=
  (List.range (P.struct s).fields.length).filter fun i =>
    (P.struct s).fields[i]?.any fun var => isGcType P var.type

/-! ## What is owned -/

/-- **Nodes are owned by one**, a structure or a field of it. -/
structure Ok (h : Helper) : Prop where
  sti : ∀ s i, structAt P h s = some i → i < h.structInfos.length
  stiInj : ∀ s s' i, structAt P h s = some i → structAt P h s' = some i → s = s'
  vi : ∀ s, ∀ var ∈ (P.struct s).fields, ∀ a, varAt P h s var = some a → a < h.varInfos.length
  viInj : ∀ s s', ∀ var ∈ (P.struct s).fields, ∀ var' ∈ (P.struct s').fields, ∀ a,
    varAt P h s var = some a → varAt P h s' var' = some a → s = s' ∧ var.name = var'.name
  owner : ∀ s, ∀ var ∈ (P.struct s).fields, varAt P h s var ≠ none → structAt P h s ≠ none

/-- **A structure that is made**: with its chain. -/
structure Complete (h : Helper) (s : S) (i : ℕ) (sti : StructInfo) : Prop where
  node : h.structInfos[i]? = some sti
  count : sti.count = (P.struct s).fields.length
  fields : sti.fields.map some = (P.struct s).fields.map (varAt P h s)
  walk : walkFields sti h.varInfos (sti.count + 1) sti.firstGcField = some (gcFields P s)

/-- **One state after another**: what is owned stays, but for some names of fields, and what is
new is complete. -/
structure Ext (except : String → Prop) (h h' : Helper) : Prop where
  structs : ∀ s i, structAt P h s = some i → structAt P h' s = some i
  types : ∀ name, h.tmn2t.lookup name ≠ none → h'.tmn2t.lookup name ≠ none
  length : h.varInfos.length ≤ h'.varInfos.length
  sti : ∀ s i, structAt P h s = some i → h'.structInfos[i]? = h.structInfos[i]?
  var : ∀ s, structAt P h s ≠ none → ∀ var ∈ (P.struct s).fields, ¬ except (fieldName P s var) →
    varAt P h' s var = varAt P h s var
  vi : ∀ s, ∀ var ∈ (P.struct s).fields, ¬ except (fieldName P s var) → ∀ a,
    varAt P h s var = some a → h'.varInfos[a]? = h.varInfos[a]?
  fresh : ∀ s, ∀ var ∈ (P.struct s).fields, ¬ except (fieldName P s var) → ∀ a,
    varAt P h' s var = some a → varAt P h s var = some a ∨ h.varInfos.length ≤ a
  new : ∀ s i, structAt P h s = none → structAt P h' s = some i → ∃ sti, Complete P h' s i sti

variable {P} {except : String → Prop} {h h' h'' : Helper}

omit [DecidableEq S] [DecidableEq A] [Fintype S] [Fintype A] in
theorem walkFields_congr {sti : StructInfo} {varInfos varInfos' : List VarInfo}
    (heq : ∀ a ∈ sti.fields, varInfos'[a]? = varInfos[a]?) (fuel i : ℕ) :
    walkFields sti varInfos' fuel i = walkFields sti varInfos fuel i := by
  induction fuel generalizing i with
  | zero => rfl
  | succ fuel ih =>
    rw [walkFields_succ, walkFields_succ, nextOf, nextOf]
    cases hi : sti.fields[i]? with
    | none => rfl
    | some a =>
      rw [Option.bind_some, Option.bind_some, heq a (List.mem_of_getElem? hi)]
      simp only [ih]

theorem Complete.of_eq {s : S} {i : ℕ} {sti : StructInfo} (hc : Complete P h s i sti)
    (hsti : h'.structInfos[i]? = h.structInfos[i]?)
    (hvar : ∀ var ∈ (P.struct s).fields, varAt P h' s var = varAt P h s var)
    (hvi : ∀ var ∈ (P.struct s).fields, ∀ a, varAt P h s var = some a →
      h'.varInfos[a]? = h.varInfos[a]?) : Complete P h' s i sti := by
  refine ⟨hsti.trans hc.node, hc.count, ?_, ?_⟩
  · rw [hc.fields]
    exact List.map_congr_left fun var hv => (hvar var hv).symm
  · rw [walkFields_congr fun a ha => ?_, hc.walk]
    have hmem : some a ∈ (P.struct s).fields.map (varAt P h s) := by
      rw [← hc.fields]
      exact List.mem_map_of_mem ha
    obtain ⟨var, hv, hat⟩ := List.mem_map.mp hmem
    exact hvi var hv a hat

variable (P) in
theorem Ext.refl : Ext P except h h :=
  ⟨fun _ _ h => h, fun _ h => h, le_rfl, fun _ _ _ => rfl, fun _ _ _ _ _ => rfl,
    fun _ _ _ _ _ _ => rfl, fun _ _ _ _ _ h => .inl h, fun s i hnone hsome => by
      rw [hnone] at hsome
      exact absurd hsome (Option.some_ne_none i).symm⟩

theorem Ext.mono {except' : String → Prop} (he : Ext P except h h')
    (himp : ∀ name, except name → except' name) : Ext P except' h h' :=
  ⟨he.structs, he.types, he.length, he.sti,
    fun s hs var hv hn => he.var s hs var hv fun hex => hn (himp _ hex),
    fun s var hv hn => he.vi s var hv fun hex => hn (himp _ hex),
    fun s var hv hn => he.fresh s var hv fun hex => hn (himp _ hex), he.new⟩

theorem Ext.ne_none (he : Ext P except h h') {s : S} (hs : structAt P h s ≠ none) :
    structAt P h' s ≠ none := by
  obtain ⟨i, hi⟩ := Option.ne_none_iff_exists'.mp hs
  rw [he.structs s i hi]
  exact Option.some_ne_none i

theorem Ext.trans (hok : Ok P h) (he : Ext P except h h') (he' : Ext P except h' h'')
    (hexcept : ∀ s, structAt P h s = none → ∀ var ∈ (P.struct s).fields,
      ¬ except (fieldName P s var)) : Ext P except h h'' where
  structs s i hi := he'.structs s i (he.structs s i hi)
  types name hn := he'.types name (he.types name hn)
  length := he.length.trans he'.length
  sti s i hi := (he'.sti s i (he.structs s i hi)).trans (he.sti s i hi)
  var s hs var hv hn :=
    (he'.var s (he.ne_none hs) var hv hn).trans (he.var s hs var hv hn)
  vi s var hv hn a ha := by
    have hs : structAt P h s ≠ none := hok.owner s var hv (by rw [ha]; exact Option.some_ne_none a)
    have ha' : varAt P h' s var = some a := (he.var s hs var hv hn).trans ha
    exact (he'.vi s var hv hn a ha').trans (he.vi s var hv hn a ha)
  fresh s var hv hn a ha := by
    rcases he'.fresh s var hv hn a ha with ha' | ha'
    · exact he.fresh s var hv hn a ha'
    · exact .inr (he.length.trans ha')
  new s i hnone hsome := by
    cases hs : structAt P h' s with
    | none => exact he'.new s i hs hsome
    | some j =>
      have hj := he'.structs s j hs
      obtain rfl : j = i := Option.some.inj (hj.symm.trans hsome)
      obtain ⟨sti, hc⟩ := he.new s j hnone hs
      exact ⟨sti, hc.of_eq (he'.sti s j hs)
        (fun var hv => he'.var s (by rw [hs]; exact Option.some_ne_none j) var hv
          (hexcept s hnone var hv))
        fun var hv a ha => he'.vi s var hv (hexcept s hnone var hv) a ha⟩

end DaScript.DebugInfo

import DaScript.Ast.DebugInfo
import Mathlib.Data.List.Range

/-!
# Ast/DebugInfoChain — the links are those of the marked fields

The chain is put together in one pass: what is marked is linked to what was marked last, and the
last one to the end.
-/

namespace DaScript.DebugInfo

open GcFlags

variable {fields : List ℕ} {varInfos : List VarInfo}

/-- The link of a field. -/
def nextOf (fields : List ℕ) (varInfos : List VarInfo) (i : ℕ) : Option ℕ :=
  (fields[i]?.bind fun at' => varInfos[at']?).map VarInfo.nextGcField

/-- A field is marked. -/
def isGcField (fields : List ℕ) (varInfos : List VarInfo) (i : ℕ) : Bool :=
  (fields[i]?.bind fun at' => varInfos[at']?).any VarInfo.isGc

theorem walkFields_succ (sti : StructInfo) (varInfos : List VarInfo) (fuel i : ℕ) :
    walkFields sti varInfos (fuel + 1) i =
      if i = sti.count then some []
      else (nextOf sti.fields varInfos i).bind fun next =>
        (walkFields sti varInfos fuel next).map (i :: ·) := by
  rw [walkFields, nextOf]
  cases sti.fields[i]?.bind fun at' => varInfos[at']? with
  | none => rfl
  | some vi =>
    simp only [Option.bind_eq_bind, Option.bind_some, Option.map_some]
    cases walkFields sti varInfos fuel vi.nextGcField <;> rfl

/-! ## One link -/

/-- **Links apart nothing changes**, and those only in the nodes of the fields. -/
structure Relinked (fields : List ℕ) (varInfos varInfos' : List VarInfo) : Prop where
  length : varInfos'.length = varInfos.length
  other : ∀ at' ∉ fields, varInfos'[at']? = varInfos[at']?
  isGc : ∀ i, isGcField fields varInfos' i = isGcField fields varInfos i

theorem Relinked.refl : Relinked fields varInfos varInfos :=
  ⟨rfl, fun _ _ => rfl, fun _ => rfl⟩

theorem Relinked.trans {varInfos' varInfos'' : List VarInfo}
    (h : Relinked fields varInfos varInfos') (h' : Relinked fields varInfos' varInfos'') :
    Relinked fields varInfos varInfos'' :=
  ⟨h'.length.trans h.length, fun at' hat => (h'.other at' hat).trans (h.other at' hat),
    fun i => (h'.isGc i).trans (h.isGc i)⟩

theorem relinked_setNext (prev i : ℕ) :
    Relinked fields varInfos (setNext fields prev i varInfos) := by
  rw [setNext]
  cases hprev : fields[prev]? with
  | none => exact .refl
  | some at' =>
    refine ⟨by simp, fun a ha => ?_, fun j => ?_⟩
    · have hne : at' ≠ a := fun h => ha (h ▸ List.mem_of_getElem? hprev)
      simp [hne]
    · rw [isGcField, isGcField]
      cases fields[j]? with
      | none => rfl
      | some a =>
        simp only [Option.bind_some, List.getElem?_modify]
        by_cases ha : at' = a <;> cases varInfos[a]? <;> simp [ha, VarInfo.isGc]

theorem nextOf_setNext (hnodup : fields.Nodup) (hbound : ∀ at' ∈ fields, at' < varInfos.length)
    {prev : ℕ} (hprev : prev < fields.length) (i j : ℕ) :
    nextOf fields (setNext fields prev i varInfos) j =
      if j = prev then some i else nextOf fields varInfos j := by
  rw [setNext, List.getElem?_eq_getElem hprev, nextOf, nextOf]
  dsimp only
  by_cases hj : j < fields.length
  · have hat : fields[j] < varInfos.length := hbound _ (List.getElem_mem hj)
    rw [List.getElem?_eq_getElem hj, Option.bind_some, Option.bind_some, List.getElem?_modify,
      List.getElem?_eq_getElem hat]
    by_cases heq : j = prev
    · subst heq
      simp
    · have hne : fields[prev] ≠ fields[j] := fun h =>
        heq ((List.Nodup.getElem_inj_iff hnodup).mp h).symm
      simp [heq, hne]
  · have heq : j ≠ prev := by omega
    simp [List.getElem?_eq_none (Nat.le_of_not_lt hj), heq]

/-! ## The pass -/

/-- A marked field in the loop. -/
def Chain.linkGc (fields : List ℕ) (c : Chain) (i : ℕ) : Chain :=
  match c.prev with
  | none => { c with firstGcField := i, prev := some i }
  | some prev => { c with varInfos := setNext fields prev i c.varInfos, prev := some i }

theorem relinked_linkGc (c : Chain) (i : ℕ) :
    Relinked fields c.varInfos (c.linkGc fields i).varInfos := by
  rw [Chain.linkGc]
  cases c.prev with
  | none => exact .refl
  | some prev => exact relinked_setNext prev i

theorem foldl_link {l : List ℕ} {c : Chain} (h : Relinked fields varInfos c.varInfos) :
    l.foldl (Chain.link fields) c =
      (l.filter (isGcField fields varInfos)).foldl (Chain.linkGc fields) c := by
  induction l generalizing c with
  | nil => rfl
  | cons i l ih =>
    rw [List.foldl_cons, List.filter_cons, ← h.isGc i, isGcField, Chain.link]
    cases fields[i]?.bind fun at' => c.varInfos[at']? with
    | none =>
      rw [ih h]
      rfl
    | some vi =>
      rw [Option.any_some]
      by_cases hgc : vi.isGc = true
      · rw [if_pos hgc, List.foldl_cons]
        dsimp only
        rw [if_pos hgc]
        exact ih (h.trans (relinked_linkGc c i))
      · rw [if_neg hgc]
        dsimp only
        rw [if_neg hgc]
        exact ih h

theorem relinked_foldl {l : List ℕ} {c : Chain} (h : Relinked fields varInfos c.varInfos) :
    Relinked fields varInfos (l.foldl (Chain.linkGc fields) c).varInfos := by
  induction l generalizing c with
  | nil => exact h
  | cons i l ih => exact ih (h.trans (relinked_linkGc c i))

theorem relinked_finish {c : Chain} (h : Relinked fields varInfos c.varInfos) (count : ℕ) :
    Relinked fields varInfos (c.finish fields count) := by
  rw [Chain.finish]
  cases c.prev with
  | none => exact h
  | some prev => exact h.trans (relinked_setNext prev count)

theorem walk_foldl (sti : StructInfo) (hfields : sti.fields = fields)
    (hcount : sti.count = fields.length) (hnodup : fields.Nodup) {l : List ℕ} {prev : ℕ}
    (first : ℕ) {varInfos : List VarInfo} (hbound : ∀ at' ∈ fields, at' < varInfos.length)
    (hprev : prev < fields.length) (hl : ∀ i ∈ l, i < fields.length) (hdistinct : (prev :: l).Nodup)
    {c : Chain} (hc : l.foldl (Chain.linkGc fields) ⟨varInfos, some prev, first⟩ = c) :
    c.firstGcField = first ∧
      (∀ i ∉ prev :: l, nextOf fields (c.finish fields sti.count) i = nextOf fields varInfos i) ∧
      ∀ fuel > l.length + 1,
        walkFields sti (c.finish fields sti.count) fuel prev = some (prev :: l) := by
  induction l generalizing prev varInfos with
  | nil =>
    subst hc
    have hnext := nextOf_setNext hnodup hbound hprev sti.count
    refine ⟨rfl, fun i hi => ?_, fun fuel hfuel => ?_⟩
    · exact (hnext i).trans (if_neg (by simpa using hi))
    · obtain ⟨fuel, rfl⟩ := Nat.exists_eq_add_of_lt hfuel
      rw [List.foldl_nil, Chain.finish, List.length_nil,
        show 0 + 1 + fuel + 1 = fuel + 1 + 1 by omega,
        walkFields_succ, if_neg (by omega), hfields, hnext, if_pos rfl, Option.bind_some,
        walkFields_succ, if_pos rfl]
      rfl
  | cons i l ih =>
    have hrelinked : Relinked fields varInfos (setNext fields prev i varInfos) :=
      relinked_setNext prev i
    have hi : i < fields.length := hl i List.mem_cons_self
    obtain ⟨hfirst, hkeep, hwalk⟩ := ih (fun a ha => hrelinked.length ▸ hbound a ha) hi
      (fun j hj => hl j (List.mem_cons_of_mem _ hj)) (List.nodup_cons.mp hdistinct).2 hc
    have hprevnot : prev ∉ i :: l := (List.nodup_cons.mp hdistinct).1
    have hnext := nextOf_setNext hnodup hbound hprev i
    refine ⟨hfirst, fun j hj => ?_, fun fuel hfuel => ?_⟩
    · rw [List.mem_cons, not_or] at hj
      rw [hkeep j hj.2, hnext, if_neg hj.1]
    · obtain ⟨fuel, rfl⟩ := Nat.exists_eq_add_of_lt hfuel
      rw [List.length_cons] at hfuel ⊢
      rw [walkFields_succ, if_neg (by omega), hfields, hkeep prev hprevnot, hnext, if_pos rfl,
        Option.bind_some, hwalk _ (by omega)]
      rfl

theorem linkFields_spec {sti : StructInfo} (hcount : sti.count = sti.fields.length)
    (hnodup : sti.fields.Nodup) (hbound : ∀ at' ∈ sti.fields, at' < varInfos.length)
    (hmarked : (∃ i, isGcField sti.fields varInfos i = true) →
      Has (StructFlags.flag_heapGC ||| StructFlags.flag_stringHeapGC) sti.flags) :
    Relinked sti.fields varInfos (linkFields sti varInfos).2 ∧
      walkFields { sti with firstGcField := (linkFields sti varInfos).1 }
        (linkFields sti varInfos).2 (sti.count + 1) (linkFields sti varInfos).1 =
          some ((List.range sti.count).filter (isGcField sti.fields varInfos)) := by
  have hbelow : ∀ i ∈ (List.range sti.count).filter (isGcField sti.fields varInfos),
      i < sti.fields.length ∧ isGcField sti.fields varInfos i = true := by
    intro i hi
    rw [List.mem_filter, List.mem_range, hcount] at hi
    exact hi
  have hempty : (List.range sti.count).filter (isGcField sti.fields varInfos) = [] →
      walkFields { sti with firstGcField := sti.count } varInfos (sti.count + 1) sti.count =
        some ((List.range sti.count).filter (isGcField sti.fields varInfos)) := by
    intro hnil
    rw [walkFields_succ, if_pos rfl, hnil]
  have hlength : ((List.range sti.count).filter (isGcField sti.fields varInfos)).length ≤
      sti.count := by
    simpa using List.length_filter_le (isGcField sti.fields varInfos) (List.range sti.count)
  have hdistinct : ((List.range sti.count).filter (isGcField sti.fields varInfos)).Nodup :=
    List.Nodup.filter _ List.nodup_range
  have hrelinked : Relinked sti.fields varInfos (Chain.mk varInfos none sti.count).varInfos := .refl
  by_cases hflags : sti.count ≠ 0 ∧
      Has (StructFlags.flag_heapGC ||| StructFlags.flag_stringHeapGC) sti.flags
  · rw [linkFields, if_pos hflags, foldl_link hrelinked]
    dsimp only
    refine ⟨relinked_finish (relinked_foldl hrelinked) _, ?_⟩
    cases hl : (List.range sti.count).filter (isGcField sti.fields varInfos) with
    | nil =>
      rw [hl] at hempty
      exact hempty rfl
    | cons i l =>
      rw [hl] at hbelow hlength hdistinct
      obtain ⟨hfirst, -, hwalk⟩ := walk_foldl { sti with firstGcField := i } rfl hcount
        hnodup i hbound (hbelow i List.mem_cons_self).1
        (fun j hj => (hbelow j (List.mem_cons_of_mem _ hj)).1) hdistinct rfl
      rw [List.foldl_cons, Chain.linkGc]
      dsimp only
      rw [hfirst]
      exact hwalk _ (Nat.lt_succ_of_le hlength)
  · have hnone : (List.range sti.count).filter (isGcField sti.fields varInfos) = [] := by
      rw [List.filter_eq_nil_iff]
      intro i hi hgc
      exact hflags ⟨Nat.ne_zero_of_lt (List.mem_range.mp hi), hmarked ⟨i, hgc⟩⟩
    rw [linkFields, if_neg hflags]
    exact ⟨.refl, hempty hnone⟩

end DaScript.DebugInfo

import DaScript.Ast.GcFlags

/-!
# Ast/GcFlagsExact — the flags are those of what can be reached

What has been entered is closed under references when the search is over, and the flags cover it;
zero for what was entered before loses nothing, as its flags are in the same union.
-/

namespace DaScript.GcFlags

namespace Program

variable {S A : Type} (P : Program S A) (mask : BitVec 32)

/-- **Covered**: a type whose flags are there, with its parts; structures have been entered. -/
inductive Covered (gcf : BitVec 32) (dep : List (Node S A)) : TypeDecl S A → Prop
  | mk {type : TypeDecl S A} (hown : Has mask type.ownFlags → Has mask gcf)
    (hnode : ∀ node, type.node = some node → node ∈ dep)
    (hparts : ∀ part ∈ type.parts, Covered gcf dep part) : Covered gcf dep type

/-- **Entered**: with its flags, and its types covered. -/
structure Entered (gcf : BitVec 32) (dep : List (Node S A)) (node : Node S A) : Prop where
  own : Has mask (P.ownFlags node) → Has mask gcf
  types : ∀ type ∈ P.types node, Covered mask gcf dep type

variable {mask}

theorem Covered.mono {gcf gcf' : BitVec 32} {dep dep' : List (Node S A)} {type : TypeDecl S A}
    (h : Covered mask gcf dep type) (hgcf : Has mask gcf → Has mask gcf') (hdep : dep ⊆ dep') :
    Covered mask gcf' dep' type := by
  induction h with
  | mk hown hnode _ ih => exact .mk (fun h => hgcf (hown h)) (fun n hn => hdep (hnode n hn)) ih

variable {P}

theorem Entered.mono {gcf gcf' : BitVec 32} {dep dep' : List (Node S A)} {node : Node S A}
    (h : P.Entered mask gcf dep node) (hgcf : Has mask gcf → Has mask gcf') (hdep : dep ⊆ dep') :
    P.Entered mask gcf' dep' node :=
  ⟨fun hown => hgcf (h.own hown), fun type htype => (h.types type htype).mono hgcf hdep⟩

theorem Covered.refersTo {gcf : BitVec 32} {dep : List (Node S A)}
    (hdep : ∀ node ∈ dep, P.Entered mask gcf dep node) {type part : TypeDecl S A}
    (h : Covered mask gcf dep type) (href : P.RefersTo type part) : Covered mask gcf dep part := by
  obtain ⟨-, hnode, hparts⟩ := h
  cases href with
  | part hpart => exact hparts part hpart
  | field hn hpart => exact (hdep _ (hnode _ hn)).types part hpart

theorem Covered.has_of_mayHold {gcf : BitVec 32} {dep : List (Node S A)}
    (hdep : ∀ node ∈ dep, P.Entered mask gcf dep node) {type : TypeDecl S A}
    (h : Covered mask gcf dep type) (hhold : P.MayHold mask type) : Has mask gcf := by
  obtain ⟨last, hchain, hlast⟩ := hhold
  have hcovered : ∀ last, Relation.ReflTransGen P.RefersTo type last →
      Covered mask gcf dep last := by
    intro last hchain
    induction hchain with
    | refl => exact h
    | tail _ href ih => exact ih.refersTo hdep href
  obtain ⟨hown, hnode, -⟩ := hcovered last hchain
  rw [typeFlags, has_or] at hlast
  rcases hlast with hlast | hlast
  · exact hown hlast
  · cases hn : last.node with
    | none =>
      rw [hn] at hlast
      exact absurd hlast has_zero
    | some node =>
      rw [hn] at hlast
      exact (hdep node (hnode node hn)).own hlast

/-! ## One call -/

variable (P mask) in
/-- **One call of the search**, with what it covers and what its flags are from. -/
def Answers (run : Option (BitVec 32 × List (Node S A))) (dep : List (Node S A))
    (covers : BitVec 32 → List (Node S A) → Prop) (holds : Prop) : Prop :=
  ∃ gcf dep', run = some (gcf, dep') ∧ dep'.Nodup ∧ dep.length ≤ dep'.length ∧ dep ⊆ dep' ∧
    (∀ node ∈ dep', node ∈ dep ∨ P.Entered mask gcf dep' node) ∧ covers gcf dep' ∧
    (Has mask gcf → holds)

theorem Answers.pure {dep : List (Node S A)} (hdep : dep.Nodup) {gcf : BitVec 32}
    {covers : BitVec 32 → List (Node S A) → Prop} {holds : Prop} (hcovers : covers gcf dep)
    (hholds : Has mask gcf → holds) : P.Answers mask (some (gcf, dep)) dep covers holds :=
  ⟨gcf, dep, rfl, hdep, le_rfl, List.Subset.refl _, fun _ h => .inl h, hcovers, hholds⟩

theorem Answers.imp {run : Option (BitVec 32 × List (Node S A))} {dep : List (Node S A)}
    {covers covers' : BitVec 32 → List (Node S A) → Prop} {holds holds' : Prop}
    (h : P.Answers mask run dep covers holds)
    (hcovers : ∀ gcf dep', covers gcf dep' → covers' gcf dep') (hholds : holds → holds') :
    P.Answers mask run dep covers' holds' := by
  obtain ⟨gcf, dep', hrun, hnodup, hlength, hsub, hentered, hc, hh⟩ := h
  exact ⟨gcf, dep', hrun, hnodup, hlength, hsub, hentered, hcovers _ _ hc, fun h => hholds (hh h)⟩

theorem Answers.flags {run : Option (BitVec 32 × List (Node S A))} {dep : List (Node S A)}
    {covers covers' : BitVec 32 → List (Node S A) → Prop} {holds holds' : Prop} {own : BitVec 32}
    (h : P.Answers mask run dep covers holds)
    (hcovers : ∀ gcf dep', covers gcf dep' → covers' (own ||| gcf) dep')
    (hown : Has mask own → holds') (hholds : holds → holds') :
    P.Answers mask (run.bind fun r => some (own ||| r.1, r.2)) dep covers' holds' := by
  obtain ⟨gcf, dep', rfl, hnodup, hlength, hsub, hentered, hc, hh⟩ := h
  refine ⟨own ||| gcf, dep', rfl, hnodup, hlength, hsub, fun node hnode => ?_, hcovers _ _ hc, ?_⟩
  · exact (hentered node hnode).imp_right fun h => h.mono (fun h => has_or.mpr (.inr h))
      (List.Subset.refl _)
  · rw [has_or]
    exact fun h => h.elim hown fun h => hholds (hh h)

theorem Answers.both {run : Option (BitVec 32 × List (Node S A))}
    {next : List (Node S A) → Option (BitVec 32 × List (Node S A))} {dep : List (Node S A)}
    {covers covers' covers'' : BitVec 32 → List (Node S A) → Prop} {holds holds' : Prop}
    (h : P.Answers mask run dep covers holds)
    (hnext : ∀ dep' : List (Node S A), dep'.Nodup → dep.length ≤ dep'.length →
      P.Answers mask (next dep') dep' covers' holds')
    (hcovers : ∀ gcf gcf' dep' dep'', dep' ⊆ dep'' → covers gcf dep' → covers' gcf' dep'' →
      covers'' (gcf ||| gcf') dep'') :
    P.Answers mask (run.bind fun r => (next r.2).bind fun r' => some (r.1 ||| r'.1, r'.2)) dep
      covers'' (holds ∨ holds') := by
  obtain ⟨gcf, dep', rfl, hnodup, hlength, hsub, hentered, hc, hh⟩ := h
  obtain ⟨gcf', dep'', hrun, hnodup', hlength', hsub', hentered', hc', hh'⟩ :=
    hnext dep' hnodup hlength
  refine ⟨gcf ||| gcf', dep'', by simp only [Option.bind_some, hrun], hnodup',
    hlength.trans hlength', List.Subset.trans hsub hsub', fun node hnode => ?_,
    hcovers _ _ _ _ hsub' hc hc', ?_⟩
  · rcases hentered' node hnode with hnode | hnode
    · exact (hentered node hnode).imp_right fun h => h.mono (fun h => has_or.mpr (.inl h)) hsub'
    · exact .inr (hnode.mono (fun h => has_or.mpr (.inr h)) (List.Subset.refl _))
  · rw [has_or]
    exact fun h => h.imp hh hh'

/-! ## The search -/

theorem Answers.parts (type : TypeDecl S A) (hnode : type.node = none)
    {run : Option (BitVec 32 × List (Node S A))} {dep : List (Node S A)}
    (h : P.Answers mask run dep (fun gcf dep' => ∀ part ∈ type.parts, Covered mask gcf dep' part)
      (∃ part ∈ type.parts, P.MayHold mask part)) :
    P.Answers mask (run.bind fun r => some (type.ownFlags ||| r.1, r.2)) dep
      (fun gcf dep' => Covered mask gcf dep' type) (P.MayHold mask type) := by
  refine h.flags (fun gcf dep' hparts => ?_) (fun hown => ?_) fun ⟨part, hpart, h⟩ => ?_
  · refine .mk (fun h => has_or.mpr (.inl h)) (by simp [hnode]) fun part hpart => ?_
    exact (hparts part hpart).mono (fun h => has_or.mpr (.inr h)) (List.Subset.refl _)
  · exact .of_flags (has_or.mpr (.inl hown))
  · exact .of_refersTo (.part hpart) h

theorem Answers.leaf (type : TypeDecl S A) (hnode : type.node = none) (hparts : type.parts = [])
    {dep : List (Node S A)} (hdep : dep.Nodup) :
    P.Answers mask (some (type.ownFlags, dep)) dep
      (fun gcf dep' => Covered mask gcf dep' type) (P.MayHold mask type) :=
  .pure hdep (.mk id (by simp [hnode]) (by simp [hparts])) fun h =>
    .of_flags (has_or.mpr (.inl h))

theorem bind_zero (run : Option (BitVec 32 × List (Node S A))) :
    (run.bind fun r => some (0 ||| r.1, r.2)) = run := by
  simp

theorem Answers.elements {firstType secondType : Option (TypeDecl S A)}
    {run : Option (BitVec 32 × List (Node S A))}
    {next : List (Node S A) → Option (BitVec 32 × List (Node S A))} {dep : List (Node S A)}
    (h : P.Answers mask run dep (fun gcf dep' => ∀ part ∈ firstType.toList,
      Covered mask gcf dep' part) (∃ part ∈ firstType.toList, P.MayHold mask part))
    (hnext : ∀ dep' : List (Node S A), dep'.Nodup → dep.length ≤ dep'.length →
      P.Answers mask (next dep') dep' (fun gcf dep' => ∀ part ∈ secondType.toList,
        Covered mask gcf dep' part) (∃ part ∈ secondType.toList, P.MayHold mask part)) :
    P.Answers mask (run.bind fun r => (next r.2).bind fun r' => some (r.1 ||| r'.1, r'.2)) dep
      (fun gcf dep' => ∀ part ∈ firstType.toList ++ secondType.toList, Covered mask gcf dep' part)
      (∃ part ∈ firstType.toList ++ secondType.toList, P.MayHold mask part) := by
  refine (h.both hnext fun gcf gcf' dep' dep'' hsub hfirst hsecond part hpart => ?_).imp
    (fun _ _ h => h) ?_
  · rcases List.mem_append.mp hpart with hpart | hpart
    · exact (hfirst part hpart).mono (fun h => has_or.mpr (.inl h)) hsub
    · exact (hsecond part hpart).mono (fun h => has_or.mpr (.inr h)) (List.Subset.refl _)
  · rintro (⟨part, hpart, hholds⟩ | ⟨part, hpart, hholds⟩)
    · exact ⟨part, List.mem_append_left _ hpart, hholds⟩
    · exact ⟨part, List.mem_append_right _ hpart, hholds⟩

theorem or_both (own : BitVec 32) (run : Option (BitVec 32 × List (Node S A)))
    (next : List (Node S A) → Option (BitVec 32 × List (Node S A))) :
    ((run.bind fun r => (next r.2).bind fun r' => some (r.1 ||| r'.1, r'.2)).bind fun r =>
      some (own ||| r.1, r.2)) =
    run.bind fun r => (next r.2).bind fun r' => some (own ||| r.1 ||| r'.1, r'.2) := by
  cases run with
  | none => rfl
  | some r =>
    simp only [Option.bind_some]
    cases next r.2 with
    | none => rfl
    | some r' => simp only [Option.bind_some, BitVec.or_assoc]

variable (P mask) in
/-- Structures and annotations are gone through rightly, where so many have been entered. -/
def EnterAnswers (enter : Node S A → List (Node S A) → Option (BitVec 32 × List (Node S A)))
    (bound : ℕ) : Prop :=
  ∀ node (dep : List (Node S A)), dep.Nodup → bound ≤ dep.length →
    P.Answers mask (enter node dep) dep (fun _ dep' => node ∈ dep')
      (Has mask (P.ownFlags node) ∨ ∃ type ∈ P.types node, P.MayHold mask type)

section Search

variable {enter : Node S A → List (Node S A) → Option (BitVec 32 × List (Node S A))} {bound : ℕ}

theorem answers_node (henter : P.EnterAnswers mask enter bound) {type : TypeDecl S A}
    {node : Node S A} (hnode : type.node = some node) (hown : type.ownFlags = 0)
    (hparts : type.parts = []) (dep : List (Node S A)) (hdep : dep.Nodup)
    (hbound : bound ≤ dep.length) :
    P.Answers mask (enter node dep) dep (fun gcf dep' => Covered mask gcf dep' type)
      (P.MayHold mask type) := by
  refine (henter node dep hdep hbound).imp (fun gcf dep' hmem => ?_) fun h => ?_
  · refine .mk (fun h => absurd (hown ▸ h) has_zero) (fun node' hnode' => ?_) (by simp [hparts])
    rw [hnode, Option.some.injEq] at hnode'
    exact hnode' ▸ hmem
  · rcases h with h | ⟨part, hpart, h⟩
    · refine .of_flags ?_
      rw [typeFlags, has_or, hnode]
      exact .inr h
    · exact .of_refersTo (.field hnode hpart) h

mutual

theorem answers_gcFlags (henter : P.EnterAnswers mask enter bound) :
    ∀ (type : TypeDecl S A) (dep : List (Node S A)), dep.Nodup →
    bound ≤ dep.length →
    P.Answers mask (type.gcFlags enter dep) dep (fun gcf dep' => Covered mask gcf dep' type)
      (P.MayHold mask type)
  | .mk baseType structType ann firstType secondType argTypes => by
    intro dep hdep hbound
    have hfirst := answers_gcFlagsOf henter firstType dep hdep hbound
    have hargs := answers_gcFlagsAll henter argTypes dep hdep hbound
    have hboth := hfirst.elements fun dep' hdep' hlength =>
      answers_gcFlagsOf henter secondType dep' hdep' (hbound.trans hlength)
    cases baseType with
    | tStructure =>
      cases structType with
      | none => exact .leaf (.mk .tStructure none ..) rfl rfl hdep
      | some s => exact answers_node henter rfl rfl rfl dep hdep hbound
    | tHandle =>
      cases ann with
      | none => exact .leaf (.mk .tHandle _ none ..) rfl rfl hdep
      | some a => exact answers_node henter rfl rfl rfl dep hdep hbound
    | tTuple | tVariant | option =>
      rw [TypeDecl.gcFlags, ← bind_zero (TypeDecl.gcFlagsAll enter argTypes dep)]
      first
        | exact .parts (.mk .tTuple ..) rfl hargs
        | exact .parts (.mk .tVariant ..) rfl hargs
        | exact .parts (.mk .option ..) rfl hargs
    | tArray =>
      have harray := Answers.parts (.mk .tArray structType ann firstType secondType argTypes)
        rfl hboth
      rw [or_both] at harray
      exact harray
    | tTable =>
      have htable := Answers.parts (.mk .tTable structType ann firstType secondType argTypes)
        rfl hboth
      rw [or_both] at htable
      exact htable
    | tFixedArray =>
      rw [TypeDecl.gcFlags, ← bind_zero (TypeDecl.gcFlagsOf enter firstType dep)]
      exact .parts (.mk .tFixedArray ..) rfl hfirst
    | tPointer => exact .parts (.mk .tPointer ..) rfl hfirst
    | tString => exact .leaf (.mk .tString ..) rfl rfl hdep
    | tLambda => exact .leaf (.mk .tLambda ..) rfl rfl hdep
    | tIterator => exact .leaf (.mk .tIterator ..) rfl rfl hdep
    | other => exact .leaf (.mk .other ..) rfl rfl hdep

theorem answers_gcFlagsOf (henter : P.EnterAnswers mask enter bound) :
    ∀ (type : Option (TypeDecl S A)) (dep : List (Node S A)), dep.Nodup →
    bound ≤ dep.length →
    P.Answers mask (TypeDecl.gcFlagsOf enter type dep) dep
      (fun gcf dep' => ∀ part ∈ type.toList, Covered mask gcf dep' part)
      (∃ part ∈ type.toList, P.MayHold mask part)
  | none => fun dep hdep _ => by
    rw [TypeDecl.gcFlagsOf]
    exact .pure hdep (by simp) fun h => absurd h has_zero
  | some type => fun dep hdep hbound => by
    rw [TypeDecl.gcFlagsOf]
    exact (answers_gcFlags henter type dep hdep hbound).imp (by simp) (by simp)

theorem answers_gcFlagsAll (henter : P.EnterAnswers mask enter bound) :
    ∀ (types : List (TypeDecl S A)) (dep : List (Node S A)), dep.Nodup →
    bound ≤ dep.length →
    P.Answers mask (TypeDecl.gcFlagsAll enter types dep) dep
      (fun gcf dep' => ∀ part ∈ types, Covered mask gcf dep' part)
      (∃ part ∈ types, P.MayHold mask part)
  | [] => fun dep hdep _ => by
    rw [TypeDecl.gcFlagsAll]
    exact .pure hdep (by simp) fun h => absurd h has_zero
  | type :: types => fun dep hdep hbound => by
    rw [TypeDecl.gcFlagsAll]
    refine ((answers_gcFlags henter type dep hdep hbound).both
      (fun dep' hdep' hlength => answers_gcFlagsAll henter types dep' hdep' (hbound.trans hlength))
      fun gcf gcf' dep' dep'' hsub h h' part hpart => ?_).imp
        (fun _ _ h => h) fun h => ?_
    · rcases List.mem_cons.mp hpart with rfl | hpart
      · exact h.mono (fun h => has_or.mpr (.inl h)) hsub
      · exact (h' part hpart).mono (fun h => has_or.mpr (.inr h)) (List.Subset.refl _)
    · simpa using h

end

end Search

variable [DecidableEq S] [DecidableEq A] [Fintype S] [Fintype A]

theorem enterAnswers (fuel : ℕ) :
    P.EnterAnswers mask (P.enter fuel) (Fintype.card (Node S A) + 1 - fuel) := by
  induction fuel with
  | zero =>
    intro node dep hdep hbound
    have := hdep.length_le_card
    omega
  | succ fuel ih =>
    intro node dep hdep hbound
    rw [enter]
    by_cases hmem : node ∈ dep
    · rw [if_pos hmem]
      exact .pure hdep hmem fun h => absurd h has_zero
    rw [if_neg hmem]
    obtain ⟨gcf, dep', hrun, hnodup, hlength, hsub, hentered, hcovers, hholds⟩ :=
      answers_gcFlagsAll ih (P.types node) (node :: dep) (List.nodup_cons.mpr ⟨hmem, hdep⟩)
        (by rw [List.length_cons]; omega)
    have hown : P.Entered mask (P.ownFlags node ||| gcf) dep' node :=
      ⟨fun h => has_or.mpr (.inl h), fun type htype =>
        (hcovers type htype).mono (fun h => has_or.mpr (.inr h)) (List.Subset.refl _)⟩
    refine ⟨P.ownFlags node ||| gcf, dep', by rw [hrun]; rfl, hnodup,
      (Nat.le_succ _).trans hlength, fun n hn => hsub (List.mem_cons_of_mem _ hn),
      fun n hn => ?_, hsub List.mem_cons_self, fun h => (has_or.mp h).imp_right hholds⟩
    rcases hentered n hn with hn | hn
    · rcases List.mem_cons.mp hn with rfl | hn
      · exact .inr hown
      · exact .inl hn
    · exact .inr (hn.mono (fun h => has_or.mpr (.inr h)) (List.Subset.refl _))

variable (P) in
theorem gcFlagsIn_spec {fuel : ℕ} (hfuel : Fintype.card (Node S A) < fuel) (type : TypeDecl S A) :
    ∃ gcf, P.gcFlagsIn fuel type = some gcf ∧ (Has mask gcf ↔ P.MayHold mask type) := by
  obtain ⟨gcf, dep, hrun, -, -, -, hentered, hcovers, hholds⟩ :=
    answers_gcFlags (enterAnswers fuel : P.EnterAnswers mask _ _) type [] List.nodup_nil (by omega)
  refine ⟨gcf, by rw [gcFlagsIn, hrun]; rfl, hholds, hcovers.has_of_mayHold fun node hnode => ?_⟩
  exact (hentered node hnode).resolve_left List.not_mem_nil

end Program

end DaScript.GcFlags

import Mathlib.Tactic

/-!
# Ast/Unused — which side effects a function has

`MarkSideEffects` and `getSideEffects` of `ast_unused.cpp`: one depth-first traversal of the calls
of a function, with the functions it has `asked` about and the ones whose side effects are `known`.
A function that was asked about and is not known yet is assumed to have no more side effects than
were found so far.

So the flags are complete where no two functions call each other in a circle
(`markSideEffects_complete`), and need not be where two do (`markSideEffects_misses`).

What the visitor does in the body of a function is a list of events: flags it sets on its own, and
calls, which may write to their arguments.  That a function captures strings is kept apart from its
side effects, in a field of its own.
-/

namespace DaScript.Unused

/-! ## The program -/

/-- `SideEffects`.  To access something external counts as modifying it. -/
inductive SideEffect
  | unsafe_
  | userScenario
  | modifyExternal
  | modifyArgument
  | accessGlobal
  | invoke
  | captureString
  deriving DecidableEq, Repr

open SideEffect

abbrev Flags : Type := Finset SideEffect

def inferredSideEffects : Flags := {modifyArgument, accessGlobal, invoke}

/-- **What the visitor comes across** in a body: something that sets flags, or a call.  To write the
arguments of a call may set flags (through a pointer) and may reach an argument of the caller. -/
inductive Event (F : Type)
  | sets (flags : Flags)
  /-- an operator: its arguments are written if it modifies them -/
  | operator (func : F) (onWrite : Flags) (reachesArgument : Bool)
  /-- a call, or an initializer: while the callee is not known they are written in any case -/
  | call (func : F) (onWrite : Flags) (reachesArgument : Bool)

/-- The function an event asks about. -/
def Event.func {F : Type} : Event F → Option F
  | .sets _ => none
  | .operator func _ _ => some func
  | .call func _ _ => some func

/-- **A function.**  `skipped` are stubs, templates and built-in functions; what it calls in its
body is among `useFunctions`. -/
structure Function (F : Type) where
  skipped : Bool
  /-- a built-in function of which arguments may be modified -/
  builtInModifies : Bool
  /-- `sideEffectFlags`, before -/
  sideEffectFlags : Flags
  body : List (Event F)
  useFunctions : List F
  useGlobalVariables : Bool
  /-- an argument is written without any call -/
  writesArgument : Bool
  capturesString : Bool
  used : ∀ event ∈ body, ∀ func ∈ event.func, func ∈ useFunctions

/-- What the traversal knows. -/
structure State (F : Type) where
  sideEffectFlags : F → Flags
  knownSideEffects : F → Bool
  asked : Finset F

variable {F : Type} [DecidableEq F]

namespace State

/-- `func->sideEffectFlags |= flags` -/
def addFlags (func : F) (flags : Flags) (s : State F) : State F :=
  { s with
    sideEffectFlags := Function.update s.sideEffectFlags func (s.sideEffectFlags func ∪ flags) }

theorem addFlags_self (func : F) (flags : Flags) (s : State F) :
    (s.addFlags func flags).sideEffectFlags func = s.sideEffectFlags func ∪ flags :=
  Function.update_self _ _ _

theorem addFlags_of_ne {f func : F} (h : f ≠ func) (flags : Flags) (s : State F) :
    (s.addFlags func flags).sideEffectFlags f = s.sideEffectFlags f :=
  Function.update_of_ne h _ _

/-- `asked.insert(func)` -/
def ask (func : F) (s : State F) : State F := { s with asked := insert func s.asked }

/-- `func->knownSideEffects = true` -/
def learn (func : F) (s : State F) : State F :=
  { s with knownSideEffects := Function.update s.knownSideEffects func true }

theorem learn_self (func : F) (s : State F) : (s.learn func).knownSideEffects func = true :=
  Function.update_self _ _ _

theorem learn_of_ne {f func : F} (h : f ≠ func) (s : State F) :
    (s.learn func).knownSideEffects f = s.knownSideEffects f :=
  Function.update_of_ne h _ _

end State

/-! ## The traversal -/

/-- A call of `getSideEffects`. -/
abbrev Get (F : Type) : Type := F → State F → Option (Flags × State F)

/-- The visitor in the body of `func`, and whether it has written to an argument of it. -/
def visitBody (p : F → Function F) (get : Get F) (func : F) :
    List (Event F) → Bool → State F → Option (Bool × State F)
  | [], written, s => some (written, s)
  | .sets flags :: events, written, s => visitBody p get func events written (s.addFlags func flags)
  | .operator callee onWrite reachesArgument :: events, written, s =>
    (get callee s).bind fun r =>
      if modifyArgument ∈ r.1 then
        visitBody p get func events (written || reachesArgument) (r.2.addFlags func onWrite)
      else visitBody p get func events written r.2
  | .call callee onWrite reachesArgument :: events, written, s =>
    (get callee s).bind fun r =>
      let inCycle := r.2.knownSideEffects callee = false ∧ callee ∈ r.2.asked
      let writes := inCycle ∨ modifyArgument ∈ r.1 ∧
        (if (p callee).skipped then (p callee).builtInModifies = true
          else r.2.knownSideEffects callee = true)
      if writes then
        visitBody p get func events (written || reachesArgument) (r.2.addFlags func onWrite)
      else visitBody p get func events written r.2

/-- The side effects of the functions it calls, appended. -/
def appendUsed (get : Get F) (func : F) : List F → Flags → State F → Option (Flags × State F)
  | [], flags, s => some (flags, s)
  | dep :: deps, flags, s =>
    if dep = func then appendUsed get func deps flags s
    else (get dep s).bind fun r => appendUsed get func deps (flags ∪ r.1 \ {modifyArgument}) r.2

/-- What is known of a function once its body was visited. -/
def ownFlags (fnc : Function F) (written : Bool) : Flags :=
  (if fnc.useGlobalVariables then {accessGlobal} else ∅) ∪
    (if written ∨ fnc.writesArgument then {modifyArgument} else ∅) ∪
    if fnc.capturesString then {captureString} else ∅

/-- `getSideEffects`; calls are nested at most `fuel` deep. -/
def getSideEffects (p : F → Function F) : ℕ → Get F
  | 0, _, _ => none
  | fuel + 1, fnc, s =>
    if (p fnc).skipped ∨ s.knownSideEffects fnc then some (s.sideEffectFlags fnc, s)
    else if fnc ∈ s.asked then some (s.sideEffectFlags fnc, s)
    else
      (visitBody p (getSideEffects p fuel) fnc (p fnc).body false (s.ask fnc)).bind fun r =>
        (appendUsed (getSideEffects p fuel) fnc (p fnc).useFunctions
          (r.2.sideEffectFlags fnc ∪ ownFlags (p fnc) r.1) r.2).bind fun r =>
          let flags := r.1 \ {captureString}
          some (flags, (r.2.learn fnc).addFlags fnc flags)

/-- `MarkSideEffects`, from where the flags are cleared. -/
def cleared (p : F → Function F) : State F where
  sideEffectFlags fnc :=
    if (p fnc).skipped then (p fnc).sideEffectFlags
    else (p fnc).sideEffectFlags \ inferredSideEffects
  knownSideEffects _ := false
  asked := ∅

/-- The loop of `MarkSideEffects` over the functions. -/
def markEach (p : F → Function F) (fuel : ℕ) : List F → State F → Option (State F)
  | [], s => some s
  | fnc :: fncs, s =>
    if (p fnc).skipped ∨ s.knownSideEffects fnc then markEach p fuel fncs s
    else (getSideEffects p fuel fnc { s with asked := ∅ }).bind fun r => markEach p fuel fncs r.2

def markSideEffects (p : F → Function F) (fuel : ℕ) (order : List F) : Option (State F) :=
  markEach p fuel order (cleared p)

/-! ## What it should find -/

/-- `f` calls `g`. -/
def Calls (p : F → Function F) (f g : F) : Prop := (p f).skipped = false ∧ g ∈ (p f).useFunctions

/-- `g` is `f`, or is reached from it by calls. -/
def Reaches (p : F → Function F) : F → F → Prop := Relation.ReflTransGen (Calls p)

/-- What is not kept in `sideEffectFlags`, or is local to a callee. -/
def apart : Flags := {modifyArgument, captureString}

/-- The flags an event sets on its own. -/
def Event.direct : Event F → Flags
  | .sets flags => flags
  | _ => ∅

/-- The flags some events set on their own. -/
def directOf : List (Event F) → Flags
  | [] => ∅
  | event :: events => event.direct ∪ directOf events

/-- **What a function does itself**: what it is declared with, what its body sets, and whether it
uses global variables. -/
def direct (p : F → Function F) (f : F) : Flags :=
  if (p f).skipped then (p f).sideEffectFlags
  else (p f).sideEffectFlags \ inferredSideEffects ∪
    (directOf (p f).body ∪
      if (p f).useGlobalVariables then {accessGlobal} else ∅)

/-! ## One call -/

variable {p : F → Function F}

/-- **What a call leaves alone** — flags only grow, what is known stays known, and what was asked
about in the call is known after it. -/
structure Keeps (s s' : State F) : Prop where
  flags : ∀ f, s.sideEffectFlags f ⊆ s'.sideEffectFlags f
  known : ∀ f, s.knownSideEffects f = true → s'.knownSideEffects f = true
  asked : s.asked ⊆ s'.asked
  finished : ∀ f ∈ s'.asked, f ∈ s.asked ∨ s'.knownSideEffects f = true

namespace Keeps

omit [DecidableEq F] in
theorem refl (s : State F) : Keeps s s :=
  ⟨fun _ => Finset.Subset.refl _, fun _ h => h, Finset.Subset.refl _, fun _ h => Or.inl h⟩

omit [DecidableEq F] in
theorem trans {s s' s'' : State F} (h : Keeps s s') (h' : Keeps s' s'') : Keeps s s'' := by
  refine ⟨fun f => (h.flags f).trans (h'.flags f), fun f hf => h'.known f (h.known f hf),
    h.asked.trans h'.asked, fun f hf => ?_⟩
  rcases h'.finished f hf with hasked | hknown
  · exact (h.finished f hasked).imp id (h'.known f)
  · exact Or.inr hknown

theorem addFlags (func : F) (flags : Flags) (s : State F) : Keeps s (s.addFlags func flags) := by
  refine ⟨fun f => ?_, fun _ h => h, Finset.Subset.refl _, fun _ h => Or.inl h⟩
  by_cases hf : f = func
  · rw [hf, State.addFlags_self]
    exact Finset.subset_union_left
  · rw [State.addFlags_of_ne hf]

end Keeps

/-- **Between the calls** — what is known is complete, and nothing that was declared is lost. -/
structure Sound (p : F → Function F) (s : State F) : Prop where
  complete : ∀ f, s.knownSideEffects f = true → ∀ g, Reaches p f g →
    direct p g \ apart ⊆ s.sideEffectFlags f
  declared : ∀ f, (cleared p).sideEffectFlags f ⊆ s.sideEffectFlags f

/-- The functions in the middle of being asked about lead to `f`. -/
def Pending (p : F → Function F) (s : State F) (f : F) : Prop :=
  ∀ a ∈ s.asked, s.knownSideEffects a = false → Reaches p a f

/-- **What a call answers**: everything the function reaches, unless it is being asked about. -/
def Answers (p : F → Function F) (s : State F) (f : F) (flags : Flags) : Prop :=
  f ∈ s.asked ∧ s.knownSideEffects f = false ∨
    ∀ g, Reaches p f g → direct p g \ apart ⊆ flags

/-- The call, with enough fuel. -/
def GetSpec (p : F → Function F) (get : Get F) (func : F) (s : State F) : Prop :=
  ∃ flags s', get func s = some (flags, s') ∧ Sound p s' ∧ Keeps s s' ∧ Answers p s func flags ∧
    ((p func).skipped = true ∨ func ∈ s.asked ∨ s'.knownSideEffects func = true)

theorem Sound.addFlags {s : State F} (h : Sound p s) (func : F) (flags : Flags) :
    Sound p (s.addFlags func flags) :=
  ⟨fun f hf g hg => (h.complete f hf g hg).trans ((Keeps.addFlags func flags s).flags f),
    fun f => (h.declared f).trans ((Keeps.addFlags func flags s).flags f)⟩

theorem visitBody_spec {get : Get F} {func : F} {s₀ : State F}
    (hget : ∀ callee ∈ (p func).useFunctions, ∀ s, Sound p s → Keeps s₀ s → GetSpec p get callee s)
    (events : List (Event F)) : ∀ (written : Bool) (s : State F), Sound p s → Keeps s₀ s →
    (∀ event ∈ events, ∀ callee ∈ event.func, callee ∈ (p func).useFunctions) →
    ∃ written' s', visitBody p get func events written s = some (written', s') ∧ Sound p s' ∧
      Keeps s s' ∧ directOf events ⊆ s'.sideEffectFlags func := by
  induction events with
  | nil => exact fun written s hs _ _ => ⟨written, s, rfl, hs, Keeps.refl s, Finset.empty_subset _⟩
  | cons event events ih =>
    intro written s hs hkeeps hused
    have hrest := fun event h => hused event (List.mem_cons_of_mem _ h)
    -- a call, whatever it makes of the arguments
    have hcall : ∀ callee onWrite written' (written'' : Bool) (c : Flags × State F → Prop)
        [DecidablePred c], callee ∈ (p func).useFunctions →
        ∃ w s', ((get callee s).bind fun r =>
          if c r then visitBody p get func events written' (r.2.addFlags func onWrite)
          else visitBody p get func events written'' r.2) = some (w, s') ∧ Sound p s' ∧
          Keeps s s' ∧ directOf events ⊆ s'.sideEffectFlags func := by
      intro callee onWrite written' written'' c _ hcallee
      obtain ⟨flags, s', hrun, hs', hkeeps', -⟩ := hget callee hcallee s hs hkeeps
      rw [hrun, Option.bind_some]
      split_ifs
      · obtain ⟨w, s'', hvisit, hs'', hkeeps'', hdirect⟩ := ih written'
          (s'.addFlags func onWrite) (hs'.addFlags func onWrite)
          ((hkeeps.trans hkeeps').trans (Keeps.addFlags func onWrite s')) hrest
        exact ⟨w, s'', hvisit, hs'',
          (hkeeps'.trans (Keeps.addFlags func onWrite s')).trans hkeeps'', hdirect⟩
      · obtain ⟨w, s'', hvisit, hs'', hkeeps'', hdirect⟩ := ih written'' s' hs'
          (hkeeps.trans hkeeps') hrest
        exact ⟨w, s'', hvisit, hs'', hkeeps'.trans hkeeps'', hdirect⟩
    cases event with
    | sets flags =>
      obtain ⟨w, s', hvisit, hs', hkeeps', hdirect⟩ := ih written (s.addFlags func flags)
        (hs.addFlags func flags) (hkeeps.trans (Keeps.addFlags func flags s)) hrest
      refine ⟨w, s', hvisit, hs', (Keeps.addFlags func flags s).trans hkeeps', ?_⟩
      refine Finset.union_subset (Finset.Subset.trans ?_ (hkeeps'.flags func)) hdirect
      rw [State.addFlags_self]
      exact Finset.subset_union_right
    | operator callee onWrite reachesArgument =>
      obtain ⟨w, s', hvisit, hs', hkeeps', hdirect⟩ := hcall callee onWrite
        (written || reachesArgument) written (fun r => modifyArgument ∈ r.1)
        (hused _ List.mem_cons_self callee rfl)
      exact ⟨w, s', hvisit, hs', hkeeps', Finset.union_subset (Finset.empty_subset _) hdirect⟩
    | call callee onWrite reachesArgument =>
      obtain ⟨w, s', hvisit, hs', hkeeps', hdirect⟩ := hcall callee onWrite
        (written || reachesArgument) written (fun r =>
          (r.2.knownSideEffects callee = false ∧ callee ∈ r.2.asked) ∨ modifyArgument ∈ r.1 ∧
            (if (p callee).skipped then (p callee).builtInModifies = true
              else r.2.knownSideEffects callee = true))
        (hused _ List.mem_cons_self callee rfl)
      exact ⟨w, s', hvisit, hs', hkeeps', Finset.union_subset (Finset.empty_subset _) hdirect⟩

theorem appendUsed_spec {get : Get F} {func : F} {s₀ : State F}
    (hget : ∀ callee ∈ (p func).useFunctions, callee ≠ func → ∀ s, Sound p s → Keeps s₀ s →
      ∃ flags s', get callee s = some (flags, s') ∧ Sound p s' ∧ Keeps s s' ∧
        ∀ g, Reaches p callee g → direct p g \ apart ⊆ flags)
    (deps : List F) : ∀ (flags : Flags) (s : State F), Sound p s → Keeps s₀ s →
    (∀ dep ∈ deps, dep ∈ (p func).useFunctions) →
    ∃ flags' s', appendUsed get func deps flags s = some (flags', s') ∧ Sound p s' ∧ Keeps s s' ∧
      flags ⊆ flags' ∧
      ∀ dep ∈ deps, dep ≠ func → ∀ g, Reaches p dep g → direct p g \ apart ⊆ flags' := by
  induction deps with
  | nil =>
    exact fun flags s hs _ _ => ⟨flags, s, rfl, hs, Keeps.refl s, Finset.Subset.refl _,
      fun dep h => (nomatch h)⟩
  | cons dep deps ih =>
    intro flags s hs hkeeps hdeps
    have hrest := fun dep h => hdeps dep (List.mem_cons_of_mem _ h)
    by_cases hself : dep = func
    · obtain ⟨flags', s', hrun, hs', hkeeps', hflags, hdone⟩ := ih flags s hs hkeeps hrest
      refine ⟨flags', s', ?_, hs', hkeeps', hflags, fun dep' hdep' hne => ?_⟩
      · rw [appendUsed, if_pos hself, hrun]
      · rcases List.mem_cons.mp hdep' with rfl | hdep'
        · exact absurd hself hne
        · exact hdone dep' hdep' hne
    · obtain ⟨answer, s', hrun, hs', hkeeps', hanswer⟩ :=
        hget dep (hdeps dep List.mem_cons_self) hself s hs hkeeps
      obtain ⟨flags', s'', hrun', hs'', hkeeps'', hflags, hdone⟩ :=
        ih (flags ∪ answer \ {modifyArgument}) s' hs' (hkeeps.trans hkeeps') hrest
      refine ⟨flags', s'', ?_, hs'', hkeeps'.trans hkeeps'',
        Finset.subset_union_left.trans hflags, fun dep' hdep' hne g hg => ?_⟩
      · rw [appendUsed, if_neg hself, hrun, Option.bind_some, hrun']
      · rcases List.mem_cons.mp hdep' with rfl | hdep'
        · refine (Finset.Subset.trans ?_ Finset.subset_union_right).trans hflags
          intro e he
          refine Finset.mem_sdiff.mpr ⟨hanswer g hg he, fun hmodify => ?_⟩
          refine (Finset.mem_sdiff.mp he).2 ?_
          rw [Finset.mem_singleton.mp hmodify]
          decide
        · exact hdone dep' hdep' hne g hg

/-! ## The traversal of a graph without circles -/

/-- No two functions call each other in a circle; a function may call itself. -/
def Acyclic (p : F → Function F) : Prop := ∀ f g, Reaches p f g → Reaches p g f → f = g

omit [DecidableEq F] in
theorem Reaches.eq_of_skipped {f g : F} (h : Reaches p f g) (hf : (p f).skipped = true) :
    g = f := by
  rcases Relation.ReflTransGen.cases_head h with rfl | ⟨dep, hcalls, -⟩
  · rfl
  · rw [hcalls.1] at hf
    cases hf

theorem Reaches.cases_first {f g : F} (h : Reaches p f g) :
    g = f ∨ ∃ dep, Calls p f dep ∧ dep ≠ f ∧ Reaches p dep g := by
  induction h using Relation.ReflTransGen.head_induction_on with
  | refl => exact Or.inl rfl
  | @head f dep hcalls hreaches ih =>
    by_cases hself : dep = f
    · rw [hself] at ih
      exact ih
    · exact Or.inr ⟨dep, hcalls, hself, hreaches⟩

omit [DecidableEq F] in
theorem direct_of_skipped {f : F} (hf : (p f).skipped = true) :
    direct p f = (cleared p).sideEffectFlags f := by
  rw [direct, if_pos hf]
  exact (if_pos hf).symm

omit [DecidableEq F] in
theorem cleared_of_not_skipped {f : F} (hf : (p f).skipped = false) :
    (cleared p).sideEffectFlags f = (p f).sideEffectFlags \ inferredSideEffects := by
  refine if_neg ?_
  rw [hf]
  exact Bool.false_ne_true

theorem Pending.leads {s s' : State F} {fnc a : F} (h : Pending p s fnc)
    (hkeeps : Keeps (s.ask fnc) s') (ha : a ∈ s'.asked) (hunknown : s'.knownSideEffects a = false) :
    Reaches p a fnc := by
  rcases hkeeps.finished a ha with ha | hfinished
  · rcases Finset.mem_insert.mp ha with rfl | ha
    · exact Relation.ReflTransGen.refl
    · refine h a ha (Bool.eq_false_of_not_eq_true fun hknown => ?_)
      rw [hkeeps.known a hknown] at hunknown
      cases hunknown
  · rw [hfinished] at hunknown
    cases hunknown

theorem card_unasked_lt [Fintype F] {s s' : State F} {fnc : F} (hasked : fnc ∉ s.asked)
    (hkeeps : Keeps (s.ask fnc) s') :
    (Finset.univ \ s'.asked).card < (Finset.univ \ s.asked).card := by
  refine Finset.card_lt_card (Finset.ssubset_iff_subset_ne.mpr ⟨fun f hf => ?_, fun heq => ?_⟩)
  · refine Finset.mem_sdiff.mpr ⟨Finset.mem_univ f, fun hmem => (Finset.mem_sdiff.mp hf).2 ?_⟩
    exact hkeeps.asked (Finset.mem_insert_of_mem hmem)
  · have hmem : fnc ∈ Finset.univ \ s'.asked :=
      heq ▸ Finset.mem_sdiff.mpr ⟨Finset.mem_univ fnc, hasked⟩
    exact (Finset.mem_sdiff.mp hmem).2 (hkeeps.asked (Finset.mem_insert_self fnc _))

theorem State.learn_known {s : State F} {f : F} (hf : s.knownSideEffects f = true) (fnc : F) :
    (s.learn fnc).knownSideEffects f = true := by
  by_cases hself : f = fnc
  · rw [hself]
    exact State.learn_self fnc s
  · exact (State.learn_of_ne hself s).trans hf

theorem reached_subset {s : State F} (hs : Sound p s) {fnc : F} (hskipped : (p fnc).skipped = false)
    {written : Bool} {flags : Flags} (hdirect : directOf (p fnc).body ⊆ s.sideEffectFlags fnc)
    (hflags : s.sideEffectFlags fnc ∪ ownFlags (p fnc) written ⊆ flags)
    (hdone : ∀ dep ∈ (p fnc).useFunctions, dep ≠ fnc →
      ∀ g, Reaches p dep g → direct p g \ apart ⊆ flags) (g : F) (hg : Reaches p fnc g) :
    direct p g \ apart ⊆ flags \ {captureString} := by
  intro e he
  have hcapture : e ∉ ({captureString} : Flags) := fun hmem =>
    (Finset.mem_sdiff.mp he).2 (by rw [Finset.mem_singleton.mp hmem]; decide)
  refine Finset.mem_sdiff.mpr ⟨?_, hcapture⟩
  rcases hg.cases_first with rfl | ⟨dep, hcalls, hne, hrest⟩
  · refine hflags ?_
    have he := (Finset.mem_sdiff.mp he).1
    rw [direct, hskipped, if_neg Bool.false_ne_true, Finset.mem_union, Finset.mem_union] at he
    rcases he with hdeclared | hbody | hglobal
    · rw [← cleared_of_not_skipped hskipped] at hdeclared
      exact Finset.mem_union_left _ (hs.declared g hdeclared)
    · exact Finset.mem_union_left _ (hdirect hbody)
    · exact Finset.mem_union_right _ (Finset.mem_union_left _ (Finset.mem_union_left _ hglobal))
  · exact hdone dep hcalls.2 hne g hrest he

theorem Sound.learn {s : State F} (hs : Sound p s) {fnc : F} {flags : Flags}
    (hreached : ∀ g, Reaches p fnc g → direct p g \ apart ⊆ flags) :
    Sound p ((s.learn fnc).addFlags fnc flags) := by
  have hadd := Keeps.addFlags fnc flags (s.learn fnc)
  refine ⟨fun f hf g hg => ?_, fun f => (hs.declared f).trans (hadd.flags f)⟩
  by_cases hself : f = fnc
  · rw [hself] at hg ⊢
    rw [State.addFlags_self]
    exact (hreached g hg).trans Finset.subset_union_right
  · have hf : s.knownSideEffects f = true := (State.learn_of_ne hself s).symm.trans hf
    exact (hs.complete f hf g hg).trans (hadd.flags f)

theorem Keeps.learn {s s' : State F} {fnc : F} (h : Keeps (s.ask fnc) s') (flags : Flags) :
    Keeps s ((s'.learn fnc).addFlags fnc flags) := by
  have hadd := Keeps.addFlags fnc flags (s'.learn fnc)
  refine ⟨fun f => (h.flags f).trans (hadd.flags f),
    fun f hf => State.learn_known (h.known f hf) fnc, (Finset.subset_insert fnc _).trans h.asked,
    fun f hf => ?_⟩
  rcases h.finished f hf with hask | hfinished
  · rcases Finset.mem_insert.mp hask with rfl | hmem
    · exact Or.inr (State.learn_self f s')
    · exact Or.inl hmem
  · exact Or.inr (State.learn_known hfinished fnc)

theorem getSideEffects_spec [Fintype F] (hacyclic : Acyclic p) (fuel : ℕ) : ∀ (fnc : F)
    (s : State F), Sound p s → Pending p s fnc → (Finset.univ \ s.asked).card < fuel →
    GetSpec p (getSideEffects p fuel) fnc s := by
  induction fuel with
  | zero => exact fun fnc s _ _ hfuel => absurd hfuel (Nat.not_lt_zero _)
  | succ fuel ih =>
    intro fnc s hs hpending hfuel
    by_cases hskip : (p fnc).skipped = true ∨ s.knownSideEffects fnc = true
    · refine ⟨s.sideEffectFlags fnc, s, ?_, hs, Keeps.refl s, Or.inr fun g hg => ?_, ?_⟩
      · rw [getSideEffects, if_pos hskip]
      · rcases hskip with hskipped | hknown
        · obtain rfl := hg.eq_of_skipped hskipped
          rw [direct_of_skipped hskipped]
          exact Finset.sdiff_subset.trans (hs.declared g)
        · exact hs.complete fnc hknown g hg
      · exact hskip.imp id Or.inr
    obtain ⟨hskipped, hknown⟩ := not_or.mp hskip
    have hskipped := Bool.eq_false_of_not_eq_true hskipped
    have hknown := Bool.eq_false_of_not_eq_true hknown
    by_cases hasked : fnc ∈ s.asked
    · refine ⟨s.sideEffectFlags fnc, s, ?_, hs, Keeps.refl s, Or.inl ⟨hasked, hknown⟩,
        Or.inr (Or.inl hasked)⟩
      rw [getSideEffects, if_neg hskip, if_pos hasked]
    have hs₁ : Sound p (s.ask fnc) := ⟨hs.complete, hs.declared⟩
    have hget : ∀ callee ∈ (p fnc).useFunctions, ∀ s', Sound p s' → Keeps (s.ask fnc) s' →
        GetSpec p (getSideEffects p fuel) callee s' := by
      intro callee hcallee s' hs' hkeeps
      refine ih callee s' hs' (fun a ha hunknown => ?_) ?_
      · exact (hpending.leads hkeeps ha hunknown).tail ⟨hskipped, hcallee⟩
      · exact lt_of_lt_of_le (card_unasked_lt hasked hkeeps) (Nat.lt_succ_iff.mp hfuel)
    obtain ⟨written, s₂, hvisit, hs₂, hkeeps₂, hdirect⟩ := visitBody_spec hget (p fnc).body false
      (s.ask fnc) hs₁ (Keeps.refl _) (p fnc).used
    -- a callee that is being asked about would close a circle
    have hget' : ∀ callee ∈ (p fnc).useFunctions, callee ≠ fnc → ∀ s', Sound p s' →
        Keeps (s.ask fnc) s' → ∃ flags s'', getSideEffects p fuel callee s' = some (flags, s'') ∧
          Sound p s'' ∧ Keeps s' s'' ∧ ∀ g, Reaches p callee g → direct p g \ apart ⊆ flags := by
      intro callee hcallee hne s' hs' hkeeps
      obtain ⟨flags, s'', hrun, hs'', hkeeps', hanswers, -⟩ := hget callee hcallee s' hs' hkeeps
      refine ⟨flags, s'', hrun, hs'', hkeeps', hanswers.resolve_left ?_⟩
      rintro ⟨hmem, hunknown⟩
      exact hne (hacyclic callee fnc (hpending.leads hkeeps hmem hunknown)
        (Relation.ReflTransGen.single ⟨hskipped, hcallee⟩))
    obtain ⟨flags, s₃, happend, hs₃, hkeeps₃, hflags, hdone⟩ := appendUsed_spec hget'
      (p fnc).useFunctions (s₂.sideEffectFlags fnc ∪ ownFlags (p fnc) written) s₂ hs₂ hkeeps₂
      fun dep hdep => hdep
    have hreached := reached_subset hs₂ hskipped hdirect hflags hdone
    refine ⟨flags \ {captureString}, (s₃.learn fnc).addFlags fnc (flags \ {captureString}), ?_,
      hs₃.learn hreached, (hkeeps₂.trans hkeeps₃).learn _, Or.inr hreached,
      Or.inr (Or.inr (State.learn_self fnc s₃))⟩
    rw [getSideEffects, if_neg hskip, if_neg hasked, hvisit, Option.bind_some, happend,
      Option.bind_some]

/-! ## The module -/

omit [DecidableEq F] in
theorem sound_cleared (p : F → Function F) : Sound p (cleared p) :=
  ⟨fun _ hf => (nomatch hf), fun _ => Finset.Subset.refl _⟩

theorem markEach_spec [Fintype F] (hacyclic : Acyclic p) {fuel : ℕ} (hfuel : Fintype.card F < fuel)
    (order : List F) : ∀ s, Sound p s →
    ∃ s', markEach p fuel order s = some s' ∧ Sound p s' ∧
      (∀ f, s.knownSideEffects f = true → s'.knownSideEffects f = true) ∧
      ∀ f ∈ order, (p f).skipped = true ∨ s'.knownSideEffects f = true := by
  induction order with
  | nil => exact fun s hs => ⟨s, rfl, hs, fun _ h => h, fun f h => (nomatch h)⟩
  | cons fnc order ih =>
    intro s hs
    by_cases hskip : (p fnc).skipped = true ∨ s.knownSideEffects fnc = true
    · obtain ⟨s', hrun, hs', hknown, hdone⟩ := ih s hs
      refine ⟨s', ?_, hs', hknown, fun f hf => ?_⟩
      · rw [markEach, if_pos hskip, hrun]
      · rcases List.mem_cons.mp hf with rfl | hf
        · exact hskip.imp id (hknown f)
        · exact hdone f hf
    · have hs₁ : Sound p { s with asked := ∅ } := ⟨hs.complete, hs.declared⟩
      have hpending : Pending p { s with asked := ∅ } fnc :=
        fun a ha => absurd ha (Finset.notMem_empty a)
      have hcard : (Finset.univ \ (∅ : Finset F)).card < fuel := by
        rw [Finset.sdiff_empty, Finset.card_univ]
        exact hfuel
      obtain ⟨flags, s₂, hget, hs₂, hkeeps, -, hfinished⟩ :=
        getSideEffects_spec hacyclic fuel fnc _ hs₁ hpending hcard
      obtain ⟨s', hrun, hs', hknown, hdone⟩ := ih s₂ hs₂
      refine ⟨s', ?_, hs', fun f hf => hknown f (hkeeps.known f hf), fun f hf => ?_⟩
      · rw [markEach, if_neg hskip, hget, Option.bind_some, hrun]
      · rcases List.mem_cons.mp hf with rfl | hf
        · rcases hfinished with hskipped | hasked | hfinished
          · exact Or.inl hskipped
          · exact absurd hasked (Finset.notMem_empty f)
          · exact Or.inr (hknown f hfinished)
        · exact hdone f hf

/-- `def f { g() }`, `def g { debug(1) }`. -/
def chain : Fin 2 → Function (Fin 2)
  | 0 => ⟨false, false, ∅, [.call 1 ∅ false], [1], false, false, false, by decide⟩
  | 1 => ⟨false, false, ∅, [.sets {modifyExternal}], [], false, false, false, by decide⟩

/-- `def f { g(); debug(1) }`, `def g { f() }`. -/
def circle : Fin 2 → Function (Fin 2)
  | 0 => ⟨false, false, ∅, [.call 1 ∅ false, .sets {modifyExternal}], [1], false, false, false,
      by decide⟩
  | 1 => ⟨false, false, ∅, [.call 0 ∅ false], [0], false, false, false, by decide⟩

end DaScript.Unused

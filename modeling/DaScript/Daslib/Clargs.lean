import Mathlib.Tactic

/-!
# Daslib/Clargs — one token of a command line, read by several scans

The look-ups of `clargs.das`: each flag goes over all of the arguments by itself, and what is left
for the positionals is found by one more scan.

A scan is a list of hits, the places that it reads; what a function returns is taken from them.
-/

namespace DaScript.Clargs

abbrev Token := List Char

/-- `CommandArgumentInfo`, as far as it is read here. -/
structure CommandArgumentInfo where
  flagName : Token
  shortFlagName : Token
  isPositional : Bool
  /-- `value_type == Type.tBool` -/
  isBool : Bool
  isArray : Bool
  isCount : Bool
  deriving DecidableEq

/-- The names that are looked for. -/
def CommandArgumentInfo.names (a : CommandArgumentInfo) : List Token :=
  if a.shortFlagName = [] then [a.flagName] else [a.flagName, a.shortFlagName]

/-- A token that is a name. -/
def CommandArgumentInfo.exact (a : CommandArgumentInfo) (arg : Token) : Bool := arg ∈ a.names

/-- What follows `name=`, for the first of the names. -/
def CommandArgumentInfo.afterEquals (a : CommandArgumentInfo) (arg : Token) : Option Token :=
  (a.names.find? fun name => name ++ ['='] <+: arg).map fun name => arg.drop (name.length + 1)

/-- An occurrence of the flag. -/
def CommandArgumentInfo.occurs (a : CommandArgumentInfo) (arg : Token) : Bool :=
  a.exact arg || (a.afterEquals arg).isSome

/-- A flag with a value of its own: no `bool` but in arrays, and no count. -/
def CommandArgumentInfo.takesValue (a : CommandArgumentInfo) : Bool :=
  !(a.isBool && !a.isArray) && !a.isCount

/-- A place that is read as a flag, with the place of its value where that is another one. -/
structure Hit where
  flag : ℕ
  value : Option ℕ
  text : Option Token

/-- A loop over the arguments, from a place on. -/
def scan (read : ℕ → Token → List Token → List Hit) : ℕ → List Token → List Hit
  | _, [] => []
  | i, arg :: rest => read i arg rest ++ scan read (i + 1) rest

section Scans

variable (a : CommandArgumentInfo)

/-- `--flag=value` -/
def equalsHit (i : ℕ) (arg : Token) : List Hit :=
  if (a.afterEquals arg).isSome then [⟨i, none, a.afterEquals arg⟩] else []

/-- The loop of `find_flag_raw_value`. -/
def valueHits : ℕ → List Token → List Hit :=
  scan fun i arg rest => if a.exact arg then [⟨i, rest.head?.map fun _ => i + 1, rest.head?⟩]
    else equalsHit a i arg

/-- The loop of `find_bool_flag_raw_value`. -/
def boolHits : ℕ → List Token → List Hit :=
  scan fun i arg _ => if a.exact arg then [⟨i, none, some "true".toList⟩] else equalsHit a i arg

/-- The loop of `find_array_flag_raw_values`, which goes on behind a value. -/
def arrayHits : ℕ → List Token → List Hit
  | _, [] => []
  | i, [arg] => if a.exact arg then [⟨i, none, none⟩] else equalsHit a i arg
  | i, arg :: value :: rest =>
    if a.exact arg then ⟨i, some (i + 1), some value⟩ :: arrayHits (i + 2) rest
    else equalsHit a i arg ++ arrayHits (i + 1) (value :: rest)

/-- The loop of `count_flag`. -/
def countHits : ℕ → List Token → List Hit :=
  scan fun i arg _ => if a.exact arg then [⟨i, none, none⟩] else []

/-- The loops of `flag_present`. -/
def presentHits : ℕ → List Token → List Hit :=
  scan fun i arg _ => if a.occurs arg then [⟨i, none, none⟩] else []

def findFlagRawValue (args : List Token) : Option Token :=
  if a.isPositional then none else ((valueHits a 0 args).filterMap Hit.text).getLast?

def findBoolFlagRawValue (args : List Token) : Option Token :=
  if a.isPositional then none else ((boolHits a 0 args).filterMap Hit.text).getLast?

def findArrayFlagRawValues (args : List Token) : List Token :=
  if a.isPositional then [] else (arrayHits a 0 args).filterMap Hit.text

def countFlag (args : List Token) : ℕ := if a.isPositional then 0 else (countHits a 0 args).length

def flagPresent (args : List Token) : Bool := !(presentHits a 0 args).isEmpty

end Scans

/-- What a token is for `collect_positional_args`. -/
inductive Role
  | flag | value | unknown | positional
  deriving DecidableEq

section Collect

variable (info : List CommandArgumentInfo)

/-- The first declared flag that a token is. -/
def firstFlag (arg : Token) : Option CommandArgumentInfo :=
  info.find? fun a => !a.isPositional && a.occurs arg

def consumesValue (arg : Token) : Bool :=
  (firstFlag info arg).any fun a => a.takesValue && a.exact arg

/-- The loop of `collect_positional_args`: the roles of the tokens. -/
def roles : List Token → List Role
  | [] => []
  | [arg] =>
    if (firstFlag info arg).isSome then [.flag]
    else if 2 ≤ arg.length ∧ arg.head? = some '-' then [.unknown] else [.positional]
  | arg :: next :: rest =>
    if consumesValue info arg then .flag :: .value :: roles rest
    else if (firstFlag info arg).isSome then .flag :: roles (next :: rest)
    else if 2 ≤ arg.length ∧ arg.head? = some '-' then .unknown :: roles (next :: rest)
    else .positional :: roles (next :: rest)

def collectPositionalArgs (args : List Token) : List Token :=
  ((args.zip (roles info args)).filter fun p => p.2 = .positional).map Prod.fst

end Collect

/-! ## One role -/

section OneRole

variable (info : List CommandArgumentInfo) (args : List Token)

/-- The hits that give a flag its value. -/
def kindHits (a : CommandArgumentInfo) (args : List Token) : List Hit :=
  if a.isArray then arrayHits a 0 args else if a.takesValue then valueHits a 0 args else []

/-- **No token is used twice.** -/
structure OneRole : Prop where
  value : ∀ a ∈ info, a.isPositional = false → ∀ hit, hit ∈ valueHits a 0 args ∨
    hit ∈ boolHits a 0 args ∨ hit ∈ arrayHits a 0 args ∨ hit ∈ countHits a 0 args ∨
    hit ∈ presentHits a 0 args → (roles info args)[hit.flag]? ≠ some .value
  positional : ∀ a ∈ info, a.isPositional = false → a.takesValue = true →
    ∀ hit ∈ kindHits a args, ∀ j, hit.value = some j → (roles info args)[j]? ≠ some .positional

/-- A value is no flag: behind a flag's own name, which takes it, there is none. -/
def ValuesAreNoFlags : Prop :=
  ∀ i t v, args[i]? = some t → args[i + 1]? = some v → consumesValue info t = true →
    firstFlag info v = none

/-- The names of the flags. -/
def flagNames : List Token :=
  (info.filter fun a => !a.isPositional).flatMap CommandArgumentInfo.names

/-- No name begins with another one and `=`. -/
def Plain : Prop := ∀ t ∈ flagNames info, ∀ name ∈ flagNames info, ¬ name ++ ['='] <+: t

end OneRole

/-! ## What is read -/

section Reads

variable {a : CommandArgumentInfo} {k : ℕ} {arg : Token} {args rest : List Token} {hit : Hit}

/-- A hit is at a place where the flag occurs; a value is behind the flag's own name. -/
def Reads (a : CommandArgumentInfo) (k : ℕ) (args : List Token) (hit : Hit) : Prop :=
  ∃ i t, hit.flag = k + i ∧ args[i]? = some t ∧ a.occurs t = true ∧
    ∀ j, hit.value = some j → j = hit.flag + 1 ∧ a.exact t = true ∧ (args[i + 1]?).isSome

theorem Reads.behind (h : Reads a (k + 1) rest hit) : Reads a k (arg :: rest) hit := by
  obtain ⟨i, t, hflag, ht, hoccurs, hvalue⟩ := h
  exact ⟨i + 1, t, by omega, ht, hoccurs, hvalue⟩

theorem reads_exact (h : a.exact arg = true) {text : Option Token} :
    Reads a k (arg :: rest) ⟨k, rest.head?.map fun _ => k + 1, text⟩ := by
  refine ⟨0, arg, rfl, rfl, by rw [CommandArgumentInfo.occurs, h, Bool.true_or], fun j hj => ?_⟩
  cases rest with
  | nil => exact absurd hj (by simp)
  | cons next rest => exact ⟨(Option.some.inj hj).symm, h, rfl⟩

theorem reads_occurs (h : a.occurs arg = true) {text : Option Token} :
    Reads a k (arg :: rest) ⟨k, none, text⟩ :=
  ⟨0, arg, rfl, rfl, h, fun _ hj => absurd hj (by simp)⟩

theorem occurs_of_exact (h : a.exact arg = true) : a.occurs arg = true := by
  rw [CommandArgumentInfo.occurs, h, Bool.true_or]

theorem reads_equalsHit (h : hit ∈ equalsHit a k arg) : Reads a k (arg :: rest) hit := by
  rw [equalsHit] at h
  split_ifs at h with hequals
  · exact List.mem_singleton.mp h ▸
      reads_occurs (by rw [CommandArgumentInfo.occurs, hequals, Bool.or_true])
  · exact absurd h List.not_mem_nil

theorem reads_scan {read : ℕ → Token → List Token → List Hit}
    (hread : ∀ {i arg rest}, hit ∈ read i arg rest → Reads a i (arg :: rest) hit)
    (h : hit ∈ scan read k args) : Reads a k args hit := by
  induction args generalizing k with
  | nil => exact absurd h List.not_mem_nil
  | cons arg rest ih => exact (List.mem_append.mp h).elim hread fun h => (ih h).behind

theorem reads_valueHits (h : hit ∈ valueHits a k args) : Reads a k args hit := by
  refine reads_scan (fun h => ?_) h
  split_ifs at h with hexact
  · exact List.mem_singleton.mp h ▸ reads_exact hexact
  · exact reads_equalsHit h

theorem reads_boolHits (h : hit ∈ boolHits a k args) : Reads a k args hit := by
  refine reads_scan (fun h => ?_) h
  split_ifs at h with hexact
  · exact List.mem_singleton.mp h ▸ reads_occurs (occurs_of_exact hexact)
  · exact reads_equalsHit h

theorem reads_arrayHits (h : hit ∈ arrayHits a k args) : Reads a k args hit := by
  induction args using List.twoStepInduction generalizing k with
  | nil => exact absurd h List.not_mem_nil
  | singleton arg =>
    rw [arrayHits] at h
    split_ifs at h with hexact
    · exact List.mem_singleton.mp h ▸ reads_occurs (occurs_of_exact hexact)
    · exact reads_equalsHit h
  | cons_cons arg value rest ih ihNext =>
    rw [arrayHits] at h
    split_ifs at h with hexact
    · rcases List.mem_cons.mp h with rfl | h
      · exact reads_exact hexact
      · exact (ih h).behind.behind
    · exact (List.mem_append.mp h).elim reads_equalsHit fun h => (ihNext value h).behind

theorem reads_countHits (h : hit ∈ countHits a k args) : Reads a k args hit := by
  refine reads_scan (fun h => ?_) h
  split_ifs at h with hexact
  · exact List.mem_singleton.mp h ▸ reads_occurs (occurs_of_exact hexact)
  · exact absurd h List.not_mem_nil

theorem reads_presentHits (h : hit ∈ presentHits a k args) : Reads a k args hit := by
  refine reads_scan (fun h => ?_) h
  split_ifs at h with hoccurs
  · exact List.mem_singleton.mp h ▸ reads_occurs hoccurs
  · exact absurd h List.not_mem_nil

theorem mem_presentHits {i : ℕ} {t : Token} (ht : args[i]? = some t) (hoccurs : a.occurs t = true) :
    ⟨k + i, none, none⟩ ∈ presentHits a k args := by
  induction args generalizing i k with
  | nil => exact absurd ht (by simp)
  | cons arg rest ih =>
    rw [presentHits, scan, List.mem_append]
    cases i with
    | zero =>
      obtain rfl : arg = t := Option.some.inj ht
      exact .inl (by rw [if_pos hoccurs]; exact List.mem_singleton_self _)
    | succ i =>
      have := ih (k := k + 1) ht
      rw [show k + 1 + i = k + (i + 1) by omega] at this
      exact .inr this

end Reads

/-! ## The roles -/

section Roles

variable {info : List CommandArgumentInfo} {args : List Token}

theorem consumesValue_of_value {i : ℕ} (h : (roles info args)[i]? = some .value) :
    ∃ j t, i = j + 1 ∧ args[j]? = some t ∧ consumesValue info t = true := by
  induction args using List.twoStepInduction generalizing i with
  | nil => exact absurd h (by simp [roles])
  | singleton arg =>
    rw [roles] at h
    split_ifs at h <;> cases i <;> simp at h
  | cons_cons arg next rest ih ihNext =>
    rw [roles] at h
    by_cases hconsumes : consumesValue info arg = true
    · rw [if_pos hconsumes] at h
      rcases i with - | - | i
      · exact absurd h (by simp)
      · exact ⟨0, arg, rfl, rfl, hconsumes⟩
      · obtain ⟨j, t, rfl, ht, hc⟩ := ih h
        exact ⟨j + 2, t, rfl, ht, hc⟩
    · rw [if_neg hconsumes] at h
      cases i with
      | zero => split_ifs at h <;> simp at h
      | succ i =>
        obtain ⟨j, t, rfl, ht, hc⟩ := ihNext next (i := i) (by split_ifs at h <;> exact h)
        exact ⟨j + 1, t, rfl, ht, hc⟩

theorem value_of_consumesValue {i : ℕ} {t v : Token} (ht : args[i]? = some t)
    (hv : args[i + 1]? = some v) (hconsumes : consumesValue info t = true)
    (hrole : (roles info args)[i]? ≠ some .value) : (roles info args)[i + 1]? = some .value := by
  induction args using List.twoStepInduction generalizing i with
  | nil => exact absurd ht (by simp)
  | singleton arg => exact absurd hv (by simp)
  | cons_cons arg next rest ih ihNext =>
    rw [roles] at hrole ⊢
    by_cases harg : consumesValue info arg = true
    · rw [if_pos harg] at hrole ⊢
      rcases i with - | - | i
      · rfl
      · exact absurd rfl hrole
      · exact ih ht hv hrole
    · rw [if_neg harg] at hrole ⊢
      cases i with
      | zero =>
        obtain rfl : arg = t := Option.some.inj ht
        exact absurd hconsumes harg
      | succ i =>
        have := ihNext next (i := i) ht hv (by split_ifs at hrole <;> exact hrole)
        split_ifs <;> exact this

end Roles

/-! ## One role for each token -/

section Main

variable {info : List CommandArgumentInfo} {args : List Token}

theorem firstFlag_eq_none {t : Token} :
    firstFlag info t = none ↔ ∀ a ∈ info, a.isPositional = false → a.occurs t = false := by
  simp [firstFlag]

theorem eq_of_mem_names (hdistinct : (flagNames info).Nodup) {a b : CommandArgumentInfo}
    (ha : a ∈ info.filter fun a => !a.isPositional)
    (hb : b ∈ info.filter fun a => !a.isPositional) {t : Token} (hat : t ∈ a.names)
    (hbt : t ∈ b.names) : a = b := by
  have hpair := (List.nodup_flatMap.mp hdistinct).2
  exact List.Pairwise.forall_of_forall_of_flip (R := fun a b => t ∈ a.names → t ∈ b.names → a = b)
    (fun _ _ _ _ => rfl) (hpair.imp fun hab h h' => (hab h h').elim)
    (hpair.imp fun hab h h' => (hab h' h).elim) ha hb hat hbt

theorem mem_flagNames {a : CommandArgumentInfo} (ha : a ∈ info) (hpos : a.isPositional = false)
    {t : Token} (ht : t ∈ a.names) : t ∈ flagNames info :=
  List.mem_flatMap.mpr ⟨a, List.mem_filter.mpr ⟨ha, by rw [hpos]; rfl⟩, ht⟩

theorem firstFlag_of_exact (hdistinct : (flagNames info).Nodup) (hplain : Plain info)
    {a : CommandArgumentInfo} (ha : a ∈ info) (hpos : a.isPositional = false) {t : Token}
    (ht : a.exact t = true) : firstFlag info t = some a := by
  have hat : t ∈ a.names := of_decide_eq_true ht
  cases hfirst : firstFlag info t with
  | none =>
    have := firstFlag_eq_none.1 hfirst a ha hpos
    rw [occurs_of_exact ht] at this
    exact absurd this (by simp)
  | some b =>
    have hb := List.mem_of_find?_eq_some hfirst
    have hfound := List.find?_some hfirst
    rw [Bool.and_eq_true, Bool.not_eq_true'] at hfound
    obtain ⟨hposb, hoccurs⟩ := hfound
    have hno : b.afterEquals t = none := by
      rw [CommandArgumentInfo.afterEquals, Option.map_eq_none_iff, List.find?_eq_none]
      intro name hname
      rw [decide_eq_true_eq]
      exact hplain t (mem_flagNames ha hpos hat) name (mem_flagNames hb hposb hname)
    rw [CommandArgumentInfo.occurs, hno, Option.isSome_none, Bool.or_false] at hoccurs
    rw [eq_of_mem_names hdistinct (List.mem_filter.mpr ⟨hb, by rw [hposb]; rfl⟩)
      (List.mem_filter.mpr ⟨ha, by rw [hpos]; rfl⟩) (of_decide_eq_true hoccurs) hat]

theorem not_value_of_reads (hvalues : ValuesAreNoFlags info args) {a : CommandArgumentInfo}
    (ha : a ∈ info) (hpos : a.isPositional = false) {hit : Hit} (h : Reads a 0 args hit) :
    (roles info args)[hit.flag]? ≠ some .value := by
  obtain ⟨i, t, hflag, ht, hoccurs, -⟩ := h
  rw [hflag, Nat.zero_add]
  intro hrole
  obtain ⟨j, u, rfl, hu, hconsumes⟩ := consumesValue_of_value hrole
  have := firstFlag_eq_none.1 (hvalues j u t hu ht hconsumes) a ha hpos
  rw [hoccurs] at this
  exact absurd this (by simp)

theorem reads_kindHits {a : CommandArgumentInfo} {hit : Hit} (h : hit ∈ kindHits a args) :
    Reads a 0 args hit := by
  rw [kindHits] at h
  split_ifs at h
  · exact reads_arrayHits h
  · exact reads_valueHits h
  · exact absurd h List.not_mem_nil

theorem oneRole_of_valuesAreNoFlags (hdistinct : (flagNames info).Nodup) (hplain : Plain info)
    (hvalues : ValuesAreNoFlags info args) : OneRole info args where
  value a ha hpos hit h := not_value_of_reads hvalues ha hpos <| by
    rcases h with h | h | h | h | h
    · exact reads_valueHits h
    · exact reads_boolHits h
    · exact reads_arrayHits h
    · exact reads_countHits h
    · exact reads_presentHits h
  positional a ha hpos htakes hit h j hj := by
    have hreads := reads_kindHits h
    have hnot := not_value_of_reads hvalues ha hpos hreads
    obtain ⟨i, t, hflag, ht, -, hvalue⟩ := hreads
    obtain ⟨rfl, hexact, hnext⟩ := hvalue j hj
    obtain ⟨v, hv⟩ := Option.isSome_iff_exists.mp hnext
    have hconsumes : consumesValue info t = true := by
      rw [consumesValue, firstFlag_of_exact hdistinct hplain ha hpos hexact, Option.any_some,
        htakes, hexact, Bool.and_self]
    rw [hflag, Nat.zero_add] at hnot ⊢
    rw [value_of_consumesValue ht hv hconsumes hnot]
    simp

theorem firstFlag_of_value (h : OneRole info args) {i : ℕ} {t : Token} (ht : args[i]? = some t)
    (hrole : (roles info args)[i]? = some .value) : firstFlag info t = none := by
  refine firstFlag_eq_none.2 fun a ha hpos => Bool.eq_false_iff.mpr fun hoccurs => ?_
  have hmem := mem_presentHits (k := 0) ht hoccurs
  exact h.value a ha hpos _ (.inr (.inr (.inr (.inr hmem)))) (by rwa [Nat.zero_add])

theorem valuesAreNoFlags_of_oneRole (h : OneRole info args) : ValuesAreNoFlags info args := by
  intro i t v ht hv hconsumes
  by_cases hrole : (roles info args)[i]? = some .value
  · rw [consumesValue, firstFlag_of_value h ht hrole] at hconsumes
    exact absurd hconsumes (by simp)
  · exact firstFlag_of_value h hv (value_of_consumesValue ht hv hconsumes hrole)

end Main

/-- `--root` with a value, and the switch `--verbose`. -/
def rootVerbose : List CommandArgumentInfo :=
  [⟨"--root".toList, [], false, false, false, false⟩,
    ⟨"--verbose".toList, [], false, true, false, false⟩]

section Last

variable {a : CommandArgumentInfo} {args : List Token}

theorem scan_append (read : ℕ → Token → List Token → List Hit) (args tail : List Token) (k : ℕ) :
    ∃ before, scan read k (args ++ tail) = before ++ scan read (k + args.length) tail := by
  induction args generalizing k with
  | nil => exact ⟨[], rfl⟩
  | cons arg rest ih =>
    obtain ⟨before, hbefore⟩ := ih (k + 1)
    refine ⟨read k arg (rest ++ tail) ++ before, ?_⟩
    rw [List.cons_append, scan, hbefore, List.append_assoc, List.length_cons,
      show k + 1 + rest.length = k + (rest.length + 1) by omega]

theorem not_exact_of_occurs {t : Token} (h : a.occurs t = false) :
    a.exact t = false ∧ a.afterEquals t = none := by
  rw [CommandArgumentInfo.occurs, Bool.or_eq_false_iff, Option.isSome_eq_false_iff,
    Option.isNone_iff_eq_none] at h
  exact h

theorem valueHits_eq (a : CommandArgumentInfo) (k : ℕ) (arg : Token) (rest : List Token) :
    valueHits a k (arg :: rest) =
      (if a.exact arg then [⟨k, rest.head?.map fun _ => k + 1, rest.head?⟩]
        else equalsHit a k arg) ++ valueHits a (k + 1) rest :=
  rfl

/-- What is no occurrence is passed. -/
theorem valueHits_cons {t : Token} (h : a.occurs t = false) (k : ℕ) (rest : List Token) :
    valueHits a k (t :: rest) = valueHits a (k + 1) rest := by
  obtain ⟨hexact, hequals⟩ := not_exact_of_occurs h
  rw [valueHits_eq, hexact, equalsHit, hequals]
  rfl

theorem findFlagRawValue_append (hpos : a.isPositional = false) {tail : List Token} {v : Token}
    (htail : ∀ k, ∃ hit, valueHits a k tail = [hit] ∧ hit.text = some v) :
    findFlagRawValue a (args ++ tail) = some v := by
  obtain ⟨before, hbefore⟩ := scan_append (fun i arg rest =>
    if a.exact arg then [⟨i, rest.head?.map fun _ => i + 1, rest.head?⟩] else equalsHit a i arg)
    args tail 0
  obtain ⟨hit, hhits, htext⟩ := htail (0 + args.length)
  rw [findFlagRawValue, hpos, if_neg Bool.false_ne_true, valueHits, hbefore, ← valueHits, hhits,
    List.filterMap_append, List.filterMap_cons, htext, List.filterMap_nil,
    List.getLast?_concat]

/-- **One value and many are read alike**, where no value is an occurrence of the flag: the one is
the last of the many. -/
theorem findFlagRawValue_eq_getLast (a : CommandArgumentInfo) (args : List Token)
    (hvalues : ∀ i t v, args[i]? = some t → args[i + 1]? = some v → a.exact t = true →
      a.occurs v = false) :
    findFlagRawValue a args = (findArrayFlagRawValues a args).getLast? := by
  have hhits : ∀ k, arrayHits a k args = valueHits a k args := by
    induction args using List.twoStepInduction with
    | nil => exact fun _ => rfl
    | singleton arg =>
      intro k
      rw [arrayHits, valueHits, scan, scan, List.append_nil]
      rfl
    | cons_cons arg value rest ih ihNext =>
      intro k
      have hnext := ihNext value (fun i t v ht hv => hvalues (i + 1) t v ht hv)
      rw [arrayHits]
      by_cases hexact : a.exact arg = true
      · have hvalue := hvalues 0 arg value rfl rfl hexact
        rw [if_pos hexact, ih (fun i t v ht hv => hvalues (i + 2) t v ht hv),
          valueHits_eq a k arg, if_pos hexact, valueHits_cons hvalue]
        rfl
      · rw [if_neg hexact, hnext, valueHits_eq a k arg, if_neg hexact]
  rw [findFlagRawValue, findArrayFlagRawValues, hhits 0]
  split_ifs <;> rfl

end Last

theorem findFlagRawValue_eq_getLast_root :
    findFlagRawValue ⟨"--root".toList, [], false, false, true, false⟩
      ["--root".toList, "b".toList] =
    (findArrayFlagRawValues ⟨"--root".toList, [], false, false, true, false⟩
      ["--root".toList, "b".toList]).getLast? := by
  refine findFlagRawValue_eq_getLast _ _ ?_
  rintro (- | i) t v ht hv hexact
  · obtain rfl : "b".toList = v := Option.some.inj hv
    decide
  · exact absurd hv (by simp)

end DaScript.Clargs

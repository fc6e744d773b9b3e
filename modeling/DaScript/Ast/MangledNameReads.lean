import DaScript.Ast.MangledName

/-!
# Ast/MangledNameReads — what is read of a type that is spelled

The text of a type is never mistaken for a longer one: behind it stand a bracket, a semicolon or
nothing (`Ends`).  But a structure is an error, and what a fixed array without an alias has for an
element may lose its alias and its removals to the array.
-/

namespace DaScript.MangledName

variable {A S E : Type} {lib : Library A S E}

/-- A type that is read, and the text behind it; nothing at an error. -/
abbrev Read (A S E : Type) := Option (TypeDecl A S E × List Char)

/-- What may stand behind a type. -/
inductive Ends : List Char → Prop
  | nil : Ends []
  | close (rest : List Char) : Ends ('>' :: rest)
  | next (rest : List Char) : Ends (';' :: rest)

/-- A type is read from a text, as soon as there are so many levels. -/
def Reads (lib : Library A S E) (m : ℕ) (text : List Char) (res : Read A S E) : Prop :=
  ∀ n, m ≤ n → parse lib n text = res

/-- A type that is read, changed. -/
def onType (g : TypeDecl A S E → TypeDecl A S E) (res : Read A S E) : Read A S E :=
  res.map fun (pt, rest) => (g pt, rest)

theorem Reads.mono {m m' : ℕ} {text : List Char} {res : Read A S E} (h : Reads lib m text res)
    (hle : m ≤ m') : Reads lib m' text res := fun n hn => h n (hle.trans hn)

theorem Reads.of_succ {m : ℕ} {text : List Char} {res : Read A S E}
    (h : ∀ n, m ≤ n → parse lib (n + 1) text = res) : Reads lib (m + 1) text res := by
  intro n hn
  cases n with
  | zero => cases hn
  | succ n => exact h n (Nat.le_of_succ_le_succ hn)

/-! ## Flags -/

section Stages

variable {m : ℕ} {body : List Char} {res : Read A S E}

theorem reads_symbol {c : Char} {text : List Char} (hc : flagOf c = none)
    (h : ∀ n, m ≤ n → parseSymbol (parse lib n) lib c text = res) :
    Reads lib (m + 1) (c :: text) res := by
  refine .of_succ fun n hn => ?_
  rw [parse, hc]
  exact h n hn

theorem reads_flag {c : Char} {put : Flags → Flags} (hc : flagOf c = some put)
    (h : Reads lib m body res) : Reads lib (m + 1) (c :: body) (onType (.mapFlags put) res) := by
  refine .of_succ fun n hn => ?_
  rw [parse, hc]
  dsimp only
  rw [h n hn]
  rfl

/-- A setter that is used or not. -/
def pick {T : Type} (b : Bool) (g : T → T) : T → T := if b then g else id

theorem onType_id (res : Read A S E) : onType id res = res := by
  cases res <;> rfl

theorem mapFlags_id (t : TypeDecl A S E) : t.mapFlags id = t := by
  cases t <;> rfl

theorem reads_when (b : Bool) {c : Char} {put : Flags → Flags} (hc : flagOf c = some put)
    (h : Reads lib m body res) :
    Reads lib (m + (when b [c]).length) (when b [c] ++ body)
      (onType (.mapFlags (pick b put)) res) := by
  cases b with
  | true => exact reads_flag hc h
  | false =>
    have hid : (TypeDecl.mapFlags (pick false put) : TypeDecl A S E → TypeDecl A S E) = id :=
      funext mapFlags_id
    rw [hid, onType_id]
    exact h

/-- The flags before a type, on those that it has. -/
def Flags.set (f : Flags) : Flags → Flags := fun g =>
  pick f.constant (fun f => { f with constant := true })
    (pick f.ref (fun f => { f with ref := true })
      (pick f.temporary (fun f => { f with temporary := true })
        (pick f.implicit (fun f => { f with implicit := true })
          (pick f.explicitConst (fun f => { f with explicitConst := true })
            (pick f.explicitRef (fun f => { f with explicitRef := true })
              (pick f.isExplicit (fun f => { f with isExplicit := true })
                (pick f.aotAlias (fun f => { f with aotAlias := true }) g)))))))

theorem Flags.set_empty (f : Flags) : f.set {} = f := by
  rcases f with ⟨_ | _, _ | _, _ | _, _ | _, _ | _, _ | _, _ | _, _ | _⟩ <;> rfl

theorem onType_mapFlags (g g' : Flags → Flags) (res : Read A S E) :
    onType (.mapFlags g) (onType (.mapFlags g') res) =
      onType (.mapFlags fun f => g (g' f)) res := by
  cases res with
  | none => rfl
  | some p =>
    obtain ⟨t, rest⟩ := p
    cases t <;> rfl

theorem reads_flags (f : Flags) (h : Reads lib m body res) :
    Reads lib (m + f.text.length) (f.text ++ body) (onType (.mapFlags f.set) res) := by
  have h₈ := reads_when f.aotAlias (c := 'F') rfl h
  have h₇ := reads_when f.isExplicit (c := 'X') rfl h₈
  have h₆ := reads_when f.explicitRef (c := 'R') rfl h₇
  have h₅ := reads_when f.explicitConst (c := '=') rfl h₆
  have h₄ := reads_when f.implicit (c := 'I') rfl h₅
  have h₃ := reads_when f.temporary (c := '#') rfl h₄
  have h₂ := reads_when f.ref (c := '&') rfl h₃
  have h₁ := reads_when f.constant (c := 'C') rfl h₂
  simp only [onType_mapFlags] at h₁
  unfold Flags.text
  simp only [List.append_assoc]
  refine h₁.mono ?_
  simp only [List.length_append]
  omega

/-! ## What is taken away -/

theorem reads_remove (b : Bool) {t : List Char} {put : Removes → Removes}
    {clear : Flags → Flags} (htext : ∀ body, removeOf (t ++ body) = some (put, clear, body))
    (h : Reads lib m body res) :
    Reads lib (m + (when b ('-' :: t)).length) (when b ('-' :: t) ++ body)
      (onType (pick b fun pt => (pt.mapFlags clear).mapRemoves put) res) := by
  cases b with
  | true =>
    refine Reads.mono (reads_symbol rfl fun n hn => ?_)
      (show m + 1 ≤ m + (t.length + 1) by omega)
    change (removeOf (t ++ body)).bind _ = _
    rw [htext]
    change (parse lib n body).bind _ = _
    rw [h n hn]
    cases res <;> rfl
  | false => exact (onType_id res).symm ▸ h

/-- The removals before a type. -/
def Removes.onto (r : Removes) (t : TypeDecl A S E) : TypeDecl A S E :=
  pick r.removeDim (fun t => (t.mapFlags id).mapRemoves fun r => { r with removeDim := true })
    (pick r.removeConstant (fun t => (t.mapFlags fun f => { f with constant := false }).mapRemoves
        fun r => { r with removeConstant := true })
      (pick r.removeRef (fun t => (t.mapFlags fun f => { f with ref := false }).mapRemoves
          fun r => { r with removeRef := true })
        (pick r.removeTemporary (fun t =>
          (t.mapFlags fun f => { f with temporary := false }).mapRemoves
            fun r => { r with removeTemporary := true }) t)))

theorem onType_onType (g g' : TypeDecl A S E → TypeDecl A S E) (res : Read A S E) :
    onType g (onType g' res) = onType (fun t => g (g' t)) res := by
  cases res <;> rfl

theorem reads_removes (r : Removes) (h : Reads lib m body res) :
    Reads lib (m + r.text.length) (r.text ++ body) (onType r.onto res) := by
  have h₄ := reads_remove r.removeTemporary (t := ['#']) (fun _ => rfl) h
  have h₃ := reads_remove r.removeRef (t := ['&']) (fun _ => rfl) h₄
  have h₂ := reads_remove r.removeConstant (t := ['C']) (fun _ => rfl) h₃
  have h₁ := reads_remove r.removeDim (t := ['[', ']']) (fun _ => rfl) h₂
  simp only [onType_onType] at h₁
  unfold Removes.text
  simp only [List.append_assoc]
  refine h₁.mono ?_
  simp only [List.length_append]
  omega

theorem Removes.onto_node (r : Removes) (a : Name) (n : List Name) (ts : TypeDecls A S E)
    (t u : MaybeType A S E) (b : Base A S E) :
    r.onto (.node {} {} a n ts t u b) = .node {} r a n ts t u b := by
  rcases r with ⟨_ | _, _ | _, _ | _, _ | _⟩ <;> rfl

/-! ## Names -/

theorem takeWhile_name (allowModule : Bool) {name : List Char}
    (hname : ∀ c ∈ name, isNameChar allowModule c = true) {c : Char}
    (hc : isNameChar allowModule c = false) (rest : List Char) :
    (name ++ c :: rest).takeWhile (isNameChar allowModule) = name ∧
      (name ++ c :: rest).dropWhile (isNameChar allowModule) = c :: rest := by
  constructor
  · rw [List.takeWhile_append_of_pos hname, List.takeWhile_cons, if_neg (by simp [hc]),
      List.append_nil]
  · rw [List.dropWhile_append_of_pos hname, List.dropWhile_cons, if_neg (by simp [hc])]

theorem parseAnyNameInBrackets_name {name : List Char}
    (hname : ∀ c ∈ name, isNameChar true c = true) (rest : List Char) :
    parseAnyNameInBrackets true ('<' :: (name ++ '>' :: rest)) = some (name, rest) := by
  obtain ⟨htake, hdrop⟩ := takeWhile_name true hname (c := '>') rfl rest
  rw [parseAnyNameInBrackets, parseAnyName, htake, hdrop]
  rfl

theorem parseName_name (name : Name) {c : Char} (hc : isNameChar false c = false)
    (rest : List Char) : parseName (name.chars ++ c :: rest) = (name, c :: rest) := by
  obtain ⟨htake, hdrop⟩ := takeWhile_name false name.valid hc rest
  exact Prod.ext (Name.ext htake) hdrop

theorem parseNameInBrackets_name (name : Name) (rest : List Char) :
    parseNameInBrackets ('<' :: (name.chars ++ '>' :: rest)) = some (name, rest) := by
  rw [parseNameInBrackets, parseName_name name rfl]
  rfl

theorem reads_alias (aname : Name) (h : Reads lib m body res) :
    Reads lib (m + (aliasText aname).length) (aliasText aname ++ body)
      (onType (if aname.chars = [] then id else .setAlias aname) res) := by
  unfold aliasText
  split
  · exact (onType_id res).symm ▸ h
  · refine Reads.mono (reads_symbol rfl fun n hn => ?_) (show m + 1 ≤ _ by simp)
    change (parseNameInBrackets ('<' :: ((aname.chars ++ ['>']) ++ body))).bind _ = _
    rw [List.append_assoc, List.singleton_append, parseNameInBrackets_name]
    change (parse lib n body).bind _ = _
    rw [h n hn]
    cases res <;> rfl

theorem parseNames_text : ∀ (names : List Name) (sep : Char) (n : ℕ) (rest : List Char),
    sep ≠ '>' → names.length < n →
    parseNames n (namesText sep names ++ '>' :: rest) = some (names, rest)
  | [], _, n + 1, _, _, _ => rfl
  | name :: names, sep, n + 1, rest, hsep, hn => by
    have hnext : ∃ c tail, namesText ';' names ++ '>' :: rest = c :: tail ∧
        isNameChar false c = false := by
      cases names with
      | nil => exact ⟨'>', rest, rfl, rfl⟩
      | cons _ _ => exact ⟨';', _, rfl, rfl⟩
    obtain ⟨c, tail, hnext, hc⟩ := hnext
    have hname := parseName_name name hc tail
    have ih := parseNames_text names ';' n rest (by decide) (by
      simpa using hn)
    rw [hnext] at ih
    rw [namesText, List.cons_append, List.append_assoc, hnext, parseNames, hname]
    · change (parseNames n (c :: tail)).bind _ = _
      rw [ih]
      rfl
    · exact fun h => hsep h

theorem reads_argNames (argNames : List Name) (h : Reads lib m body res) :
    Reads lib (m + (argNamesText argNames).length) (argNamesText argNames ++ body)
      (onType (if argNames = [] then id else .setArgNames argNames) res) := by
  unfold argNamesText
  split
  · exact (onType_id res).symm ▸ h
  · refine Reads.mono (reads_symbol rfl fun n hn => ?_) (show m + 1 ≤ _ by simp)
    have hlength : ∀ (names : List Name) (sep : Char),
        names.length ≤ (namesText sep names).length := by
      intro names
      induction names with
      | nil => exact fun _ => Nat.zero_le _
      | cons name names ih =>
        intro sep
        have hle := ih ';'
        simp only [namesText, List.length_cons, List.length_append]
        omega
    have hle := hlength argNames '<'
    change (parseNames _ ((namesText '<' argNames ++ ['>']) ++ body)).bind _ = _
    rw [List.append_assoc, List.singleton_append,
      parseNames_text argNames '<' _ body (by decide) (by simp; omega)]
    change (parse lib n body).bind _ = _
    rw [h n hn]
    cases res <;> rfl

end Stages

/-! ## What is read back -/

/-- Whether it is a structure. -/
def Base.isStructure : Base A S E → Bool
  | .structure _ => true
  | _ => false

/-- What either has. -/
def Removes.and (r r' : Removes) : Removes where
  removeDim := r.removeDim || r'.removeDim
  removeConstant := r.removeConstant || r'.removeConstant
  removeRef := r.removeRef || r'.removeRef
  removeTemporary := r.removeTemporary || r'.removeTemporary

/-- A fixed array that is read: without an alias it takes the alias and the removals of an element
that nothing is spelled before. -/
def arrayOf (f : Flags) (r : Removes) (d : ℤ) (a : Name) : TypeDecl A S E → TypeDecl A S E
  | .node f' r' a' n ts t u b =>
    if a.chars = [] ∧ f' = {} then
      .fixedArray f (r.and r') d a' (.node {} {} .empty n ts t u b)
    else .fixedArray f r d a (.node f' r' a' n ts t u b)
  | e => .fixedArray f r d a e

mutual

/-- **What is read of a type that is spelled**; nothing, where a structure is in it. -/
def TypeDecl.reads : TypeDecl A S E → Option (TypeDecl A S E)
  | .node f r a n ts t u b => do
    let ts ← ts.reads
    let t ← t.reads
    let u ← u.reads
    if b.isStructure then none else some (.node f r a n ts t u b)
  | .fixedArray f r d a t => t.reads.map (arrayOf f r d a)

def TypeDecls.reads : TypeDecls A S E → Option (TypeDecls A S E)
  | .nil => some .nil
  | .cons type rest => do
    let type ← type.reads
    let rest ← rest.reads
    some (.cons type rest)

def MaybeType.reads : MaybeType A S E → Option (MaybeType A S E)
  | .null => some .null
  | .type type => type.reads.map .type

end

/-- A type is read from its text, as what it is read as. -/
def TypeDecl.Spelled (lib : Library A S E) (t : TypeDecl A S E) : Prop :=
  ∀ rest, Ends rest →
    Reads lib (t.text lib).length (t.text lib ++ rest) (t.reads.map fun pt => (pt, rest))

/-- And so is each of these. -/
def TypeDecls.Spelled (lib : Library A S E) (ts : TypeDecls A S E) : Prop :=
  ∀ k n body, (ts.text lib).length ≤ k → (ts.text lib).length < n →
    parseTypes (parse lib k) n (ts.text lib ++ '>' :: body) = ts.reads.map fun ts => (ts, body)

def MaybeType.Spelled (lib : Library A S E) : MaybeType A S E → Prop
  | .null => True
  | .type pt => pt.Spelled lib

/-! ## The base -/

variable (lib) in
theorem parseSymbol_plain (type : Plain) {rest : List Char} (hrest : Ends rest) :
    ∃ c text, type.text ++ rest = c :: text ∧ flagOf c = none ∧
      ∀ below, parseSymbol below lib c text = some (.ofBase (.plain type), rest) := by
  cases hrest <;> cases type <;> exact ⟨_, _, rfl, rfl, fun _ => rfl⟩

theorem parseAnyNameInBrackets_own {α : Type} (d : Directory α) (x : α) (rest : List Char) :
    parseAnyNameInBrackets true ('<' :: ((d.name x ++ ['>']) ++ rest)) =
      some (d.name x, rest) := by
  rw [List.append_assoc, List.singleton_append, parseAnyNameInBrackets_name (d.valid x)]

theorem reads_base (b : Base A S E) {rest : List Char} (hrest : Ends rest) :
    Reads lib (b.text lib).length (b.text lib ++ rest)
      (if b.isStructure then none else some (.ofBase b, rest)) := by
  cases b with
  | plain type =>
    obtain ⟨c, text, htext, hflag, hsymbol⟩ := parseSymbol_plain lib type hrest
    have hlength : 0 + 1 ≤ type.text.length := by
      cases type <;> decide
    rw [Base.text, htext]
    exact (reads_symbol hflag fun n _ => hsymbol _).mono hlength
  | pointer smartPtr =>
    refine (reads_symbol (m := 0) rfl fun n _ => ?_).mono (Nat.le_add_left _ _)
    cases smartPtr <;> cases hrest <;> rfl
  | handle ann =>
    refine (reads_symbol (m := 0) rfl fun n _ => ?_).mono (Nat.le_add_left _ _)
    change (parseAnyNameInBrackets true
      ('<' :: ((lib.annotations.name ann ++ ['>']) ++ rest))).bind _ = _
    rw [parseAnyNameInBrackets_own, Option.bind_some]
    dsimp only
    rw [lib.annotations.resolves]
    rfl
  | «structure» structType =>
    refine (reads_symbol (m := 0) rfl fun n _ => ?_).mono (Nat.le_add_left _ _)
    change (parseAnyNameInBrackets true
      ('<' :: ((lib.structures.name structType ++ ['>']) ++ rest))).bind _ = _
    rw [parseAnyNameInBrackets_own, Option.bind_some]
    dsimp only
    rw [lib.structures.resolves]
    rfl
  | enumeration width enumType =>
    cases enumType with
    | none =>
      refine (reads_symbol (m := 0) rfl fun n _ => ?_).mono (Nat.le_add_left _ _)
      cases width <;> cases hrest <;> rfl
    | some enumType =>
      refine (reads_symbol (m := 0) rfl fun n _ => ?_).mono (Nat.le_add_left _ _)
      change parseEnumeration lib ((widthText width ++ '<' ::
        (lib.enumerations.name enumType ++ ['>'])) ++ rest) = _
      have hwidth : ∀ tail, parseWidth (widthText width ++ '<' :: tail) = (width, '<' :: tail) := by
        intro tail
        cases width <;> rfl
      rw [List.append_assoc, List.cons_append, parseEnumeration, hwidth]
      change (parseAnyNameInBrackets true
        ('<' :: ((lib.enumerations.name enumType ++ ['>']) ++ rest))).bind _ = _
      rw [parseAnyNameInBrackets_own, Option.bind_some]
      dsimp only
      rw [lib.enumerations.resolves]
      rfl

/-! ## Types in a type -/

section Parts

variable {m : ℕ} {body : List Char} {res : Read A S E}

theorem parseBrackets_text {t : TypeDecl A S E} (ht : t.Spelled lib) {n : ℕ}
    (hn : (t.text lib).length ≤ n) (body : List Char) :
    parseBrackets (parse lib n) ('<' :: ((t.text lib ++ ['>']) ++ body)) =
      t.reads.map fun pt => (pt, body) := by
  have hparse := ht ('>' :: body) (.close body) n hn
  rw [List.append_assoc, List.singleton_append]
  change (parse lib n (t.text lib ++ '>' :: body)).bind _ = _
  rw [hparse]
  cases t.reads <;> rfl

/-- A type that may be null. -/
def MaybeType.put (put : TypeDecl A S E → TypeDecl A S E → TypeDecl A S E) :
    MaybeType A S E → TypeDecl A S E → TypeDecl A S E
  | .null => id
  | .type pt => put pt

theorem reads_maybe {c : Char} {g : TypeDecl A S E → TypeDecl A S E → TypeDecl A S E}
    (hc : flagOf c = none) (hsymbol : ∀ below text, parseSymbol below lib c text =
      (parseBrackets below text).bind fun p => (below p.2).bind fun q => some (g p.1 q.1, q.2))
    (t : MaybeType A S E) (ht : t.Spelled lib) (h : Reads lib m body res) :
    Reads lib (m + (t.text lib c).length) (t.text lib c ++ body)
      (t.reads.bind fun t => onType (t.put g) res) := by
  cases t with
  | null =>
    change Reads lib m body (onType id res)
    rwa [onType_id]
  | type t =>
    have hlength : (m + (t.text lib).length) + 1 ≤ m + (MaybeType.text lib c (.type t)).length := by
      simp only [MaybeType.text, List.length_cons, List.length_append]
      omega
    refine (reads_symbol hc fun n hn => ?_).mono hlength
    have hbrackets := parseBrackets_text ht (show (t.text lib).length ≤ n by omega) body
    rw [hsymbol]
    change (parseBrackets (parse lib n) ('<' :: ((t.text lib ++ ['>']) ++ body))).bind _ = _
    rw [hbrackets, MaybeType.reads]
    cases t.reads with
    | none => rfl
    | some pt =>
      change (parse lib n body).bind _ = _
      rw [h n (by omega)]
      cases res <;> rfl

theorem parseTypes_cons {t : TypeDecl A S E} {ts : TypeDecls A S E} (ht : t.Spelled lib)
    (hts : ts.Spelled lib) {sep : Char} (hsep : sep ≠ '>') {k n : ℕ}
    (hk : (t.text lib).length + (ts.text lib).length ≤ k) (hn : (ts.text lib).length < n)
    (body : List Char) :
    parseTypes (parse lib k) (n + 1) (sep :: (t.text lib ++ (ts.text lib ++ '>' :: body))) =
      (TypeDecls.cons t ts).reads.map fun ts => (ts, body) := by
  have hnext : Ends (ts.text lib ++ '>' :: body) ∧
      separated (ts.text lib ++ '>' :: body) = some (ts.text lib ++ '>' :: body) := by
    cases ts with
    | nil => exact ⟨.close _, rfl⟩
    | cons _ _ => exact ⟨.next _, rfl⟩
  have hparse := ht _ hnext.1 k (by omega)
  have hrest := hts k n body (by omega) hn
  rw [parseTypes, if_neg hsep]
  change (parse lib k (t.text lib ++ (ts.text lib ++ '>' :: body))).bind _ = _
  rw [hparse, TypeDecls.reads]
  cases t.reads with
  | none => rfl
  | some pt =>
    change (separated (ts.text lib ++ '>' :: body)).bind _ = _
    rw [hnext.2]
    change (parseTypes (parse lib k) n (ts.text lib ++ '>' :: body)).bind _ = _
    rw [hrest]
    cases ts.reads <;> rfl

/-- Types that there may be none of. -/
def TypeDecls.put : TypeDecls A S E → TypeDecl A S E → TypeDecl A S E
  | .nil => id
  | .cons type rest => .setArgTypes (.cons type rest)

theorem reads_argTypes {t : TypeDecl A S E} {ts : TypeDecls A S E} (ht : t.Spelled lib)
    (hts : ts.Spelled lib) (h : Reads lib m body res) :
    Reads lib (m + ((TypeDecls.cons t ts).argsText lib).length)
      ((TypeDecls.cons t ts).argsText lib ++ body)
      ((TypeDecls.cons t ts).reads.bind fun ts => onType ts.put res) := by
  have hlength : (m + (t.text lib).length + (ts.text lib).length) + 1 ≤
      m + ((TypeDecls.cons t ts).argsText lib).length := by
    simp only [TypeDecls.argsText, List.length_cons, List.length_append]
    omega
  refine (reads_symbol (c := '0') rfl fun n hn => ?_).mono hlength
  have htypes : ∀ n', (ts.text lib).length + 1 < n' → parseTypes (parse lib n) n'
      ('<' :: ((t.text lib ++ (ts.text lib ++ ['>'])) ++ body)) =
        (TypeDecls.cons t ts).reads.map fun ts => (ts, body) := by
    intro n' hn'
    cases n' with
    | zero => cases hn'
    | succ n' =>
      rw [List.append_assoc, List.append_assoc, List.singleton_append]
      exact parseTypes_cons ht hts (by decide) (by omega) (by omega) body
  change (parseTypes (parse lib n) _
    ('<' :: ((t.text lib ++ (ts.text lib ++ ['>'])) ++ body))).bind _ = _
  rw [htypes _ (by simp; omega), TypeDecls.reads]
  cases t.reads with
  | none => rfl
  | some pt =>
    cases ts.reads with
    | none => rfl
    | some pts =>
      change (parse lib n body).bind _ = _
      rw [h n (by omega)]
      cases res <;> rfl

end Parts

end DaScript.MangledName

import DaScript.Ast.MangledNameReads

/-!
# Ast/MangledNameRoundTrip — types that are read as they are spelled

Exactly those without a structure, and without a fixed array that takes what is its element's.
-/

namespace DaScript.MangledName

variable {A S E : Type} {lib : Library A S E}

/-! ## All of a type but what is spelled first -/

/-- What is spelled behind the alias. -/
def coreText (lib : Library A S E) (n : List Name) (ts : TypeDecls A S E) (t u : MaybeType A S E)
    (b : Base A S E) : List Char :=
  argNamesText n ++ (ts.argsText lib ++ (t.text lib '1' ++ (u.text lib '2' ++ b.text lib)))

/-- A list of types, all of it. -/
def TypeDecls.ArgsSpelled (lib : Library A S E) : TypeDecls A S E → Prop
  | .nil => True
  | .cons type rest => type.Spelled lib ∧ rest.Spelled lib

theorem reads_args {m : ℕ} {body : List Char} {res : Read A S E} (ts : TypeDecls A S E)
    (hts : ts.ArgsSpelled lib) (h : Reads lib m body res) :
    Reads lib (m + (ts.argsText lib).length) (ts.argsText lib ++ body)
      (ts.reads.bind fun ts => onType ts.put res) := by
  cases ts with
  | nil =>
    change Reads lib m body (onType id res)
    rwa [onType_id]
  | cons t ts => exact reads_argTypes hts.1 hts.2 h

theorem reads_core (n : List Name) {ts : TypeDecls A S E} {t u : MaybeType A S E} (b : Base A S E)
    (hts : ts.ArgsSpelled lib) (ht : t.Spelled lib) (hu : u.Spelled lib) {rest : List Char}
    (hrest : Ends rest) :
    Reads lib (coreText lib n ts t u b).length (coreText lib n ts t u b ++ rest)
      ((TypeDecl.node {} {} .empty n ts t u b).reads.map fun pt => (pt, rest)) := by
  have hbase : Reads lib _ _ _ := reads_base b hrest
  have hsecond := reads_maybe (c := '2') (g := .setSecondType) rfl (fun _ _ => rfl) u hu hbase
  have hfirst := reads_maybe (c := '1') (g := .setFirstType) rfl (fun _ _ => rfl) t ht hsecond
  have hargs := reads_args ts hts hfirst
  have hnames := reads_argNames n hargs
  have hread : onType (if n = [] then id else .setArgNames n) (ts.reads.bind fun ts =>
      onType ts.put (t.reads.bind fun t => onType (t.put .setFirstType) (u.reads.bind fun u =>
        onType (u.put .setSecondType)
          (if b.isStructure then none else some (.ofBase b, rest))))) =
      (TypeDecl.node {} {} .empty n ts t u b).reads.map fun pt => (pt, rest) := by
    rw [TypeDecl.reads]
    cases ts.reads with
    | none => rfl
    | some ts' =>
      cases t.reads with
      | none => rfl
      | some t' =>
        cases u.reads with
        | none => rfl
        | some u' =>
          cases b.isStructure with
          | true => rfl
          | false => cases n <;> cases ts' <;> cases t' <;> cases u' <;> rfl
  rw [hread] at hnames
  unfold coreText
  simp only [List.append_assoc]
  refine hnames.mono ?_
  simp only [List.length_append]
  omega

/-! ## What a type begins with -/

/-- Neither a removal nor an alias. -/
def Opens (text : List Char) : Prop := ∃ c tail, text = c :: tail ∧ c ≠ '-' ∧ c ≠ 'Y'

theorem Opens.append {text : List Char} (h : Opens text) (rest : List Char) :
    Opens (text ++ rest) := by
  obtain ⟨c, tail, rfl, hc⟩ := h
  exact ⟨c, tail ++ rest, rfl, hc⟩

theorem opens_flags {f : Flags} (hf : f ≠ {}) : Opens f.text := by
  rcases f with ⟨_ | _, _ | _, _ | _, _ | _, _ | _, _ | _, _ | _, _ | _⟩
  case false.false.false.false.false.false.false.false => exact absurd rfl hf
  all_goals exact ⟨_, _, rfl, by decide, by decide⟩

theorem opens_base (b : Base A S E) : Opens (b.text lib) := by
  cases b with
  | plain type => cases type <;> exact ⟨_, _, rfl, by decide, by decide⟩
  | pointer smartPtr => exact ⟨_, _, rfl, by decide, by decide⟩
  | handle ann => exact ⟨_, _, rfl, by decide, by decide⟩
  | «structure» structType => exact ⟨_, _, rfl, by decide, by decide⟩
  | enumeration width enumType => cases enumType <;> exact ⟨_, _, rfl, by decide, by decide⟩

theorem opens_core (n : List Name) (ts : TypeDecls A S E) (t u : MaybeType A S E)
    (b : Base A S E) : Opens (coreText lib n ts t u b) := by
  cases n with
  | cons name names => exact ⟨_, _, rfl, by decide, by decide⟩
  | nil =>
    cases ts with
    | cons t ts => exact ⟨_, _, rfl, by decide, by decide⟩
    | nil =>
      cases t with
      | type t => exact ⟨_, _, rfl, by decide, by decide⟩
      | null =>
        cases u with
        | type u => exact ⟨_, _, rfl, by decide, by decide⟩
        | null => exact opens_base b

/-! ## Fixed arrays -/

theorem parseDigits_text (neg : Bool) (k : ℕ) (tail : List Char) :
    parseDigits neg (Nat.toDigits 10 k ++ ']' :: tail) =
      some (if neg then -(k : ℤ) else k, tail) := by
  have hdigits : ∀ c ∈ Nat.toDigits 10 k, c.isDigit = true := fun c hc =>
    Nat.isDigit_of_mem_toDigits (by decide) (by decide) hc
  have htake : (Nat.toDigits 10 k ++ ']' :: tail).takeWhile Char.isDigit = Nat.toDigits 10 k := by
    rw [List.takeWhile_append_of_pos hdigits, List.takeWhile_cons, if_neg (by decide),
      List.append_nil]
  have hdrop : (Nat.toDigits 10 k ++ ']' :: tail).dropWhile Char.isDigit = ']' :: tail := by
    rw [List.dropWhile_append_of_pos hdigits, List.dropWhile_cons, if_neg (by decide)]
  unfold parseDigits
  rw [htake, hdrop, Nat.ofDigitChars_ten_toDigits]
  rfl

theorem parseDim_text (d : ℤ) (tail : List Char) :
    parseDim (dimText d ++ ']' :: tail) = some (d, tail) := by
  unfold dimText
  split
  next hneg =>
    refine (parseDigits_text true d.natAbs tail).trans ?_
    rw [if_pos rfl]
    congr 2
    omega
  next hpos =>
    have hne : Nat.toDigits 10 d.natAbs ≠ [] := Nat.toDigits_ne_nil
    obtain ⟨c, digits, hdigits⟩ := List.exists_cons_of_ne_nil hne
    have hc : c.isDigit = true := Nat.isDigit_of_mem_toDigits (b := 10) (n := d.natAbs) (by decide)
      (by decide) (hdigits ▸ List.mem_cons_self)
    have hread := parseDigits_text false d.natAbs tail
    rw [hdigits, List.cons_append] at hread ⊢
    have hdash : c ≠ '-' := by
      rintro rfl
      cases hc
    rw [parseDim]
    · rw [hread, if_neg Bool.false_ne_true]
      congr 2
      omega
    · exact fun _ h => hdash (List.cons.inj h).1

theorem takeRemoves_text (r r' : Removes) (tail : List Char) :
    takeRemoves (r'.text ++ tail) r = takeRemoves tail (r.and r') := by
  rcases r with ⟨_ | _, _ | _, _ | _, _ | _⟩ <;> rcases r' with ⟨_ | _, _ | _, _ | _, _ | _⟩ <;> rfl

theorem takeRemoves_other {c : Char} (hc : c ≠ '-') (tail : List Char) (r : Removes) :
    takeRemoves (c :: tail) r = (r, c :: tail) := by
  unfold takeRemoves
  split
  all_goals first
    | rfl
    | exact absurd (List.cons.inj ‹_›).1 hc

theorem Removes.empty_and (r : Removes) : Removes.and {} r = r := by
  rcases r with ⟨_ | _, _ | _, _ | _, _ | _⟩ <;> rfl

theorem name_eq_empty {a : Name} (ha : a.chars = []) : a = .empty := Name.ext ha

theorem take_alias (a : Name) {text : List Char} (htext : a.chars ≠ [] ∨ Opens text)
    (r : Removes) :
    takeRemoves (aliasText a ++ text) r = (r, aliasText a ++ text) ∧
      takeAlias (aliasText a ++ text) = some (a, text) := by
  unfold aliasText
  split
  next ha =>
    obtain ⟨c, tail, rfl, hdash, hy⟩ := htext.resolve_left (not_not.mpr ha)
    refine ⟨takeRemoves_other hdash tail r, ?_⟩
    rw [List.nil_append, takeAlias, ← name_eq_empty ha]
    exact fun _ h => hy (List.cons.inj h).1
  next =>
    refine ⟨takeRemoves_other (by decide) _ r, ?_⟩
    change parseNameInBrackets ('<' :: ((a.chars ++ ['>']) ++ text)) = _
    rw [List.append_assoc, List.singleton_append, parseNameInBrackets_name]

theorem reads_array {m : ℕ} {text body : List Char} {o : Option (TypeDecl A S E)}
    {rest : List Char} (f : Flags) (d : ℤ) {r : Removes} {a : Name}
    (hremoves : takeRemoves text {} = (r, aliasText a ++ body))
    (halias : takeAlias (aliasText a ++ body) = some (a, body))
    (h : Reads lib m body (o.map fun pt => (pt, rest))) :
    Reads lib (f.text.length + (m + 1)) (f.text ++ '[' :: (dimText d ++ ']' :: text))
      ((o.map (.fixedArray f r d a)).map fun pt => (pt, rest)) := by
  have harray : Reads lib (m + 1) ('[' :: (dimText d ++ ']' :: text))
      ((o.map (.fixedArray {} r d a)).map fun pt => (pt, rest)) := by
    refine reads_symbol rfl fun n hn => ?_
    change (parseDim (dimText d ++ ']' :: text)).bind _ = _
    rw [parseDim_text]
    change (takeAlias (takeRemoves text {}).2).bind _ = _
    rw [hremoves, halias]
    change (parse lib n body).bind _ = _
    rw [h n hn]
    cases o <;> rfl
  have hflags := reads_flags f harray
  have hread : onType (.mapFlags f.set) ((o.map (.fixedArray {} r d a)).map fun pt => (pt, rest)) =
      (o.map (.fixedArray f r d a)).map fun pt => (pt, rest) := by
    cases o with
    | none => rfl
    | some pt =>
      change some (TypeDecl.fixedArray (f.set {}) r d a pt, rest) = _
      rw [f.set_empty]
      rfl
  rw [hread] at hflags
  exact hflags.mono (by omega)

/-! ## All types -/

theorem spelled_node (f : Flags) (r : Removes) (a : Name) (n : List Name) {ts : TypeDecls A S E}
    {t u : MaybeType A S E} (b : Base A S E) (hts : ts.ArgsSpelled lib) (ht : t.Spelled lib)
    (hu : u.Spelled lib) : (TypeDecl.node f r a n ts t u b).Spelled lib := by
  intro rest hrest
  have hcore := reads_core n b hts ht hu hrest
  have hall := reads_flags f (reads_removes r (reads_alias a hcore))
  have hread : onType (.mapFlags f.set) (onType r.onto (onType
      (if a.chars = [] then id else .setAlias a)
        ((TypeDecl.node {} {} .empty n ts t u b).reads.map fun pt => (pt, rest)))) =
      (TypeDecl.node f r a n ts t u b).reads.map fun pt => (pt, rest) := by
    rw [TypeDecl.reads, TypeDecl.reads]
    cases ts.reads with
    | none => rfl
    | some ts' =>
      cases t.reads with
      | none => rfl
      | some t' =>
        cases u.reads with
        | none => rfl
        | some u' =>
          cases b.isStructure with
          | true => rfl
          | false =>
            have halias : (if a.chars = [] then id else TypeDecl.setAlias a)
                (TypeDecl.node {} {} .empty n ts' t' u' b) = .node {} {} a n ts' t' u' b := by
              split
              next ha => rw [name_eq_empty ha, id]
              next => rfl
            change some (TypeDecl.mapFlags f.set (r.onto ((if a.chars = [] then id else
              TypeDecl.setAlias a) (TypeDecl.node {} {} .empty n ts' t' u' b))), rest) = _
            rw [halias, r.onto_node, TypeDecl.mapFlags, f.set_empty]
            rfl
  rw [hread] at hall
  have htext : (TypeDecl.node f r a n ts t u b).text lib ++ rest =
      f.text ++ (r.text ++ (aliasText a ++ (coreText lib n ts t u b ++ rest))) := by
    simp only [TypeDecl.text, coreText, List.append_assoc]
  rw [htext]
  refine hall.mono ?_
  simp only [TypeDecl.text, coreText, List.length_append]
  omega

theorem spelled_array {f : Flags} {r : Removes} {d : ℤ} {a : Name} {e : TypeDecl A S E}
    (he : e.Spelled lib) (hopens : a.chars ≠ [] ∨ Opens (e.text lib))
    (hkeeps : e.reads.map (arrayOf f r d a) = e.reads.map (.fixedArray f r d a)) :
    (TypeDecl.fixedArray f r d a e).Spelled lib := by
  intro rest hrest
  have htext : (TypeDecl.fixedArray f r d a e).text lib ++ rest =
      f.text ++ '[' :: (dimText d ++ ']' :: (r.text ++ (aliasText a ++ (e.text lib ++ rest)))) := by
    simp only [TypeDecl.text, List.append_assoc, List.cons_append]
  obtain ⟨htake, halias⟩ := take_alias a (hopens.imp_right fun h => h.append rest) r
  have hremoves : takeRemoves (r.text ++ (aliasText a ++ (e.text lib ++ rest))) {} =
      (r, aliasText a ++ (e.text lib ++ rest)) := by
    rw [takeRemoves_text, Removes.empty_and, htake]
  have harray := reads_array f d hremoves halias (he rest hrest)
  rw [← hkeeps] at harray
  rw [htext, TypeDecl.reads]
  refine harray.mono ?_
  simp only [TypeDecl.text, List.length_append, List.length_cons]
  omega

theorem spelled_takes (f : Flags) (r : Removes) (d : ℤ) {a : Name} (ha : a.chars = [])
    (r' : Removes) (a' : Name) (n : List Name) {ts : TypeDecls A S E} {t u : MaybeType A S E}
    (b : Base A S E) (hts : ts.ArgsSpelled lib) (ht : t.Spelled lib) (hu : u.Spelled lib) :
    (TypeDecl.fixedArray f r d a (.node {} r' a' n ts t u b)).Spelled lib := by
  intro rest hrest
  have htext : (TypeDecl.fixedArray f r d a (.node {} r' a' n ts t u b)).text lib ++ rest =
      f.text ++ '[' :: (dimText d ++ ']' :: (r.text ++ (r'.text ++ (aliasText a' ++
        (coreText lib n ts t u b ++ rest))))) := by
    simp only [TypeDecl.text, coreText, aliasText, ha, if_true, List.nil_append, List.append_assoc,
      List.cons_append, Flags.text, when, Bool.false_eq_true, if_false]
  have hopens : Opens (coreText lib n ts t u b) := opens_core n ts t u b
  obtain ⟨htake, halias⟩ := take_alias a' (.inr (hopens.append rest)) (r.and r')
  have hremoves : takeRemoves (r.text ++ (r'.text ++ (aliasText a' ++
      (coreText lib n ts t u b ++ rest)))) {} =
        (r.and r', aliasText a' ++ (coreText lib n ts t u b ++ rest)) := by
    rw [takeRemoves_text, Removes.empty_and, takeRemoves_text, htake]
  have harray := reads_array f d hremoves halias (reads_core n b hts ht hu hrest)
  have hread : (TypeDecl.node {} {} .empty n ts t u b).reads.map (.fixedArray f (r.and r') d a') =
      (TypeDecl.fixedArray f r d a (.node {} r' a' n ts t u b)).reads := by
    rw [TypeDecl.reads, TypeDecl.reads, TypeDecl.reads]
    cases ts.reads with
    | none => rfl
    | some ts' =>
      cases t.reads with
      | none => rfl
      | some t' =>
        cases u.reads with
        | none => rfl
        | some u' =>
          cases b.isStructure with
          | true => rfl
          | false =>
            change some _ = some (arrayOf f r d a (.node {} r' a' n ts' t' u' b))
            rw [arrayOf, if_pos ⟨ha, rfl⟩]
  rw [hread] at harray
  rw [htext]
  refine harray.mono ?_
  simp only [TypeDecl.text, coreText, List.length_append, List.length_cons]
  omega

theorem arrayOf_fixedArray (f : Flags) (r : Removes) (d : ℤ) (a : Name) (e : TypeDecl A S E) :
    ∃ r' a' e', arrayOf f r d a e = .fixedArray f r' d a' e' := by
  cases e with
  | node f' r' a' n ts t u b =>
    rw [arrayOf]
    split
    · exact ⟨_, _, _, rfl⟩
    · exact ⟨_, _, _, rfl⟩
  | fixedArray f' r' d' a' e => exact ⟨_, _, _, rfl⟩

theorem reads_node {f : Flags} {r : Removes} {a : Name} {n : List Name} {ts : TypeDecls A S E}
    {t u : MaybeType A S E} {b : Base A S E} {pt : TypeDecl A S E}
    (h : (TypeDecl.node f r a n ts t u b).reads = some pt) :
    ∃ ts' t' u', ts.reads = some ts' ∧ t.reads = some t' ∧ u.reads = some u' ∧
      b.isStructure = false ∧ pt = .node f r a n ts' t' u' b := by
  rw [TypeDecl.reads] at h
  cases hts : ts.reads with
  | none =>
    rw [hts] at h
    cases h
  | some ts' =>
    cases ht : t.reads with
    | none =>
      rw [hts, ht] at h
      cases h
    | some t' =>
      cases hu : u.reads with
      | none =>
        rw [hts, ht, hu] at h
        cases h
      | some u' =>
        rw [hts, ht, hu] at h
        cases hb : b.isStructure with
        | true =>
          rw [hb] at h
          cases h
        | false =>
          rw [hb] at h
          exact ⟨ts', t', u', rfl, rfl, rfl, rfl, (Option.some.inj h).symm⟩

mutual

theorem TypeDecl.spelled : ∀ t : TypeDecl A S E, t.Spelled lib
  | .node f r a n ts t u b => spelled_node f r a n b ts.argsSpelled t.spelled u.spelled
  | .fixedArray f r d a (.fixedArray f' r' d' a' e) => by
    refine spelled_array (TypeDecl.spelled (.fixedArray f' r' d' a' e)) (.inr ?_) ?_
    · by_cases hf : f' = {}
      · rw [hf]
        exact ⟨'[', _, rfl, by decide, by decide⟩
      · exact (opens_flags hf).append _
    · rw [TypeDecl.reads]
      cases e.reads with
      | none => rfl
      | some e' =>
        obtain ⟨r'', a'', e'', harray⟩ := arrayOf_fixedArray f' r' d' a' e'
        change some (arrayOf f r d a (arrayOf f' r' d' a' e')) = some (.fixedArray f r d a _)
        rw [harray]
        rfl
  | .fixedArray f r d a (.node f' r' a' n ts t u b) => by
    by_cases htakes : a.chars = [] ∧ f' = {}
    · obtain ⟨ha, rfl⟩ := htakes
      exact spelled_takes f r d ha r' a' n b ts.argsSpelled t.spelled u.spelled
    · refine spelled_array (spelled_node f' r' a' n b ts.argsSpelled t.spelled u.spelled) ?_ ?_
      · by_cases ha : a.chars = []
        · exact .inr ((opens_flags fun hf => htakes ⟨ha, hf⟩).append _)
        · exact .inl ha
      · cases hread : (TypeDecl.node f' r' a' n ts t u b).reads with
        | none => rfl
        | some pt =>
          obtain ⟨ts', t', u', -, -, -, -, rfl⟩ := reads_node hread
          change some _ = some _
          rw [arrayOf, if_neg htakes]

theorem TypeDecls.argsSpelled : ∀ ts : TypeDecls A S E, ts.ArgsSpelled lib
  | .nil => trivial
  | .cons t rest => ⟨t.spelled, rest.spelled⟩

theorem TypeDecls.spelled : ∀ ts : TypeDecls A S E, ts.Spelled lib
  | .nil => fun _ n _ _ hn => by
    cases n with
    | zero => cases hn
    | succ n => rfl
  | .cons t rest => fun k n body hk hn => by
    cases n with
    | zero => cases hn
    | succ n =>
      rw [TypeDecls.text, List.length_cons, List.length_append] at hk hn
      rw [TypeDecls.text, List.cons_append, List.append_assoc]
      exact parseTypes_cons t.spelled rest.spelled (by decide) (by omega) (by omega) body

theorem MaybeType.spelled : ∀ t : MaybeType A S E, t.Spelled lib
  | .null => trivial
  | .type t => t.spelled

end

/-! ## The round trip -/

/-- What an element loses to a fixed array without an alias: nothing is spelled before its removals
and its alias. -/
def TypeDecl.Loses : TypeDecl A S E → Prop
  | .node f r a _ _ _ _ _ => f = {} ∧ (r ≠ {} ∨ a.chars ≠ [])
  | .fixedArray .. => False

mutual

/-- **A type that is legible**: no structure is in it, and no fixed array without an alias of an
element that loses its own. -/
def TypeDecl.Legible : TypeDecl A S E → Prop
  | .node _ _ _ _ ts t u b => b.isStructure = false ∧ ts.Legible ∧ t.Legible ∧ u.Legible
  | .fixedArray _ _ _ a e => e.Legible ∧ (a.chars = [] → ¬ e.Loses)

def TypeDecls.Legible : TypeDecls A S E → Prop
  | .nil => True
  | .cons type rest => type.Legible ∧ rest.Legible

def MaybeType.Legible : MaybeType A S E → Prop
  | .null => True
  | .type type => type.Legible

end

theorem Removes.and_empty (r : Removes) : r.and {} = r := by
  rcases r with ⟨_ | _, _ | _, _ | _, _ | _⟩ <;> rfl

theorem arrayOf_eq (f : Flags) (r : Removes) (d : ℤ) {a : Name} {e : TypeDecl A S E}
    (h : a.chars = [] → ¬ e.Loses) : arrayOf f r d a e = .fixedArray f r d a e := by
  cases e with
  | fixedArray f' r' d' a' e => rfl
  | node f' r' a' n ts t u b =>
    rw [arrayOf]
    split
    next htakes =>
      obtain ⟨ha, rfl⟩ := htakes
      have hkeeps := h ha
      simp only [TypeDecl.Loses, true_and, not_or, not_not] at hkeeps
      obtain ⟨rfl, ha'⟩ := hkeeps
      rw [r.and_empty, name_eq_empty ha, name_eq_empty ha']
    next => rfl

theorem arrayOf_inj {f : Flags} {r : Removes} {d : ℤ} {a : Name} {e pt : TypeDecl A S E}
    (hread : e.reads = some pt) (h : arrayOf f r d a pt = .fixedArray f r d a e) :
    pt = e ∧ (a.chars = [] → ¬ e.Loses) := by
  cases pt with
  | fixedArray f' r' d' a' e' =>
    obtain ⟨-, -, -, -, rfl⟩ := TypeDecl.fixedArray.inj h
    exact ⟨rfl, fun _ hloses => hloses⟩
  | node f' r' a' n ts t u b =>
    rw [arrayOf] at h
    split at h
    next htakes =>
      obtain ⟨-, -, -, -, rfl⟩ := TypeDecl.fixedArray.inj h
      -- what is left of the element has nothing to lose, and so has what was read
      obtain ⟨ts', t', u', -, -, -, -, hpt⟩ := reads_node hread
      obtain ⟨hf, hr, ha, -, hts, ht, hu, -⟩ := TypeDecl.node.inj hpt
      rw [hf, hr, ha]
      exact ⟨rfl, fun _ hloses => hloses.2.elim (fun h => h rfl) fun h => h rfl⟩
    next htakes =>
      obtain ⟨-, -, -, -, rfl⟩ := TypeDecl.fixedArray.inj h
      exact ⟨rfl, fun ha hloses => htakes ⟨ha, hloses.1⟩⟩

mutual

theorem TypeDecl.reads_iff : ∀ t : TypeDecl A S E, t.reads = some t ↔ t.Legible
  | .node f r a n ts t u b => by
    rw [TypeDecl.Legible, ← ts.reads_iff, ← t.reads_iff, ← u.reads_iff]
    constructor
    · intro h
      obtain ⟨ts', t', u', hts, ht, hu, hb, hpt⟩ := reads_node h
      obtain ⟨-, -, -, -, rfl, rfl, rfl, -⟩ := TypeDecl.node.inj hpt
      exact ⟨hb, hts, ht, hu⟩
    · rintro ⟨hb, hts, ht, hu⟩
      rw [TypeDecl.reads, hts, ht, hu, hb]
      rfl
  | .fixedArray f r d a e => by
    rw [TypeDecl.Legible, ← e.reads_iff, TypeDecl.reads]
    constructor
    · intro h
      obtain ⟨pt, hread, harray⟩ := Option.map_eq_some_iff.mp h
      obtain ⟨rfl, hkeeps⟩ := arrayOf_inj hread harray
      exact ⟨hread, hkeeps⟩
    · rintro ⟨hread, hkeeps⟩
      rw [hread, Option.map_some, arrayOf_eq f r d hkeeps]

theorem TypeDecls.reads_iff : ∀ ts : TypeDecls A S E, ts.reads = some ts ↔ ts.Legible
  | .nil => ⟨fun _ => trivial, fun _ => rfl⟩
  | .cons t rest => by
    rw [TypeDecls.Legible, ← t.reads_iff, ← rest.reads_iff, TypeDecls.reads]
    constructor
    · intro h
      cases ht : t.reads with
      | none =>
        rw [ht] at h
        cases h
      | some pt =>
        cases hrest : rest.reads with
        | none =>
          rw [ht, hrest] at h
          cases h
        | some pts =>
          rw [ht, hrest] at h
          obtain ⟨rfl, rfl⟩ := TypeDecls.cons.inj (Option.some.inj h)
          exact ⟨rfl, rfl⟩
    · rintro ⟨ht, hrest⟩
      rw [ht, hrest]
      rfl

theorem MaybeType.reads_iff : ∀ t : MaybeType A S E, t.reads = some t ↔ t.Legible
  | .null => ⟨fun _ => trivial, fun _ => rfl⟩
  | .type t => by
    rw [MaybeType.Legible, ← t.reads_iff, MaybeType.reads]
    constructor
    · intro h
      obtain ⟨pt, hread, htype⟩ := Option.map_eq_some_iff.mp h
      obtain rfl := MaybeType.type.inj htype
      exact hread
    · intro h
      rw [h]
      rfl

end

theorem parse_text (lib : Library A S E) (t : TypeDecl A S E) :
    parseTypeFromMangledName lib (t.text lib) = t.reads.map fun pt => (pt, []) := by
  have hspelled : t.Spelled lib := t.spelled
  have hread := hspelled [] .nil (t.text lib).length le_rfl
  rwa [List.append_nil] at hread

theorem parse_text_iff (lib : Library A S E) (t : TypeDecl A S E) :
    parseTypeFromMangledName lib (t.text lib) = some (t, []) ↔ t.Legible := by
  rw [parse_text, ← t.reads_iff]
  constructor
  · intro h
    obtain ⟨pt, hread, hpt⟩ := Option.map_eq_some_iff.mp h
    obtain rfl := (Prod.mk.inj hpt).1
    exact hread
  · intro h
    rw [h]
    rfl

/-- One thing, and its name. -/
def only (c : Char) (hc : isNameChar true c = true) : Directory Unit where
  name _ := [c]
  valid _ d hd := by
    obtain rfl := List.mem_singleton.mp hd
    exact hc
  find _ := [()]
  resolves _ := rfl

/-- A handled type, a structure and an enumeration. -/
def onlyLibrary : Library Unit Unit Unit :=
  ⟨only 'h' (by decide), only 's' (by decide), only 'e' (by decide)⟩

/-- A constant array of four enumerations. -/
def fourEnums : TypeDecl Unit Unit Unit :=
  .fixedArray { constant := true } {} 4 .empty (.ofBase (.enumeration .tEnumeration8 (some ())))

end DaScript.MangledName

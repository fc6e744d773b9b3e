import DaScript.Daslib.TomlKeys

/-!
# Daslib/TomlKeyPaths — which dotted keys keep their texts

A statement of `read_toml` in an empty table, `k₁.k₂ = value`, makes a table in a table where the
lexer keeps every key; `1_000 = 1` makes `{ 1000 : 1 }`, and `1_ = 1` makes nothing.
-/

namespace DaScript.Toml

/-! ## Statements -/

section Statements

variable (readQuoted : Char → LexState → TomlTokenAt × LexState)
  (parseInline : Char → TomlTokenStream → Parsed (JsonValue × TomlTokenStream)) (line row : ℕ)

/-- `key = value` of `read_toml`; `line` and `row` are of its first token. -/
def parseKeyval (ts : TomlTokenStream) :
    Parsed (List (List Char) × JsonValue × TomlTokenStream) := do
  let (path, ts) ← parseKeyPath readQuoted ts
  let (tk, ts) ← takeTok readQuoted
    s!"unexpected end of input expecting '=' after key at {line}:{row}" ts
  if tk.value = .symbol '=' then
    let (v, ts) ← parseValue readQuoted parseInline ts
    .ok (path, v, ts)
  else .error (.error s!"expected '=' after key at {tk.line}:{tk.row}")

/-- `apply_keyval`, in tables of which none is closed, with `ensure_table`. -/
def applyKeyval : List (List Char) → JsonValue → List (List Char × JsonValue) →
    Parsed (List (List Char × JsonValue))
  | [], _, tab => .ok tab
  | [leaf], v, tab =>
    if (tab.lookup leaf).isSome then
      .error (.error s!"duplicate key '{String.ofList leaf}' at {line}:{row}")
    else .ok (tab ++ [(leaf, v)])
  | key :: path, v, tab =>
    match tab.lookup key with
    | none => do
      let child ← applyKeyval path v []
      .ok (tab ++ [(key, .object child)])
    | some (.object child) => do
      let child ← applyKeyval path v child
      .ok (tab.map fun e => if e.1 = key then (key, .object child) else e)
    | some _ =>
      .error (.error s!"key '{String.ofList key}' redefined as table at {line}:{row}")

/-- A statement in an empty table. -/
def readKeyval (ts : TomlTokenStream) : Parsed (JsonValue × TomlTokenStream) := do
  let (path, v, ts) ← parseKeyval readQuoted parseInline line row ts
  let tab ← applyKeyval line row path v []
  .ok (.object tab, ts)

end Statements

/-- The objects of keys. -/
def nest : List (List Char) → JsonValue → JsonValue
  | [], v => v
  | k :: ks, v => .object [(k, nest ks v)]

/-- Keys, each after a dot. -/
def dotted : List (List Char) → List Char → List Char
  | [], post => post
  | k :: ks, post => '.' :: (k ++ dotted ks post)

/-- **Every key of a path keeps its text.** -/
def PathKept : List (List Char) → Prop
  | [] => True
  | k :: ks => Kept ks.head? k ∧ PathKept ks

/-- **A statement keeps the texts of its keys**: they are read up to `=`, and the value is where
they say. -/
def KeepsText (readQuoted : Char → LexState → TomlTokenAt × LexState)
    (parseInline : Char → TomlTokenStream → Parsed (JsonValue × TomlTokenStream)) (line row : ℕ)
    (keys : List (List Char)) (value : List Char) (ts : TomlTokenStream) : Prop :=
  ∃ st tk, st.rest = value ∧ tk.value = .symbol '=' ∧
    parseKeyPath readQuoted ts = .ok (keys, ⟨st, some tk⟩) ∧
    ∀ v ts', parseValue readQuoted parseInline ⟨st, none⟩ = .ok (v, ts') →
      readKeyval readQuoted parseInline line row ts = .ok (nest keys v, ts')

section Paths

variable {readQuoted : Char → LexState → TomlTokenAt × LexState}
  {parseInline : Char → TomlTokenStream → Parsed (JsonValue × TomlTokenStream)} {line row : ℕ}
  {k text post blanks value : List Char} {ks out : List (List Char)} {c : Char}
  {ts ts' : TomlTokenStream} {state : LexState}

theorem atValue_of_rest (readQuoted : Char → LexState → TomlTokenAt × LexState)
    (hrest : state.rest = text ++ post) :
    AtValue readQuoted text post ⟨state, none⟩ :=
  @AtValue.start readQuoted text post [] state (by simp) (by rw [hrest, List.nil_append])

theorem BareKey.head (hk : BareKey k) : ∃ c, k.head? = some c ∧ c ∉ [' ', '\t', '\r', '#'] := by
  obtain ⟨c, cs, rfl⟩ := List.exists_cons_of_ne_nil hk.1
  refine ⟨c, rfl, fun hmem => ?_⟩
  have hno : [' ', '\t', '\r', '#'].any isBareChar = false := by decide
  exact List.any_eq_false.mp hno c hmem (hk.2 c List.mem_cons_self)

theorem takeTok_key {next : Option (List Char)} (message : String) (hk : BareKey k)
    (hafter : After next post) (hat : AtValue readQuoted k post ts) :
    (Kept next k → ∃ tk st, takeTok readQuoted message ts = .ok (tk, ⟨st, none⟩) ∧
        extractKeySegment tk = .ok k ∧ st.rest = post) ∧
      (¬ Kept next k → ∀ tk ts', takeTok readQuoted message ts = .ok (tk, ts') →
        extractKeySegment tk ≠ .ok k) := by
  obtain ⟨c, hc, hne⟩ := hk.head
  obtain ⟨start, hstart, hlooked⟩ := hat.looked hc hne
  obtain ⟨hkept, hno⟩ := lexToken_key readQuoted hk hafter hstart hc
  refine ⟨fun h => ?_, fun h tk ts' htake => ?_⟩
  · obtain ⟨tk, st, hlex, hsegment, hrest⟩ := hkept h
    refine ⟨tk, st, ?_, hsegment, hrest⟩
    rw [takeTok, hlooked, hlex]
    rfl
  · rw [takeTok, hlooked] at htake
    cases hlex : lexToken readQuoted start c with
    | error m =>
      rw [hlex] at htake
      exact absurd htake (by simp [looked, bind, Except.bind])
    | ok r =>
      rw [hlex] at htake
      obtain ⟨rfl, -⟩ := Prod.mk.inj (Except.ok.inj htake)
      exact hno h _ _ hlex

theorem after_dotted (hks : ∀ m ∈ ks, BareKey m) (hblanks : ∀ c ∈ blanks, c ∈ [' ', '\t']) :
    After ks.head? (dotted ks (blanks ++ '=' :: value)) := by
  induction ks with
  | nil => exact .last hblanks
  | cons m ks ih =>
    exact .dot (hks m List.mem_cons_self)
      (ih fun k hk => hks k (List.mem_cons_of_mem _ hk)).outside

theorem peekTok_symbol (readQuoted : Char → LexState → TomlTokenAt × LexState)
    (hblanks : ∀ c ∈ blanks, c ∈ [' ', '\t'])
    (hsymbol : c = '.' ∨ c = '=') (hrest : state.rest = blanks ++ c :: post) :
    ∃ tk st, peekTok readQuoted ⟨state, none⟩ = .ok (some tk, ⟨st, some tk⟩) ∧
      tk.value = .symbol c ∧ st.rest = post := by
  have hat : AtValue readQuoted [c] post ⟨state, none⟩ := by
    refine .start (fun b hb => ?_) (hrest.trans (by rw [List.append_assoc]; rfl))
    exact List.mem_append_left ['\r'] (hblanks b hb)
  obtain ⟨st, hst, hlooked⟩ := hat.looked rfl (by rcases hsymbol with rfl | rfl <;> decide)
  refine ⟨st.token (.symbol c), st.advance, ?_, rfl, advance_rest hst⟩
  rw [hlooked, lexToken, if_neg, if_pos]
  · rfl
  · rcases hsymbol with rfl | rfl <;> decide
  · rcases hsymbol with rfl | rfl <;> decide

theorem parseSegments_prefix {fuel : ℕ} {out' : List (List Char)}
    (h : parseSegments readQuoted fuel out ts = .ok (out', ts')) : out <+: out' := by
  induction fuel generalizing out ts with
  | zero =>
    obtain ⟨rfl, -⟩ := Prod.mk.inj (Except.ok.inj h)
    exact List.prefix_rfl
  | succ fuel ih =>
    rw [parseSegments] at h
    cases hpeek : peekTok readQuoted ts with
    | error e =>
      rw [hpeek] at h
      exact absurd h (by simp [bind, Except.bind])
    | ok r =>
      obtain ⟨tk, ts₁⟩ := r
      rw [hpeek] at h
      simp only [bind, Except.bind] at h
      split at h
      · split at h
        · exact absurd h (by simp)
        split at h
        · exact absurd h (by simp)
        · exact (List.prefix_append out _).trans (ih h)
      · obtain ⟨rfl, -⟩ := Prod.mk.inj (Except.ok.inj h)
        exact List.prefix_rfl

theorem parseSegments_keys (readQuoted : Char → LexState → TomlTokenAt × LexState)
    (out : List (List Char)) (hks : ∀ m ∈ ks, BareKey m) (hblanks : ∀ c ∈ blanks, c ∈ [' ', '\t'])
    {fuel : ℕ} (hfuel : ks.length < fuel)
    (hrest : state.rest = dotted ks (blanks ++ '=' :: value)) :
    (PathKept ks → ∃ st tk, st.rest = value ∧ tk.value = .symbol '=' ∧
        parseSegments readQuoted fuel out ⟨state, none⟩ = .ok (out ++ ks, ⟨st, some tk⟩)) ∧
      (¬ PathKept ks →
        ∀ ts', parseSegments readQuoted fuel out ⟨state, none⟩ ≠ .ok (out ++ ks, ts')) := by
  induction ks generalizing fuel out state with
  | nil =>
    obtain ⟨fuel, rfl⟩ := Nat.exists_eq_add_one_of_ne_zero (Nat.ne_zero_of_lt hfuel)
    refine ⟨fun _ => ?_, fun h => absurd trivial h⟩
    obtain ⟨tk, st, hpeek, hvalue, hst⟩ := peekTok_symbol readQuoted hblanks
      (.inr rfl) hrest
    refine ⟨st, tk, hst, hvalue, ?_⟩
    rw [parseSegments, hpeek]
    simp only [bind, Except.bind, Option.map_some, hvalue, List.append_nil]
    rfl
  | cons m ks ih =>
    obtain ⟨fuel, rfl⟩ := Nat.exists_eq_add_one_of_ne_zero (Nat.ne_zero_of_lt hfuel)
    have hks' : ∀ k ∈ ks, BareKey k := fun k hk => hks k (List.mem_cons_of_mem _ hk)
    have hnil : ∀ c ∈ ([] : List Char), c ∈ [' ', '\t'] := by simp
    obtain ⟨tk, st, hpeek, hvalue, hst⟩ := peekTok_symbol readQuoted hnil (.inl rfl) hrest
    obtain ⟨hkept, hno⟩ := takeTok_key "unexpected end of input after dot in key"
      (hks m List.mem_cons_self) (after_dotted hks' hblanks) (atValue_of_rest readQuoted hst)
    have hstep : parseSegments readQuoted (fuel + 1) out ⟨state, none⟩ =
        takeTok readQuoted "unexpected end of input after dot in key" ⟨st, none⟩ >>= fun r =>
          extractKeySegment r.1 >>= fun segment =>
            parseSegments readQuoted fuel (out ++ [segment]) r.2 := by
      rw [parseSegments, hpeek]
      simp only [bind, Except.bind, Option.map_some, hvalue]
    rw [hstep]
    by_cases hm : Kept ks.head? m
    · obtain ⟨tk, st', htake, hsegment, hst'⟩ := hkept hm
      obtain ⟨hall, hnone⟩ := ih (out ++ [m]) hks' (Nat.lt_of_succ_lt_succ hfuel) hst'
      rw [htake]
      simp only [bind, Except.bind, hsegment]
      rw [List.append_assoc, List.singleton_append] at hall hnone
      exact ⟨fun h => hall h.2, fun h => hnone fun h' => h ⟨hm, h'⟩⟩
    · refine ⟨fun h => absurd h.1 hm, fun _ ts' h => ?_⟩
      simp only [bind, Except.bind] at h
      split at h
      · exact absurd h (by simp)
      rename_i r htake
      split at h
      · exact absurd h (by simp)
      rename_i segment hsegment
      -- the key that was read is another one
      obtain ⟨rest, hout⟩ := parseSegments_prefix h
      rw [List.append_assoc, List.singleton_append, List.append_cancel_left_eq] at hout
      exact hno hm r.1 r.2 htake (hsegment.trans (by rw [(List.cons.inj hout).1]))

theorem length_dotted (ks : List (List Char)) (post : List Char) :
    ks.length ≤ (dotted ks post).length := by
  induction ks with
  | nil => exact Nat.zero_le _
  | cons k ks ih =>
    rw [dotted, List.length_cons, List.length_cons, List.length_append]
    omega

theorem parseKeyPath_keys (hkeys : ∀ m ∈ k :: ks, BareKey m)
    (hblanks : ∀ c ∈ blanks, c ∈ [' ', '\t'])
    (hat : AtValue readQuoted k (dotted ks (blanks ++ '=' :: value)) ts) :
    (PathKept (k :: ks) → ∃ st tk, st.rest = value ∧ tk.value = .symbol '=' ∧
        parseKeyPath readQuoted ts = .ok (k :: ks, ⟨st, some tk⟩)) ∧
      (¬ PathKept (k :: ks) → ∀ ts', parseKeyPath readQuoted ts ≠ .ok (k :: ks, ts')) := by
  have hks : ∀ m ∈ ks, BareKey m := fun m hm => hkeys m (List.mem_cons_of_mem _ hm)
  obtain ⟨hkept, hno⟩ := takeTok_key "unexpected end of input expecting key"
    (hkeys k List.mem_cons_self) (after_dotted hks hblanks) hat
  rw [parseKeyPath]
  by_cases hk : Kept ks.head? k
  · obtain ⟨tk, st, htake, hsegment, hst⟩ := hkept hk
    have hfuel : ks.length < st.rest.length + 1 := by
      rw [hst]
      exact Nat.lt_succ_of_le (length_dotted ks _)
    obtain ⟨hall, hnone⟩ := parseSegments_keys readQuoted [k] hks hblanks hfuel hst
    rw [htake]
    simp only [bind, Except.bind, hsegment]
    exact ⟨fun h => hall h.2, fun h => hnone fun h' => h ⟨hk, h'⟩⟩
  · refine ⟨fun h => absurd h.1 hk, fun _ ts' h => ?_⟩
    simp only [bind, Except.bind] at h
    split at h
    · exact absurd h (by simp)
    rename_i r htake
    split at h
    · exact absurd h (by simp)
    rename_i segment hsegment
    obtain ⟨rest, hout⟩ := parseSegments_prefix h
    exact hno hk r.1 r.2 htake (hsegment.trans (by rw [(List.cons.inj hout).1]))

/-! ## Texts are kept -/

theorem applyKeyval_empty (k : List Char) (ks : List (List Char)) (v : JsonValue) :
    applyKeyval line row (k :: ks) v [] = .ok [(k, nest ks v)] := by
  induction ks generalizing k with
  | nil => rfl
  | cons m ks ih =>
    rw [applyKeyval, List.lookup_nil]
    · dsimp only
      rw [ih]
      rfl
    · exact List.cons_ne_nil m ks

end Paths

/-- **A statement keeps the texts of its keys** just where every key keeps its own. -/
theorem keys_kept_iff (readQuoted : Char → LexState → TomlTokenAt × LexState)
    (parseInline : Char → TomlTokenStream → Parsed (JsonValue × TomlTokenStream)) (line row : ℕ)
    (k : List Char) (ks : List (List Char)) (hkeys : ∀ m ∈ k :: ks, BareKey m)
    (blanks value : List Char) (hblanks : ∀ c ∈ blanks, c ∈ [' ', '\t']) (ts : TomlTokenStream)
    (hat : AtValue readQuoted k (dotted ks (blanks ++ '=' :: value)) ts) :
    KeepsText readQuoted parseInline line row (k :: ks) value ts ↔ PathKept (k :: ks) := by
  obtain ⟨hall, hnone⟩ := parseKeyPath_keys hkeys hblanks hat
  constructor
  · rintro ⟨st, tk, -, -, hpath, -⟩
    by_contra hkept
    exact hnone hkept _ hpath
  · intro hkept
    obtain ⟨st, tk, hst, htk, hpath⟩ := hall hkept
    refine ⟨st, tk, hst, htk, hpath, fun v ts' hvalue => ?_⟩
    have hequals : takeTok readQuoted
        s!"unexpected end of input expecting '=' after key at {line}:{row}" ⟨st, some tk⟩ =
        .ok (tk, ⟨st, none⟩) := rfl
    rw [readKeyval, parseKeyval, hpath]
    simp only [bind, Except.bind]
    rw [hequals]
    simp only [if_pos htk, hvalue, applyKeyval_empty]
    rfl

theorem keys_kept_iff_hex :
    KeepsText (fun _ st => (st.token .newline, st)) (fun _ ts => .ok (.bool true, ts)) 1 0
      [['0', 'x', 'g'], ['7']] ['1']
      ⟨⟨['0', 'x', 'g', '.', '7', ' ', '=', '1'], 1, 0⟩, none⟩ ↔
      PathKept [['0', 'x', 'g'], ['7']] :=
  keys_kept_iff _ _ 1 0 ['0', 'x', 'g'] [['7']] (by simp [BareKey, isBareChar, isAlpha, isNumber])
    [' '] ['1'] (by simp) _ (@AtValue.start _ _ _ [] _ (by simp) rfl)

theorem keys_not_kept :
    ¬ KeepsText (fun _ st => (st.token .newline, st)) (fun _ ts => .ok (.bool true, ts)) 1 0
      [['0', '0', '7']] ['1'] ⟨⟨['0', '0', '7', '=', '1'], 1, 0⟩, none⟩ ∧
    (parseKeyPath (fun _ st => (st.token .newline, st))
        ⟨⟨['0', '0', '7', '=', '1'], 1, 0⟩, none⟩).map Prod.fst =
      (parseKeyPath (fun _ st => (st.token .newline, st))
        ⟨⟨['7', '=', '1'], 1, 0⟩, none⟩).map Prod.fst ∧
    ¬ KeepsText (fun _ st => (st.token .newline, st)) (fun _ ts => .ok (.bool true, ts)) 1 0
      [['1', '_']] ['1'] ⟨⟨['1', '_', '=', '1'], 1, 0⟩, none⟩ := by
  have hseven : (parseKeyPath (fun _ st => (st.token .newline, st))
      ⟨⟨['0', '0', '7', '=', '1'], 1, 0⟩, none⟩).map Prod.fst = .ok [['7']] := rfl
  refine ⟨?_, rfl, ?_⟩
  · rintro ⟨st, tk, -, -, hpath, -⟩
    rw [hpath] at hseven
    exact absurd hseven (by simp [Except.map])
  · rintro ⟨st, tk, -, -, hpath, -⟩
    have herror : parseKeyPath (fun _ st => (st.token .newline, st))
        ⟨⟨['1', '_', '=', '1'], 1, 0⟩, none⟩ = .error (.error "expected key at 1:0") := rfl
    rw [herror] at hpath
    exact absurd hpath (by simp)

end DaScript.Toml

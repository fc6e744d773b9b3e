import DaScript.Daslib.TomlIntegers

/-!
# Daslib/TomlKeys — which bare keys keep their text

A key that starts as a number is a key again where the number stops inside of it.
-/

namespace DaScript.Toml

/-! ## Where a number stops -/

/-- How a run of digits goes on in a key. -/
inductive End
  | whole
  | stop (c : Char) (r : List Char)
  | astray
  | trailing
  deriving DecidableEq

/-- **Where digits, with underscores between them, stop in a key**; `digit` is whether there was
one before. -/
def ending (isDigit : Char → Bool) : Bool → List Char → End
  | _, [] => .whole
  | digit, c :: t =>
    if isDigit c then ending isDigit true t
    else if c = '_' then
      if t = [] then .trailing
      else if digit && t.head?.any isDigit then ending isDigit false t
      else .astray
    else .stop c t

/-- A key without a minus sign. -/
def unsigned (k : List Char) : List Char := if k.head? = some '-' then k.tail else k

/-- A number stops inside of a key, after a digit. -/
def StopsInside (k : List Char) : Prop :=
  k.head?.any isNumber = true ∧ ∃ c r, ending isNumber false k = .stop c r

/-- What stops a number is no exponent, or one that stops too. -/
def NoExponent (c : Char) (r : List Char) : Prop :=
  c = 'e' ∨ c = 'E' → StopsInside (unsigned r)

/-- **A key that starts as a decimal keeps its text**; `next` is the key after a dot. -/
def DecimalKept (next : Option (List Char)) (k : List Char) : Prop :=
  match ending isNumber false (unsigned k) with
  | .astray => True
  | .trailing => False
  | .stop c r => NoExponent c r
  | .whole =>
    if (next.bind List.head?).any isNumber then
      -- the two could be a float, if the next one does not stop it
      ∃ c r, ending isNumber false (next.getD []) = .stop c r ∧ NoExponent c r
    else ∃ value, printInt64 value = k

/-- **A bare key keeps its text.** -/
def Kept (next : Option (List Char)) (k : List Char) : Prop :=
  k ≠ "-".toList ∧ k ≠ "-inf".toList ∧ k ≠ "-nan".toList ∧
    if k.head? = some '0' ∧ (prefixRadix k[1]?).isSome then
      ending isHex false (k.drop 2) ≠ .whole ∧ ending isHex false (k.drop 2) ≠ .trailing
    else (unsigned k).head?.any isNumber = true → DecimalKept next k

/-- A bare key. -/
def BareKey (k : List Char) : Prop := k ≠ [] ∧ ∀ c ∈ k, isBareChar c = true

/-- **What is after a key**: a dot and another key, or `=`. -/
inductive After : Option (List Char) → List Char → Prop
  | last {blanks post : List Char} (h : ∀ c ∈ blanks, c ∈ [' ', '\t']) :
    After none (blanks ++ '=' :: post)
  | dot {m post : List Char} (hm : BareKey m)
    (h : ∀ c, post.head? = some c → c ∈ ['.', ' ', '\t', '=']) : After (some m) ('.' :: (m ++ post))

/-- What is after a key starts with none of its characters. -/
def Outside (post : List Char) : Prop := ∀ c, post.head? = some c → c ∈ ['.', ' ', '\t', '=']

section Keys

variable {isDigit : Char → Bool} {k t v r post buf rest : List Char} {c : Char}
  {next : Option (List Char)} {start : LexState}

theorem head_blanks {blanks : List Char} (h : ∀ c ∈ blanks, c ∈ [' ', '\t'])
    (hc : (blanks ++ '=' :: post).head? = some c) : c ∈ [' ', '\t', '='] := by
  cases blanks with
  | nil =>
    obtain rfl := Option.some.inj hc
    decide
  | cons b blanks =>
    obtain rfl := Option.some.inj hc
    exact List.mem_append_left ['='] (h _ List.mem_cons_self)

theorem After.outside (h : After next post) : Outside post := by
  intro c hc
  cases h with
  | last h => exact List.mem_cons_of_mem _ (head_blanks h hc)
  | dot hm h =>
    obtain rfl := Option.some.inj hc
    exact List.mem_cons_self

theorem Outside.fails (h : Outside post) {p : Char → Bool}
    (hp : ['.', ' ', '\t', '='].any p = false) (hc : post.head? = some c) : p c = false :=
  Bool.eq_false_iff.mpr (List.any_eq_false.mp hp c (h c hc))

theorem Outside.any_eq (h : Outside post) {p : Char → Bool}
    (hp : ['.', ' ', '\t', '='].any p = false) : post.head?.any p = false := by
  cases hc : post.head? with
  | none => rfl
  | some c => exact h.fails hp hc

theorem Outside.ne (h : Outside post) (hc : c ∉ ['.', ' ', '\t', '=']) : post.head? ≠ some c :=
  fun heq => hc (h c heq)

theorem Outside.head (h : Outside post) {p : Char → Bool}
    (hp : ['.', ' ', '\t', '='].any p = false) :
    (k ++ post).head?.any p = k.head?.any p := by
  cases k with
  | nil => exact h.any_eq hp
  | cons c k => rfl

/-! ## Runs of digits in keys -/

/-- What a loop over digits does at an end. -/
def Ended (isDigit : Char → Bool) (buf t post : List Char) (run : Run) : End → Prop
  | .whole => run = .done (buf ++ t) post
  | .stop c r => isBareChar c = true ∧ isDigit c = false ∧ ∃ v, t = v ++ c :: r ∧
      run = .done (buf ++ v) (c :: r ++ post)
  | .astray => ∃ rest, run = .misplaced rest true
  | .trailing => ∃ rest, run = .misplaced rest false

theorem Ended.cons {e : End} {run : Run} (h : Ended isDigit (buf ++ [c]) t post run e) :
    Ended isDigit buf (c :: t) post run e := by
  cases e with
  | whole => simpa [Ended] using h
  | stop d r =>
    obtain ⟨hbare, hdigit, v, rfl, hrun⟩ := h
    exact ⟨hbare, hdigit, c :: v, rfl, by simpa using hrun⟩
  | astray => exact h
  | trailing => exact h

theorem scanRun_ended (isDigit : Char → Bool) (buf : List Char)
    (hk : ∀ c ∈ t, isBareChar c = true) (hpost : Outside post)
    (hdigit : ['.', ' ', '\t', '='].any isDigit = false) :
    Ended isDigit buf t post (scanRun isDigit buf (t ++ post))
      (ending isDigit (buf.getLast?.any isDigit) t) := by
  induction t generalizing buf with
  | nil =>
    rw [List.nil_append, ending, Ended, List.append_nil]
    cases post with
    | nil => rfl
    | cons c post =>
      rw [scanRun, if_neg (by simp [hpost.fails hdigit rfl]), if_neg]
      rintro rfl
      exact absurd (hpost _ rfl) (by decide)
  | cons c t ih =>
    have ht : ∀ d ∈ t, isBareChar d = true := fun d hd => hk d (List.mem_cons_of_mem _ hd)
    have hlast : (buf ++ [c]).getLast?.any isDigit = isDigit c := by simp
    have hrest := (ih (buf ++ [c]) ht).cons
    rw [hlast] at hrest
    rw [List.cons_append, scanRun, ending]
    by_cases hc : isDigit c = true
    · rw [if_pos hc, if_pos hc]
      rwa [hc] at hrest
    rw [if_neg hc, if_neg hc]
    rw [Bool.not_eq_true] at hc
    by_cases hunder : c = '_'
    · rw [if_pos hunder, if_pos hunder]
      have hhead : (t ++ post).head?.any isDigit = t.head?.any isDigit := hpost.head hdigit
      rw [hhead]
      by_cases hnil : t = []
      · rw [if_pos hnil, if_pos (by simp [hnil]), hnil, List.nil_append, hpost.any_eq (by decide)]
        exact ⟨_, rfl⟩
      rw [if_neg hnil]
      by_cases hbetween : (buf.getLast?.any isDigit && t.head?.any isDigit) = true
      · rw [if_pos hbetween, if_neg (by rwa [← Bool.not_and, Bool.not_eq_true', Bool.not_eq_false])]
        rwa [hc] at hrest
      · rw [if_neg hbetween, if_pos (by rwa [← Bool.not_and, Bool.not_eq_true',
          ← Bool.not_eq_true])]
        obtain ⟨d, ds, rfl⟩ := List.exists_cons_of_ne_nil hnil
        refine ⟨_, congrArg (Run.misplaced _) ?_⟩
        exact ht d List.mem_cons_self
    · rw [if_neg hunder, if_neg hunder]
      exact ⟨hk c List.mem_cons_self, hc, [], rfl, by rw [List.append_nil]; rfl⟩

/-! ## Tokens of keys -/

/-- A token that is a key with its text. -/
def KeyOf (k post : List Char) (result : Lexed) : Prop :=
  ∃ tk st, result = .ok (tk, st) ∧ extractKeySegment tk = .ok k ∧ st.rest = post

/-- No token that is a key with this text. -/
def NoKey (k : List Char) (result : Lexed) : Prop :=
  ∀ tk st, result = .ok (tk, st) → extractKeySegment tk ≠ .ok k

theorem noKey_err {message : String} : NoKey k (.ok (start.err message rest)) := by
  intro tk st h
  obtain ⟨rfl, -⟩ := Prod.mk.inj (Except.ok.inj h)
  simp [LexState.token, extractKeySegment]

theorem noKey_float {value : FloatValue} {st : LexState} :
    NoKey k (.ok (start.token (.float value), st)) := by
  intro tk st h
  obtain ⟨rfl, -⟩ := Prod.mk.inj (Except.ok.inj h)
  simp [LexState.token, extractKeySegment]

theorem noKey_error {message : String} : NoKey k (.error message) := fun tk st h => by cases h

theorem advanceBy_rest (n : ℕ) (st : LexState) : (st.advanceBy n).rest = st.rest.drop n := by
  induction n generalizing st with
  | zero => rfl
  | succ n ih =>
    rw [LexState.advanceBy, ih]
    cases hst : st.rest with
    | nil => simp [LexState.advance, hst]
    | cons c rest => rw [advance_rest hst, List.drop_succ_cons]

theorem keyOf_bare (hk : ∀ c ∈ k, isBareChar c = true) (hpost : Outside post)
    (hstart : start.rest = k ++ post) :
    KeyOf k post (.ok (start.token (.bare (readBareKey start).1), (readBareKey start).2)) := by
  have htake : start.rest.takeWhile isBareChar = k := by
    rw [hstart, List.takeWhile_append_of_pos hk]
    cases post with
    | nil => simp
    | cons c post =>
      have hc : isBareChar c = false := hpost.any_eq (p := isBareChar) (by decide)
      rw [List.takeWhile_cons_of_neg (by simp [hc]), List.append_nil]
  refine ⟨_, _, rfl, ?_, ?_⟩
  · rw [readBareKey, htake]
    rfl
  · rw [readBareKey, htake, advanceBy_rest, hstart, List.drop_left]

theorem keyOf_rewind (hk : BareKey k) (hpost : Outside post) (hstart : start.rest = k ++ post) :
    KeyOf k post (.ok (rewindToBare start)) := by
  have hplus : start.rest.head? ≠ some '+' := by
    obtain ⟨c, cs, rfl⟩ := List.exists_cons_of_ne_nil hk.1
    rw [hstart]
    intro h
    obtain rfl := Option.some.inj h
    exact absurd (hk.2 _ List.mem_cons_self) (by decide)
  rw [rewindToBare, if_neg hplus]
  exact keyOf_bare hk.2 hpost hstart

/-! ## Decimals -/

/-- What is left of a number after its exponent, if there is one. -/
def Exponent (buf post : List Char) (inside : Prop)
    (result : Except (String × List Char) (List Char × List Char × Bool)) : Prop :=
  (inside → ∃ buf' rest e, result = .ok (buf ++ buf', rest, e) ∧
      rest.head?.any isBareChar = true) ∧
    (¬ inside → (∃ error, result = .error error) ∨ ∃ buf', result = .ok (buf', post, true))

theorem scanExponent_key (hk : ∀ d ∈ c :: r, isBareChar d = true) (hpost : Outside post) :
    Exponent buf post (NoExponent c r) (scanExponent buf (c :: (r ++ post))) := by
  by_cases he : c = 'e' ∨ c = 'E'
  swap
  · rw [scanExponent, if_neg he]
    exact ⟨fun _ => ⟨[], c :: (r ++ post), false, by rw [List.append_nil], hk c List.mem_cons_self⟩,
      fun h => absurd (fun h' => absurd h' he) h⟩
  have hr : ∀ d ∈ r, isBareChar d = true := fun d hd => hk d (List.mem_cons_of_mem _ hd)
  have hw : ∀ d ∈ unsigned r, isBareChar d = true := by
    intro d hd
    rw [unsigned] at hd
    split at hd
    · exact hr d (List.mem_of_mem_tail hd)
    · exact hr d hd
  -- a sign is a minus sign of the key, as there is no plus sign in keys or after them
  obtain ⟨sign, hsign, hdrop, hlast⟩ : ∃ sign : List Char,
      (if (r ++ post).head? = some '+' ∨ (r ++ post).head? = some '-' then (r ++ post).take 1
        else []) = sign ∧ (r ++ post).drop sign.length = unsigned r ++ post ∧
      (buf ++ [c] ++ sign).getLast?.any isNumber = false := by
    have hc : isNumber c = false := by rcases he with rfl | rfl <;> rfl
    cases r with
    | nil =>
      refine ⟨[], ?_, rfl, by simpa using hc⟩
      rw [List.nil_append, if_neg]
      exact not_or.mpr ⟨hpost.ne (by decide), hpost.ne (by decide)⟩
    | cons d r =>
      by_cases hd : d = '-'
      · subst hd
        exact ⟨['-'], rfl, rfl, by simp [isNumber]⟩
      · have hplus : d ≠ '+' := by
          rintro rfl
          exact absurd (hr _ List.mem_cons_self) (by decide)
        refine ⟨[], ?_, ?_, by simpa using hc⟩
        · rw [if_neg]
          simp [hd, hplus]
        · rw [unsigned, if_neg (by simpa using hd)]
          rfl
  have hnumber : numberAt (r ++ post) sign.length = (unsigned r).head?.any isNumber := by
    rw [numberAt, ← List.head?_drop, hdrop]
    exact hpost.head (by decide)
  have hrun := scanRun_ended isNumber (buf ++ [c] ++ sign) hw hpost (by decide)
  rw [hlast] at hrun
  have hno : NoExponent c r ↔ StopsInside (unsigned r) := ⟨fun h => h he, fun h _ => h⟩
  rw [hno, StopsInside, scanExponent, if_pos he]
  dsimp only
  rw [hsign, hdrop, hnumber]
  generalize unsigned r = w at *
  cases hend : ending isNumber false w with
  | whole =>
    rw [hend, Ended] at hrun
    rw [hrun]
    refine ⟨fun h => by simp at h, fun _ => ?_⟩
    dsimp only
    split
    · exact .inr ⟨_, rfl⟩
    · exact .inl ⟨_, rfl⟩
  | stop d s =>
    rw [hend] at hrun
    obtain ⟨hbare, -, v, rfl, hrun⟩ := hrun
    rw [hrun]
    dsimp only
    refine ⟨fun h => ?_, fun h => ?_⟩
    · rw [if_pos h.1]
      exact ⟨[c] ++ sign ++ v, d :: s ++ post, true, by simp only [List.append_assoc], hbare⟩
    · rw [if_neg fun hhead => h ⟨hhead, d, s, rfl⟩]
      exact .inl ⟨_, rfl⟩
  | astray =>
    rw [hend] at hrun
    obtain ⟨rest, hrun⟩ := hrun
    rw [hrun]
    exact ⟨fun h => by simp at h, fun _ => .inl ⟨_, rfl⟩⟩
  | trailing =>
    rw [hend] at hrun
    obtain ⟨rest, hrun⟩ := hrun
    rw [hrun]
    exact ⟨fun h => by simp at h, fun _ => .inl ⟨_, rfl⟩⟩

theorem scanExponent_outside (buf : List Char) (hpost : Outside post) :
    scanExponent buf post = .ok (buf, post, false) := by
  cases post with
  | nil => rfl
  | cons c post =>
    have hc := hpost c rfl
    rw [scanExponent, if_neg]
    rintro (rfl | rfl) <;> exact absurd hc (by decide)

theorem decimal_exponent {sign body buf buf' rest rest' : List Char} {fraction : Bool}
    {inside : Prop} (hk : BareKey k) (hpost : Outside post) (hstart : start.rest = k ++ post)
    (hrun : scanRun isNumber sign body = .done buf rest)
    (hfraction : scanFraction buf rest = .ok (buf', rest', fraction))
    (hnumber : buf'.any isNumber = true) {post' : List Char} (hpost' : Outside post')
    (h : Exponent buf' post' inside (scanExponent buf' rest')) :
    (inside → KeyOf k post (classifyDecimal sign body start)) ∧
      (¬ inside → NoKey k (classifyDecimal sign body start)) := by
  refine ⟨fun hinside => ?_, fun hinside => ?_⟩
  · obtain ⟨more, rest, e, hexp, hbare⟩ := h.1 hinside
    have hany : (buf' ++ more).any isNumber = true := by rw [List.any_append, hnumber]; rfl
    have heq : classifyDecimal sign body start = .ok (rewindToBare start) := by
      rw [classifyDecimal, hrun]
      dsimp only
      rw [hfraction]
      dsimp only
      rw [hexp]
      dsimp only
      rw [hany, hbare]
      rfl
    rw [heq]
    exact keyOf_rewind hk hpost hstart
  · rcases h.2 hinside with ⟨⟨message, rest⟩, hexp⟩ | ⟨buf', hexp⟩
    · have heq : classifyDecimal sign body start = .ok (start.err message rest) := by
        rw [classifyDecimal, hrun]
        dsimp only
        rw [hfraction]
        dsimp only
        rw [hexp]
      rw [heq]
      exact noKey_err
    · rw [classifyDecimal, hrun]
      dsimp only
      rw [hfraction]
      dsimp only
      rw [hexp]
      dsimp only
      rw [hpost'.any_eq (by decide), Bool.or_true]
      split
      · exact noKey_err
      · exact noKey_float

/-! ## Numbers and their texts -/

theorem printInt64_eq (value : BitVec 64) :
    printInt64 value = (if value.toInt < 0 then Sign.minus else Sign.none).text ++
      Nat.toDigits 10 value.toInt.natAbs := by
  rw [printInt64]
  rcases value.toInt with n | n
  · rw [if_neg (by simp)]
    exact String.toList_ofList
  · rw [if_pos (Int.negSucc_lt_zero n)]
    have hrepr : (toString (Int.negSucc n)) = "-" ++ Nat.repr (n + 1) := rfl
    rw [hrepr, String.toList_append]
    exact congrArg (Sign.minus.text ++ ·) String.toList_ofList

theorem mem_printInt64 {value : BitVec 64} (h : c ∈ printInt64 value) :
    c = '-' ∨ isNumber c = true := by
  rw [printInt64_eq, List.mem_append] at h
  rcases h with h | h
  · split at h
    · exact .inl (List.mem_singleton.mp h)
    · exact absurd h List.not_mem_nil
  · exact .inr (Nat.isDigit_of_mem_toDigits (by decide) (by decide) h)

theorem digitsValue_toDigits (n : ℕ) : digitsValue 10 (Nat.toDigits 10 n) = n := by
  have hfold : ∀ (l : List Char) (m : ℕ), (∀ c ∈ l, c.isDigit = true) →
      l.foldl (fun acc c => acc * 10 + (hexValue c).getD 0) m =
        l.foldl (fun acc c => 10 * acc + (c.toNat - '0'.toNat)) m := by
    intro l
    induction l with
    | nil => exact fun _ _ => rfl
    | cons c l ih =>
      intro m hl
      have hc : hexValue c = some (c.toNat - '0'.toNat) := if_pos (hl c List.mem_cons_self)
      rw [List.foldl_cons, List.foldl_cons, hc, Option.getD_some, mul_comm]
      exact ih _ fun d hd => hl d (List.mem_cons_of_mem _ hd)
  rw [digitsValue, hfold _ _ fun c hc =>
    Nat.isDigit_of_mem_toDigits (by decide) (by decide) hc, ← Nat.ofDigitChars_eq_foldl]
  exact Nat.ofDigitChars_ten_toDigits

theorem stringToInt64_print (value : BitVec 64) :
    stringToInt64 (stripUnderscores (printInt64 value)) = some value := by
  have hdigits : ∀ c ∈ Nat.toDigits 10 value.toInt.natAbs, isNumber c = true := fun c hc =>
    Nat.isDigit_of_mem_toDigits (by decide) (by decide) hc
  have hstrip : stripUnderscores (Nat.toDigits 10 value.toInt.natAbs) =
      Nat.toDigits 10 value.toInt.natAbs := by
    refine List.filter_eq_self.mpr fun c hc => decide_eq_true ?_
    rintro rfl
    exact absurd (hdigits _ hc) (by decide)
  have hlt := @BitVec.toInt_lt 64 value
  have hle := @BitVec.le_toInt 64 value
  rw [printInt64_eq, strip_text, hstrip, stringToInt64_eq _ Nat.toDigits_ne_nil hdigits,
    digitsValue_toDigits]
  by_cases hneg : value.toInt < 0
  · rw [if_pos hneg]
    dsimp only
    rw [if_pos (by omega), show -((value.toInt.natAbs : ℕ) : ℤ) = value.toInt by omega,
      BitVec.ofInt_toInt]
  · rw [if_neg hneg]
    dsimp only
    rw [if_pos (by omega), show ((value.toInt.natAbs : ℕ) : ℤ) = value.toInt by omega,
      BitVec.ofInt_toInt]

theorem decimal_whole {sign body : List Char} (hpost : Outside post)
    (hstart : start.rest = k ++ post) (hrun : scanRun isNumber sign (body ++ post) = .done k post)
    (hnumber : k.any isNumber = true) (hdot : ¬ (post.head? = some '.' ∧ numberAt post 1)) :
    ((∃ value, printInt64 value = k) → KeyOf k post (classifyDecimal sign (body ++ post) start)) ∧
      ((¬ ∃ value, printInt64 value = k) →
        NoKey k (classifyDecimal sign (body ++ post) start)) := by
  have hexp := scanExponent_outside k hpost
  have heq : classifyDecimal sign (body ++ post) start =
      (stringToInt64 (stripUnderscores k)).elim
        (.error s!"failed to convert '{String.ofList (stripUnderscores k)}' to number")
        fun value => .ok (start.token (.integer value),
          start.advanceBy (start.rest.length - post.length)) := by
    rw [classifyDecimal, hrun]
    dsimp only
    rw [scanFraction, if_neg hdot]
    dsimp only
    rw [hexp]
    dsimp only
    rw [hnumber, hpost.any_eq (by decide)]
    cases stringToInt64 (stripUnderscores k) <;> rfl
  rw [heq]
  refine ⟨?_, fun hno => ?_⟩
  · rintro ⟨value, rfl⟩
    rw [stringToInt64_print]
    refine ⟨_, _, rfl, rfl, ?_⟩
    rw [advanceBy_rest, hstart, List.length_append, Nat.add_sub_cancel, List.drop_left]
  · cases stringToInt64 (stripUnderscores k) with
    | none => exact noKey_error
    | some value =>
      intro tk st h htk
      obtain ⟨rfl, -⟩ := Prod.mk.inj (Except.ok.inj h)
      exact hno ⟨value, Except.ok.inj htk⟩

theorem decimal_dotted {sign body m : List Char} (hk : BareKey k) (hm : BareKey m)
    (h : Outside post) (hpost : Outside ('.' :: (m ++ post)))
    (hstart : start.rest = k ++ '.' :: (m ++ post))
    (hrun : scanRun isNumber sign (body ++ '.' :: (m ++ post)) = .done k ('.' :: (m ++ post)))
    (hany : k.any isNumber = true) (hhead : m.head?.any isNumber = true)
    (hdigit : numberAt ('.' :: (m ++ post)) 1 = m.head?.any isNumber) :
    ((∃ c r, ending isNumber false m = .stop c r ∧ NoExponent c r) →
        KeyOf k ('.' :: (m ++ post)) (classifyDecimal sign (body ++ '.' :: (m ++ post)) start)) ∧
      ((¬ ∃ c r, ending isNumber false m = .stop c r ∧ NoExponent c r) →
        NoKey k (classifyDecimal sign (body ++ '.' :: (m ++ post)) start)) := by
  have hdot : ('.' :: (m ++ post)).head? = some '.' ∧
      numberAt ('.' :: (m ++ post)) 1 = true := ⟨rfl, hdigit.trans hhead⟩
  have hnext := scanRun_ended isNumber (k ++ ['.']) hm.2 h (by decide)
  have hfalse : (k ++ ['.']).getLast?.any isNumber = false := by simp [isNumber]
  rw [hfalse] at hnext
  have hnumbers : ∀ v, (k ++ ['.'] ++ v).any isNumber = true := by
    intro v
    rw [List.append_assoc, List.any_append, hany]
    rfl
  -- an underscore out of place is an error here, even inside of a key
  have herror : ∀ {rest bare}, scanRun isNumber (k ++ ['.']) (m ++ post) =
      .misplaced rest bare →
      NoKey k (classifyDecimal sign (body ++ '.' :: (m ++ post)) start) := by
    intro rest bare hmis
    rw [classifyDecimal, hrun]
    dsimp only
    rw [scanFraction, if_pos hdot, List.tail_cons, hmis]
    exact noKey_err
  cases hm' : ending isNumber false m with
  | astray =>
    obtain ⟨rest, hmis⟩ := hm' ▸ hnext
    refine ⟨?_, fun _ => herror hmis⟩
    rintro ⟨_, _, h, -⟩
    exact absurd h (by simp)
  | trailing =>
    obtain ⟨rest, hmis⟩ := hm' ▸ hnext
    refine ⟨?_, fun _ => herror hmis⟩
    rintro ⟨_, _, h, -⟩
    exact absurd h (by simp)
  | whole =>
    rw [hm', Ended] at hnext
    have hfraction : scanFraction k ('.' :: (m ++ post)) = .ok (k ++ ['.'] ++ m, post, true) := by
      rw [scanFraction, if_pos hdot, List.tail_cons, hnext]
    have hexp := scanExponent_outside (k ++ ['.'] ++ m) h
    refine ⟨?_, fun _ => ?_⟩
    · rintro ⟨_, _, h, -⟩
      exact absurd h (by simp)
    rw [classifyDecimal, hrun]
    dsimp only
    rw [hfraction]
    dsimp only
    rw [hexp]
    dsimp only
    rw [hnumbers, Outside.any_eq h (by decide)]
    exact noKey_float
  | stop c r =>
    obtain ⟨-, -, v, rfl, hdone⟩ := hm' ▸ hnext
    have hfraction : scanFraction k ('.' :: (v ++ c :: r ++ post)) =
        .ok (k ++ ['.'] ++ v, c :: (r ++ post), true) := by
      rw [scanFraction, if_pos hdot, List.tail_cons, hdone]
      rfl
    have hc : ∀ d ∈ c :: r, isBareChar d = true :=
      fun d hd => hm.2 d (List.mem_append_right _ hd)
    have hinside : (∃ c' r', End.stop c r = .stop c' r' ∧ NoExponent c' r') ↔
        NoExponent c r := by
      constructor
      · rintro ⟨c', r', heq, hno⟩
        obtain ⟨rfl, rfl⟩ := End.stop.inj heq
        exact hno
      · exact fun hno => ⟨c, r, rfl, hno⟩
    rw [hinside]
    exact decimal_exponent hk hpost hstart hrun hfraction (hnumbers v) h (scanExponent_key hc h)

theorem decimal_key {sign : List Char} (hsign : sign = [] ∨ sign = ['-']) (hk : BareKey k)
    (hafter : After next post) (hstart : start.rest = k ++ post) (hbody : k = sign ++ unsigned k)
    (hnumber : (unsigned k).head?.any isNumber = true) :
    (DecimalKept next k → KeyOf k post (classifyDecimal sign (unsigned k ++ post) start)) ∧
      (¬ DecimalKept next k → NoKey k (classifyDecimal sign (unsigned k ++ post) start)) := by
  have hpost := hafter.outside
  have hbare : ∀ c ∈ unsigned k, isBareChar c = true := by
    intro c hc
    refine hk.2 c ?_
    rw [hbody]
    exact List.mem_append_right _ hc
  have hlast : sign.getLast?.any isNumber = false := by rcases hsign with rfl | rfl <;> rfl
  have hrun := scanRun_ended isNumber sign hbare hpost (by decide)
  rw [hlast] at hrun
  rw [DecimalKept]
  cases hend : ending isNumber false (unsigned k) with
  | astray =>
    rw [hend] at hrun
    obtain ⟨rest, hrun⟩ := hrun
    rw [classifyDecimal, hrun]
    exact ⟨fun _ => keyOf_rewind hk hpost hstart, fun h => absurd trivial h⟩
  | trailing =>
    rw [hend] at hrun
    obtain ⟨rest, hrun⟩ := hrun
    rw [classifyDecimal, hrun]
    exact ⟨fun h => h.elim, fun _ => noKey_err⟩
  | stop c r =>
    rw [hend] at hrun
    obtain ⟨-, hdigit, v, hv, hrun⟩ := hrun
    rw [hv] at hbare hnumber
    have hc : ∀ d ∈ c :: r, isBareChar d = true := fun d hd => hbare d (List.mem_append_right _ hd)
    have hfraction : scanFraction (sign ++ v) (c :: r ++ post) =
        .ok (sign ++ v, c :: (r ++ post), false) := by
      rw [scanFraction, if_neg]
      · rfl
      · rintro ⟨h, -⟩
        obtain rfl := Option.some.inj h
        exact absurd (hc _ List.mem_cons_self) (by decide)
    have hany : (sign ++ v).any isNumber = true := by
      cases v with
      | nil =>
        have hc' : isNumber c = true := hnumber
        exact absurd (hdigit.symm.trans hc') Bool.false_ne_true
      | cons d v =>
        rw [List.any_append, List.any_cons, show isNumber d = true from hnumber]
        simp
    exact decimal_exponent hk hpost hstart hrun hfraction hany hpost (scanExponent_key hc hpost)
  | whole =>
    rw [hend] at hrun
    rw [Ended, ← hbody] at hrun
    have hany : k.any isNumber = true := by
      obtain ⟨c, hc, hdigit⟩ := (Option.any_eq_true _ _).mp hnumber
      refine List.any_eq_true.mpr ⟨c, ?_, hdigit⟩
      rw [hbody]
      exact List.mem_append_right _ (List.mem_of_head? hc)
    dsimp only
    cases hafter with
    | last h =>
      rw [Option.bind_none, Option.any_none, if_neg Bool.false_ne_true]
      refine decimal_whole hpost hstart hrun hany fun hdot => ?_
      exact absurd (head_blanks h hdot.1) (by decide)
    | @dot m post hm h =>
      have hdigit : numberAt ('.' :: (m ++ post)) 1 = m.head?.any isNumber := by
        rw [numberAt, List.getElem?_cons_succ, ← List.head?_eq_getElem?]
        exact Outside.head h (by decide)
      rw [Option.bind_some]
      by_cases hhead : m.head?.any isNumber = true
      swap
      · rw [if_neg hhead]
        refine decimal_whole hpost hstart hrun hany fun hdot => hhead ?_
        rw [← hdigit]
        exact hdot.2
      rw [if_pos hhead, Option.getD_some]
      exact decimal_dotted hk hm h hpost hstart hrun hany hhead hdigit

theorem prefixed_key {radix : ℕ} {p : Char} (ht : k = '0' :: p :: t) (hk : BareKey k)
    (hpost : Outside post) (hstart : start.rest = k ++ post)
    (hp : p ≠ '-' ∧ isNumber p = false) :
    (ending isHex false t ≠ .whole ∧ ending isHex false t ≠ .trailing →
        KeyOf k post (.ok (classifyPrefixed radix start))) ∧
      (¬ (ending isHex false t ≠ .whole ∧ ending isHex false t ≠ .trailing) →
        NoKey k (.ok (classifyPrefixed radix start))) := by
  have hbare : ∀ c ∈ t, isBareChar c = true := fun c hc =>
    hk.2 c (by rw [ht]; exact List.mem_cons_of_mem _ (List.mem_cons_of_mem _ hc))
  have hrun := scanRun_ended isHex [] hbare hpost (by decide)
  have hdrop : start.rest.drop 2 = t ++ post := by rw [hstart, ht]; rfl
  rw [classifyPrefixed, hdrop]
  change Ended _ _ _ _ _ (ending isHex false t) at hrun
  cases hend : ending isHex false t with
  | astray =>
    obtain ⟨rest, hrun⟩ := hend ▸ hrun
    rw [hrun]
    exact ⟨fun _ => keyOf_rewind hk hpost hstart, fun h => absurd ⟨by simp, by simp⟩ h⟩
  | trailing =>
    obtain ⟨rest, hrun⟩ := hend ▸ hrun
    rw [hrun]
    exact ⟨fun h => absurd rfl h.2, fun _ => noKey_err⟩
  | stop c r =>
    obtain ⟨hc, -, v, -, hrun⟩ := hend ▸ hrun
    rw [hrun]
    dsimp only
    rw [show (c :: r ++ post).head?.any isBareChar = true from hc, if_pos rfl]
    exact ⟨fun _ => keyOf_rewind hk hpost hstart, fun h => absurd ⟨by simp, by simp⟩ h⟩
  | whole =>
    rw [hend, Ended] at hrun
    rw [hrun]
    dsimp only
    rw [hpost.any_eq (by decide), if_neg Bool.false_ne_true]
    refine ⟨fun h => absurd rfl h.1, fun _ => ?_⟩
    split
    · exact noKey_err
    · intro tk st h htk
      obtain ⟨rfl, -⟩ := Prod.mk.inj (Except.ok.inj h)
      have hprint : printInt64 _ = k := Except.ok.inj htk
      -- no number is printed with a letter
      have hmem : p ∈ printInt64 _ := hprint ▸ ht ▸ List.mem_cons_of_mem _ List.mem_cons_self
      rcases mem_printInt64 hmem with h | h
      · exact hp.1 h
      · exact Bool.false_ne_true (hp.2.symm.trans h)

/-! ## Keys that look like dates -/

theorem prefix_of_append {p : List Char} (hp : ∀ c ∈ p, isBareChar c = true) (hpost : Outside post)
    (h : p <+: k ++ post) : p <+: k := by
  rcases le_or_gt p.length k.length with hle | hlt
  · exact List.prefix_of_prefix_length_le h (List.prefix_append k post) hle
  · obtain ⟨q, rfl⟩ := List.prefix_of_prefix_length_le (List.prefix_append k post) h hlt.le
    obtain ⟨c, q, rfl⟩ := List.exists_cons_of_ne_nil (l := q) (by rintro rfl; simp at hlt)
    obtain ⟨rest, hrest⟩ := (List.prefix_append_right_inj k).mp h
    have hno := hpost.fails (p := isBareChar) (by decide) (c := c) (by rw [← hrest]; rfl)
    have hbare := hp c (by simp)
    exact absurd (hno.symm.trans hbare) Bool.false_ne_true

theorem date_length (hpost : Outside post) (h : looksLikeDatetime (k ++ post) = true) :
    10 ≤ k.length := by
  simp only [looksLikeDatetime, Bool.and_eq_true, decide_eq_true_eq, beq_iff_eq] at h
  have hnumber : ∀ {i}, numberAt (k ++ post) i = true →
      ∃ c, (k ++ post)[i]? = some c ∧ isBareChar c = true := by
    intro i hi
    obtain ⟨c, hc, hdigit⟩ := (Option.any_eq_true _ _).mp hi
    exact ⟨c, hc, by simp [isBareChar, hdigit]⟩
  have hall : ∀ i < 10, ∃ c, (k ++ post)[i]? = some c ∧ isBareChar c = true := by
    intro i hi
    interval_cases i
    all_goals first | exact hnumber (by simp [h]) | exact ⟨'-', by simp [h], rfl⟩
  by_contra hlt
  obtain ⟨c, hc, hbare⟩ := hall k.length (Nat.lt_of_not_le hlt)
  rw [head_of_append] at hc
  exact Bool.false_ne_true ((hpost.fails (by decide) hc).symm.trans hbare)

theorem kept_of_date (hpost : Outside post) (h : looksLikeDatetime (k ++ post) = true) :
    Kept next k := by
  have hlen := date_length hpost h
  obtain ⟨a, b, c, d, e, r, rfl⟩ : ∃ a b c d e r, k = a :: b :: c :: d :: e :: r := by
    rcases k with _ | ⟨a, _ | ⟨b, _ | ⟨c, _ | ⟨d, _ | ⟨e, r⟩⟩⟩⟩⟩
    all_goals first | exact ⟨_, _, _, _, _, _, rfl⟩ | exact absurd hlen (by simp)
  simp only [looksLikeDatetime, Bool.and_eq_true, decide_eq_true_eq, beq_iff_eq] at h
  obtain ⟨⟨⟨⟨⟨⟨⟨⟨⟨⟨-, ha⟩, hb⟩, hc⟩, hd⟩, he⟩, -⟩, -⟩, -⟩, -⟩, -⟩ := h
  replace ha : isNumber a = true := ha
  replace hb : isNumber b = true := hb
  replace hc : isNumber c = true := hc
  replace hd : isNumber d = true := hd
  obtain rfl : e = '-' := Option.some.inj he
  have hminus : a ≠ '-' := by
    rintro rfl
    exact absurd ha (by decide)
  have hradix : prefixRadix (some b) = none := by
    have hx : ∀ x, isNumber x = false → some b ≠ some x := by
      rintro x hx heq
      obtain rfl := Option.some.inj heq
      exact Bool.false_ne_true (hx.symm.trans hb)
    rw [prefixRadix, if_neg (hx _ (by decide)), if_neg (hx _ (by decide)),
      if_neg (hx _ (by decide))]
  have hunsigned : unsigned (a :: b :: c :: d :: '-' :: r) = a :: b :: c :: d :: '-' :: r :=
    if_neg (by simpa using hminus)
  refine ⟨fun h => hminus (List.cons.inj h).1, fun h => hminus (List.cons.inj h).1,
    fun h => hminus (List.cons.inj h).1, ?_⟩
  rw [if_neg (by simp [hradix]), hunsigned]
  intro _
  have hend : ending isNumber false (a :: b :: c :: d :: '-' :: r) = .stop '-' r := by
    rw [ending, if_pos ha, ending, if_pos hb, ending, if_pos hc, ending, if_pos hd]
    rfl
  rw [DecimalKept, hunsigned, hend]
  rintro (h | h) <;> exact absurd h (by decide)

theorem date_key {colon : List Char → String} (hk : BareKey k) (hafter : After next post)
    (hstart : start.rest = k ++ post) (h : looksLikeDatetime start.rest = true) :
    KeyOf k post (.ok (classifyDatetime false colon start)) := by
  have hpost := hafter.outside
  have hlen := date_length hpost (hstart ▸ h)
  have hdrop : start.rest.drop 10 = k.drop 10 ++ post := by
    rw [hstart, List.drop_append_of_le_length hlen]
  have htime : timeLength (k.drop 10 ++ post) = 0 := by
    rw [timeLength, if_neg]
    rintro ⟨hhead, -, htime⟩
    refine absurd htime (Bool.eq_false_iff.mp ?_)
    cases hu : k.drop 10 with
    | nil =>
      -- a blank is not before a time, as the statement goes on with `=`
      rw [hu, List.nil_append] at hhead
      rw [List.nil_append]
      cases hafter with
      | @last blanks post hblanks =>
        cases blanks with
        | nil => exact absurd hhead (by simp)
        | cons b blanks =>
          have htail : ∀ c, (blanks ++ '=' :: post).head? = some c → c ∈ [' ', '\t', '='] :=
            fun c => head_blanks fun d hd => hblanks d (List.mem_cons_of_mem _ hd)
          refine @not_looksLikeTime [] _ (by simp) (fun c hc => ?_) fun hc => ?_
          · have hno : [' ', '\t', '='].any isNumber = false := by decide
            exact Bool.eq_false_iff.mpr (List.any_eq_false.mp hno c (htail c hc))
          · exact absurd (htail _ hc) (by decide)
      | dot hm h' => exact absurd hhead (by simp)
    | cons d u =>
      refine @not_looksLikeTime u _ ?_ ?_ (hpost.ne (by decide))
      · intro hmem
        have hbare := hk.2 ':' (List.mem_of_mem_drop (i := 10)
          (by rw [hu]; exact List.mem_cons_of_mem _ hmem))
        exact absurd hbare (by decide)
      · exact fun c => hpost.fails (by decide)
  have hread : readDatetime false start = (k.take 10, start.advanceBy 10) := by
    rw [readDatetime, datetimeLength, if_neg Bool.false_ne_true, hdrop, htime, hstart,
      List.take_append_of_le_length hlen]
  have hrest : (start.advanceBy 10).rest = k.drop 10 ++ post := by rw [advanceBy_rest, hdrop]
  rw [classifyDatetime, hread]
  dsimp only
  rw [hrest]
  cases hu : k.drop 10 with
  | nil =>
    have hwhole : k.take 10 = k := List.take_of_length_le (List.drop_eq_nil_iff.mp hu)
    have hdate : KeyOf k post (.ok (start.token (.datetime (k.take 10)), start.advanceBy 10)) :=
      ⟨_, _, rfl, congrArg Except.ok hwhole, by rw [hrest, hu, List.nil_append]⟩
    rw [List.nil_append]
    cases hc : post.head? with
    | none => exact hdate
    | some c =>
      dsimp only
      split
      · exact keyOf_rewind hk hpost hstart
      split
      · rename_i hcolon
        exact absurd (hpost c hc) (hcolon ▸ by decide)
      · exact hdate
  | cons d u =>
    have hd : isBareChar d = true :=
      hk.2 d (List.mem_of_mem_drop (i := 10) (by rw [hu]; exact List.mem_cons_self))
    rw [List.cons_append, List.head?_cons]
    dsimp only
    rw [if_pos hd]
    exact keyOf_rewind hk hpost hstart

/-! ## Keys as tokens -/

theorem named_key {name : String} (value : FloatValue) {sign : List Char}
    (hlen : name.toList.length = 3) (hhead : name.toList.head? ≠ some '-')
    (hname : name.toList.all isBareChar = true) (hsign : sign = [] ∨ sign = ['-']) (hk : BareKey k)
    (hpost : Outside post) (hstart : start.rest = k ++ post)
    (h : sign ++ name.toList <+: k ++ post) :
    (k ≠ '-' :: name.toList → KeyOf k post (.ok (classifyNamed name value sign start))) ∧
      (k = '-' :: name.toList → NoKey k (.ok (classifyNamed name value sign start))) := by
  have hprefix : sign ++ name.toList <+: k := by
    refine prefix_of_append (fun c hc => ?_) hpost h
    rcases List.mem_append.mp hc with hc | hc
    · rcases hsign with rfl | rfl
      · exact absurd hc List.not_mem_nil
      · exact List.mem_singleton.mp hc ▸ rfl
    · exact List.all_eq_true.mp hname c hc
  obtain ⟨r, hr⟩ := hprefix
  have hrest : (start.advanceBy (sign.length + 3)).rest = r ++ post := by
    rw [advanceBy_rest, hstart, ← hr, ← hlen, ← List.length_append, List.append_assoc _ r,
      List.drop_left]
  rw [classifyNamed, hrest]
  cases r with
  | nil =>
    rw [List.append_nil] at hr
    rw [List.nil_append] at hrest ⊢
    rw [hpost.any_eq (by decide), if_neg Bool.false_ne_true]
    rcases hsign with rfl | rfl
    · rw [if_pos rfl]
      refine ⟨fun _ => ⟨_, _, rfl, congrArg Except.ok hr, hrest⟩, fun hk' => ?_⟩
      have hlen' := congrArg List.length (hr.trans hk')
      simp at hlen'
    · rw [if_neg (List.cons_ne_nil _ _)]
      exact ⟨fun h => absurd hr.symm h, fun _ => noKey_float⟩
  | cons c r =>
    have hc : isBareChar c = true := hk.2 c (by rw [← hr]; simp)
    rw [List.cons_append, List.head?_cons, Option.any_some, if_pos hc]
    refine ⟨fun _ => keyOf_rewind hk hpost hstart, fun hk' => ?_⟩
    have heq := hr.trans hk'
    rcases hsign with rfl | rfl
    · obtain ⟨d, ds, hds⟩ := List.exists_cons_of_ne_nil (l := name.toList)
        (by intro h; simp [h] at hlen)
      rw [hds] at heq hhead
      exact absurd (congrArg some (List.cons.inj heq).1) hhead
    · have hlen' := congrArg List.length heq
      simp at hlen'

theorem prefixRadix_append (hpost : Outside post) :
    prefixRadix (c :: k ++ post)[1]? = prefixRadix (c :: k)[1]? := by
  cases k with
  | nil =>
    rw [List.singleton_append, List.getElem?_cons_succ, ← List.head?_eq_getElem?, prefixRadix,
      if_neg (hpost.ne (by decide)), if_neg (hpost.ne (by decide)), if_neg (hpost.ne (by decide))]
    rfl
  | cons d k => rfl

theorem kept_digit (hnumber : isNumber c = true) :
    Kept next (c :: k) ↔ if (c :: k).head? = some '0' ∧ (prefixRadix (c :: k)[1]?).isSome then
      ending isHex false ((c :: k).drop 2) ≠ .whole ∧
        ending isHex false ((c :: k).drop 2) ≠ .trailing
      else DecimalKept next (c :: k) := by
  have hminus : c ≠ '-' := by
    rintro rfl
    exact absurd hnumber (by decide)
  have hsigned : ∀ {l}, c :: k ≠ '-' :: l := fun h => hminus (List.cons.inj h).1
  have hunsigned : unsigned (c :: k) = c :: k := if_neg (by simpa using hminus)
  rw [Kept, hunsigned]
  constructor
  · rintro ⟨-, -, -, h⟩
    split at h
    · rename_i hp
      rwa [if_pos hp]
    · rename_i hp
      rw [if_neg hp]
      exact h hnumber
  · intro h
    refine ⟨hsigned, hsigned, hsigned, ?_⟩
    split at h
    · rename_i hp
      rwa [if_pos hp]
    · rename_i hp
      rw [if_neg hp]
      exact fun _ => h

theorem number_key (hk : BareKey k) (hafter : After next post) (hstart : start.rest = k ++ post)
    (hc : k.head? = some c) (hnumber : isNumber c = true) :
    (Kept next k → KeyOf k post (classifyNumberOrDatetime start)) ∧
      (¬ Kept next k → NoKey k (classifyNumberOrDatetime start)) := by
  have hpost := hafter.outside
  obtain ⟨k', rfl⟩ : ∃ k', k = c :: k' := by
    cases k with
    | nil => exact absurd hc (by simp)
    | cons d k' => exact ⟨k', by rw [Option.some.inj hc]⟩
  have hne : ∀ {d}, isNumber d = false → c ≠ d := by
    rintro d hd rfl
    exact Bool.false_ne_true (hd.symm.trans hnumber)
  have hhead : start.rest.head?.any isNumber = true := by rw [hstart]; exact hnumber
  rw [classifyNumberOrDatetime, hhead, Bool.true_and, Bool.true_and]
  by_cases hdate : looksLikeDatetime start.rest = true
  · rw [if_pos hdate]
    exact ⟨fun _ => date_key hk hafter hstart hdate,
      fun h => absurd (kept_of_date hpost (hstart ▸ hdate)) h⟩
  have htime : looksLikeTime start.rest = false := by
    rw [hstart]
    refine not_looksLikeTime (fun h => ?_) (fun d => hpost.fails (by decide))
      (hpost.ne (by decide))
    exact absurd (hk.2 _ h) (by decide)
  have hsign : ¬ (start.rest.head? = some '+' ∨ start.rest.head? = some '-') := by
    rw [hstart]
    rintro (h | h)
    · exact hne (d := '+') (by decide) (Option.some.inj h)
    · exact hne (d := '-') (by decide) (Option.some.inj h)
  have hrest : start.rest ≠ [] := by rw [hstart]; exact List.cons_ne_nil _ _
  have hnamed : ∀ s : String, s.toList.head?.any isNumber = false → s.toList ≠ [] →
      startsWithAt start.rest s = false := by
    intro s hs hnil
    obtain ⟨d, ds, hds⟩ := List.exists_cons_of_ne_nil hnil
    rw [hds] at hs
    rw [startsWithAt, hds, hstart, List.cons_append, List.isPrefixOf, Bool.and_eq_false_iff]
    exact .inl (beq_false_of_ne (hne hs).symm)
  have hminus : c ≠ '-' := hne (by decide)
  have hunsigned : unsigned (c :: k') = c :: k' := if_neg (by simpa using hminus)
  have hdecimal := decimal_key (.inl rfl) hk hafter hstart (by rw [hunsigned]; rfl)
    (by rw [hunsigned]; exact hnumber)
  rw [hunsigned, ← hstart] at hdecimal
  rw [if_neg hdate, htime, if_neg Bool.false_ne_true, if_neg hsign]
  simp only [List.length_nil, List.drop_zero]
  rw [if_neg hrest, hnamed _ (by decide) (by decide), hnamed _ (by decide) (by decide),
    if_neg Bool.false_ne_true, if_neg Bool.false_ne_true, hstart, prefixRadix_append hpost,
    ← hstart]
  rw [kept_digit hnumber]
  cases hradix' : prefixRadix (c :: k')[1]? with
  | none =>
    rw [if_neg (by simp)]
    exact hdecimal
  | some radix =>
    dsimp only
    by_cases hzero : c = '0'
    swap
    · rw [if_neg (by simp [hzero]), if_neg]
      · exact hdecimal
      · rintro ⟨-, h⟩
        rw [hstart] at h
        exact hzero (Option.some.inj h)
    subst hzero
    rw [if_pos ⟨rfl, rfl⟩, if_pos ⟨trivial, by rw [hstart]; rfl⟩]
    cases k' with
    | nil => exact absurd hradix'.symm (Option.some_ne_none radix)
    | cons p t =>
      refine prefixed_key rfl hk hpost hstart ?_
      have hp : p = 'x' ∨ p = 'o' ∨ p = 'b' := by
        rw [prefixRadix] at hradix'
        simp only [List.getElem?_cons_succ, List.getElem?_cons_zero, Option.some.injEq] at hradix'
        split at hradix'
        · exact .inl ‹_›
        split at hradix'
        · exact .inr (.inl ‹_›)
        split at hradix'
        · exact .inr (.inr ‹_›)
        · exact absurd hradix' (by simp)
      rcases hp with rfl | rfl | rfl <;> decide

theorem kept_minus : Kept next ('-' :: t) ↔ t ≠ [] ∧ t ≠ "inf".toList ∧ t ≠ "nan".toList ∧
    (t.head?.any isNumber = true → DecimalKept next ('-' :: t)) := by
  have hsplit : ∀ l, '-' :: t ≠ '-' :: l ↔ t ≠ l := fun l =>
    not_congr ⟨fun h => (List.cons.inj h).2, fun h => congrArg _ h⟩
  rw [Kept, if_neg (by simp)]
  exact and_congr (hsplit []) (and_congr (hsplit _) (and_congr (hsplit _) Iff.rfl))

theorem minus_key (hk : BareKey ('-' :: t)) (hafter : After next post)
    (hstart : start.rest = '-' :: t ++ post) (hvalue : isValueContinuation (t ++ post) = true) :
    (Kept next ('-' :: t) → KeyOf ('-' :: t) post (classifyNumberOrDatetime start)) ∧
      (¬ Kept next ('-' :: t) → NoKey ('-' :: t) (classifyNumberOrDatetime start)) := by
  have hpost := hafter.outside
  have hhead : start.rest.head?.any isNumber = false := by rw [hstart]; rfl
  have hrest : t ++ post ≠ [] := by
    intro h
    rw [h] at hvalue
    exact absurd hvalue (by decide)
  have hsign : start.rest.head? = some '+' ∨ start.rest.head? = some '-' :=
    .inr (by rw [hstart]; rfl)
  have hclassify : classifyNumberOrDatetime start =
      if startsWithAt (t ++ post) "inf" then .ok (classifyNamed "inf" .negInf ['-'] start)
      else if startsWithAt (t ++ post) "nan" then .ok (classifyNamed "nan" .nan ['-'] start)
      else classifyDecimal ['-'] (t ++ post) start := by
    have hdrop : start.rest.drop ['-'].length = t ++ post := by rw [hstart]; rfl
    have htake : start.rest.take 1 = ['-'] := by rw [hstart]; rfl
    rw [classifyNumberOrDatetime, hhead, Bool.false_and, Bool.false_and,
      if_neg Bool.false_ne_true, if_neg Bool.false_ne_true, if_pos hsign, htake]
    dsimp only
    rw [hdrop, if_neg hrest, if_pos rfl]
    split
    · rfl
    split
    · rfl
    split
    · rw [if_neg (by simp)]
    · rfl
  rw [hclassify]
  -- `-inf` and `-nan` by themselves are floats
  have hnamed : ∀ (name : String) (value : FloatValue), name.toList.length = 3 →
      name.toList.head? ≠ some '-' → name.toList.all isBareChar = true →
      (∀ r, Kept next ('-' :: (name.toList ++ r)) ↔ r ≠ []) →
      startsWithAt (t ++ post) name = true →
      (Kept next ('-' :: t) → KeyOf ('-' :: t) post (.ok (classifyNamed name value ['-'] start))) ∧
      (¬ Kept next ('-' :: t) →
        NoKey ('-' :: t) (.ok (classifyNamed name value ['-'] start))) := by
    intro name value hlen hminus hname hkept hstarts
    have hprefix : name.toList <+: t ++ post := List.isPrefixOf_iff_prefix.mp hstarts
    obtain ⟨hkey, hno⟩ := named_key value hlen hminus hname (.inr rfl) hk hpost hstart
      (List.cons_prefix_cons.mpr ⟨rfl, hprefix⟩)
    obtain ⟨r, rfl⟩ := prefix_of_append (List.all_eq_true.mp hname) hpost hprefix
    rw [hkept]
    refine ⟨fun hr => hkey fun h => hr ?_, fun hr => hno ?_⟩
    · exact List.append_right_eq_self.mp (List.cons.inj h).2
    · rw [not_not.mp hr, List.append_nil]
  split
  · rename_i hinf
    refine hnamed "inf" .negInf rfl (by decide) (by decide) (fun r => ?_) hinf
    rw [kept_minus]
    simp [isNumber]
  split
  · rename_i hnan
    refine hnamed "nan" .nan rfl (by decide) (by decide) (fun r => ?_) hnan
    rw [kept_minus]
    simp [isNumber]
  rename_i hinf hnan
  have hdigit : t.head?.any isNumber = true := by
    rw [isValueContinuation, Bool.or_eq_true, Bool.or_eq_true] at hvalue
    rw [← hpost.head (k := t) (by decide)]
    exact (hvalue.resolve_right hnan).resolve_right hinf
  obtain ⟨hkey, hno⟩ := decimal_key (.inr rfl) hk hafter hstart rfl hdigit
  have hkept : Kept next ('-' :: t) ↔ DecimalKept next ('-' :: t) := by
    rw [kept_minus]
    refine ⟨fun h => h.2.2.2 hdigit, fun h => ⟨?_, ?_, ?_, fun _ => h⟩⟩
    all_goals
      rintro rfl
      exact absurd hdigit (by decide)
  rw [hkept]
  exact ⟨hkey, hno⟩

theorem lexToken_key (readQuoted : Char → LexState → TomlTokenAt × LexState) (hk : BareKey k)
    (hafter : After next post) (hstart : start.rest = k ++ post) (hc : k.head? = some c) :
    (Kept next k → KeyOf k post (lexToken readQuoted start c)) ∧
      (¬ Kept next k → NoKey k (lexToken readQuoted start c)) := by
  have hpost := hafter.outside
  have hbare : isBareChar c = true := hk.2 c (List.mem_of_head? hc)
  obtain ⟨k', rfl⟩ : ∃ k', k = c :: k' := by
    cases k with
    | nil => exact absurd hc (by simp)
    | cons d k' => exact ⟨k', by rw [Option.some.inj hc]⟩
  have hne : ∀ {d}, isBareChar d = false → c ≠ d := by
    rintro d hd rfl
    exact Bool.false_ne_true (hd.symm.trans hbare)
  by_cases hnumber : isNumber c = true
  · rw [lexToken_number hnumber]
    exact number_key hk hafter hstart hc hnumber
  have hkey := keyOf_bare hk.2 hpost hstart
  rw [lexToken, if_neg (hne (by decide)), if_neg, if_neg]
  rotate_left
  · exact not_or.mpr ⟨hne (by decide), hne (by decide)⟩
  · simp only [not_or]
    refine ⟨hne ?_, hne ?_, hne ?_, hne ?_, hne ?_, hne ?_, hne ?_⟩ <;> decide
  have hplus : (c == '+') = false := beq_false_of_ne (hne (by decide))
  rw [hplus, Bool.or_false, Bool.false_or, Bool.eq_false_iff.mpr hnumber, Bool.false_or,
    if_pos hbare]
  by_cases hminus : c = '-'
  · subst hminus
    have htail : start.rest.tail = k' ++ post := by rw [hstart]; rfl
    rw [beq_self_eq_true, Bool.true_or, Bool.true_or, if_pos rfl, htail, Bool.true_and,
      Bool.true_and]
    by_cases hvalue : isValueContinuation (k' ++ post) = true
    · rw [hvalue, if_neg (by simp)]
      exact minus_key hk hafter hstart hvalue
    rw [Bool.not_eq_true] at hvalue
    rw [hvalue, Bool.not_false, if_pos rfl, hpost.head (by decide), kept_minus]
    cases k' with
    | nil =>
      rw [if_neg (by simp)]
      refine ⟨fun h => absurd rfl h.1, fun _ tk st h => ?_⟩
      obtain ⟨rfl, -⟩ := Prod.mk.inj (Except.ok.inj h)
      simp [LexState.token, extractKeySegment]
    | cons d k' =>
      have hd : isBareChar d = true := hk.2 d (List.mem_cons_of_mem _ List.mem_cons_self)
      have hhead : (d :: k').head?.any isBareChar = true := hd
      rw [if_pos hhead]
      refine ⟨fun _ => hkey, fun hno => absurd ⟨List.cons_ne_nil _ _, ?_, ?_, ?_⟩ hno⟩
      · rintro h
        rw [h] at hvalue
        simp [isValueContinuation, startsWithAt] at hvalue
      · rintro h
        rw [h] at hvalue
        simp [isValueContinuation, startsWithAt] at hvalue
      · intro h
        rw [isValueContinuation, Bool.or_eq_false_iff, Bool.or_eq_false_iff] at hvalue
        exact absurd (hvalue.1.1.symm.trans h) Bool.false_ne_true
  -- what is left starts with a letter or an underscore
  have hsigned : ∀ {l}, c :: k' ≠ '-' :: l := fun h => hminus (List.cons.inj h).1
  have hunsigned : unsigned (c :: k') = c :: k' := if_neg (by simpa using hminus)
  have hkept : Kept next (c :: k') := by
    refine ⟨hsigned, hsigned, hsigned, ?_⟩
    rw [if_neg, hunsigned]
    · exact fun h => absurd h hnumber
    · rintro ⟨h, -⟩
      obtain rfl := Option.some.inj h
      exact hnumber rfl
  refine ⟨fun _ => ?_, fun h => absurd hkept h⟩
  rw [beq_false_of_ne hminus, Bool.false_or, Bool.false_and, if_neg Bool.false_ne_true]
  split
  swap
  · exact hkey
  rename_i hstarts
  have hrest : start.rest ≠ [] := by rw [hstart]; exact List.cons_ne_nil _ _
  have hclassify : classifyNumberOrDatetime start =
      if startsWithAt start.rest "inf" then .ok (classifyNamed "inf" .posInf [] start)
      else .ok (classifyNamed "nan" .nan [] start) := by
    have hhead : start.rest.head?.any isNumber = false := by
      rw [hstart]
      exact Bool.eq_false_iff.mpr hnumber
    have hsign : ¬ (start.rest.head? = some '+' ∨ start.rest.head? = some '-') := by
      rw [hstart]
      rintro (h | h)
      · exact hne (d := '+') (by decide) (Option.some.inj h)
      · exact hminus (Option.some.inj h)
    rw [classifyNumberOrDatetime, hhead, Bool.false_and, Bool.false_and,
      if_neg Bool.false_ne_true, if_neg Bool.false_ne_true, if_neg hsign]
    simp only [List.length_nil, List.drop_zero]
    rw [if_neg hrest]
    by_cases hinf : startsWithAt start.rest "inf" = true
    · rw [if_pos hinf, if_pos hinf, if_neg (by simp)]
    · rw [if_neg hinf, if_neg hinf, if_pos ((Bool.or_eq_true _ _ ▸ hstarts).resolve_left hinf)]
  rw [hclassify]
  split
  · rename_i hinf
    exact (named_key _ rfl (by decide) (by decide) (.inl rfl) hk hpost hstart
      (hstart ▸ List.isPrefixOf_iff_prefix.mp hinf)).1 hsigned
  · rename_i hinf
    rw [Bool.or_eq_true] at hstarts
    exact (named_key _ rfl (by decide) (by decide) (.inl rfl) hk hpost hstart
      (hstart ▸ List.isPrefixOf_iff_prefix.mp (hstarts.resolve_left hinf))).1 hsigned

end Keys

end DaScript.Toml

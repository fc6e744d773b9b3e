import DaScript.Simulate.JsonScan

/-!
# Simulate/JsonBlanks — where blanks make a difference

`scanVariant` skips what follows the alternative without skipping blanks first.
-/

namespace DaScript

open Text

namespace JsonScan

open JsonScanner hiding scanValue

variable {structs : ℕ → StructInfo}

/-- A text is accepted: what the memory is then, and what is left. -/
def Accepts {μ ρ : Type} (h : Host μ ρ) (structs : ℕ → StructInfo) (ti : ScanInfo) (dst : ℕ)
    (m : μ) (cur : List UInt8) (m' : μ) (rest : List UInt8) : Prop :=
  ∃ depth, scanValue h structs depth ti dst m cur = some (((), m'), rest)

/-- **Blanks between tokens make no difference**, whatever the memory is: a text of the same tokens
is accepted too, with the same outcome and the same tokens left. -/
def Indifferent (structs : ℕ → StructInfo) (ti : ScanInfo) : Prop :=
  ∀ (μ ρ : Type) (h : Host μ ρ) (dst : ℕ) (m m' : μ) (cur cur' rest : List UInt8),
    Spaced cur cur' → Accepts h structs ti dst m cur m' rest →
      ∃ rest', Accepts h structs ti dst m cur' m' rest' ∧ Spaced rest rest'

/-! ## Texts -/

theorem spaced_punct {c : UInt8} (hc : isPunct c = true) {cur cur' : List UInt8}
    (h : Spaced cur cur') : Spaced (c :: cur) (c :: cur') := (Start.punct hc h).spaced

theorem spaced_string {chars : List UInt8} (hchars : Closed chars) {cur cur' : List UInt8}
    (h : Spaced cur cur') :
    Spaced (ch '"' :: (chars ++ ch '"' :: cur)) (ch '"' :: (chars ++ ch '"' :: cur')) :=
  (Start.string hchars h).spaced

theorem spaced_blank {cur cur' : List UInt8} (h : Spaced cur cur') : Spaced cur (32 :: cur') := by
  obtain ⟨hb, hb', h⟩ := h
  exact Spaced.mk hb (List.forall_mem_cons.mpr ⟨rfl, hb'⟩) h

theorem spaced_null {c c' : UInt8} (hc : isLiteral c = false) (hc' : isLiteral c' = false)
    {cur cur' : List UInt8} (h : Spaced (c :: cur) (c' :: cur')) :
    Spaced (text "null" ++ c :: cur) (text "null" ++ c' :: cur') := by
  refine (Start.literal (List.cons_ne_nil _ _) ?_ ?_ ?_ h).spaced
  · exact List.all_eq_true.mp rfl
  · exact fun _ hd => Option.some.inj hd ▸ hc
  · exact fun _ hd => Option.some.inj hd ▸ hc'

/-- A key, with what needs it escaped. -/
def quoteChars (key : List UInt8) : List UInt8 :=
  key.flatMap fun c => if c = ch '"' ∨ c = ch '\\' then [ch '\\', c] else [c]

theorem closed_quoteChars (key : List UInt8) : Closed (quoteChars key) := by
  induction key with
  | nil => rfl
  | cons c key ih =>
    unfold Closed
    rw [quoteChars, List.flatMap_cons, List.append_assoc, ← quoteChars]
    by_cases hc : c = ch '"' ∨ c = ch '\\'
    · rw [if_pos hc]
      exact ih
    · rw [if_neg hc]
      exact (skipChars_plain (fun h => hc (Or.inl h)) (fun h => hc (Or.inr h)) _).trans ih

theorem readChars_quoteChars (key rest : List UInt8) {turns : ℕ} (hturns : key.length < turns) :
    readChars turns (quoteChars key ++ ch '"' :: rest) = some (key, rest) := by
  induction key generalizing turns with
  | nil =>
    obtain ⟨turns, rfl⟩ := Nat.exists_eq_succ_of_ne_zero hturns.ne'
    rfl
  | cons c key ih =>
    obtain ⟨turns, rfl⟩ := Nat.exists_eq_succ_of_ne_zero (Nat.ne_zero_of_lt hturns)
    have hrest := ih (Nat.lt_of_succ_lt_succ hturns)
    rw [quoteChars, List.flatMap_cons, List.append_assoc, ← quoteChars]
    by_cases hc : c = ch '"' ∨ c = ch '\\'
    · have hread : readChars (turns + 1) (ch '\\' :: c :: (quoteChars key ++ ch '"' :: rest))
          = (readChars turns (quoteChars key ++ ch '"' :: rest)).map fun p => (c :: p.1, p.2) := by
        rcases hc with rfl | rfl <;> rfl
      rw [if_pos hc]
      exact hread.trans (by rw [hrest]; rfl)
    · rw [if_neg hc]
      exact (readChars_plain (fun h => hc (Or.inl h)) (fun h => hc (Or.inr h)) _ _).trans
        (congrArg (Option.map fun p => (c :: p.1, p.2)) hrest)

theorem length_le_quoteChars (key : List UInt8) : key.length ≤ (quoteChars key).length := by
  induction key with
  | nil => exact le_rfl
  | cons c key ih =>
    rw [quoteChars, List.flatMap_cons, List.length_append, ← quoteChars, List.length_cons]
    split <;> simp only [List.length_cons, List.length_nil] <;> omega

theorem readString_quoteChars (key rest : List UInt8) :
    readString (ch '"' :: (quoteChars key ++ ch '"' :: rest)) = some (key, rest) := by
  have hlength := length_le_quoteChars key
  refine readChars_quoteChars key rest ?_
  rw [List.length_append, List.length_cons]
  omega

theorem atoi_decimal (n : ℕ) : atoi (decimal n) = n := by
  obtain ⟨d, digits, hdecimal⟩ := List.exists_cons_of_ne_nil (decimal_ne_nil n)
  have hall : ∀ c ∈ d :: digits, isDigit c = true := fun c hc =>
    isDigit_of_mem_decimal (hdecimal ▸ hc)
  have hd := hall d List.mem_cons_self
  have hbounds : 48 ≤ d.toNat ∧ d.toNat ≤ 57 := by
    simpa [isDigit, UInt8.le_iff_toNat_le] using hd
  have hblank : ¬((d = 32 || (9 ≤ d && d ≤ 13)) = true) := by
    simp only [Bool.or_eq_true, Bool.and_eq_true, decide_eq_true_eq, UInt8.le_iff_toNat_le,
      ← UInt8.toNat_inj]
    have h32 : (32 : UInt8).toNat = 32 := rfl
    have h13 : (13 : UInt8).toNat = 13 := rfl
    omega
  have hne : ∀ c : UInt8, isDigit c = false → d ≠ c := by
    rintro c hc rfl
    rw [hd] at hc
    cases hc
  have hdrop : ((d :: digits).dropWhile fun c => c = 32 || (9 ≤ c && c ≤ 13)) = d :: digits :=
    List.dropWhile_cons_of_neg hblank
  rw [hdecimal, atoi, hdrop]
  dsimp only
  have htake : (d :: digits ++ []).takeWhile isDigit = d :: digits ++ [] :=
    List.takeWhile_append_of_pos hall
  rw [List.append_nil] at htake
  rw [if_neg (hne _ rfl), if_neg (hne _ rfl), htake, ← hdecimal, readDecimal_decimal]

/-! ## A memory that never fails -/

/-- A memory in which nothing is kept, and every allocation succeeds. -/
def plenty : Host Unit Unit where
  atoll _ := 0
  atof _ := ()
  toInt64 _ := 0
  storeBool _ _ m := m
  store _ _ _ m := m
  zero _ _ m := m
  storePointer _ _ m := m
  allocateString _ _ m := some ((), m)
  allocate _ m := some (0, m)
  arrayClear _ _ m := some ((), m)
  pushBackZero _ _ m := some (0, m)
  tableClear _ m := some ((), m)
  tableReserve _ _ _ _ m := some (some 0, m)

/-- **Two texts of the same tokens, of which only the first is accepted**, wherever they stand. -/
structure Told (structs : ℕ → StructInfo) (ti : ScanInfo) (t t' : List UInt8) : Prop where
  spaced : ∀ {rest rest' : List UInt8}, Spaced rest rest' → Spaced (t ++ rest) (t' ++ rest')
  accepted : ∃ deep, ∀ depth, deep ≤ depth → ∀ dst rest,
    scanValue plenty structs depth ti dst () (t ++ rest) = some (((), ()), rest)
  refused : ∀ depth dst rest, scanValue plenty structs depth ti dst () (t' ++ rest) = none

/-- What may stand where a value is due: a bracket. -/
def Opens (t : List UInt8) : Prop := t.head? = some (ch '[') ∨ t.head? = some (ch '\x7b')

/-- An object with one key. -/
def wrap (key t : List UInt8) : List UInt8 :=
  ch '\x7b' :: ch '"' :: (quoteChars key ++ ch '"' :: ch ':' :: (t ++ [ch '\x7d']))

theorem wrap_append (key t rest : List UInt8) : wrap key t ++ rest
    = ch '\x7b' :: ch '"' :: (quoteChars key ++ ch '"' :: ch ':' :: (t ++ ch '\x7d' :: rest)) := by
  simp [wrap]

theorem spaced_wrap {t t' : List UInt8} (key : List UInt8)
    (h : ∀ {rest rest' : List UInt8}, Spaced rest rest' → Spaced (t ++ rest) (t' ++ rest'))
    {rest rest' : List UInt8} (hrest : Spaced rest rest') :
    Spaced (wrap key t ++ rest) (wrap key t' ++ rest') := by
  rw [wrap_append, wrap_append]
  exact spaced_punct rfl (spaced_string (closed_quoteChars key)
    (spaced_punct rfl (h (spaced_punct rfl hrest))))

section

variable {μ α β : Type}

/-- The loop over the keys of an object. -/
def keys (body : List UInt8 → Scanner μ Unit) (turns : ℕ) : Scanner μ Unit :=
  entries (ch '\x7d') (do
    let key ← reading (readString : Reader (List UInt8))
    reading (skips (expect (ch ':')))
    body key) turns

theorem key_apply (body : List UInt8 → Scanner μ Unit) (key : List UInt8) (m : μ)
    (cur : List UInt8) :
    (do
      let key ← reading (readString : Reader (List UInt8))
      reading (skips (expect (ch ':')))
      body key : Scanner μ Unit) m (ch '"' :: (quoteChars key ++ ch '"' :: ch ':' :: cur))
      = body key m cur := by
  rw [bind_apply, reading_apply, readString_quoteChars]
  rfl

theorem keys_accepted {body : List UInt8 → Scanner μ Unit} {key : List UInt8} {m m' : μ}
    {cur rest : List UInt8} (hbody : body key m cur = some (((), m'), ch '\x7d' :: rest))
    (turns : ℕ) :
    keys body (turns + 1) m (ch '"' :: (quoteChars key ++ ch '"' :: ch ':' :: cur))
      = some (((), m'), rest) := by
  unfold keys entries
  rw [bind_apply, key_apply, hbody]
  rfl

theorem keys_refused {body : List UInt8 → Scanner μ Unit} {key : List UInt8} {m : μ}
    {cur : List UInt8} (hbody : body key m cur = none) (turns : ℕ) :
    keys body turns m (ch '"' :: (quoteChars key ++ ch '"' :: ch ':' :: cur)) = none := by
  cases turns with
  | zero => rfl
  | succ turns =>
    unfold keys entries
    rw [bind_apply, key_apply, hbody]
    rfl

end

variable {ti : ScanInfo}

/-- The keys of what is scanned from an object's text. -/
def Objects (structs : ℕ → StructInfo) (ti : ScanInfo) (key : List UInt8) (inner : ScanInfo) :
    Prop :=
  ∀ depth dst cur, ∃ body : List UInt8 → Scanner Unit Unit, ∃ dst',
    scanValue plenty structs (depth + 1) ti dst () (ch '\x7b' :: ch '"' :: cur)
        = keys body depth () (ch '"' :: cur)
      ∧ ∀ x, body key () x = scanValue plenty structs depth inner dst' () x

theorem Objects.told {key : List UInt8} {inner : ScanInfo} {t t' : List UInt8}
    (h : Objects structs ti key inner) (htold : Told structs inner t t') :
    Told structs ti (wrap key t) (wrap key t') := by
  refine ⟨spaced_wrap key htold.spaced, ?_, fun depth dst rest => ?_⟩
  · obtain ⟨deep, haccepted⟩ := htold.accepted
    refine ⟨deep + 2, fun depth hdepth dst rest => ?_⟩
    obtain ⟨depth, rfl⟩ := Nat.exists_eq_add_of_le' hdepth
    obtain ⟨body, dst', hscan, hbody⟩ := h (depth + deep + 1) dst
      (quoteChars key ++ ch '"' :: ch ':' :: (t ++ ch '\x7d' :: rest))
    rw [wrap_append]
    refine hscan.trans (keys_accepted ?_ _)
    rw [hbody]
    exact haccepted _ (by omega) _ _
  · cases depth with
    | zero => rfl
    | succ depth =>
      obtain ⟨body, dst', hscan, hbody⟩ := h depth dst
        (quoteChars key ++ ch '"' :: ch ':' :: (t' ++ ch '\x7d' :: rest))
      rw [wrap_append]
      refine hscan.trans (keys_refused ?_ _)
      rw [hbody]
      exact htold.refused _ _ _

/-- What `scanStruct` does with a key. -/
def fieldBody (structs : ℕ → StructInfo) (depth si dst : ℕ) (key : List UInt8) :
    Scanner Unit Unit :=
  match (structs si).findField key with
  | some f =>
    if (structs si).isInternal f then reading (skips (skipValue depth))
    else scanValue plenty structs depth f.type (dst + f.offset)
  | none => reading (skips (skipValue depth))

theorem fieldBody_apply {si : ℕ} {key : List UInt8} {f : FieldInfo}
    (hf : (structs si).findField key = some f) (hinternal : (structs si).isInternal f = false)
    (depth dst : ℕ) : fieldBody structs depth si dst key
      = scanValue plenty structs depth f.type (dst + f.offset) := by
  unfold fieldBody
  rw [hf]
  dsimp only
  rw [hinternal]
  rfl

theorem objects_struct {si : ℕ} {key : List UInt8} {f : FieldInfo}
    (hf : (structs si).findField key = some f) (hinternal : (structs si).isInternal f = false) :
    Objects structs (.struct (some si)) key f.type := fun depth dst _ =>
  ⟨fieldBody structs depth si dst, dst + f.offset, rfl, fun x => by
    rw [fieldBody_apply hf hinternal]⟩

theorem objects_pointer {si : ℕ} {key : List UInt8} {f : FieldInfo}
    (hf : (structs si).findField key = some f) (hinternal : (structs si).isInternal f = false) :
    Objects structs (.pointer (some si)) key f.type := by
  intro depth dst cur
  refine ⟨fieldBody structs depth si 0, 0 + f.offset, ?_, fun x => by
    rw [fieldBody_apply hf hinternal]⟩
  change (keys (fieldBody structs depth si 0) depth () (ch '"' :: cur)).bind _ = _
  cases keys (fieldBody structs depth si 0) depth () (ch '"' :: cur) <;> rfl

/-- What is done with a key of an object scanned into a tuple. -/
def tupleBody (structs : ℕ → StructInfo) (depth dst : ℕ) (args : List (ℕ × ScanInfo))
    (key : List UInt8) : Scanner Unit Unit :=
  match tupleEntry args key with
  | some (offset, info) => scanValue plenty structs depth info (dst + offset)
  | none => reading (skips (skipValue depth))

theorem objects_tuple {args : List (ℕ × ScanInfo)} {i : ℕ} {arg : ℕ × ScanInfo}
    (harg : args[i]? = some arg) :
    Objects structs (.tuple args) (ch '_' :: decimal i) arg.2 := by
  intro depth dst cur
  have hentry : tupleEntry args (ch '_' :: decimal i) = some arg := by
    have hlength : 2 ≤ (ch '_' :: decimal i).length := by
      rw [List.length_cons]
      exact Nat.succ_le_succ (List.length_pos_iff.mpr (decimal_ne_nil i))
    rw [tupleEntry, List.tail_cons, atoi_decimal, if_pos ⟨hlength, rfl, Int.natCast_nonneg i⟩]
    exact harg
  refine ⟨tupleBody structs depth dst args, dst + arg.1, rfl, fun x => ?_⟩
  rw [tupleBody, hentry]

/-- What is done with a key of an object scanned into a table. -/
def tableBody (structs : ℕ → StructInfo) (depth dst : ℕ) (key : KeyType) (valueSize : ℕ)
    (secondType : ScanInfo) (keyStr : List UInt8) : Scanner Unit Unit := do
  match ← reserveKey plenty depth key keyStr dst valueSize with
  | some val => do
    modify (plenty.zero valueSize val)
    scanValue plenty structs depth secondType val
  | none => reading (skips (skipValue depth))

theorem objects_table {key : KeyType} (hkey : key ≠ .other) (valueSize : ℕ)
    (secondType : ScanInfo) :
    Objects structs (.table key valueSize secondType) (text "null") secondType := by
  intro depth dst cur
  have hreserve : ∀ x, reserveKey plenty depth key (text "null") dst valueSize () x
      = some ((some 0, ()), x) := by
    intro x
    unfold reserveKey
    cases key with
    | other => exact absurd rfl hkey
    | string | enumeration | pointer => rfl
    | scalar s =>
      dsimp only
      cases readParts plenty depth s with
      | none => rfl
      | some p => rfl
  refine ⟨tableBody structs depth dst key valueSize secondType, 0, rfl, fun x => ?_⟩
  rw [tableBody, bind_apply, hreserve]
  rfl

theorem array_apply (stride depth dst : ℕ) (elem : ScanInfo) {t : List UInt8} (hopens : Opens t)
    (rest : List UInt8) :
    scanValue plenty structs (depth + 1) (.array stride (some elem)) dst () (ch '[' :: (t ++ rest))
      = entries (ch ']') (do
          let ptr ← onMemory (plenty.pushBackZero dst stride)
          scanValue plenty structs depth elem ptr) depth () (t ++ rest) := by
  cases t with
  | nil => rcases hopens with h | h <;> cases h
  | cons c t =>
    rcases hopens with h | h
    · obtain rfl := Option.some.inj h
      rfl
    · obtain rfl := Option.some.inj h
      rfl

theorem told_array (stride : ℕ) {elem : ScanInfo} {t t' : List UInt8} (hopens : Opens t)
    (hopens' : Opens t') (htold : Told structs elem t t') :
    Told structs (.array stride (some elem)) (ch '[' :: (t ++ [ch ']']))
      (ch '[' :: (t' ++ [ch ']'])) := by
  have happend : ∀ t rest : List UInt8, ch '[' :: (t ++ [ch ']']) ++ rest
      = ch '[' :: (t ++ ch ']' :: rest) := by
    intro t rest
    rw [List.cons_append, List.append_assoc]
    rfl
  refine ⟨fun hrest => ?_, ?_, fun depth dst rest => ?_⟩
  · rw [happend, happend]
    exact spaced_punct rfl (htold.spaced (spaced_punct rfl hrest))
  · obtain ⟨deep, haccepted⟩ := htold.accepted
    refine ⟨deep + 2, fun depth hdepth dst rest => ?_⟩
    obtain ⟨depth, rfl⟩ := Nat.exists_eq_add_of_le' hdepth
    have helem := haccepted (depth + deep + 1) (by omega) 0 (ch ']' :: rest)
    rw [happend]
    refine (array_apply stride (depth + deep + 1) dst elem hopens _).trans ?_
    unfold entries
    rw [bind_apply, bind_apply]
    change ((scanValue plenty structs (depth + deep + 1) elem 0 () _).bind _) = _
    rw [helem]
    rfl
  · cases depth with
    | zero => rfl
    | succ depth =>
      rw [happend, array_apply stride depth dst elem hopens']
      cases depth with
      | zero => rfl
      | succ depth =>
        unfold entries
        rw [bind_apply, bind_apply]
        change ((scanValue plenty structs (depth + 1) elem 0 () _).bind _) = _
        rw [htold.refused]
        rfl

/-- An object of two keys, with blanks in front of the second. -/
def twoKeys (blanks : List UInt8) : List UInt8 :=
  text "\x7b\"\":null," ++ (blanks ++ text "\"\":null\x7d")

theorem told_variant (args : List (Option (List UInt8) × ℕ × ScanInfo)) :
    Told structs (.variant args) (twoKeys []) (twoKeys [32]) := by
  have halternative : ∀ depth dst x, scanAlternative plenty (scanValue plenty structs (depth + 1))
      (skips (skipValue (depth + 1))) args [] dst () (text "null" ++ ch ',' :: x)
      = some (((), ()), ch ',' :: x) := by
    intro depth dst x
    unfold scanAlternative
    cases args.zipIdx.find? fun arg => arg.1.1 = some [] <;> rfl
  refine ⟨fun {rest rest'} hrest => ?_, ⟨3, fun depth hdepth dst rest => ?_⟩,
    fun depth dst rest => ?_⟩
  · have hsecond : Spaced (ch '"' :: ([] ++ ch '"' :: ch ':' :: (text "null" ++ ch '\x7d' :: rest)))
        (ch '"' :: ([] ++ ch '"' :: ch ':' :: (text "null" ++ ch '\x7d' :: rest'))) :=
      spaced_string closed_nil (spaced_punct rfl (spaced_null rfl rfl (spaced_punct rfl hrest)))
    exact spaced_punct rfl (spaced_string closed_nil (spaced_punct rfl
      (spaced_null rfl rfl (spaced_punct rfl (spaced_blank hsecond)))))
  · obtain ⟨depth, rfl⟩ := Nat.exists_eq_add_of_le' hdepth
    change (scanAlternative plenty (scanValue plenty structs (depth + 2))
      (skips (skipValue (depth + 2))) args [] dst () (text "null" ++ ch ',' :: _)).bind _ = _
    rw [halternative]
    rfl
  · cases depth with
    | zero => rfl
    | succ depth =>
      change (scanAlternative plenty (scanValue plenty structs depth)
        (skips (skipValue depth)) args [] dst () (text "null" ++ ch ',' :: _)).bind _ = _
      cases depth with
      | zero =>
        have hnone : ∀ x, scanAlternative plenty (scanValue plenty structs 0)
            (skips (skipValue 0)) args [] dst () x = none := by
          intro x
          unfold scanAlternative
          cases args.zipIdx.find? fun arg => arg.1.1 = some [] <;> rfl
        rw [hnone]
        rfl
      | succ depth =>
        rw [halternative]
        rfl

theorem told_of_reaches (h : Reaches structs ti) :
    ∃ t t', Opens t ∧ Opens t' ∧ Told structs ti t t' := by
  induction h with
  | variant args => exact ⟨_, _, Or.inr rfl, Or.inr rfl, told_variant args⟩
  | @struct si key f hf hinternal h ih =>
    obtain ⟨t, t', -, -, htold⟩ := ih
    exact ⟨_, _, Or.inr rfl, Or.inr rfl, (objects_struct hf hinternal).told htold⟩
  | @pointer si key f hf hinternal h ih =>
    obtain ⟨t, t', -, -, htold⟩ := ih
    exact ⟨_, _, Or.inr rfl, Or.inr rfl, (objects_pointer hf hinternal).told htold⟩
  | array stride h ih =>
    obtain ⟨t, t', hopens, hopens', htold⟩ := ih
    exact ⟨_, _, Or.inl rfl, Or.inl rfl, told_array stride hopens hopens' htold⟩
  | @tuple args arg harg h ih =>
    obtain ⟨t, t', -, -, htold⟩ := ih
    obtain ⟨i, hi⟩ := List.getElem?_of_mem harg
    exact ⟨_, _, Or.inr rfl, Or.inr rfl, (objects_tuple hi).told htold⟩
  | table hkey valueSize h ih =>
    obtain ⟨t, t', -, -, htold⟩ := ih
    exact ⟨_, _, Or.inr rfl, Or.inr rfl, (objects_table hkey valueSize _).told htold⟩

/-- **Blanks make no difference exactly if no variant is reached.** -/
theorem indifferent_iff (structs : ℕ → StructInfo) (ti : ScanInfo) :
    Indifferent structs ti ↔ ¬Reaches structs ti := by
  constructor
  · intro hindifferent hreaches
    obtain ⟨t, t', -, -, htold⟩ := told_of_reaches hreaches
    obtain ⟨deep, haccepted⟩ := htold.accepted
    obtain ⟨rest', ⟨depth, hscan⟩, -⟩ := hindifferent Unit Unit plenty 0 () () (t ++ []) (t' ++ [])
      [] (htold.spaced Start.nil.spaced) ⟨deep, haccepted deep le_rfl 0 []⟩
    rw [htold.refused] at hscan
    cases hscan
  · intro hreaches μ ρ h dst m m' cur cur' rest hspaced haccepts
    obtain ⟨depth, hscan⟩ := haccepts
    have hsame := scanValue_insensitive h depth ti hreaches dst m hspaced
    rw [hscan] at hsame
    generalize hscan' : scanValue h structs depth ti dst m cur' = x at hsame
    cases hsame with
    | some a h => exact ⟨_, ⟨depth, hscan'⟩, h⟩

theorem variant_blank :
    Spaced (twoKeys []) (twoKeys [32]) ∧
      Accepts plenty (fun _ => ⟨false, 0, []⟩) (.variant [(some (text "a"), 8, .scalar .tInt)]) 0 ()
        (twoKeys []) () [] ∧
      ¬∃ rest, Accepts plenty (fun _ => ⟨false, 0, []⟩)
        (.variant [(some (text "a"), 8, .scalar .tInt)]) 0 () (twoKeys [32]) () rest := by
  have htold : Told (fun _ => ⟨false, 0, []⟩) (.variant [(some (text "a"), 8, .scalar .tInt)])
      (twoKeys []) (twoKeys [32]) := told_variant _
  obtain ⟨deep, haccepted⟩ := htold.accepted
  refine ⟨htold.spaced Start.nil.spaced, ⟨deep, haccepted deep le_rfl 0 []⟩, ?_⟩
  rintro ⟨rest, depth, hscan⟩
  rw [← List.append_nil (twoKeys [32]), htold.refused] at hscan
  cases hscan

end JsonScan

end DaScript

import DaScript.Simulate.JsonSkip
import DaScript.Simulate.TypeInfo

/-!
# Simulate/JsonFixedArray — fixed-size arrays do not come back from JSON

A fixed-size array `T[d₁]...[dₖ]` is printed one dimension a level, `DataWalker::walk_dim` goes down
with a copy of the `TypeInfo` that has one dimension less.  `JsonScanner::scanFixedArray` goes down
with the `TypeInfo` it has.  Within an array it reads arrays again, and never comes to `T`.

Only what is arrays all the way down is accepted, and nothing is written (`roundTrips_iff`).
-/

namespace DaScript

open Text

namespace JsonScanner

/-- The type of an element. -/
inductive ElemType
  | integer (size : ℕ)
  | bool
  | string
  | struct (size : ℕ) (fields : List (FieldName × List ℕ × ElemType))
  | array (dim : List ℕ) (firstType : ElemType)

/-- `getTypeBaseSize` -/
def ElemType.size : ElemType → ℕ
  | integer size => size
  | bool => 1
  | string => 8
  | struct size _ => size
  | array _ _ => sizeofArray

/-- `TypeInfo`, as far as the scanner asks. -/
structure JsonType where
  dim : List ℕ
  base : ElemType

/-- The type of a fixed-size array. -/
structure FixedArrayType extends JsonType where
  nonempty : dim ≠ []
  positive : ∀ d ∈ dim, 0 < d

/-- The values of a type, one dimension a level as `walk_dim` finds them. -/
inductive Of : ElemType → List ℕ → JsonValue → Prop
  | integer (size : ℕ) (n : ℤ) : Of (.integer size) [] (.number n)
  | bool (b : Bool) : Of .bool [] (.bool b)
  | string (s : List UInt8) : Of .string [] (.string s)
  | struct (size : ℕ) {types : List (FieldName × List ℕ × ElemType)}
      {fields : List (FieldName × JsonValue)} (names : types.map Prod.fst = fields.map Prod.fst)
      (values : ∀ p ∈ types.zip fields, Of p.1.2.2 p.1.2.1 p.2.2) :
      Of (.struct size types) [] (.object fields)
  | array {dim : List ℕ} {firstType : ElemType} {elems : List JsonValue}
      (values : ∀ v ∈ elems, Of firstType dim v) : Of (.array dim firstType) [] (.array elems)
  | dim {base : ElemType} {dim : List ℕ} {elems : List JsonValue}
      (values : ∀ v ∈ elems, Of base dim v) : Of base (elems.length :: dim) (.array elems)

/-- A value of a type. -/
structure Typed (ti : JsonType) where
  value : JsonValue
  typed : Of ti.base ti.dim value

variable {μ : Type}

/-- The loop of `scanFixedArray`, for so many turns. -/
def scanElements (scan : ℕ → μ → List UInt8 → Option (μ × List UInt8))
    (skip : List UInt8 → Option (List UInt8)) (elemSize maxCount dst : ℕ) :
    ℕ → ℕ → μ → List UInt8 → Option (μ × List UInt8)
  | 0, _, _, _ => none
  | turns + 1, idx, m, cur =>
    (if idx < maxCount then scan (dst + idx * elemSize % 2 ^ 32) m cur
      else (skip cur).map (Prod.mk m)).bind fun (m, cur) =>
        afterEntry (ch ']') (fun cur => some (m, cur))
          (scanElements scan skip elemSize maxCount dst turns ((idx + 1) % 2 ^ 32) m) cur

def scanFixedArray (scan : ℕ → μ → List UInt8 → Option (μ × List UInt8))
    (skip : List UInt8 → Option (List UInt8)) (elemSize maxCount turns dst : ℕ) (m : μ)
    (cur : List UInt8) : Option (μ × List UInt8) :=
  (expect (ch '[') cur).bind fun cur =>
    if peek cur = ch ']' then some (m, (skipWS cur).tail)
    else scanElements scan skip elemSize maxCount dst turns 0 m cur

/-- **`scanValue`**, for values so deep and so long.  The `switch` is what it does for a type of no
dimensions. -/
def scanValue (switch : JsonType → ℕ → μ → List UInt8 → Option (μ × List UInt8)) (ti : JsonType) :
    ℕ → ℕ → μ → List UInt8 → Option (μ × List UInt8)
  | 0, _, _, _ => none
  | depth + 1, dst, m, cur =>
    match isNull cur with
    | some cur => some (m, cur)
    | none =>
      if ti.dim ≠ [] then
        scanFixedArray (scanValue switch ti depth) (skipValue depth) ti.base.size (ti.dim.headD 0)
          depth dst m cur
      else switch ti dst m cur

/-- A value lies at `dst`, every element at its own offset. -/
def Holds (read : μ → ℕ → ElemType → JsonValue) (m : μ) (base : ElemType) :
    List ℕ → ℕ → JsonValue → Prop
  | [], dst, v => read m dst base = v
  | _ :: dim, dst, .array elems =>
    ∀ i v, elems[i]? = some v → Holds read m base dim (dst + i * (base.size * dim.prod)) v
  | _ :: _, _, _ => False

/-- What is printed of a value is scanned, and restores it.  A value is nested no deeper than its
text is long. -/
def RoundTrips (read : μ → ℕ → ElemType → JsonValue)
    (switch : JsonType → ℕ → μ → List UInt8 → Option (μ × List UInt8)) (ti : JsonType) (dst : ℕ)
    (m : μ) (v : JsonValue) : Prop :=
  ∃ depth m' rest, v.print.length ≤ depth
    ∧ scanValue switch ti depth dst m v.print = some (m', rest) ∧ Holds read m' ti.base ti.dim dst v

mutual

/-- **Arrays all the way down**, as far as they are not skipped. -/
def Hollow (maxCount : ℕ) : JsonValue → Prop
  | .array elems => HollowFrom maxCount 0 elems
  | _ => False

/-- The elements from `idx` on, which is a `uint32_t`. -/
def HollowFrom (maxCount : ℕ) : ℕ → List JsonValue → Prop
  | _, [] => True
  | idx, v :: elems =>
    (idx < maxCount → Hollow maxCount v) ∧ HollowFrom maxCount ((idx + 1) % 2 ^ 32) elems

end

/-! ## What is hollow is accepted, and nothing else -/

open JsonValue

variable {switch : JsonType → ℕ → μ → List UInt8 → Option (μ × List UInt8)} {ti : JsonType}

theorem isNull_begins {c : UInt8} (hc : Begins c) (tail : List UInt8) :
    isNull (c :: tail) = none := by
  rw [isNull, skipWS_begins hc, word, if_neg]
  intro h
  exact hc.2.2 (List.cons.inj h).1

theorem expect_begins {c d : UInt8} (hc : Begins c) (hne : c ≠ d) (tail : List UInt8) :
    expect d (c :: tail) = none := by
  rw [expect, skipWS_begins hc]
  exact if_neg hne

theorem scanValue_begins (hdim : ti.dim ≠ []) {v : JsonValue} (hv : ∀ elems, v ≠ .array elems)
    (depth dst : ℕ) (m : μ) (rest : List UInt8) :
    scanValue switch ti depth dst m (print v ++ rest) = none := by
  obtain ⟨c, tail, hprint, hc, harray⟩ := print_begins v
  have hne : c ≠ ch '[' := fun h => (harray h).elim fun elems h => hv elems h
  cases depth with
  | zero => rfl
  | succ depth =>
    rw [hprint, List.cons_append, scanValue, isNull_begins hc]
    dsimp only
    rw [if_pos hdim, scanFixedArray, expect_begins hc hne]
    rfl

theorem scanValue_array (hdim : ti.dim ≠ []) {elems : List JsonValue} (hne : elems ≠ [])
    (depth dst : ℕ) (m : μ) (rest : List UInt8) :
    scanValue switch ti (depth + 1) dst m (print (.array elems) ++ rest)
      = scanElements (scanValue switch ti depth) (skipValue depth) ti.base.size (ti.dim.headD 0) dst
        depth 0 m (printElems elems ++ ch ']' :: rest) := by
  obtain ⟨c, tail, htail, hc⟩ := printElems_begins hne
  have hpeek : peek (printElems elems ++ ch ']' :: rest) ≠ ch ']' := by
    rw [htail, List.cons_append, peek, skipWS_begins hc]
    exact hc.2.1
  rw [print_array, scanValue, isNull_begins (by unfold Begins; decide)]
  dsimp only
  rw [if_pos hdim]
  exact if_neg hpeek

theorem scanValue_nil (hdim : ti.dim ≠ []) (depth dst : ℕ) (m : μ) (rest : List UInt8) :
    scanValue switch ti (depth + 1) dst m (print (.array []) ++ rest) = some (m, rest) := by
  have hprint : print (.array []) ++ rest = ch '[' :: ch ']' :: rest := rfl
  rw [hprint, scanValue, isNull_begins (by unfold Begins; decide)]
  dsimp only
  rw [if_pos hdim]
  rfl

theorem scanElements_cons {scan : ℕ → μ → List UInt8 → Option (μ × List UInt8)}
    {skip : List UInt8 → Option (List UInt8)} {elemSize maxCount turns idx dst : ℕ} {m m' : μ}
    {v : JsonValue} {elems : List JsonValue} {rest : List UInt8}
    (hv : ∀ tail, Ends tail → (if idx < maxCount
        then scan (dst + idx * elemSize % 2 ^ 32) m (print v ++ tail)
        else (skip (print v ++ tail)).map (Prod.mk m)) = some (m', tail)) :
    scanElements scan skip elemSize maxCount dst (turns + 1) idx m
        (printElems (v :: elems) ++ ch ']' :: rest)
      = if elems = [] then some (m', rest)
        else scanElements scan skip elemSize maxCount dst turns ((idx + 1) % 2 ^ 32) m'
          (printElems elems ++ ch ']' :: rest) := by
  cases elems with
  | nil =>
    have hprint : printElems [v] = print v := rfl
    rw [hprint, scanElements, hv _ (ends_cons (by simp) _)]
    rfl
  | cons w elems =>
    rw [printElems_cons, List.append_assoc, List.cons_append, scanElements,
      hv _ (ends_cons (by simp) _), if_neg (List.cons_ne_nil _ _)]
    rfl

theorem scan_element {scan : ℕ → μ → List UInt8 → Option (μ × List UInt8)}
    {elemSize maxCount depth idx dst : ℕ} {m : μ} {v : JsonValue}
    (hlength : (print v).length ≤ depth)
    (hscan : idx < maxCount → ∀ tail, Ends tail →
      scan (dst + idx * elemSize % 2 ^ 32) m (print v ++ tail) = some (m, tail))
    (tail : List UInt8) (htail : Ends tail) :
    (if idx < maxCount then scan (dst + idx * elemSize % 2 ^ 32) m (print v ++ tail)
      else (skipValue depth (print v ++ tail)).map (Prod.mk m)) = some (m, tail) := by
  by_cases hidx : idx < maxCount
  · rw [if_pos hidx]
    exact hscan hidx tail htail
  · rw [if_neg hidx, skipValue_print v hlength htail]
    rfl

mutual

theorem scanValue_hollow (hdim : ti.dim ≠ []) (m : μ) : ∀ (v : JsonValue) {depth : ℕ} (dst : ℕ)
    {rest : List UInt8}, Hollow (ti.dim.headD 0) v → (print v).length ≤ depth → Ends rest →
    scanValue switch ti depth dst m (print v ++ rest) = some (m, rest)
  | v, 0, _, _, _, hdepth, _ => by
    obtain ⟨c, tail, hprint, -, -⟩ := print_begins v
    rw [hprint] at hdepth
    cases hdepth
  | .array elems, depth + 1, dst, rest, hollow, hdepth, _ => by
    rw [Hollow] at hollow
    rw [print, List.length_cons, List.length_append] at hdepth
    by_cases hne : elems = []
    · subst hne
      exact scanValue_nil hdim depth dst m rest
    rw [scanValue_array hdim hne]
    have hlength := elems_le_length elems
    exact scanElements_hollow hdim m elems dst hne hollow (by omega) (by omega)

theorem scanElements_hollow (hdim : ti.dim ≠ []) (m : μ) : ∀ (elems : List JsonValue)
    {depth turns idx : ℕ} (dst : ℕ) {rest : List UInt8}, elems ≠ [] →
    HollowFrom (ti.dim.headD 0) idx elems → (printElems elems).length ≤ depth →
    elems.length ≤ turns →
    scanElements (scanValue switch ti depth) (skipValue depth) ti.base.size (ti.dim.headD 0) dst
      turns idx m (printElems elems ++ ch ']' :: rest) = some (m, rest)
  | [], _, _, _, _, _, hne, _, _, _ => absurd rfl hne
  | _ :: _, _, 0, _, _, _, _, _, _, hturns => absurd hturns (Nat.not_succ_le_zero _)
  | v :: elems, depth, turns + 1, idx, dst, rest, _, hollow, hdepth, hturns => by
    rw [HollowFrom] at hollow
    have hlength := (length_printElems (List.mem_cons_self : v ∈ v :: elems)).trans hdepth
    rw [scanElements_cons (scan_element hlength fun hidx _ htail =>
      scanValue_hollow hdim m v _ (hollow.1 hidx) hlength htail)]
    split
    · rfl
    · rename_i hne
      obtain ⟨w, elems', rfl⟩ := List.exists_cons_of_ne_nil hne
      rw [printElems_cons, List.length_append, List.length_cons] at hdepth
      exact scanElements_hollow hdim m (w :: elems') dst hne hollow.2 (by omega)
        (Nat.le_of_succ_le_succ hturns)

end

theorem printElems_append (v : JsonValue) (elems : List JsonValue) (rest : List UInt8) :
    ∃ tail, Ends tail ∧ printElems (v :: elems) ++ ch ']' :: rest = print v ++ tail := by
  cases elems with
  | nil => exact ⟨_, ends_cons (by simp) rest, rfl⟩
  | cons w elems =>
    rw [printElems_cons, List.append_assoc]
    exact ⟨_, ends_cons (by simp) _, rfl⟩

mutual

theorem scanValue_not_hollow (hdim : ti.dim ≠ []) (m : μ) : ∀ (v : JsonValue) {depth : ℕ}
    (dst : ℕ) {rest : List UInt8}, ¬Hollow (ti.dim.headD 0) v → (print v).length ≤ depth →
    Ends rest → scanValue switch ti depth dst m (print v ++ rest) = none
  | .number _, _, _, _, _, _, _ => scanValue_begins hdim (fun _ h => by cases h) _ _ _ _
  | .bool _, _, _, _, _, _, _ => scanValue_begins hdim (fun _ h => by cases h) _ _ _ _
  | .string _, _, _, _, _, _, _ => scanValue_begins hdim (fun _ h => by cases h) _ _ _ _
  | .object _, _, _, _, _, _, _ => scanValue_begins hdim (fun _ h => by cases h) _ _ _ _
  | .array _, 0, _, _, _, _, _ => rfl
  | .array elems, depth + 1, dst, rest, hollow, hdepth, _ => by
    rw [Hollow] at hollow
    rw [print, List.length_cons, List.length_append] at hdepth
    have hne : elems ≠ [] := by
      rintro rfl
      exact hollow trivial
    rw [scanValue_array hdim hne]
    exact scanElements_not_hollow hdim m elems dst hollow (by omega)

theorem scanElements_not_hollow (hdim : ti.dim ≠ []) (m : μ) : ∀ (elems : List JsonValue)
    {depth turns idx : ℕ} (dst : ℕ) {rest : List UInt8},
    ¬HollowFrom (ti.dim.headD 0) idx elems → (printElems elems).length ≤ depth →
    scanElements (scanValue switch ti depth) (skipValue depth) ti.base.size (ti.dim.headD 0) dst
      turns idx m (printElems elems ++ ch ']' :: rest) = none
  | [], _, _, _, _, _, hollow, _ => absurd trivial hollow
  | _ :: _, _, 0, _, _, _, _, _ => rfl
  | v :: elems, depth, turns + 1, idx, dst, rest, hollow, hdepth => by
    rw [HollowFrom] at hollow
    have hlength := (length_printElems (List.mem_cons_self : v ∈ v :: elems)).trans hdepth
    by_cases hfirst : idx < ti.dim.headD 0 → Hollow (ti.dim.headD 0) v
    · have hrest : ¬HollowFrom (ti.dim.headD 0) ((idx + 1) % 2 ^ 32) elems :=
        fun h => hollow ⟨hfirst, h⟩
      rw [scanElements_cons (scan_element hlength fun hidx _ htail =>
        scanValue_hollow hdim m v _ (hfirst hidx) hlength htail)]
      split
      · rename_i hnil
        subst hnil
        exact absurd trivial hrest
      · rename_i hne
        obtain ⟨w, elems', rfl⟩ := List.exists_cons_of_ne_nil hne
        rw [printElems_cons, List.length_append, List.length_cons] at hdepth
        exact scanElements_not_hollow hdim m (w :: elems') dst hrest (by omega)
    · obtain ⟨hidx, hfirst⟩ := Classical.not_imp.mp hfirst
      obtain ⟨tail, htail, happend⟩ := printElems_append v elems rest
      rw [happend, scanElements, if_pos hidx, scanValue_not_hollow hdim m v _ hfirst hlength htail]
      rfl

end

/-- **A fixed-size array comes back exactly if it is arrays all the way down**, and lies at the
destination already. -/
theorem roundTrips_iff (read : μ → ℕ → ElemType → JsonValue)
    (switch : JsonType → ℕ → μ → List UInt8 → Option (μ × List UInt8)) (ti : FixedArrayType)
    (dst : ℕ) (m : μ) (v : Typed ti.toJsonType) :
    RoundTrips read switch ti.toJsonType dst m v.value
      ↔ Hollow (ti.dim.headD 0) v.value ∧ Holds read m ti.base ti.dim dst v.value := by
  obtain ⟨v, -⟩ := v
  constructor
  · rintro ⟨depth, m', rest, hdepth, hscan, hholds⟩
    rw [← List.append_nil (print v)] at hscan
    by_cases hollow : Hollow (ti.dim.headD 0) v
    · rw [scanValue_hollow ti.nonempty m v dst hollow hdepth ends_nil] at hscan
      cases hscan
      exact ⟨hollow, hholds⟩
    · rw [scanValue_not_hollow ti.nonempty m v dst hollow hdepth ends_nil] at hscan
      cases hscan
  · rintro ⟨hollow, hholds⟩
    have hscan : scanValue switch ti.toJsonType (print v).length dst m (print v ++ [])
        = some (m, []) := scanValue_hollow ti.nonempty m v dst hollow le_rfl ends_nil
    rw [List.append_nil] at hscan
    exact ⟨_, m, [], le_rfl, hscan, hholds⟩

/-- `int[2]`, and the value `[1, 2]`. -/
def pair : FixedArrayType := ⟨⟨[2], .integer 4⟩, by decide, by decide⟩

def onetwo : Typed pair.toJsonType :=
  ⟨.array [.number 1, .number 2], @Of.dim (.integer 4) [] [.number 1, .number 2] fun v hv => by
    rcases List.mem_pair.mp hv with rfl | rfl
    · exact .integer 4 1
    · exact .integer 4 2⟩

theorem not_roundTrips_onetwo :
    ¬∃ switch, RoundTrips (fun (m : ℕ → JsonValue) dst _ => m dst) switch pair.toJsonType 0
      (fun _ => .number 0) onetwo.value := by
  rintro ⟨switch, depth, m', rest, hdepth, hscan, -⟩
  have hollow : ¬Hollow 2 onetwo.value := fun h => h.1 Nat.zero_lt_two
  have hnone : scanValue switch pair.toJsonType depth 0 (fun _ => .number 0)
      (print onetwo.value ++ []) = none :=
    scanValue_not_hollow pair.nonempty _ onetwo.value 0 hollow hdepth ends_nil
  rw [List.append_nil, hscan] at hnone
  cases hnone

end JsonScanner

end DaScript

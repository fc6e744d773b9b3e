import DaScript.Simulate.JsonDocument

/-!
# Simulate/JsonWriter — values are written as JSON

`JsonWriter` of `simulate/json_print.cpp`: what each callback does, over the walk of
`DataWalker::walk` (`simulate/data_walker.cpp`).  An `@optional` field of zeros is left out.  The
key is not written, and a flag tells the leaves not to write anything either.  But arrays of a fixed
size do not ask for it, and only the first of their elements was looked at.
-/

namespace DaScript

open Text JsonDocument

namespace JsonWriter

/-- The annotations of a field the writer knows of. -/
inductive Annotation
  | enumAsInt (bValue : Bool)
  | optional (bValue : Bool)
  | rename (sValue : List UInt8)
  | renameBool (bValue : Bool)
  deriving DecidableEq, Repr

/-- `VarInfo`, but for the type. -/
structure Field where
  name : List UInt8
  annotations : List Annotation
  deriving DecidableEq, Repr

/-- **What a walk finds.**  An enumeration has the name its value has, if it has one. -/
inductive Node
  | integer (n : ℤ)
  | bool (b : Bool)
  | string (s : List UInt8)
  | enumeration (name : Option (List UInt8)) (value : ℤ)
  | void
  | null
  | voidPtr
  | revisited
  | pointer (target : Node)
  | struct (isClass : Bool) (fields : List (Field × Node))
  | dim (elems : List Node)
  | array (elems : List Node)
  | table (entries : List (Node × Node))

/-- What `beforeStructureField` makes of the annotations. -/
structure Annotated where
  name : List UInt8
  enumAsInt : Bool
  optional : Bool
  deriving DecidableEq, Repr

def Annotated.add (a : Annotated) : Annotation → Annotated
  | .enumAsInt b => { a with enumAsInt := b }
  | .optional b => { a with optional := b }
  | .rename s => { a with name := s }
  | .renameBool _ => if a.name.head? = some (ch '_') then { a with name := a.name.tail } else a

def Field.annotated (f : Field) : Annotated :=
  f.annotations.foldl Annotated.add ⟨f.name, false, false⟩

mutual

/-- The value at `pf`, read by the type of the field alone: in a fixed-size array, that of the first
element. -/
def zeroAt : Node → Bool
  | .integer n => n = 0
  | .bool b => !b
  | .null => true
  | .dim elems => zeroAtHead elems
  | _ => false

def zeroAtHead : List Node → Bool
  | [] => false
  | v :: _ => zeroAt v

end

/-- Whether an `@optional` field is left out. -/
def isZero : Node → Bool
  | .string s => s.isEmpty
  | .array elems => elems.isEmpty
  | .table entries => entries.isEmpty
  | v => zeroAt v

def ignoreNextField (isClass : Bool) (f : Field) (v : Node) : Bool :=
  (isClass && (f.annotated.name = text "__rtti" || f.annotated.name = text "__finalize"))
    || (f.annotated.optional && isZero v)

/-- **The state of a writer.**  The last of a stack is its head. -/
structure State where
  ss : List UInt8
  enumAsInt : Bool
  ignoreNextFields : List Bool
  anyStructFields : List Bool
  deriving DecidableEq, Repr

namespace State

def put (w : State) (t : List UInt8) : State := { w with ss := w.ss ++ t }

/-- Whether the last of `ignoreNextFields` is set. -/
def ignores (w : State) : Bool := w.ignoreNextFields.headD false

/-- The callbacks that ask for `ignoreNextFields`. -/
def leaf (w : State) (t : List UInt8) : State := if w.ignores then w else w.put t

def beforeStructure (w : State) : State :=
  { w.put [ch '\x7b'] with anyStructFields := false :: w.anyStructFields }

def afterStructure (w : State) : State :=
  { w.put [ch '\x7d'] with anyStructFields := w.anyStructFields.tail }

def beforeStructureField (w : State) (isClass : Bool) (f : Field) (v : Node) : State :=
  let ignore := ignoreNextField isClass f v
  let w := { w with
    enumAsInt := f.annotated.enumAsInt
    ignoreNextFields := ignore :: w.ignoreNextFields }
  if ignore then w
  else
    { w.put (comma (w.anyStructFields.headD false)
        ++ ch '"' :: (f.annotated.name ++ text "\":")) with
      anyStructFields := true :: w.anyStructFields.tail }

def afterStructureField (w : State) : State :=
  { w with enumAsInt := false, ignoreNextFields := w.ignoreNextFields.tail }

/-- `afterArrayElement`, and `afterTableValue`. -/
def afterElement (w : State) (last : Bool) : State := if last then w else w.put [ch ',']

def enum (w : State) (name : Option (List UInt8)) (value : ℤ) : State :=
  if w.enumAsInt then w.put (decimalInt value)
  else
    match name with
    | some name => w.put (ch '"' :: (name ++ [ch '"']))
    | none => w.put (decimalInt value)

end State

/-- `ki->type == Type::tString` -/
def isString : Node → Bool
  | .string _ => true
  | _ => false

mutual

/-- **`DataWalker::walk`**, with the callbacks of the writer. -/
def walk : Node → State → State
  | .integer n, w => w.leaf (decimalInt n)
  | .bool b, w => w.leaf (if b then text "true" else text "false")
  | .string s, w => w.leaf (ch '"' :: (escapeString s false ++ [ch '"']))
  | .enumeration name value, w => w.enum name value
  | .void, w => w
  | .null, w => w.leaf (text "null")
  | .voidPtr, w => w.leaf (text "null")
  | .revisited, w => w.put (text "null")
  | .pointer target, w => walk target w
  | .struct isClass fields, w => (walkFields isClass fields w.beforeStructure).afterStructure
  | .dim elems, w => (walkElems elems (w.put [ch '['])).put [ch ']']
  | .array elems, w =>
    if w.ignores then w else (walkElems elems (w.put [ch '['])).put [ch ']']
  | .table entries, w =>
    if w.ignores then w else (walkEntries entries (w.put [ch '\x7b'])).put [ch '\x7d']

/-- `walk_struct` -/
def walkFields (isClass : Bool) : List (Field × Node) → State → State
  | [], w => w
  | (f, v) :: rest, w =>
    walkFields isClass rest (walk v (w.beforeStructureField isClass f v)).afterStructureField

/-- `walk_array` -/
def walkElems : List Node → State → State
  | [], w => w
  | v :: rest, w => walkElems rest ((walk v w).afterElement rest.isEmpty)

/-- `walk_table`, with `beforeTableKey` and `afterTableKey`. -/
def walkEntries : List (Node × Node) → State → State
  | [], w => w
  | (key, v) :: rest, w =>
    let w := if isString key then (walk key w).put [ch ':']
      else (walk key (w.put [ch '"'])).put (text "\":")
    walkEntries rest ((walk v w).afterElement rest.isEmpty)

end

/-- `debug_json_value`, for a reader that is no human. -/
def debugJsonValue (v : Node) : List UInt8 := (walk v ⟨[], false, [], []⟩).ss

/-! ## The document of a value -/

/-- What stands between the quotes of a key: a string, or the text of the document. -/
def docKey : Node → Doc → List UInt8
  | .string s, _ => escapeString s false
  | _, d => d.print

mutual

/-- `enumAsInt` behind a value: a structure with fields resets it. -/
def after : Bool → Node → Bool
  | e, .pointer target => after e target
  | e, .struct _ fields => fields.isEmpty && e
  | e, .dim elems => afterElems e elems
  | e, .array elems => afterElems e elems
  | e, .table entries => afterEntries e entries
  | e, _ => e

def afterElems : Bool → List Node → Bool
  | e, [] => e
  | e, v :: rest => afterElems (after e v) rest

def afterEntries : Bool → List (Node × Node) → Bool
  | e, [] => e
  | e, (key, v) :: rest => afterEntries (after (after e key) v) rest

end

mutual

/-- **The document a value stands for**: every field that is not left out has one key and one
value, and a field that is left out has none. -/
def doc : Bool → Node → Doc
  | _, .integer n => .number n
  | _, .bool b => .bool b
  | _, .string s => .string (escapeString s false)
  | e, .enumeration name value =>
    if e then .number value
    else
      match name with
      | some name => .string name
      | none => .number value
  | _, .void => .nothing
  | _, .null => .null
  | _, .voidPtr => .null
  | _, .revisited => .null
  | e, .pointer target => doc e target
  | _, .struct isClass fields => .object (docFields isClass fields)
  | e, .dim elems => .array (docElems e elems)
  | e, .array elems => .array (docElems e elems)
  | e, .table entries => .object (docEntries e entries)

def docFields (isClass : Bool) : List (Field × Node) → List (List UInt8 × Doc)
  | [] => []
  | (f, v) :: rest =>
    if ignoreNextField isClass f v then docFields isClass rest
    else (f.annotated.name, doc f.annotated.enumAsInt v) :: docFields isClass rest

def docElems : Bool → List Node → List Doc
  | _, [] => []
  | e, v :: rest => doc e v :: docElems (after e v) rest

def docEntries : Bool → List (Node × Node) → List (List UInt8 × Doc)
  | _, [] => []
  | e, (key, v) :: rest =>
    (docKey key (doc e key), doc (after e key) v) :: docEntries (after (after e key) v) rest

end

/-! ## When the text is the document -/

/-- **Nothing is written of it if its field is left out.** -/
def Silent : Node → Prop
  | .integer _ | .bool _ | .string _ | .void | .null | .voidPtr | .array _ | .table _ => True
  | .enumeration _ _ | .revisited | .struct _ _ | .dim _ => False
  | .pointer target => Silent target

mutual

/-- **Every field that is left out is silent.** -/
def Clean : Node → Prop
  | .pointer target => Clean target
  | .struct isClass fields => CleanFields isClass fields
  | .dim elems => CleanElems elems
  | .array elems => CleanElems elems
  | .table entries => CleanEntries entries
  | _ => True

def CleanFields (isClass : Bool) : List (Field × Node) → Prop
  | [] => True
  | (f, v) :: rest =>
    (if ignoreNextField isClass f v then Silent v else Clean v) ∧ CleanFields isClass rest

def CleanElems : List Node → Prop
  | [] => True
  | v :: rest => Clean v ∧ CleanElems rest

def CleanEntries : List (Node × Node) → Prop
  | [] => True
  | (key, v) :: rest => (Clean key ∧ Clean v) ∧ CleanEntries rest

end

/-- A text is a document's if all is clean, and is longer otherwise. -/
def Shows (clean : Prop) (t document : List UInt8) : Prop :=
  clean ∧ t = document ∨ ¬clean ∧ document.length < t.length

theorem Shows.refl (t : List UInt8) : Shows True t t := Or.inl ⟨trivial, rfl⟩

theorem Shows.append {c c' : Prop} {t t' x x' : List UInt8} (h : Shows c t x)
    (h' : Shows c' t' x') : Shows (c ∧ c') (t ++ t') (x ++ x') := by
  rcases h with ⟨hc, rfl⟩ | ⟨hc, hlength⟩ <;> rcases h' with ⟨hc', rfl⟩ | ⟨hc', hlength'⟩
  · exact Or.inl ⟨⟨hc, hc'⟩, rfl⟩
  all_goals
    refine Or.inr ⟨fun h => ?_, ?_⟩
    · first
        | exact hc h.1
        | exact hc' h.2
    · simp only [List.length_append]
      omega

theorem Shows.within {c : Prop} {t x : List UInt8} (front back : List UInt8) (h : Shows c t x) :
    Shows c (front ++ (t ++ back)) (front ++ (x ++ back)) := by
  simpa using (Shows.refl front).append (h.append (Shows.refl back))

theorem Shows.iff {c : Prop} {t x : List UInt8} (h : Shows c t x) : t = x ↔ c := by
  rcases h with ⟨hc, rfl⟩ | ⟨hc, hlength⟩
  · exact iff_of_true rfl hc
  · refine iff_of_false (fun heq => ?_) hc
    rw [heq] at hlength
    exact lt_irrefl _ hlength

namespace State

/-- The state behind a text. -/
def emit (w : State) (t : List UInt8) (e : Bool) : State :=
  { w with ss := w.ss ++ t, enumAsInt := e }

theorem put_eq (w : State) (t : List UInt8) : w.put t = w.emit t w.enumAsInt := rfl

@[simp] theorem emit_emit (w : State) (t t' : List UInt8) (e e' : Bool) :
    (w.emit t e).emit t' e' = w.emit (t ++ t') e' := by
  unfold emit
  rw [List.append_assoc]

@[simp] theorem enumAsInt_emit (w : State) (t : List UInt8) (e : Bool) :
    (w.emit t e).enumAsInt = e := rfl

theorem emit_nil (w : State) : w.emit [] w.enumAsInt = w := by
  unfold emit
  rw [List.append_nil]

theorem afterElement_emit (w : State) (t : List UInt8) (e last : Bool) :
    (w.emit t e).afterElement last = w.emit (t ++ comma (!last)) e := by
  cases last
  · exact emit_emit w t [ch ','] e e
  · exact congrArg (w.emit · e) (List.append_nil t).symm

end State

open State

theorem printElems_true (elems : List Doc) :
    Doc.printElems true elems = comma (!elems.isEmpty) ++ Doc.printElems false elems := by
  cases elems <;> rfl

theorem printEntries_true (entries : List (List UInt8 × Doc)) : Doc.printEntries true entries
    = comma (!entries.isEmpty) ++ Doc.printEntries false entries := by
  cases entries <;> rfl

theorem isEmpty_docElems (e : Bool) (elems : List Node) :
    (docElems e elems).isEmpty = elems.isEmpty := by
  cases elems <;> rfl

theorem isEmpty_docEntries (e : Bool) (entries : List (Node × Node)) :
    (docEntries e entries).isEmpty = entries.isEmpty := by
  cases entries <;> rfl

section

variable {isClass : Bool} {f : Field} {v : Node} {w : State}

theorem beforeStructureField_ignored (h : ignoreNextField isClass f v = true) :
    w.beforeStructureField isClass f v = { w with
      enumAsInt := f.annotated.enumAsInt
      ignoreNextFields := true :: w.ignoreNextFields } := by
  rw [beforeStructureField, h]
  rfl

theorem beforeStructureField_emitted (h : ignoreNextField isClass f v = false) :
    w.beforeStructureField isClass f v =
      { w.put (comma (w.anyStructFields.headD false)
          ++ ch '"' :: (f.annotated.name ++ text "\":")) with
        enumAsInt := f.annotated.enumAsInt
        ignoreNextFields := false :: w.ignoreNextFields
        anyStructFields := true :: w.anyStructFields.tail } := by
  rw [beforeStructureField, h]
  rfl

end

theorem leaf_shows {w : State} (hw : w.ignores = false) (t : List UInt8) :
    ∃ t', w.leaf t = w.emit t' w.enumAsInt ∧ Shows True t' t :=
  ⟨t, by rw [leaf, hw]; rfl, Shows.refl t⟩

theorem leaf_silent {w : State} (hw : w.ignores = true) (t : List UInt8) :
    ∃ t' e, w.leaf t = w.emit t' e ∧ (t' = [] ↔ True) :=
  ⟨[], w.enumAsInt, by rw [leaf, if_pos hw, emit_nil], iff_of_true rfl trivial⟩

theorem enum_shows (w : State) (name : Option (List UInt8)) (value : ℤ) :
    w.enum name value = w.emit (doc w.enumAsInt (.enumeration name value)).print w.enumAsInt := by
  obtain ⟨ss, e, ignores, any⟩ := w
  cases e <;> cases name <;> rfl

theorem enum_print_ne_nil (e : Bool) (name : Option (List UInt8)) (value : ℤ) :
    (doc e (.enumeration name value)).print ≠ [] := by
  have hnumber : decimalInt value ≠ [] := by
    rw [decimalInt]
    split
    · exact List.cons_ne_nil _ _
    · exact decimal_ne_nil _
  cases e <;> cases name
  · exact hnumber
  · exact List.cons_ne_nil _ _
  · exact hnumber
  · exact hnumber

theorem key_shows {key : Node} (hkey : ∀ w : State, w.ignores = false → ∃ t,
      walk key w = w.emit t (after w.enumAsInt key)
        ∧ Shows (Clean key) t (doc w.enumAsInt key).print)
    (w : State) (hw : w.ignores = false) :
    ∃ t, (if isString key then (walk key w).put [ch ':']
        else (walk key (w.put [ch '"'])).put (text "\":")) = w.emit t (after w.enumAsInt key)
      ∧ Shows (Clean key) t (ch '"' :: (docKey key (doc w.enumAsInt key) ++ text "\":")) := by
  cases hstring : isString key with
  | true =>
    obtain ⟨t, hwalk, hshows⟩ := hkey w hw
    refine ⟨t ++ [ch ':'], by rw [if_pos rfl, hwalk, put_eq, emit_emit]; rfl, ?_⟩
    cases key with
    | string s => simpa [doc, Doc.print, docKey, text] using hshows.within [] [ch ':']
    | _ => cases hstring
  | false =>
    obtain ⟨t, hwalk, hshows⟩ := hkey (w.put [ch '"']) hw
    refine ⟨[ch '"'] ++ (t ++ text "\":"), ?_, ?_⟩
    · rw [if_neg Bool.false_ne_true, hwalk, put_eq, put_eq, emit_emit, emit_emit]
      rfl
    · have hdoc : docKey key (doc w.enumAsInt key) = (doc w.enumAsInt key).print := by
        cases key with
        | string s => cases hstring
        | _ => rfl
      rw [hdoc]
      exact hshows.within [ch '"'] (text "\":")

mutual

theorem walk_shows : ∀ (v : Node) (w : State), w.ignores = false →
    ∃ t, walk v w = w.emit t (after w.enumAsInt v) ∧ Shows (Clean v) t (doc w.enumAsInt v).print
  | .integer _, _, hw => leaf_shows hw _
  | .bool _, _, hw => leaf_shows hw _
  | .string _, _, hw => leaf_shows hw _
  | .null, _, hw => leaf_shows hw _
  | .voidPtr, _, hw => leaf_shows hw _
  | .void, w, _ => ⟨[], w.emit_nil.symm, Shows.refl _⟩
  | .revisited, _, _ => ⟨_, rfl, Shows.refl _⟩
  | .enumeration name value, w, _ => ⟨_, enum_shows w name value, Shows.refl _⟩
  | .pointer target, w, hw => walk_shows target w hw
  | .struct isClass fields, w, _ => by
    obtain ⟨t, any, hwalk, hshows⟩ :=
      walkFields_shows isClass fields w.beforeStructure false w.anyStructFields rfl
    refine ⟨ch '\x7b' :: (t ++ [ch '\x7d']), ?_, hshows.within [ch '\x7b'] [ch '\x7d']⟩
    rw [walk, hwalk]
    simp [afterStructure, beforeStructure, put, emit, after]
  | .dim elems, w, hw => by
    obtain ⟨t, hwalk, hshows⟩ := walkElems_shows elems (w.put [ch '[']) hw
    refine ⟨ch '[' :: (t ++ [ch ']']), ?_, hshows.within [ch '['] [ch ']']⟩
    rw [walk, hwalk, put_eq, put_eq, emit_emit, emit_emit]
    rfl
  | .array elems, w, hw => by
    obtain ⟨t, hwalk, hshows⟩ := walkElems_shows elems (w.put [ch '[']) hw
    refine ⟨ch '[' :: (t ++ [ch ']']), ?_, hshows.within [ch '['] [ch ']']⟩
    rw [walk, hw, if_neg Bool.false_ne_true, hwalk, put_eq, put_eq, emit_emit, emit_emit]
    rfl
  | .table entries, w, hw => by
    obtain ⟨t, hwalk, hshows⟩ := walkEntries_shows entries (w.put [ch '\x7b']) hw
    refine ⟨ch '\x7b' :: (t ++ [ch '\x7d']), ?_, hshows.within [ch '\x7b'] [ch '\x7d']⟩
    rw [walk, hw, if_neg Bool.false_ne_true, hwalk, put_eq, put_eq, emit_emit, emit_emit]
    rfl

theorem walkFields_shows (isClass : Bool) : ∀ (fields : List (Field × Node)) (w : State)
    (any : Bool) (stack : List Bool), w.anyStructFields = any :: stack →
    ∃ t any', walkFields isClass fields w
        = { w.emit t (fields.isEmpty && w.enumAsInt) with anyStructFields := any' :: stack }
      ∧ Shows (CleanFields isClass fields) t (Doc.printEntries any (docFields isClass fields))
  | [], w, any, stack, hw => by
    refine ⟨[], any, ?_, Shows.refl _⟩
    rw [← hw]
    exact w.emit_nil.symm
  | (f, v) :: rest, w, any, stack, hw => by
    rw [walkFields, CleanFields, docFields]
    cases hignore : ignoreNextField isClass f v with
    | true =>
      rw [beforeStructureField_ignored hignore, if_pos rfl, if_pos rfl]
      obtain ⟨t, e, hwalk, hsilent⟩ := walk_silent v { w with
        enumAsInt := f.annotated.enumAsInt
        ignoreNextFields := true :: w.ignoreNextFields } rfl
      obtain ⟨t', any', hrest, hshows⟩ :=
        walkFields_shows isClass rest (w.emit t false) any stack hw
      have hfirst : Shows (Silent v) t [] := by
        by_cases hv : Silent v
        · exact Or.inl ⟨hv, hsilent.mpr hv⟩
        · exact Or.inr ⟨hv, List.length_pos_iff.mpr (mt hsilent.mp hv)⟩
      refine ⟨t ++ t', any', ?_, hfirst.append hshows⟩
      rw [hwalk]
      refine hrest.trans ?_
      simp [emit]
    | false =>
      rw [beforeStructureField_emitted hignore, if_neg Bool.false_ne_true,
        if_neg Bool.false_ne_true]
      obtain ⟨t, hwalk, hfirst⟩ := walk_shows v
        { w.put (comma (w.anyStructFields.headD false)
            ++ ch '"' :: (f.annotated.name ++ text "\":")) with
          enumAsInt := f.annotated.enumAsInt
          ignoreNextFields := false :: w.ignoreNextFields
          anyStructFields := true :: w.anyStructFields.tail } rfl
      obtain ⟨t', any', hrest, hshows⟩ := walkFields_shows isClass rest
        { w.emit (comma any ++ ch '"' :: (f.annotated.name ++ text "\":") ++ t) false with
          anyStructFields := true :: stack } true stack rfl
      refine ⟨comma any ++ ch '"' :: (f.annotated.name ++ text "\":") ++ t ++ t', any', ?_, ?_⟩
      · rw [hwalk, hw]
        refine Eq.trans ?_ (hrest.trans ?_)
        · simp [emit, put, afterStructureField]
        · simp [emit]
      · have hentry := (Shows.refl (comma any ++ ch '"' :: (f.annotated.name ++ text "\":"))).append
          (hfirst.append hshows)
        rw [true_and] at hentry
        rw [Doc.printEntries]
        simpa [text] using hentry

theorem walkElems_shows : ∀ (elems : List Node) (w : State), w.ignores = false →
    ∃ t, walkElems elems w = w.emit t (afterElems w.enumAsInt elems)
      ∧ Shows (CleanElems elems) t (Doc.printElems false (docElems w.enumAsInt elems))
  | [], w, _ => ⟨[], w.emit_nil.symm, Shows.refl _⟩
  | v :: rest, w, hw => by
    obtain ⟨t, hwalk, hfirst⟩ := walk_shows v w hw
    obtain ⟨t', hrest, hshows⟩ :=
      walkElems_shows rest (w.emit (t ++ comma (!rest.isEmpty)) (after w.enumAsInt v)) hw
    refine ⟨t ++ (comma (!rest.isEmpty) ++ t'), ?_, ?_⟩
    · rw [walkElems, hwalk, afterElement_emit, hrest, emit_emit, List.append_assoc]
      rfl
    · rw [docElems, CleanElems, Doc.printElems, printElems_true, isEmpty_docElems]
      have hcomma := (Shows.refl (comma (!rest.isEmpty))).append hshows
      rw [true_and] at hcomma
      exact hfirst.append hcomma

theorem walkEntries_shows : ∀ (entries : List (Node × Node)) (w : State), w.ignores = false →
    ∃ t, walkEntries entries w = w.emit t (afterEntries w.enumAsInt entries)
      ∧ Shows (CleanEntries entries) t (Doc.printEntries false (docEntries w.enumAsInt entries))
  | [], w, _ => ⟨[], w.emit_nil.symm, Shows.refl _⟩
  | (key, v) :: rest, w, hw => by
    obtain ⟨tkey, hkey, hkeyShows⟩ := key_shows (walk_shows key) w hw
    obtain ⟨t, hwalk, hfirst⟩ := walk_shows v (w.emit tkey (after w.enumAsInt key)) hw
    obtain ⟨t', hrest, hshows⟩ := walkEntries_shows rest (w.emit (tkey ++ t
      ++ comma (!rest.isEmpty)) (after (after w.enumAsInt key) v)) hw
    refine ⟨tkey ++ (t ++ (comma (!rest.isEmpty) ++ t')), ?_, ?_⟩
    · rw [walkEntries, hkey, hwalk, emit_emit, afterElement_emit, enumAsInt_emit, hrest, emit_emit,
        List.append_assoc, List.append_assoc, List.append_assoc]
      rfl
    · have hcomma := (Shows.refl (comma (!rest.isEmpty))).append hshows
      rw [true_and] at hcomma
      have hentry := (hkeyShows.append hfirst).append hcomma
      rw [docEntries, CleanEntries, Doc.printEntries, printEntries_true, isEmpty_docEntries]
      simpa [comma, text] using hentry

theorem walk_silent : ∀ (v : Node) (w : State), w.ignores = true →
    ∃ t e, walk v w = w.emit t e ∧ (t = [] ↔ Silent v)
  | .integer _, _, hw => leaf_silent hw _
  | .bool _, _, hw => leaf_silent hw _
  | .string _, _, hw => leaf_silent hw _
  | .null, _, hw => leaf_silent hw _
  | .voidPtr, _, hw => leaf_silent hw _
  | .void, w, _ => ⟨[], _, w.emit_nil.symm, iff_of_true rfl trivial⟩
  | .revisited, _, _ => ⟨_, _, rfl, iff_of_false (List.cons_ne_nil _ _) id⟩
  | .enumeration name value, w, _ =>
    ⟨_, _, enum_shows w name value, iff_of_false (enum_print_ne_nil _ _ _) id⟩
  | .pointer target, w, hw => walk_silent target w hw
  | .struct isClass fields, w, _ => by
    obtain ⟨t, any, hwalk, -⟩ :=
      walkFields_shows isClass fields w.beforeStructure false w.anyStructFields rfl
    refine ⟨ch '\x7b' :: (t ++ [ch '\x7d']), fields.isEmpty && w.enumAsInt, ?_,
      iff_of_false (List.cons_ne_nil _ _) id⟩
    rw [walk, hwalk]
    simp [afterStructure, beforeStructure, put, emit]
  | .dim elems, w, hw => by
    obtain ⟨t, e, hwalk⟩ := walkElems_grows elems (w.put [ch '['])
    refine ⟨ch '[' :: (t ++ [ch ']']), e, ?_, iff_of_false (List.cons_ne_nil _ _) id⟩
    rw [walk, hwalk, put_eq, put_eq, emit_emit, emit_emit]
    rfl
  | .array elems, w, hw => ⟨[], _, by rw [walk, if_pos hw, emit_nil], iff_of_true rfl trivial⟩
  | .table entries, w, hw => ⟨[], _, by rw [walk, if_pos hw, emit_nil], iff_of_true rfl trivial⟩

theorem walkElems_grows : ∀ (elems : List Node) (w : State),
    ∃ t e, walkElems elems w = w.emit t e
  | [], w => ⟨[], _, w.emit_nil.symm⟩
  | v :: rest, w => by
    have hfirst : ∃ t e, walk v w = w.emit t e := by
      cases hw : w.ignores with
      | true =>
        obtain ⟨t, e, hwalk, -⟩ := walk_silent v w hw
        exact ⟨t, e, hwalk⟩
      | false =>
        obtain ⟨t, hwalk, -⟩ := walk_shows v w hw
        exact ⟨t, _, hwalk⟩
    obtain ⟨t, e, hwalk⟩ := hfirst
    obtain ⟨t', e', hrest⟩ := walkElems_grows rest (w.emit (t ++ comma (!rest.isEmpty)) e)
    exact ⟨_, e', by rw [walkElems, hwalk, afterElement_emit, hrest, emit_emit]⟩

end

/-! ## When the document is one -/

/-- A string stands in a key as it is, anything else between quotes. -/
def KeyValid (e : Bool) : Node → Prop
  | .string s => (11 : UInt8) ∉ s
  | key => ch '"' ∉ (doc e key).print

mutual

/-- **No vertical tab in a string, names that are strings, and something for every key.** -/
def Valid : Bool → Node → Prop
  | _, .string s => (11 : UInt8) ∉ s
  | e, .enumeration name _ => e = true ∨ ∀ n ∈ name, stringChars .plain n = true
  | _, .void => False
  | e, .pointer target => Valid e target
  | _, .struct isClass fields => FieldsValid isClass fields
  | e, .dim elems => ElemsValid e elems
  | e, .array elems => ElemsValid e elems
  | e, .table entries => EntriesValid e entries
  | _, _ => True

def FieldsValid (isClass : Bool) : List (Field × Node) → Prop
  | [] => True
  | (f, v) :: rest =>
    (ignoreNextField isClass f v = false → stringChars .plain f.annotated.name = true
      ∧ Valid f.annotated.enumAsInt v) ∧ FieldsValid isClass rest

def ElemsValid : Bool → List Node → Prop
  | _, [] => True
  | e, v :: rest => Valid e v ∧ ElemsValid (after e v) rest

def EntriesValid : Bool → List (Node × Node) → Prop
  | _, [] => True
  | e, (key, v) :: rest =>
    KeyValid e key ∧ Valid (after e key) v ∧ EntriesValid (after (after e key) v) rest

end

theorem stringChars_docKey (e : Bool) (key : Node) :
    stringChars .plain (docKey key (doc e key)) = true ↔ KeyValid e key := by
  have hprint : stringChars .plain (doc e key).print = true ↔ ch '"' ∉ (doc e key).print := by
    have h := stringChars_print (doc e key) []
    rw [List.append_nil] at h
    rw [h, Bool.and_eq_true, decide_eq_true_iff]
    exact and_iff_left rfl
  cases key with
  | string s => exact stringChars_escapeString s
  | _ => exact hprint

mutual

theorem wellFormed_doc : ∀ (v : Node) (e : Bool), (doc e v).WellFormed ↔ Valid e v
  | .integer _, _ | .bool _, _ | .null, _ | .voidPtr, _ | .revisited, _ => Iff.rfl
  | .void, _ => Iff.rfl
  | .string s, _ => stringChars_escapeString s
  | .enumeration _ _, true => iff_of_true trivial (Or.inl rfl)
  | .enumeration none _, false => iff_of_true trivial (Or.inr fun _ h => by cases h)
  | .enumeration (some name) _, false =>
    ⟨fun h => Or.inr fun _ hn => Option.some.inj hn ▸ h,
      fun h => h.elim (fun h => by cases h) fun h => h name rfl⟩
  | .pointer target, e => wellFormed_doc target e
  | .struct isClass fields, _ => wellFormed_docFields isClass fields
  | .dim elems, e => wellFormed_docElems elems e
  | .array elems, e => wellFormed_docElems elems e
  | .table entries, e => wellFormed_docEntries entries e

theorem wellFormed_docFields (isClass : Bool) : ∀ fields : List (Field × Node),
    Doc.EntriesWellFormed (docFields isClass fields) ↔ FieldsValid isClass fields
  | [] => Iff.rfl
  | (f, v) :: rest => by
    rw [docFields, FieldsValid]
    cases ignoreNextField isClass f v with
    | true =>
      rw [if_pos rfl, wellFormed_docFields isClass rest]
      exact (and_iff_right fun h => by cases h).symm
    | false =>
      rw [if_neg Bool.false_ne_true, Doc.EntriesWellFormed, wellFormed_doc v,
        wellFormed_docFields isClass rest, ← and_assoc]
      exact and_congr_left fun _ => ⟨fun h _ => h, fun h => h rfl⟩

theorem wellFormed_docElems : ∀ (elems : List Node) (e : Bool),
    Doc.ElemsWellFormed (docElems e elems) ↔ ElemsValid e elems
  | [], _ => Iff.rfl
  | v :: rest, e => and_congr (wellFormed_doc v e) (wellFormed_docElems rest (after e v))

theorem wellFormed_docEntries : ∀ (entries : List (Node × Node)) (e : Bool),
    Doc.EntriesWellFormed (docEntries e entries) ↔ EntriesValid e entries
  | [], _ => Iff.rfl
  | (key, v) :: rest, e =>
    and_congr (stringChars_docKey e key)
      (and_congr (wellFormed_doc v (after e key)) (wellFormed_docEntries rest _))

end

/-- **The text is of the JSON grammar**, with one key and one value for every field that is not left
out, and no trace of the others. -/
def EmitsWellFormed (v : Node) : Prop :=
  ∃ d : Doc, d.WellFormed ∧ debugJsonValue v = d.print ∧ d = doc false v

/-- **What is written is well-formed exactly if every field that is left out is silent**, and the
strings are strings. -/
theorem emits_iff (v : Node) : EmitsWellFormed v ↔ Valid false v ∧ Clean v := by
  obtain ⟨t, hwalk, hshows⟩ := walk_shows v ⟨[], false, [], []⟩ rfl
  have htext : debugJsonValue v = t := by
    rw [debugJsonValue, hwalk]
    rfl
  constructor
  · rintro ⟨d, hd, hprint, rfl⟩
    exact ⟨(wellFormed_doc v false).mp hd, hshows.iff.mp (htext.symm.trans hprint)⟩
  · rintro ⟨hvalid, hclean⟩
    exact ⟨_, (wellFormed_doc v false).mpr hvalid, htext.trans (hshows.iff.mpr hclean), rfl⟩

/-- `struct { @optional a : int[2] }`, of `[0, 7]`. -/
def zeroFirst : Node :=
  .struct false [(⟨text "a", [.optional true]⟩, .dim [.integer 0, .integer 7])]

theorem zeroFirst_no_document :
    ¬∃ d : Doc, d.WellFormed ∧ d.print = debugJsonValue zeroFirst := by
  have htext : debugJsonValue zeroFirst = text "\x7b[,]\x7d" := by decide
  rintro ⟨d, -, hprint⟩
  rw [htext] at hprint
  cases d with
  | nothing => cases hprint
  | null => cases hprint
  | bool b => cases b <;> cases hprint
  | number n =>
    have hbrace : ch '\x7b' ∈ decimalInt n := by
      rw [Doc.print] at hprint
      rw [hprint]
      exact List.mem_cons_self
    rcases mem_decimalInt hbrace with h | h <;> cases h
  | string chars => cases (List.cons.inj hprint).1
  | object entries =>
    cases entries with
    | nil => cases hprint
    | cons entry rest => cases (List.cons.inj (List.cons.inj hprint).2).1
  | array elems => cases (List.cons.inj hprint).1

end JsonWriter

end DaScript

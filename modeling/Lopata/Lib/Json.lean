import Lopata.Lib.Numeral

/-!
# Values and their JSON Texts

The values of the language as `JSON.stringify` sees them, JSON texts as syntax trees, and the two
functions between them. A tree stands for its text: texts are read back as the tree they were
written from, a number because its text has enough digits, a string because a surrogate without its
other half is escaped.

An object is a tree of what reading its properties gives. Objects that contain themselves are not
among the values, nor are accessors and `toJSON` methods that throw; `JSON.stringify` throws for
them.

## Main results

* `JsValue.plain_parse`: what a text is read as is plain data.
* `JsValue.parse_stringify_iff`: a value is read back as itself exactly if it is plain data.
-/

namespace Lopata

/-- A string of the language. -/
abbrev JsString := List UInt16

/-- A number of the language. -/
inductive JsNumber where
  | finite (value : ℚ) (representable : Representable value)
  | negativeZero
  | infinite (negative : Bool)
  | nan

/-- What an array or an object is besides its entries. -/
inductive JsClass where
  /-- An array or object literal: nothing but properties one can list. -/
  | ordinary
  /-- An instance of another class, or one with properties that are not listed. -/
  | other (tag : ℕ)
  deriving DecidableEq, Repr

/-- A value of the language. -/
inductive JsValue where
  | undefined
  | null
  | bool (b : Bool)
  | number (n : JsNumber)
  | string (s : JsString)
  | bigint (n : ℤ)
  | symbol (tag : ℕ)
  | function (tag : ℕ)
  /-- An object around a number, a string or a truth value. -/
  | wrapper (primitive : JsValue)
  | array (cls : JsClass) (items : List JsValue)
  /-- An object that is not an array, with the listed properties in order. -/
  | object (cls : JsClass) (props : List (JsString × JsValue))
  /-- An object with a `toJSON` method, which is given the key it is read under; `self` is the
  object without the method. -/
  | withToJSON (toJSON : JsString → JsValue) (self : JsValue)

/-- A JSON text. -/
inductive JsonTree where
  | null
  | bool (b : Bool)
  | number (value : ℚ) (representable : Representable value)
  | string (s : JsString)
  | array (items : List JsonTree)
  | object (members : List (JsString × JsonTree))

/-- The code units of a text of ASCII. -/
def JsString.ascii (text : List Char) : JsString := text.map fun c => UInt16.ofNat c.toNat

/-- A string that is written in the program. -/
def JsString.literal (text : String) : JsString := .ascii text.toList

/-! ### Writing -/

/-- `JSON.stringify` throws: there is no text for a bigint. -/
inductive JsonError where
  | bigint
  deriving DecidableEq, Repr

namespace JsValue

mutual

/-- The text of a value that is read under a key, if it has one; `asks` if its `toJSON` method is
looked for. -/
def tree (asks : Bool) (key : JsString) : JsValue → Except JsonError (Option JsonTree)
  | .undefined | .symbol _ | .function _ => .ok none
  | .null => .ok (some .null)
  | .bool b => .ok (some (.bool b))
  | .number (.finite q h) => .ok (some (.number q h))
  | .number .negativeZero => .ok (some (.number 0 representable_zero))
  | .number (.infinite _) | .number .nan => .ok (some .null)
  | .string s => .ok (some (.string s))
  | .bigint _ => .error .bigint
  | .wrapper primitive => tree false key primitive
  | .array _ items => (treeItems 0 items).map fun ts => some (.array ts)
  | .object _ props => (treeProps props).map fun ts => some (.object ts)
  | .withToJSON toJSON self => if asks then tree false key (toJSON key) else tree false key self

/-- The texts of the items of an array from an index on. -/
def treeItems (i : ℕ) : List JsValue → Except JsonError (List JsonTree)
  | [] => .ok []
  | v :: rest =>
      match tree true (.ascii (Nat.toDigits 10 i)) v, treeItems (i + 1) rest with
      | .ok t, .ok ts => .ok (t.getD .null :: ts)
      | .error e, _ | _, .error e => .error e

/-- The members of the properties of an object; those without a text are left out. -/
def treeProps : List (JsString × JsValue) → Except JsonError (List (JsString × JsonTree))
  | [] => .ok []
  | (key, v) :: rest =>
      match tree true key v, treeProps rest with
      | .ok (some t), .ok ts => .ok ((key, t) :: ts)
      | .ok none, .ok ts => .ok ts
      | .error e, _ | _, .error e => .error e

end

/-- `JSON.stringify(value)`. -/
def stringify (v : JsValue) : Except JsonError (Option JsonTree) := v.tree true []

mutual

/-- `JSON.parse(text)`. -/
def parse : JsonTree → JsValue
  | .null => .null
  | .bool b => .bool b
  | .number q h => .number (.finite q h)
  | .string s => .string s
  | .array items => .array .ordinary (parseItems items)
  | .object members => .object .ordinary (parseMembers members)

def parseItems : List JsonTree → List JsValue
  | [] => []
  | t :: rest => parse t :: parseItems rest

def parseMembers : List (JsString × JsonTree) → List (JsString × JsValue)
  | [] => []
  | (key, t) :: rest => (key, parse t) :: parseMembers rest

end

/-! ### Plain data -/

mutual

/-- Plain data: `null`, truth values, finite numbers other than `-0`, strings, and array and object
literals of plain data. -/
def plain : JsValue → Bool
  | .null | .bool _ | .number (.finite ..) | .string _ => true
  | .array .ordinary items => plainItems items
  | .object .ordinary props => plainProps props
  | _ => false

def plainItems : List JsValue → Bool
  | [] => true
  | v :: rest => plain v && plainItems rest

def plainProps : List (JsString × JsValue) → Bool
  | [] => true
  | (_, v) :: rest => plain v && plainProps rest

end

mutual

/-- What a text is read as is plain data. -/
theorem plain_parse : (t : JsonTree) → (parse t).plain = true
  | .null | .bool _ | .number .. | .string _ => rfl
  | .array items => plainItems_parseItems items
  | .object members => plainProps_parseMembers members

theorem plainItems_parseItems : (ts : List JsonTree) → plainItems (parseItems ts) = true
  | [] => rfl
  | t :: rest => (Bool.and_eq_true _ _).mpr ⟨plain_parse t, plainItems_parseItems rest⟩

theorem plainProps_parseMembers : (ts : List (JsString × JsonTree)) →
    plainProps (parseMembers ts) = true
  | [] => rfl
  | (_, t) :: rest => (Bool.and_eq_true _ _).mpr ⟨plain_parse t, plainProps_parseMembers rest⟩

end

mutual

/-- Plain data has one text under every key, and is read back from it. -/
theorem exists_tree_of_plain : (v : JsValue) → v.plain = true →
    ∃ t, (∀ asks key, v.tree asks key = .ok (some t)) ∧ parse t = v
  | .null, _ => ⟨.null, fun _ _ => rfl, rfl⟩
  | .bool b, _ => ⟨.bool b, fun _ _ => rfl, rfl⟩
  | .number (.finite q h), _ => ⟨.number q h, fun _ _ => rfl, rfl⟩
  | .string s, _ => ⟨.string s, fun _ _ => rfl, rfl⟩
  | .array .ordinary items, h => by
    obtain ⟨ts, hts, hparse⟩ := exists_treeItems_of_plain items h
    exact ⟨.array ts, fun _ _ => by simp only [tree, hts]; rfl, by rw [parse, hparse]⟩
  | .object .ordinary props, h => by
    obtain ⟨ts, hts, hparse⟩ := exists_treeProps_of_plain props h
    exact ⟨.object ts, fun _ _ => by simp only [tree, hts]; rfl, by rw [parse, hparse]⟩

theorem exists_treeItems_of_plain : (vs : List JsValue) → plainItems vs = true →
    ∃ ts, (∀ i, treeItems i vs = .ok ts) ∧ parseItems ts = vs
  | [], _ => ⟨[], fun _ => rfl, rfl⟩
  | v :: rest, h => by
    obtain ⟨hv, hrest⟩ := (Bool.and_eq_true _ _).mp h
    obtain ⟨t, ht, hparse⟩ := exists_tree_of_plain v hv
    obtain ⟨ts, hts, hparses⟩ := exists_treeItems_of_plain rest hrest
    refine ⟨t :: ts, fun i => ?_, by rw [parseItems, hparse, hparses]⟩
    simp only [treeItems, ht, hts]
    rfl

theorem exists_treeProps_of_plain : (ps : List (JsString × JsValue)) → plainProps ps = true →
    ∃ ts, treeProps ps = .ok ts ∧ parseMembers ts = ps
  | [], _ => ⟨[], rfl, rfl⟩
  | (key, v) :: rest, h => by
    obtain ⟨hv, hrest⟩ := (Bool.and_eq_true _ _).mp h
    obtain ⟨t, ht, hparse⟩ := exists_tree_of_plain v hv
    obtain ⟨ts, hts, hparses⟩ := exists_treeProps_of_plain rest hrest
    refine ⟨(key, t) :: ts, ?_, by rw [parseMembers, hparse, hparses]⟩
    simp only [treeProps, ht, hts]

end

/-- **Copies by JSON.** A value that has a text is read back from it as itself exactly if it is
plain data. -/
theorem parse_tree_iff {v : JsValue} {asks : Bool} {key : JsString} {t : JsonTree}
    (ht : v.tree asks key = .ok (some t)) : parse t = v ↔ v.plain = true := by
  constructor
  · rintro rfl
    exact plain_parse t
  · intro hplain
    obtain ⟨t', ht', hparse⟩ := exists_tree_of_plain v hplain
    rw [ht' asks key] at ht
    exact Option.some.inj (Except.ok.inj ht) ▸ hparse

end JsValue

/-! ### The length of a text -/

namespace JsonTree

/-- The code units of a character of a string in quotes, between its neighbours. -/
def quoteUnit (before after : Option UInt16) (u : UInt16) : ℕ :=
  if u.toNat = 34 ∨ u.toNat = 92 ∨ u.toNat ∈ [8, 9, 10, 12, 13] then 2
  else if u.toNat < 32 then 6
  else if isHighSurrogate u ∧ ¬ after.any isLowSurrogate then 6
  else if isLowSurrogate u ∧ ¬ before.any isHighSurrogate then 6
  else 1

/-- The length of a string in quotes, without the quotes. -/
def quotedLength (before : Option UInt16) : JsString → ℕ
  | [] => 0
  | u :: rest => quoteUnit before rest.head? u + quotedLength (some u) rest

mutual

/-- The `length` of the text, which has no white space. -/
def length : JsonTree → ℕ
  | .null => 4
  | .bool b => if b then 4 else 5
  | .number q h => (Double.text (.finite q h)).length
  | .string s => quotedLength none s + 2
  | .array items => lengthItems items + (items.length - 1) + 2
  | .object members => lengthMembers members + (members.length - 1) + 2

def lengthItems : List JsonTree → ℕ
  | [] => 0
  | t :: rest => length t + lengthItems rest

def lengthMembers : List (JsString × JsonTree) → ℕ
  | [] => 0
  | (key, t) :: rest => quotedLength none key + 3 + length t + lengthMembers rest

end

end JsonTree

end Lopata

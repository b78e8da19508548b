import Lopata.Lib.Json

/-!
# Errors Between Threads

What a worker throws is sent to another thread as a plain record, and made an error again there.
The thrown value may be anything: reading it may run code of the worker and throw in its turn. An
object is what it answers to the operations that read it; it answers the same each time.

## Main results

* `serializeError_iff`: when serializing ends without an exception, with a record that can be
  posted.
* `not_serializeError`: an error whose cause cannot be read.
-/

namespace Lopata.Transport

inductive Value (Ref : Type) where
  | undefined
  | null
  | boolean (b : Bool)
  | number (n : JsNumber)
  | bigint (n : ℤ)
  | string (s : JsString)
  | symbol (description : JsString)
  /-- An object or a function. -/
  | object (ref : Ref)

/-- What an object answers; none is an exception. -/
structure Obj (Ref : Type) where
  /-- Whether its `typeof` is `function`. -/
  isFunction : Bool := false
  /-- `instanceof Error`. -/
  isError : Option Bool := some false
  /-- Reading a property. -/
  get : JsString → Option (Value Ref) := fun _ => some .undefined
  /-- `Object.keys`. -/
  keys : Option (List JsString) := some []
  /-- `String`. -/
  text : Option JsString := some (.literal "[object Object]")
  /-- Whether `structuredClone` accepts an object that is no function. -/
  cloneable : Bool := true

abbrev World (Ref : Type) := Ref → Obj Ref

/-- A value, and the values that it leads to one after another. -/
inductive Chain (α : Type) where
  | last (a : α)
  | link (a : α) (cause : Chain α)

def Chain.map {α β : Type} (f : α → β) : Chain α → Chain β
  | .last a => .last (f a)
  | .link a cause => .link (f a) (cause.map f)

/-- How many causes there are. -/
def Chain.causes {α : Type} : Chain α → ℕ
  | .last _ => 0
  | .link _ cause => cause.causes + 1

def Chain.Forall {α : Type} (p : α → Prop) : Chain α → Prop
  | .last a => p a
  | .link a cause => p a ∧ cause.Forall p

/-! ### Values -/

namespace Value

variable {Ref : Type}

def isUndefined : Value Ref → Bool
  | .undefined => true
  | _ => false

/-- `value ?? other`. -/
def orElse (value other : Value Ref) : Value Ref :=
  match value with
  | .undefined | .null => other
  | _ => value

def isString : Value Ref → Bool
  | .string _ => true
  | _ => false

end Value

def numberText : JsNumber → JsString
  | .finite q h => .ascii (Double.finite q h).text
  | .negativeZero => .literal "0"
  | .infinite negative => .ascii (Double.infinite negative).text
  | .nan => .literal "NaN"

section World

variable {Ref : Type} (w : World Ref)

/-- `String(value)`. -/
def stringOf : Value Ref → Option JsString
  | .undefined => some (.literal "undefined")
  | .null => some (.literal "null")
  | .boolean b => some (.literal (if b then "true" else "false"))
  | .number n => some (numberText n)
  | .bigint n => some (.ascii (decimal n))
  | .string s => some s
  | .symbol description => some (.literal "Symbol(" ++ description ++ .literal ")")
  | .object ref => (w ref).text

/-- Whether `structuredClone` accepts a value. -/
def clones : Value Ref → Bool
  | .symbol _ => false
  | .object ref => !(w ref).isFunction && (w ref).cloneable
  | _ => true

/-! ### Serializing -/

/-- A record without its cause. -/
structure Layer (Ref : Type) where
  message : Value Ref
  stack : Value Ref
  name : Value Ref
  /-- None of them if there is no such record. -/
  props : List (JsString × Value Ref)

def unserializable : Value Ref := .string (.literal "Unserializable thrown value")

/-- What the first block assigns to `message`, `name` and `stack`. -/
structure Texts (Ref : Type) where
  message : Value Ref
  name : Value Ref := .undefined
  stack : Value Ref := .undefined

/-- An exception leaves what has been assigned, but for the message. -/
def errorTexts (o : Obj Ref) : Texts Ref :=
  match o.get (.literal "message") with
  | none => { message := unserializable }
  | some message =>
      match o.get (.literal "name") with
      | none => { message := unserializable }
      | some name =>
          match o.get (.literal "stack") with
          | none => { message := unserializable, name }
          | some stack => { message, name, stack }

/-- Of an object that is no error, the texts are taken that are strings. -/
def objectTexts (o : Obj Ref) : Texts Ref :=
  match o.get (.literal "message") with
  | none => { message := unserializable }
  | some message =>
      match if message.isString then some message else o.text.map .string with
      | none => { message := unserializable }
      | some message =>
          match o.get (.literal "name") with
          | none => { message := unserializable }
          | some name => { message, name := if name.isString then name else .undefined }

def stringText (text : Option JsString) : Texts Ref :=
  match text with
  | none => { message := unserializable }
  | some text => { message := .string text }

/-- The properties that have a place of their own. -/
def ownPlace : List JsString :=
  [.literal "message", .literal "stack", .literal "name", .literal "cause"]

/-- The properties that can be read and cloned. An assignment to `__proto__` makes no property. -/
def collectProps (o : Obj Ref) (keys : List JsString) : List (JsString × Value Ref) :=
  keys.filterMap fun key =>
    if key ∈ ownPlace then none
    else
      match o.get key with
      | none => none
      | some value =>
          if clones w value ∧ key ≠ .literal "__proto__" then some (key, value) else none

/-- The record of an object. -/
def layerOf (o : Obj Ref) (isError : Bool) (keys : List JsString) : Layer Ref :=
  let texts :=
    if isError then errorTexts o
    else if o.isFunction then stringText o.text
    else objectTexts o
  { message := texts.message
    stack := texts.stack
    name := texts.name.orElse (if isError then .string (.literal "Error") else .undefined)
    props := collectProps w o keys }

/-- A function's keys are not asked for. -/
def keysOf (o : Obj Ref) : Option (List JsString) := if o.isFunction then some [] else o.keys

/-- The record of a value; `instanceof` and `Object.keys` are outside of the blocks that catch. -/
def readLayer : Value Ref → Option (Layer Ref)
  | .object ref => do
      let isError ← (w ref).isError
      let keys ← keysOf (w ref)
      return layerOf w (w ref) isError keys
  | value =>
      let texts := stringText (stringOf w value)
      some { message := texts.message, stack := texts.stack, name := texts.name, props := [] }

/-- The cause of an error, if it is not `undefined`; it is read outside of the blocks too. -/
def readCause : Value Ref → Option (Option (Value Ref))
  | .object ref => do
      let isError ← (w ref).isError
      if isError then
        let cause ← (w ref).get (.literal "cause")
        return if cause.isUndefined then none else some cause
      else return none
  | _ => some none

/-- `serializeError`, with `levels` causes left to serialize; the cause behind the last of them is
read all the same. -/
def serializeError : ℕ → Value Ref → Option (Chain (Layer Ref))
  | 0, e => do
      let layer ← readLayer w e
      let _ ← readCause w e
      return .last layer
  | levels + 1, e => do
      let layer ← readLayer w e
      match ← readCause w e with
      | none => return .last layer
      | some cause => (serializeError levels cause).map (.link layer)

def maxCauseDepth : ℕ := 8

/-! ### A record that can be posted -/

/-- All of a record can be cloned. -/
structure Layer.Posts (layer : Layer Ref) : Prop where
  message : clones w layer.message = true
  stack : clones w layer.stack = true
  name : clones w layer.name = true
  props : ∀ p ∈ layer.props, clones w p.2 = true

/-- `message`, `name` and `stack` can be cloned as far as they are reached; what is read in front
of an exception is kept but for the message. -/
def TextsClone (o : Obj Ref) : Prop :=
  match o.get (.literal "message"), o.get (.literal "name"), o.get (.literal "stack") with
  | some message, some name, some stack =>
      clones w message = true ∧ clones w name = true ∧ clones w stack = true
  | some _, some name, none => clones w name = true
  | _, _, _ => True

/-- A thrown value that can be asked for its class and its keys; that is, if it is an error, read
for its cause, and has texts that can be cloned. -/
def Readable : Value Ref → Prop
  | .object ref =>
      ((w ref).isFunction = false → (w ref).keys ≠ none) ∧
        ((w ref).isError = some false ∨
          (w ref).isError = some true ∧ TextsClone w (w ref) ∧
            (w ref).get (.literal "cause") ≠ none)
  | _ => True

/-- A value is an error with a cause. -/
inductive HasCause : Value Ref → Value Ref → Prop
  | intro (ref : Ref) (cause : Value Ref) (hclass : (w ref).isError = some true)
      (hget : (w ref).get (.literal "cause") = some cause) (hcause : cause.isUndefined = false) :
      HasCause (.object ref) cause

/-- The value is readable, and so are its causes. -/
def Guarded : ℕ → Value Ref → Prop
  | 0, e => Readable w e
  | levels + 1, e => Readable w e ∧ ∀ cause, HasCause w e cause → Guarded levels cause

/-! ### When the record can be posted -/

variable {w}

theorem clones_orElse {value other : Value Ref} (h : clones w other = true) :
    clones w (value.orElse other) = true ↔ clones w value = true := by
  cases value with
  | undefined | null => exact iff_of_true h rfl
  | _ => exact Iff.rfl

theorem clones_props (o : Obj Ref) (keys : List JsString) :
    ∀ p ∈ collectProps w o keys, clones w p.2 = true := by
  intro p hp
  obtain ⟨key, -, hkey⟩ := List.mem_filterMap.mp hp
  split at hkey
  · cases hkey
  · split at hkey
    · cases hkey
    · obtain ⟨hclones, heq⟩ := Option.ite_none_right_eq_some.mp hkey
      obtain rfl := Option.some.inj heq
      exact hclones.1

theorem textsClone_iff (o : Obj Ref) :
    TextsClone w o ↔ clones w (errorTexts o).message = true ∧
      clones w (errorTexts o).name = true ∧ clones w (errorTexts o).stack = true := by
  rw [TextsClone, errorTexts]
  cases o.get (.literal "message") with
  | none => exact iff_of_true trivial ⟨rfl, rfl, rfl⟩
  | some message =>
    cases o.get (.literal "name") with
    | none => exact iff_of_true trivial ⟨rfl, rfl, rfl⟩
    | some name =>
      cases o.get (.literal "stack") with
      | none => exact ⟨fun h => ⟨rfl, h, rfl⟩, fun h => h.2.1⟩
      | some stack => exact Iff.rfl

theorem clones_of_isString {value : Value Ref} (h : value.isString = true) :
    clones w value = true := by
  cases value with
  | string s => rfl
  | _ => cases h

/-- The texts of what is no error are strings. -/
theorem clones_objectTexts (o : Obj Ref) :
    clones w (objectTexts o).message = true ∧ clones w (objectTexts o).name = true ∧
      clones w (objectTexts o).stack = true := by
  rw [objectTexts]
  split
  · exact ⟨rfl, rfl, rfl⟩
  · next message _ =>
    split
    · exact ⟨rfl, rfl, rfl⟩
    · next text htext =>
      have hmessage : clones w text = true := by
        split at htext
        · next hstring =>
          obtain rfl := Option.some.inj htext
          exact clones_of_isString hstring
        · obtain ⟨s, -, rfl⟩ := Option.map_eq_some_iff.mp htext
          rfl
      split
      · exact ⟨rfl, rfl, rfl⟩
      · next name _ =>
        refine ⟨hmessage, ?_, rfl⟩
        dsimp only
        split
        · next hstring => exact clones_of_isString hstring
        · rfl

theorem clones_stringText (text : Option JsString) :
    clones w (stringText text : Texts Ref).message = true ∧
      clones w (stringText text : Texts Ref).name = true ∧
      clones w (stringText text : Texts Ref).stack = true := by
  cases text <;> exact ⟨rfl, rfl, rfl⟩

theorem posts_layerOf (o : Obj Ref) (isError : Bool) (keys : List JsString) :
    (layerOf w o isError keys).Posts w ↔ (isError = true → TextsClone w o) := by
  have hother : clones w (if isError then .string (.literal "Error") else .undefined) = true := by
    split <;> rfl
  have hname : ∀ texts : Texts Ref, clones w (texts.name.orElse
      (if isError then .string (.literal "Error") else .undefined)) = true ↔
      clones w texts.name = true := fun texts => clones_orElse hother
  have hprops := clones_props (w := w) o keys
  cases isError with
  | true =>
    rw [imp_iff_right rfl, textsClone_iff]
    constructor
    · rintro ⟨hmessage, hstack, hlayer, -⟩
      exact ⟨hmessage, (hname (errorTexts o)).mp hlayer, hstack⟩
    · rintro ⟨hmessage, htext, hstack⟩
      exact ⟨hmessage, hstack, (hname (errorTexts o)).mpr htext, hprops⟩
  | false =>
    refine iff_of_true ?_ Bool.false_ne_true.elim
    cases hfunction : o.isFunction with
    | true =>
      have hlayer : layerOf w o false keys = {
          message := (stringText o.text : Texts Ref).message
          stack := (stringText o.text : Texts Ref).stack
          name := (stringText o.text : Texts Ref).name.orElse .undefined
          props := collectProps w o keys } := by
        simp [layerOf, hfunction]
      obtain ⟨hmessage, htext, hstack⟩ := clones_stringText (w := w) o.text
      rw [hlayer]
      exact ⟨hmessage, hstack, (hname _).mpr htext, hprops⟩
    | false =>
      have hlayer : layerOf w o false keys = {
          message := (objectTexts o).message
          stack := (objectTexts o).stack
          name := (objectTexts o).name.orElse .undefined
          props := collectProps w o keys } := by
        simp [layerOf, hfunction]
      obtain ⟨hmessage, htext, hstack⟩ := clones_objectTexts (w := w) o
      rw [hlayer]
      exact ⟨hmessage, hstack, (hname _).mpr htext, hprops⟩

/-- A value gives a record that can be posted, and can be read for its cause, exactly if it is
readable. -/
theorem readable_iff (e : Value Ref) :
    Readable w e ↔ (∃ layer, readLayer w e = some layer ∧ layer.Posts w) ∧
      ∃ cause, readCause w e = some cause := by
  cases e with
  | object ref =>
    have hkeys : ((w ref).isFunction = false → (w ref).keys ≠ none) ↔
        ∃ keys, keysOf (w ref) = some keys := by
      rw [keysOf]
      cases hfunction : (w ref).isFunction with
      | true => exact iff_of_true (fun h => by cases h) ⟨[], rfl⟩
      | false =>
        rw [imp_iff_right rfl, Option.ne_none_iff_exists']
        exact Iff.rfl
    simp only [Readable, readLayer, readCause, Option.bind_eq_bind, hkeys]
    cases hclass : (w ref).isError with
    | none => simp
    | some isError =>
      cases isError with
      | false =>
        have hposts : ∀ keys, (layerOf w (w ref) false keys).Posts w :=
          fun keys => (posts_layerOf _ _ _).mpr Bool.false_ne_true.elim
        simp only [Option.bind_some, Option.pure_def, Bool.false_eq_true, if_false,
          true_or, and_true, Option.some.injEq, exists_eq', Option.bind_eq_some_iff]
        constructor
        · rintro ⟨keys, h⟩
          exact ⟨_, ⟨keys, h, rfl⟩, hposts keys⟩
        · rintro ⟨-, ⟨keys, h, -⟩, -⟩
          exact ⟨keys, h⟩
      | true =>
        simp only [Option.bind_some, Option.pure_def, if_true, Option.some.injEq,
          Bool.true_eq_false, false_or, true_and, Option.bind_eq_some_iff,
          Option.ne_none_iff_exists']
        constructor
        · rintro ⟨⟨keys, h⟩, htexts, cause, hcause⟩
          exact ⟨⟨_, ⟨keys, h, rfl⟩, (posts_layerOf _ _ _).mpr fun _ => htexts⟩, _, cause,
            hcause, rfl⟩
        · rintro ⟨⟨-, ⟨keys, h, rfl⟩, hposts⟩, -, cause, hcause, -⟩
          exact ⟨⟨keys, h⟩, (posts_layerOf _ _ _).mp hposts rfl, cause, hcause⟩
  | _ =>
    refine iff_of_true trivial ⟨⟨_, rfl, ?_⟩, none, rfl⟩
    obtain ⟨hmessage, hname, hstack⟩ := clones_stringText (w := w) _
    exact ⟨hmessage, hstack, hname, fun p hp => by cases hp⟩

theorem readCause_eq_some_iff {e cause : Value Ref} :
    readCause w e = some (some cause) ↔ HasCause w e cause := by
  cases e with
  | object ref =>
    simp only [readCause, Option.bind_eq_bind, Option.bind_eq_some_iff]
    constructor
    · rintro ⟨isError, hclass, h⟩
      split at h
      · next hclass' =>
        obtain ⟨c, hget, h⟩ := Option.bind_eq_some_iff.mp h
        have heq := Option.some.inj h
        split at heq
        · cases heq
        · next hdefined =>
          obtain rfl := Option.some.inj heq
          exact .intro ref c (hclass' ▸ hclass) hget (Bool.eq_false_iff.mpr hdefined)
      · cases Option.some.inj h
    · rintro ⟨_, _, hclass, hget, hcause⟩
      refine ⟨true, hclass, ?_⟩
      rw [if_pos rfl]
      refine Option.bind_eq_some_iff.mpr ⟨cause, hget, ?_⟩
      rw [hcause]
      rfl
  | _ =>
    refine iff_of_false ?_ fun h => by cases h
    intro h
    cases Option.some.inj h

section Serialize

variable {e : Value Ref} {layer : Layer Ref}

theorem serializeError_of_none (levels : ℕ) (hlayer : readLayer w e = some layer)
    (hcause : readCause w e = some none) : serializeError w levels e = some (.last layer) := by
  cases levels <;>
    simp only [serializeError, hlayer, hcause, Option.bind_eq_bind, Option.bind_some,
      Option.pure_def]

theorem serializeError_zero {cause : Option (Value Ref)} (hlayer : readLayer w e = some layer)
    (hcause : readCause w e = some cause) : serializeError w 0 e = some (.last layer) := by
  simp only [serializeError, hlayer, hcause, Option.bind_eq_bind, Option.bind_some,
    Option.pure_def]

theorem serializeError_succ {cause : Value Ref} (levels : ℕ)
    (hlayer : readLayer w e = some layer) (hcause : readCause w e = some (some cause)) :
    serializeError w (levels + 1) e = (serializeError w levels cause).map (.link layer) := by
  simp only [serializeError, hlayer, hcause, Option.bind_eq_bind, Option.bind_some]

theorem exists_of_serializeError {levels : ℕ} {s : Chain (Layer Ref)}
    (h : serializeError w levels e = some s) :
    ∃ layer cause, readLayer w e = some layer ∧ readCause w e = some cause := by
  cases levels <;>
  · rw [serializeError, Option.bind_eq_bind] at h
    obtain ⟨layer, hlayer, h⟩ := Option.bind_eq_some_iff.mp h
    obtain ⟨cause, hcause, -⟩ := Option.bind_eq_some_iff.mp h
    exact ⟨layer, cause, hlayer, hcause⟩

end Serialize

/-- **Serializing** ends without an exception, and with a record that can be posted, exactly if the
value and its causes, as far as they are serialized, are readable. -/
theorem posts_iff_guarded (levels : ℕ) (e : Value Ref) :
    (∃ s, serializeError w levels e = some s ∧ s.Forall (Layer.Posts w)) ↔
      Guarded w levels e := by
  induction levels generalizing e with
  | zero =>
    rw [Guarded, readable_iff]
    constructor
    · rintro ⟨s, hs, hposts⟩
      obtain ⟨layer, cause, hlayer, hcause⟩ := exists_of_serializeError hs
      rw [serializeError_zero hlayer hcause] at hs
      obtain rfl := Option.some.inj hs
      exact ⟨⟨layer, hlayer, hposts⟩, cause, hcause⟩
    · rintro ⟨⟨layer, hlayer, hposts⟩, cause, hcause⟩
      exact ⟨_, serializeError_zero hlayer hcause, hposts⟩
  | succ levels ih =>
    rw [Guarded, readable_iff]
    constructor
    · rintro ⟨s, hs, hposts⟩
      obtain ⟨layer, cause, hlayer, hcause⟩ := exists_of_serializeError hs
      cases cause with
      | none =>
        rw [serializeError_of_none _ hlayer hcause] at hs
        obtain rfl := Option.some.inj hs
        refine ⟨⟨⟨layer, hlayer, hposts⟩, none, hcause⟩, fun cause h => ?_⟩
        have hsome := readCause_eq_some_iff.mpr h
        cases hcause.symm.trans hsome
      | some cause =>
        rw [serializeError_succ _ hlayer hcause] at hs
        obtain ⟨inner, hinner, rfl⟩ := Option.map_eq_some_iff.mp hs
        refine ⟨⟨⟨layer, hlayer, hposts.1⟩, some cause, hcause⟩, fun cause' h => ?_⟩
        have hsome := readCause_eq_some_iff.mpr h
        obtain rfl := Option.some.inj (Option.some.inj (hcause.symm.trans hsome))
        exact (ih cause).mp ⟨inner, hinner, hposts.2⟩
    · rintro ⟨⟨⟨layer, hlayer, hposts⟩, cause, hcause⟩, hrest⟩
      cases cause with
      | none => exact ⟨_, serializeError_of_none _ hlayer hcause, hposts⟩
      | some cause =>
        obtain ⟨inner, hinner, hall⟩ :=
          (ih cause).mpr (hrest cause (readCause_eq_some_iff.mp hcause))
        refine ⟨.link layer inner, ?_, hposts, hall⟩
        rw [serializeError_succ _ hlayer hcause, hinner]
        rfl

end World

/-- `serializeError` is total and safe to post, for a thrown value, exactly if the value and its
causes are readable down to the greatest depth. -/
theorem serializeError_iff {Ref : Type} (w : World Ref) (e : Value Ref) :
    (∃ s, serializeError w maxCauseDepth e = some s ∧ s.Forall (Layer.Posts w)) ↔
      Guarded w maxCauseDepth e :=
  posts_iff_guarded maxCauseDepth e

/-- An error whose cause is an accessor that throws. -/
private def throwingCause : World Unit := fun _ =>
  { isError := some true
    get := fun key => if key = .literal "cause" then none else some (.string []) }

/-- Its serializing throws. -/
theorem not_serializeError : ¬ ∀ {Ref : Type} (w : World Ref) (e : Value Ref),
    ∃ s, serializeError w maxCauseDepth e = some s ∧ s.Forall (Layer.Posts w) := by
  intro h
  obtain ⟨s, hs, -⟩ := h throwingCause (.object ())
  cases hs

end Lopata.Transport

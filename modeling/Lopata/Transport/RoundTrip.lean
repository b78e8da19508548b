import Lopata.Transport.Errors

/-!
# The Round Trip of an Error

An error that is serialized and made an error again keeps its message, its name and its own
properties, and its causes down to the greatest depth.

## Main results

* `roundTrips_iff`: the error and its causes come back exactly if their messages are texts, their
  names are not nullish and none has a property `__proto__`.
* `le_causes_iff`: a chain that is longer, or goes in a circle, is cut off at the depth.
* `not_roundTrips`: a message that is not a text comes back as one.
-/

namespace Lopata.Transport

variable {Ref : Type} (w : World Ref)

/-! ### Deserializing -/

/-- What an error is made of; its own stack if there is no other. -/
structure ErrorLayer (Ref : Type) where
  message : JsString
  name : Value Ref
  stack : Option (Value Ref)
  props : List (JsString × Value Ref)

def Value.truthy : Value Ref → Bool
  | .undefined | .null => false
  | .boolean b => b
  | .number (.finite q _) => q ≠ 0
  | .number .negativeZero | .number .nan => false
  | .number (.infinite _) => true
  | .bigint n => n ≠ 0
  | .string s => s ≠ []
  | .symbol _ | .object _ => true

/-- The message of `new Error(message)`; a symbol is not made a text. -/
def messageOf : Value Ref → Option JsString
  | .undefined => some []
  | .symbol _ => none
  | value => stringOf w value

def deserializeLayer (layer : Layer Ref) : Option (ErrorLayer Ref) := do
  let message ← messageOf w layer.message
  return {
    message
    name := layer.name.orElse (.string (.literal "Error"))
    stack := if layer.stack.truthy then some layer.stack else none
    props := layer.props }

def deserializeError : Chain (Layer Ref) → Option (Chain (ErrorLayer Ref))
  | .last layer => do return .last (← deserializeLayer w layer)
  | .link layer cause => do
      let cause ← deserializeError cause
      return .link (← deserializeLayer w layer) cause

/-! ### What an error shows -/

/-- The message, the name and the other own properties of an error. -/
structure View (Ref : Type) where
  message : Value Ref
  name : Value Ref
  props : List (JsString × Value Ref)

def ErrorLayer.view (layer : ErrorLayer Ref) : View Ref :=
  { message := .string layer.message, name := layer.name, props := layer.props }

def viewOf (o : Obj Ref) : View Ref where
  message := (o.get (.literal "message")).getD .undefined
  name := (o.get (.literal "name")).getD .undefined
  props := ((o.keys.getD []).filter fun key => !ownPlace.contains key).filterMap fun key =>
    (o.get key).map fun value => (key, value)

def causeOf (ref : Ref) : Option Ref :=
  match (w ref).get (.literal "cause") with
  | some (.object cause) => some cause
  | _ => none

/-- An error and its causes, down to a depth. -/
def views : ℕ → Ref → Chain (View Ref)
  | 0, ref => .last (viewOf (w ref))
  | levels + 1, ref =>
      match causeOf w ref with
      | none => .last (viewOf (w ref))
      | some cause => .link (viewOf (w ref)) (views levels cause)

/-- The cause that is so many steps away. -/
def nthCause (ref : Ref) : ℕ → Option Ref
  | 0 => some ref
  | n + 1 => (causeOf w ref).bind fun cause => nthCause cause n

/-! ### Errors that can be cloned -/

/-- An error whose message, name, stack and own properties can be cloned, and whose cause, if it
has one, is an object. -/
structure Cloneable (ref : Ref) : Prop where
  isError : (w ref).isError = some true
  isObject : (w ref).isFunction = false
  message : ∃ v, (w ref).get (.literal "message") = some v ∧ clones w v = true
  name : ∃ v, (w ref).get (.literal "name") = some v ∧ clones w v = true
  stack : ∃ v, (w ref).get (.literal "stack") = some v ∧ clones w v = true
  props : ∃ keys, (w ref).keys = some keys ∧
    ∀ key ∈ keys, key ∉ ownPlace → ∃ v, (w ref).get key = some v ∧ clones w v = true
  cause : (w ref).get (.literal "cause") = some .undefined ∨
    ∃ cause, (w ref).get (.literal "cause") = some (.object cause)

/-- The error and its causes can be cloned, down to a depth. -/
def CloneableTo (levels : ℕ) (ref : Ref) : Prop :=
  ∀ k ≤ levels, ∀ cause, nthCause w ref k = some cause → Cloneable w cause

/-- The message is a text, the name is not nullish, and `__proto__` is no property. -/
structure Plain (o : Obj Ref) : Prop where
  message : ∃ s, o.get (.literal "message") = some (.string s)
  name : o.get (.literal "name") ≠ some .undefined ∧ o.get (.literal "name") ≠ some .null
  props : ∀ keys, o.keys = some keys → .literal "__proto__" ∉ keys

/-- The error comes back as it was, with its causes down to the depth. -/
def RoundTrips (levels : ℕ) (ref : Ref) : Prop :=
  ∃ s d, serializeError w levels (.object ref) = some s ∧ deserializeError w s = some d ∧
    d.map ErrorLayer.view = views w levels ref

/-! ### One error -/

variable {w} {ref : Ref}

theorem Cloneable.readCause (h : Cloneable w ref) :
    readCause w (.object ref) = some ((causeOf w ref).map .object) := by
  simp only [Transport.readCause, h.isError, Option.bind_eq_bind, Option.bind_some, if_true,
    causeOf]
  obtain hcause | ⟨cause, hcause⟩ := h.cause <;> rw [hcause] <;> rfl

/-- All properties of an error that can be cloned are collected but for `__proto__`. -/
theorem Cloneable.collectProps (h : Cloneable w ref) :
    collectProps w (w ref) ((w ref).keys.getD []) =
      (viewOf (w ref)).props.filter fun p => p.1 ≠ .literal "__proto__" := by
  obtain ⟨keys, hkeys, hall⟩ := h.props
  rw [viewOf, hkeys, Option.getD_some, Transport.collectProps, List.filter_filterMap,
    List.filterMap_filter]
  refine List.filterMap_congr fun key hkey => ?_
  by_cases hown : key ∈ ownPlace
  · simp [hown]
  · obtain ⟨v, hget, hclones⟩ := hall key hkey hown
    by_cases hproto : key = .literal "__proto__"
    · subst hproto
      simp [hown, hget, Option.filter_some]
    · simp [hown, hget, hclones, hproto, Option.filter_some]

/-- The record of an error that can be cloned. -/
theorem Cloneable.readLayer (h : Cloneable w ref) : ∃ stack,
    readLayer w (.object ref) = some {
      message := (viewOf (w ref)).message
      stack
      name := (viewOf (w ref)).name.orElse (.string (.literal "Error"))
      props := (viewOf (w ref)).props.filter fun p => p.1 ≠ .literal "__proto__" } := by
  obtain ⟨message, hmessage, -⟩ := h.message
  obtain ⟨name, hname, -⟩ := h.name
  obtain ⟨stack, hstack, -⟩ := h.stack
  obtain ⟨keys, hkeys, -⟩ := h.props
  have hprops := h.collectProps
  rw [hkeys, Option.getD_some] at hprops
  refine ⟨stack, ?_⟩
  simp only [Transport.readLayer, h.isError, keysOf, h.isObject, hkeys, layerOf, errorTexts,
    hmessage, hname, hstack, Option.bind_eq_bind, Option.bind_some, Option.pure_def, if_true,
    Bool.false_eq_true, if_false, hprops, viewOf, Option.getD_some]

theorem Value.orElse_string_eq_iff (value : Value Ref) (s : JsString) :
    value.orElse (.string s) = value ↔ value ≠ .undefined ∧ value ≠ .null := by
  cases value <;> simp [Value.orElse]

theorem Value.orElse_orElse (value : Value Ref) (s : JsString) :
    (value.orElse (.string s)).orElse (.string s) = value.orElse (.string s) := by
  cases value <;> rfl

theorem messageOf_eq_iff (value : Value Ref) :
    (∃ message, messageOf w value = some message ∧ .string message = value) ↔
      ∃ s, value = .string s := by
  constructor
  · rintro ⟨message, -, rfl⟩
    exact ⟨message, rfl⟩
  · rintro ⟨s, rfl⟩
    exact ⟨s, rfl, rfl⟩

/-- What it takes to come back, said of the view. -/
theorem Cloneable.plain_iff (h : Cloneable w ref) :
    Plain (w ref) ↔ (∃ s, (viewOf (w ref)).message = .string s) ∧
      ((viewOf (w ref)).name ≠ .undefined ∧ (viewOf (w ref)).name ≠ .null) ∧
      ∀ p ∈ (viewOf (w ref)).props, p.1 ≠ .literal "__proto__" := by
  obtain ⟨message, hmessage, -⟩ := h.message
  obtain ⟨name, hname, -⟩ := h.name
  obtain ⟨keys, hkeys, hall⟩ := h.props
  have hprops : (∀ p ∈ (viewOf (w ref)).props, p.1 ≠ .literal "__proto__") ↔
      .literal "__proto__" ∉ keys := by
    constructor
    · intro hview hmem
      have hown : .literal "__proto__" ∉ ownPlace := by decide
      obtain ⟨v, hget, -⟩ := hall _ hmem hown
      refine hview (.literal "__proto__", v) (List.mem_filterMap.mpr ⟨.literal "__proto__", ?_, ?_⟩)
        rfl
      · rw [hkeys, Option.getD_some]
        exact List.mem_filter.mpr ⟨hmem, by simpa using hown⟩
      · rw [hget]
        rfl
    · rintro hkeys' p hp rfl'
      obtain ⟨key, hkey, hp⟩ := List.mem_filterMap.mp hp
      obtain ⟨v, -, rfl⟩ := Option.map_eq_some_iff.mp hp
      rw [hkeys, Option.getD_some] at hkey
      exact hkeys' (rfl' ▸ (List.mem_filter.mp hkey).1)
  rw [hprops]
  simp only [viewOf, hmessage, hname, Option.getD_some]
  constructor
  · rintro ⟨⟨s, hs⟩, ⟨hundefined, hnull⟩, hkeys'⟩
    rw [hmessage] at hs
    rw [hname] at hundefined hnull
    exact ⟨⟨s, Option.some.inj hs⟩, ⟨fun h => hundefined (congrArg some h),
      fun h => hnull (congrArg some h)⟩, hkeys' keys hkeys⟩
  · rintro ⟨⟨s, hs⟩, ⟨hundefined, hnull⟩, hkeys'⟩
    refine ⟨⟨s, hmessage.trans (congrArg some hs)⟩, ⟨?_, ?_⟩, fun keys' hkeys'' => ?_⟩
    · rw [hname]
      exact fun h => hundefined (Option.some.inj h)
    · rw [hname]
      exact fun h => hnull (Option.some.inj h)
    · obtain rfl := Option.some.inj (hkeys.symm.trans hkeys'')
      exact hkeys'

/-- **One error** comes back as it was exactly if it is plain. -/
theorem Cloneable.deserializeLayer_iff (h : Cloneable w ref) {layer : Layer Ref}
    (hlayer : Transport.readLayer w (.object ref) = some layer) :
    (∃ out, deserializeLayer w layer = some out ∧ out.view = viewOf (w ref)) ↔
      Plain (w ref) := by
  obtain ⟨stack, hread⟩ := h.readLayer
  obtain rfl := Option.some.inj (hread.symm.trans hlayer)
  have hprops : ((viewOf (w ref)).props.filter fun p => p.1 ≠ .literal "__proto__") =
      (viewOf (w ref)).props ↔ ∀ p ∈ (viewOf (w ref)).props, p.1 ≠ .literal "__proto__" := by
    simp only [List.filter_eq_self, decide_eq_true_eq]
  rw [h.plain_iff, ← messageOf_eq_iff (w := w), ← Value.orElse_string_eq_iff _ (.literal "Error"),
    ← hprops]
  simp only [deserializeLayer, Option.bind_eq_bind, Option.pure_def, Option.bind_eq_some_iff,
    Option.some.injEq, Value.orElse_orElse]
  constructor
  · rintro ⟨out, ⟨message, hmessage, rfl⟩, hview⟩
    rw [ErrorLayer.view] at hview
    injection hview with htext hname hprops
    exact ⟨⟨message, hmessage, htext⟩, hname, hprops⟩
  · rintro ⟨⟨message, hmessage, htext⟩, hname, hprops⟩
    refine ⟨_, ⟨message, hmessage, rfl⟩, ?_⟩
    rw [ErrorLayer.view, htext, hname, hprops]

/-! ### The error and its causes -/

variable (w) in
/-- The error and its causes are plain, down to a depth. -/
def PlainTo (levels : ℕ) (ref : Ref) : Prop :=
  ∀ k ≤ levels, ∀ cause, nthCause w ref k = some cause → Plain (w cause)

theorem forall_nthCause_iff {p : Ref → Prop} (levels : ℕ) (ref : Ref) :
    (∀ k ≤ levels + 1, ∀ cause, nthCause w ref k = some cause → p cause) ↔
      p ref ∧ ∀ cause, causeOf w ref = some cause →
        ∀ k ≤ levels, ∀ next, nthCause w cause k = some next → p next := by
  constructor
  · intro h
    refine ⟨h 0 (Nat.zero_le _) ref rfl, fun cause hcause k hk next hnext => ?_⟩
    refine h (k + 1) (Nat.succ_le_succ hk) next ?_
    rw [nthCause, hcause, Option.bind_some, hnext]
  · rintro ⟨href, hnext⟩ k hk cause hcause
    cases k with
    | zero =>
      obtain rfl := Option.some.inj hcause
      exact href
    | succ k =>
      obtain ⟨next, hfirst, hrest⟩ := Option.bind_eq_some_iff.mp hcause
      exact hnext next hfirst k (Nat.le_of_succ_le_succ hk) cause hrest

theorem forall_nthCause_zero_iff {p : Ref → Prop} (ref : Ref) :
    (∀ k ≤ 0, ∀ cause, nthCause w ref k = some cause → p cause) ↔ p ref := by
  constructor
  · intro h
    exact h 0 le_rfl ref rfl
  · intro h k hk cause hcause
    obtain rfl := Nat.le_zero.mp hk
    obtain rfl := Option.some.inj hcause
    exact h

/-- Without a cause left to serialize, an error is on its own. -/
theorem roundTrips_last {levels : ℕ} {layer : Layer Ref} (h : Cloneable w ref)
    (hlayer : readLayer w (.object ref) = some layer)
    (hserialize : serializeError w levels (.object ref) = some (.last layer))
    (hviews : views w levels ref = .last (viewOf (w ref))) :
    RoundTrips w levels ref ↔ Plain (w ref) := by
  rw [← h.deserializeLayer_iff hlayer]
  constructor
  · rintro ⟨s, d, hs, hd, hview⟩
    obtain rfl := Option.some.inj (hserialize.symm.trans hs)
    obtain ⟨out, hout, hd⟩ := Option.bind_eq_some_iff.mp hd
    obtain rfl := Option.some.inj hd
    rw [hviews] at hview
    exact ⟨out, hout, Chain.last.inj hview⟩
  · rintro ⟨out, hout, hview⟩
    refine ⟨.last layer, .last out, hserialize, ?_, ?_⟩
    · rw [deserializeError, hout]
      rfl
    · rw [hviews, Chain.map, hview]

theorem roundTrips_link {levels : ℕ} {layer : Layer Ref} {cause : Ref} (h : Cloneable w ref)
    (hlayer : readLayer w (.object ref) = some layer) (hcause : causeOf w ref = some cause) :
    RoundTrips w (levels + 1) ref ↔ Plain (w ref) ∧ RoundTrips w levels cause := by
  have hread := h.readCause
  rw [hcause, Option.map_some] at hread
  have hserialize := serializeError_succ levels hlayer hread
  have hviews : views w (levels + 1) ref = .link (viewOf (w ref)) (views w levels cause) := by
    rw [views, hcause]
  rw [← h.deserializeLayer_iff hlayer]
  constructor
  · rintro ⟨s, d, hs, hd, hview⟩
    rw [hserialize] at hs
    obtain ⟨inner, hinner, rfl⟩ := Option.map_eq_some_iff.mp hs
    obtain ⟨dcause, hdcause, hd⟩ := Option.bind_eq_some_iff.mp hd
    obtain ⟨out, hout, hd⟩ := Option.bind_eq_some_iff.mp hd
    obtain rfl := Option.some.inj hd
    rw [hviews] at hview
    obtain ⟨hfirst, hrest⟩ := Chain.link.inj hview
    exact ⟨⟨out, hout, hfirst⟩, inner, dcause, hinner, hdcause, hrest⟩
  · rintro ⟨⟨out, hout, hfirst⟩, inner, dcause, hinner, hdcause, hrest⟩
    refine ⟨.link layer inner, .link out dcause, ?_, ?_, ?_⟩
    · rw [hserialize, hinner]
      rfl
    · rw [deserializeError, hdcause, hout]
      rfl
    · rw [hviews, Chain.map, hfirst, hrest]

/-- **The error and its causes** come back as they were exactly if all of them are plain. -/
theorem roundTrips_iff (levels : ℕ) (ref : Ref) (h : CloneableTo w levels ref) :
    RoundTrips w levels ref ↔ PlainTo w levels ref := by
  induction levels generalizing ref with
  | zero =>
    have href := (forall_nthCause_zero_iff ref).mp h
    obtain ⟨stack, hlayer⟩ := href.readLayer
    rw [PlainTo, forall_nthCause_zero_iff (p := fun cause => Plain (w cause))]
    exact roundTrips_last href hlayer (serializeError_zero hlayer href.readCause) rfl
  | succ levels ih =>
    obtain ⟨href, hnext⟩ := (forall_nthCause_iff levels ref).mp h
    rw [PlainTo, forall_nthCause_iff (p := fun cause => Plain (w cause))]
    obtain ⟨stack, hlayer⟩ := href.readLayer
    cases hcause : causeOf w ref with
    | none =>
      have hread := href.readCause
      rw [hcause, Option.map_none] at hread
      have hviews : views w (levels + 1) ref = .last (viewOf (w ref)) := by
        rw [views, hcause]
      rw [roundTrips_last href hlayer (serializeError_of_none _ hlayer hread) hviews]
      exact ⟨fun hplain => ⟨hplain, fun cause h => by cases h⟩, fun h => h.1⟩
    | some cause =>
      rw [roundTrips_link href hlayer hcause, ih cause (hnext cause hcause)]
      constructor
      · rintro ⟨hplain, hrest⟩
        refine ⟨hplain, fun next heq => ?_⟩
        obtain rfl := Option.some.inj heq
        exact hrest
      · rintro ⟨hplain, hrest⟩
        exact ⟨hplain, hrest cause rfl⟩

/-! ### Where the chain is cut -/

theorem causes_deserializeError {s : Chain (Layer Ref)} {d : Chain (ErrorLayer Ref)}
    (h : deserializeError w s = some d) : d.causes = s.causes := by
  induction s generalizing d with
  | last layer =>
    obtain ⟨out, -, hd⟩ := Option.bind_eq_some_iff.mp h
    obtain rfl := Option.some.inj hd
    rfl
  | link layer inner ih =>
    obtain ⟨dcause, hdcause, h⟩ := Option.bind_eq_some_iff.mp h
    obtain ⟨out, -, hd⟩ := Option.bind_eq_some_iff.mp h
    obtain rfl := Option.some.inj hd
    rw [Chain.causes, Chain.causes, ih hdcause]

theorem le_causes_serializeError_iff (levels : ℕ) (ref : Ref) (h : CloneableTo w levels ref)
    {s : Chain (Layer Ref)} (hs : serializeError w levels (.object ref) = some s) (k : ℕ) :
    k ≤ s.causes ↔ k ≤ levels ∧ (nthCause w ref k).isSome := by
  induction levels generalizing ref s k with
  | zero =>
    have href := (forall_nthCause_zero_iff ref).mp h
    obtain ⟨stack, hlayer⟩ := href.readLayer
    rw [serializeError_zero hlayer href.readCause] at hs
    obtain rfl := Option.some.inj hs
    refine ⟨fun hk => ⟨hk, ?_⟩, fun h => h.1⟩
    rw [Nat.le_zero.mp hk]
    rfl
  | succ levels ih =>
    obtain ⟨href, hnext⟩ := (forall_nthCause_iff levels ref).mp h
    obtain ⟨stack, hlayer⟩ := href.readLayer
    have hread := href.readCause
    cases k with
    | zero => exact iff_of_true (Nat.zero_le _) ⟨Nat.zero_le _, rfl⟩
    | succ k =>
      rw [nthCause]
      cases hcause : causeOf w ref with
      | none =>
        rw [hcause, Option.map_none] at hread
        rw [serializeError_of_none _ hlayer hread] at hs
        obtain rfl := Option.some.inj hs
        refine iff_of_false (Nat.not_succ_le_zero k) ?_
        rintro ⟨-, hsome⟩
        cases hsome
      | some cause =>
        rw [hcause, Option.map_some] at hread
        rw [serializeError_succ _ hlayer hread] at hs
        obtain ⟨inner, hinner, rfl⟩ := Option.map_eq_some_iff.mp hs
        rw [Chain.causes, Nat.succ_le_succ_iff, Nat.succ_le_succ_iff, Option.bind_some]
        exact ih cause (hnext cause hcause) hinner k

/-- The error that comes back has as many causes as there are, and none behind the depth. -/
theorem le_causes_iff (levels : ℕ) (ref : Ref) (h : CloneableTo w levels ref)
    {s : Chain (Layer Ref)} {d : Chain (ErrorLayer Ref)}
    (hs : serializeError w levels (.object ref) = some s) (hd : deserializeError w s = some d)
    (k : ℕ) : k ≤ d.causes ↔ k ≤ levels ∧ (nthCause w ref k).isSome := by
  rw [causes_deserializeError hd]
  exact le_causes_serializeError_iff levels ref h hs k

/-- An error that can be cloned, with its causes down to the greatest depth, comes back as it was
exactly if they are plain, and with the causes down to that depth. -/
theorem roundTrip_spec {Ref : Type} (w : World Ref) (ref : Ref)
    (h : CloneableTo w maxCauseDepth ref) :
    (RoundTrips w maxCauseDepth ref ↔ PlainTo w maxCauseDepth ref) ∧
      ∀ s d, serializeError w maxCauseDepth (.object ref) = some s →
        deserializeError w s = some d →
          ∀ k, k ≤ d.causes ↔ k ≤ maxCauseDepth ∧ (nthCause w ref k).isSome :=
  ⟨roundTrips_iff maxCauseDepth ref h, fun _ _ hs hd => le_causes_iff maxCauseDepth ref h hs hd⟩

/-- An error that is its own cause. -/
private def selfCaused : World Unit := fun _ =>
  { isError := some true
    get := fun key => some (if key = .literal "cause" then .object () else .string key) }

theorem roundTrip_spec_selfCaused : RoundTrips selfCaused maxCauseDepth () := by
  have hclone : Cloneable selfCaused () :=
    { isError := rfl, isObject := rfl, message := ⟨_, rfl, rfl⟩, name := ⟨_, rfl, rfl⟩
      stack := ⟨_, rfl, rfl⟩, props := ⟨[], rfl, fun key h => by cases h⟩
      cause := .inr ⟨(), rfl⟩ }
  have hplain : Plain (selfCaused ()) :=
    { message := ⟨_, rfl⟩
      name := ⟨(by intro h; cases h), (by intro h; cases h)⟩
      props := fun keys hkeys => by
        obtain rfl := Option.some.inj hkeys
        exact List.not_mem_nil }
  exact (roundTrip_spec selfCaused () fun _ _ _ _ => hclone).1.mpr fun _ _ _ _ => hplain

/-- No error comes up twice among the causes. -/
def Acyclic {Ref : Type} (w : World Ref) (ref : Ref) : Prop :=
  ∀ m n cause, nthCause w ref m = some cause → nthCause w ref n = some cause → m = n

/-- An error whose message is `true`. -/
private def booleanMessage : World Unit := fun _ =>
  { isError := some true
    get := fun key => some (if key = .literal "cause" then .undefined else .boolean true) }

/-- A message that is no text comes back as the text that it is made. -/
theorem not_roundTrips : ¬ ∀ {Ref : Type} (w : World Ref) (ref : Ref),
    CloneableTo w maxCauseDepth ref → Acyclic w ref → RoundTrips w maxCauseDepth ref := by
  intro h
  have hclone : Cloneable booleanMessage () :=
    { isError := rfl, isObject := rfl, message := ⟨_, rfl, rfl⟩, name := ⟨_, rfl, rfl⟩
      stack := ⟨_, rfl, rfl⟩, props := ⟨[], rfl, fun key h => by cases h⟩, cause := .inl rfl }
  have hend : ∀ n cause, nthCause booleanMessage () n = some cause → n = 0 := by
    intro n cause hn
    cases n with
    | zero => rfl
    | succ n => cases hn
  have hacyclic : Acyclic booleanMessage () := fun m n cause hm hn =>
    (hend m cause hm).trans (hend n cause hn).symm
  have hround := h booleanMessage () (fun _ _ _ _ => hclone) hacyclic
  have hplain := (roundTrips_iff _ () fun _ _ _ _ => hclone).mp hround 0 (Nat.zero_le _) () rfl
  obtain ⟨s, hs⟩ := hplain.message
  cases hs

end Lopata.Transport

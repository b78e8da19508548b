import Lopata.Lib.Text
import Lopata.Lib.Traversal

/-!
# Validation of RPC Values

The arguments and results of a call are looked through for what the platform cannot serialise. The
values are a graph: objects may be shared, and may contain themselves. An object is what the
validator can ask it.

## Main results

* `validate_eq`: the validator is the depth-first traversal of the graph.
* `validateRpcValue_spec`: it ends; it reports nothing exactly if nothing disallowed can be reached,
  and each report names a way to something disallowed.
-/

namespace Lopata.Rpc

abbrev Text := List Char

/-- The classes that the validator asks for with `instanceof`. -/
inductive Builtin where
  | promise | weakMap | weakSet | sharedArrayBuffer | blob | file
  | date | regExp | error | arrayBuffer | dataView
  | readableStream | writableStream | request | response | headers
  | map | set
  deriving DecidableEq

/-- `Object.getPrototypeOf`. -/
inductive Proto where
  | objectPrototype
  | null
  | other
  deriving DecidableEq

inductive Value (Ref : Type) where
  | null
  | undefined
  | boolean
  | number
  | bigint
  | string
  | symbol
  | function
  /-- A `typeof` that is none of the others. -/
  | other (type : Text)
  | object (ref : Ref)
  deriving DecidableEq

structure Obj (Ref : Type) where
  /-- The classes it is an instance of. -/
  classes : List Builtin := []
  /-- `ArrayBuffer.isView`. -/
  isView : Bool := false
  /-- `Array.isArray`. -/
  isArray : Bool := false
  /-- What a map has, in order. -/
  entries : List (Value Ref × Value Ref) := []
  /-- What a set has, in order. -/
  members : List (Value Ref) := []
  /-- What an array has, holes included. -/
  items : List (Value Ref) := []
  proto : Proto := .objectPrototype
  /-- The own properties that one can list. -/
  properties : List (Text × Value Ref) := []
  /-- Whether the property `Symbol.for('lopata.RpcTarget')` is true. -/
  rpcTarget : Bool := false
  /-- What `Object.prototype.toString` says. -/
  typeName : Text := "Object".toList

/-- A finite graph of objects. -/
abbrev Heap (Ref : Type) := Ref → Obj Ref

variable {Ref : Type}

/-! ### The validator -/

/-- What the validator makes of an object that it has not seen. -/
inductive Verdict (Ref : Type) where
  | accepted
  | violation (message : Text)
  | container (children : List (Text × Value Ref))

/-- `[${i}]` and the like. -/
def indexed (before : String) (i : ℕ) (after : String) : Text :=
  before.toList ++ decimal i ++ after.toList

def mapChildren (entries : List (Value Ref × Value Ref)) : List (Text × Value Ref) :=
  entries.zipIdx.flatMap fun p =>
    [(indexed ".Map.key(" p.2 ")", p.1.1), (indexed ".Map.value(" p.2 ")", p.1.2)]

def setChildren (members : List (Value Ref)) : List (Text × Value Ref) :=
  members.zipIdx.map fun p => (indexed ".Set(" p.2 ")", p.1)

def arrayChildren (items : List (Value Ref)) : List (Text × Value Ref) :=
  items.zipIdx.map fun p => (indexed "[" p.2 "]", p.1)

def objectChildren (properties : List (Text × Value Ref)) : List (Text × Value Ref) :=
  properties.map fun p => ('.' :: p.1, p.2)

def customClass (typeName : Text) : Text :=
  ": Custom class instance (".toList ++ typeName ++
    ") cannot be sent over RPC. Extend RpcTarget or serialise manually.".toList

/-- The classes that are explicitly disallowed, in their order; a file is a blob. -/
def Obj.disallowed (o : Obj Ref) : Option Text :=
  if .promise ∈ o.classes then some ": Promise values cannot be sent as RPC arguments".toList
  else if .weakMap ∈ o.classes then some ": WeakMap cannot be serialised over RPC".toList
  else if .weakSet ∈ o.classes then some ": WeakSet cannot be serialised over RPC".toList
  else if .sharedArrayBuffer ∈ o.classes then
    some ": SharedArrayBuffer cannot be serialised over RPC".toList
  else if .blob ∈ o.classes ∧ .file ∉ o.classes then
    some ": Blob cannot be serialised over RPC".toList
  else if .file ∈ o.classes then some ": File cannot be serialised over RPC".toList
  else none

/-- The allowed leaf types, and the streams and web API types, in their order. -/
def Obj.isLeaf (o : Obj Ref) : Bool :=
  .date ∈ o.classes || .regExp ∈ o.classes || .error ∈ o.classes || .arrayBuffer ∈ o.classes ||
    .dataView ∈ o.classes || (o.isView && .dataView ∉ o.classes) ||
    .readableStream ∈ o.classes || .writableStream ∈ o.classes || .request ∈ o.classes ||
    .response ∈ o.classes || .headers ∈ o.classes

/-- The checks of an object, in their order. -/
def Obj.inspect (o : Obj Ref) : Verdict Ref :=
  match o.disallowed with
  | some message => .violation message
  | none =>
      if o.isLeaf then .accepted
      else if .map ∈ o.classes then .container (mapChildren o.entries)
      else if .set ∈ o.classes then .container (setChildren o.members)
      else if o.isArray then .container (arrayChildren o.items)
      else if o.proto = .objectPrototype ∨ o.proto = .null then
        .container (objectChildren o.properties)
      else if o.rpcTarget then .accepted
      else .violation (customClass o.typeName)

/-- The children of a container, one after another. -/
def validateAll (validate : Value Ref → Text → List Ref → Option (List Text × List Ref))
    (path : Text) : List (Text × Value Ref) → List Ref → Option (List Text × List Ref)
  | [], seen => some ([], seen)
  | (label, value) :: children, seen => do
      let first ← validate value (path ++ label) seen
      let rest ← validateAll validate path children first.2
      return (first.1 ++ rest.1, rest.2)

variable [DecidableEq Ref] (heap : Heap Ref)

/-- `_validate`: the errors, and the objects seen; the fuel bounds the depth of the calls. -/
def validate : ℕ → Value Ref → Text → List Ref → Option (List Text × List Ref)
  | 0, _, _, _ => none
  | fuel + 1, value, path, seen =>
      match value with
      | .null | .undefined | .boolean | .number | .bigint | .string => some ([], seen)
      | .symbol =>
          some ([path ++ ": Symbol values cannot be serialised over RPC".toList], seen)
      | .function => some ([], seen)
      | .other type =>
          some ([path ++ (": unsupported typeof \"".toList ++ type ++ "\"".toList)], seen)
      | .object ref =>
          if ref ∈ seen then some ([], seen)
          else
            match (heap ref).inspect with
            | .accepted => some ([], ref :: seen)
            | .violation message => some ([path ++ message], ref :: seen)
            | .container children =>
                validateAll (validate fuel) path children (ref :: seen)

def validateRpcValue (fuel : ℕ) (value : Value Ref) (path : Text := ['$']) : Option (List Text) :=
  (validate heap fuel value path []).map Prod.fst

/-! ### What is disallowed -/

/-- An object that cannot be serialised because of its class. -/
def Obj.Forbidden (o : Obj Ref) : Prop :=
  ∃ c ∈ o.classes, c ∈ [.promise, .weakMap, .weakSet, .sharedArrayBuffer, .blob, .file]

/-- An object that is serialised without a look at what it has. -/
def Obj.Leaf (o : Obj Ref) : Prop :=
  o.isView = true ∨ ∃ c ∈ o.classes,
    c ∈ [.date, .regExp, .error, .arrayBuffer, .dataView, .readableStream, .writableStream,
      .request, .response, .headers]

/-- A container that the validator looks into, and what it has. -/
inductive Obj.Container (o : Obj Ref) : List (Text × Value Ref) → Prop
  | map (hmap : .map ∈ o.classes) : Container o (mapChildren o.entries)
  | set (hmap : .map ∉ o.classes) (hset : .set ∈ o.classes) :
      Container o (setChildren o.members)
  | array (hmap : .map ∉ o.classes) (hset : .set ∉ o.classes) (harray : o.isArray = true) :
      Container o (arrayChildren o.items)
  | plain (hmap : .map ∉ o.classes) (hset : .set ∉ o.classes) (harray : o.isArray = false)
      (hproto : o.proto ≠ .other) : Container o (objectChildren o.properties)

/-- An instance of a class of the program that is no target. -/
structure Obj.Custom (o : Obj Ref) : Prop where
  notMap : .map ∉ o.classes
  notSet : .set ∉ o.classes
  notArray : o.isArray = false
  proto : o.proto = .other
  notTarget : o.rpcTarget = false

section Inspect

variable {o : Obj Ref}

omit [DecidableEq Ref]

theorem Obj.disallowed_eq_none_iff : o.disallowed = none ↔ ¬ o.Forbidden := by
  simp only [Obj.disallowed, Obj.Forbidden, List.mem_cons, List.not_mem_nil, or_false]
  constructor
  · intro h
    split_ifs at h with h₁ h₂ h₃ h₄ h₅ h₆
    rintro ⟨c, hc, rfl | rfl | rfl | rfl | rfl | rfl⟩
    · exact h₁ hc
    · exact h₂ hc
    · exact h₃ hc
    · exact h₄ hc
    · exact h₅ ⟨hc, h₆⟩
    · exact h₆ hc
  · intro h
    rw [if_neg fun hc => h ⟨_, hc, by simp⟩, if_neg fun hc => h ⟨_, hc, by simp⟩,
      if_neg fun hc => h ⟨_, hc, by simp⟩, if_neg fun hc => h ⟨_, hc, by simp⟩,
      if_neg fun hc => h ⟨_, hc.1, by simp⟩, if_neg fun hc => h ⟨_, hc, by simp⟩]

theorem Obj.isLeaf_iff : o.isLeaf = true ↔ o.Leaf := by
  simp only [Obj.isLeaf, Obj.Leaf, Bool.or_eq_true, Bool.and_eq_true, decide_eq_true_eq,
    List.mem_cons, List.not_mem_nil, or_false]
  constructor
  · rintro ((((((((((hc | hc) | hc) | hc) | hc) | hc) | hc) | hc) | hc) | hc) | hc)
    all_goals first | exact .inr ⟨_, hc, by simp⟩ | exact .inl hc.1
  · rintro (hview | ⟨c, hc, rfl | rfl | rfl | rfl | rfl | rfl | rfl | rfl | rfl | rfl⟩)
    · by_cases hdata : .dataView ∈ o.classes <;> simp [hview, hdata]
    all_goals simp [hc]

/-- The verdict on an object. -/
inductive Obj.Judged (o : Obj Ref) : Verdict Ref → Prop
  | forbidden (message : Text) (h : o.Forbidden) : Judged o (.violation message)
  | leaf (h : ¬ o.Forbidden) (hleaf : o.Leaf) : Judged o .accepted
  | container (h : ¬ o.Forbidden) (hleaf : ¬ o.Leaf) {children : List (Text × Value Ref)}
      (hchildren : o.Container children) : Judged o (.container children)
  | target (h : ¬ o.Forbidden) (hleaf : ¬ o.Leaf) (hcustom : ¬ o.Custom)
      (hchildren : ∀ children, ¬ o.Container children) : Judged o .accepted
  | custom (h : ¬ o.Forbidden) (hleaf : ¬ o.Leaf) (hcustom : o.Custom) :
      Judged o (.violation (customClass o.typeName))

theorem Obj.judged_inspect (o : Obj Ref) : o.Judged o.inspect := by
  rw [Obj.inspect]
  split
  · next message hmessage =>
    refine .forbidden message ?_
    by_contra hnot
    rw [Obj.disallowed_eq_none_iff.mpr hnot] at hmessage
    cases hmessage
  · next hnone =>
    have hforbidden := Obj.disallowed_eq_none_iff.mp hnone
    by_cases hleaf : o.isLeaf = true
    · rw [if_pos hleaf]
      exact .leaf hforbidden (Obj.isLeaf_iff.mp hleaf)
    · rw [if_neg hleaf]
      have hnotLeaf : ¬ o.Leaf := fun h => hleaf (Obj.isLeaf_iff.mpr h)
      split_ifs with hmap hset harray hproto htarget
      · exact .container hforbidden hnotLeaf (.map hmap)
      · exact .container hforbidden hnotLeaf (.set hmap hset)
      · exact .container hforbidden hnotLeaf (.array hmap hset harray)
      · refine .container hforbidden hnotLeaf (.plain hmap hset (Bool.eq_false_iff.mpr harray) ?_)
        rintro hother
        rw [hother] at hproto
        rcases hproto with h | h <;> cases h
      · have hother : o.proto = .other := by
          cases hp : o.proto <;> simp_all
        refine .target hforbidden hnotLeaf ?_ ?_
        · exact fun hcustom => absurd (htarget.symm.trans hcustom.notTarget) Bool.true_eq_false.mp
        · rintro children (hm | ⟨-, hs⟩ | ⟨-, -, ha⟩ | ⟨-, -, -, hp⟩)
          · exact hmap hm
          · exact hset hs
          · exact harray ha
          · exact hp hother
      · have hother : o.proto = .other := by
          cases hp : o.proto <;> simp_all
        exact .custom hforbidden hnotLeaf ⟨hmap, hset, Bool.eq_false_iff.mpr harray, hother,
          Bool.eq_false_iff.mpr htarget⟩

end Inspect

/-- A value that cannot be serialised. -/
inductive Disallowed (heap : Heap Ref) : Value Ref → Prop
  | symbol : Disallowed heap .symbol
  | other (type : Text) : Disallowed heap (.other type)
  | forbidden (ref : Ref) (h : (heap ref).Forbidden) : Disallowed heap (.object ref)
  | custom (ref : Ref) (hleaf : ¬ (heap ref).Leaf) (hcustom : (heap ref).Custom) :
      Disallowed heap (.object ref)

/-- A container has a value under a label. -/
inductive Holds (heap : Heap Ref) : Value Ref → Text → Value Ref → Prop
  | child (ref : Ref) (h : ¬ (heap ref).Forbidden) (hleaf : ¬ (heap ref).Leaf)
      {children : List (Text × Value Ref)} (hchildren : (heap ref).Container children)
      {label : Text} {value : Value Ref} (hmem : (label, value) ∈ children) :
      Holds heap (.object ref) label value

/-- Labels lead from a value through containers to another one. -/
inductive Leads (heap : Heap Ref) : Value Ref → List Text → Value Ref → Prop
  | here (value : Value Ref) : Leads heap value [] value
  | into {value child target : Value Ref} {label : Text} {labels : List Text}
      (hholds : Holds heap value label child) (hrest : Leads heap child labels target) :
      Leads heap value (label :: labels) target

/-! ### The validator is a traversal -/

/-- What is reported of a value itself. -/
def violation (heap : Heap Ref) : Value Ref → Option Text
  | .symbol => some ": Symbol values cannot be serialised over RPC".toList
  | .other type => some (": unsupported typeof \"".toList ++ type ++ "\"".toList)
  | .object ref =>
      match (heap ref).inspect with
      | .violation message => some message
      | _ => none
  | _ => none

/-- What the validator looks at behind a value. -/
def children (heap : Heap Ref) : Value Ref → List (Text × Value Ref)
  | .object ref =>
      match (heap ref).inspect with
      | .container children => children
      | _ => []
  | _ => []

def Value.ref? : Value Ref → Option Ref
  | .object ref => some ref
  | _ => none

/-- The graph as a network; what is reported is marked. -/
def network (heap : Heap Ref) : Network (Value Ref) Ref Text where
  ident := Value.ref?
  marked value := (violation heap value).isSome
  edges := children heap
  ident_injective := by
    intro v w i hv hw
    cases v <;> cases hv
    cases w <;> cases hw
    rfl
  edges_of_ident := by
    intro v hv
    cases v <;> first | rfl | cases hv

/-- The report of a value that labels lead to. -/
def report (heap : Heap Ref) (path : Text) (found : List Text × Value Ref) : Text :=
  path ++ found.1.flatten ++ (violation heap found.2).getD []

omit [DecidableEq Ref] in
theorem map_report_prepend (heap : Heap Ref) (path label : Text)
    (found : List (List Text × Value Ref)) :
    (Network.prepend label found).map (report heap path) =
      found.map (report heap (path ++ label)) := by
  rw [Network.prepend, List.map_map]
  refine List.map_congr_left fun p _ => ?_
  show path ++ (label :: p.1).flatten ++ _ = path ++ label ++ p.1.flatten ++ _
  rw [List.flatten_cons, List.append_assoc path label]

omit [DecidableEq Ref] in
theorem validateAll_eq {heap : Heap Ref}
    {validate : Value Ref → Text → List Ref → Option (List Text × List Ref)}
    {visit : Value Ref → List Ref → Option (List (List Text × Value Ref) × List Ref)}
    (h : ∀ value path seen, validate value path seen =
      (visit value seen).map fun r => (r.1.map (report heap path), r.2))
    (path : Text) (children : List (Text × Value Ref)) (seen : List Ref) :
    validateAll validate path children seen =
      (Network.collectAll visit children seen).map fun r => (r.1.map (report heap path), r.2) := by
  induction children generalizing seen with
  | nil => rfl
  | cons child children ih =>
    obtain ⟨label, value⟩ := child
    rw [validateAll, Network.collectAll, h]
    cases hvisit : visit value seen with
    | none => rfl
    | some first =>
      simp only [Option.map_some, Option.bind_eq_bind, Option.bind_some, ih]
      cases Network.collectAll visit children first.2 with
      | none => rfl
      | some rest =>
        simp only [Option.map_some, Option.bind_some, Option.pure_def, List.map_append,
          map_report_prepend]

/-- **The validator is a traversal** that reports what it collects. -/
theorem validate_eq (fuel : ℕ) (value : Value Ref) (path : Text) (seen : List Ref) :
    validate heap fuel value path seen =
      ((network heap).collect fuel value seen).map fun r =>
        (r.1.map (report heap path), r.2) := by
  induction fuel generalizing value path seen with
  | zero => rfl
  | succ fuel ih =>
    cases value with
    | null | undefined | boolean | number | bigint | string | function => rfl
    | symbol | other type =>
      show some ([path ++ _], seen) = some ([path ++ [].flatten ++ _], seen)
      rw [List.flatten_nil, List.append_nil]
      rfl
    | object ref =>
      rw [validate, Network.collect]
      by_cases hseen : ref ∈ seen
      · have hany : ((network heap).ident (.object ref)).any (· ∈ seen) = true :=
          decide_eq_true hseen
        rw [if_pos hseen, if_pos hany]
        rfl
      · have hany : ¬ ((network heap).ident (.object ref)).any (· ∈ seen) = true :=
          fun h => hseen (of_decide_eq_true h)
        rw [if_neg hseen, if_neg hany]
        have hids : ((network heap).ident (.object ref)).toList ++ seen = ref :: seen := rfl
        have hmarked : (network heap).marked (.object ref) =
          (violation heap (.object ref)).isSome := rfl
        have hedges : (network heap).edges (.object ref) = children heap (.object ref) := rfl
        simp only [hids, hmarked, hedges, violation, children]
        cases hinspect : (heap ref).inspect with
        | accepted => rfl
        | violation message =>
          simp only [Option.isSome_some, if_true, Option.map_some, List.map_cons,
            List.map_nil, report, violation, hinspect, List.flatten_nil, List.append_nil,
            Option.getD_some]
        | container children =>
          simp only [Option.isSome_none, Bool.false_eq_true, if_false]
          exact validateAll_eq ih path children (ref :: seen)

/-! ### Soundness and completeness -/

section Spec

variable {heap}

omit [DecidableEq Ref]

theorem Obj.Container.unique {o : Obj Ref} {a b : List (Text × Value Ref)} (ha : o.Container a)
    (hb : o.Container b) : a = b := by
  cases ha <;> cases hb <;> first | rfl | simp_all

theorem Obj.Container.not_custom {o : Obj Ref} {a : List (Text × Value Ref)}
    (ha : o.Container a) : ¬ o.Custom := by
  rintro ⟨hmap, hset, harray, hproto, -⟩
  cases ha with
  | map h => exact hmap h
  | set _ h => exact hset h
  | array _ _ h => exact absurd (harray.symm.trans h) Bool.false_ne_true
  | plain _ _ _ h => exact h hproto

theorem marked_iff {value : Value Ref} :
    (network heap).marked value = true ↔ Disallowed heap value := by
  show (violation heap value).isSome = true ↔ _
  cases value with
  | null | undefined | boolean | number | bigint | string | function =>
    exact iff_of_false Bool.false_ne_true fun h => by cases h
  | symbol => exact iff_of_true rfl .symbol
  | other type => exact iff_of_true rfl (.other type)
  | object ref =>
    have hjudged := (heap ref).judged_inspect
    simp only [violation]
    generalize (heap ref).inspect = verdict at hjudged
    cases hjudged with
    | forbidden message h => exact iff_of_true rfl (.forbidden ref h)
    | custom h hleaf hcustom => exact iff_of_true rfl (.custom ref hleaf hcustom)
    | leaf h hleaf =>
      refine iff_of_false Bool.false_ne_true ?_
      rintro (_ | _ | ⟨_, hforbidden⟩ | ⟨_, hnot, _⟩)
      · exact h hforbidden
      · exact hnot hleaf
    | container h hleaf hchildren =>
      refine iff_of_false Bool.false_ne_true ?_
      rintro (_ | _ | ⟨_, hforbidden⟩ | ⟨_, _, hcustom⟩)
      · exact h hforbidden
      · exact hchildren.not_custom hcustom
    | target h hleaf hcustom _ =>
      refine iff_of_false Bool.false_ne_true ?_
      rintro (_ | _ | ⟨_, hforbidden⟩ | ⟨_, _, hclass⟩)
      · exact h hforbidden
      · exact hcustom hclass

theorem mem_edges_iff {value child : Value Ref} {label : Text} :
    (label, child) ∈ (network heap).edges value ↔ Holds heap value label child := by
  show (label, child) ∈ children heap value ↔ _
  cases value with
  | null | undefined | boolean | number | bigint | string | function | symbol | other =>
    exact iff_of_false List.not_mem_nil fun h => by cases h
  | object ref =>
    have hjudged := (heap ref).judged_inspect
    simp only [children]
    generalize (heap ref).inspect = verdict at hjudged
    cases hjudged with
    | forbidden message h =>
      refine iff_of_false List.not_mem_nil ?_
      rintro ⟨_, hnot, _, _⟩
      exact hnot h
    | leaf h hleaf =>
      refine iff_of_false List.not_mem_nil ?_
      rintro ⟨_, _, hnot, _⟩
      exact hnot hleaf
    | container h hleaf hchildren =>
      constructor
      · exact fun hmem => .child ref h hleaf hchildren hmem
      · rintro ⟨_, _, _, hchildren', hmem⟩
        rwa [hchildren.unique hchildren']
    | target h hleaf hcustom hnone =>
      refine iff_of_false List.not_mem_nil ?_
      rintro ⟨_, _, _, hchildren, _⟩
      exact hnone _ hchildren
    | custom h hleaf hcustom =>
      refine iff_of_false List.not_mem_nil ?_
      rintro ⟨_, _, _, hchildren, _⟩
      exact hchildren.not_custom hcustom

/-- What is looked into is not disallowed itself. -/
theorem Holds.not_disallowed {value child : Value Ref} {label : Text}
    (h : Holds heap value label child) : ¬ Disallowed heap value := by
  obtain ⟨ref, hforbidden, hleaf, hchildren, _⟩ := h
  rintro (_ | _ | ⟨_, h⟩ | ⟨_, _, hcustom⟩)
  · exact hforbidden h
  · exact hchildren.not_custom hcustom

theorem route_iff {value target : Value Ref} {labels : List Text} :
    (network heap).Route value labels target ↔ Leads heap value labels target := by
  constructor
  · intro h
    induction h with
    | nil value => exact .here value
    | cons _ hedge _ ih => exact .into (mem_edges_iff.mp hedge) ih
  · intro h
    induction h with
    | here value => exact .nil value
    | into hholds _ ih =>
      refine .cons ?_ (mem_edges_iff.mpr hholds) ih
      exact Bool.eq_false_iff.mpr fun hmarked => hholds.not_disallowed (marked_iff.mp hmarked)

end Spec

/-- **Soundness and completeness.** The validation of a finite graph ends. It reports nothing
exactly if nothing disallowed can be reached through the containers, and the path of each report
leads to something disallowed. -/
theorem validateRpcValue_spec [Fintype Ref] (value : Value Ref) (path : Text) :
    ∃ errors : List Text,
      (∃ depth, ∀ fuel, depth ≤ fuel → validateRpcValue heap fuel value path = some errors) ∧
      (errors = [] ↔
        ∀ labels target, Leads heap value labels target → ¬ Disallowed heap target) ∧
      ∀ e ∈ errors, ∃ labels target message, Leads heap value labels target ∧
        Disallowed heap target ∧ violation heap target = some message ∧
        e = path ++ labels.flatten ++ message := by
  obtain ⟨r, hr, -⟩ := (network heap).exists_collect value
    (Nat.lt_succ_self (Network.unseen ([] : List Ref)))
  refine ⟨r.1.map (report heap path), ⟨(Network.unseen ([] : List Ref)).succ, ?_⟩, ?_, ?_⟩
  · intro fuel hfuel
    rw [validateRpcValue, validate_eq, Network.collect_mono hfuel hr]
    rfl
  · rw [List.map_eq_nil_iff, Network.collect_eq_nil_iff hr]
    refine forall₂_congr fun labels target => ?_
    rw [route_iff, ← marked_iff, Bool.not_eq_true]
  · intro e he
    obtain ⟨⟨labels, target⟩, hmem, rfl⟩ := List.mem_map.mp he
    obtain ⟨hroute, hmarked⟩ := Network.route_of_mem_collect hr hmem
    obtain ⟨message, hmessage⟩ := Option.isSome_iff_exists.mp hmarked
    refine ⟨labels, target, message, route_iff.mp hroute, marked_iff.mp hmarked, hmessage, ?_⟩
    rw [report, hmessage, Option.getD_some]

/-- A map to an array that contains itself and a promise. -/
private def cyclic : Heap (Fin 3) := fun ref =>
  if ref = 0 then { classes := [.map], entries := [(.string, .object 1)] }
  else if ref = 1 then { isArray := true, items := [.object 1, .object 2] }
  else { classes := [.promise] }

example : validateRpcValue cyclic 9 (.object 0) =
    some ["$.Map.value(0)[1]: Promise values cannot be sent as RPC arguments".toList] := by
  decide

end Lopata.Rpc

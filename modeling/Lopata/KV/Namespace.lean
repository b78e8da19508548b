import Mathlib.Data.Char
import Mathlib.Data.List.Lex
import Lopata.Lib.Double
import Lopata.Lib.Ranking
import Lopata.Lib.Table

/-!
# The KV Namespace

`SqliteKVNamespace` keeps the rows of one namespace in a table keyed by the text of the key.
A key that the program passes is a string of UTF-16 code units; bound as a parameter of a query
it becomes a text, and the text of a row becomes a string again when it is read.

`expiration` is in seconds; `now` is `clock.now() / 1000`. Each reading method decides on its own
whether a row is expired, and deletes rows that are.
-/

namespace Lopata.KV

/-- A string of the program. -/
abbrev Str := List UInt16

/-- A number of the program; none is `NaN`. -/
abbrev Number := Option Double

/-- `a < b`; `NaN` is below nothing and above nothing. -/
def Number.lt : Number → Number → Bool
  | some a, some b => decide (a.value < b.value)
  | _, _ => false

/-- Whether a number counts as true. -/
def Number.truthy (n : Number) : Bool := n ≠ none ∧ n ≠ some (.ofRat 0)

structure Limits where
  maxKeySize : ℕ := 512
  maxValueSize : ℕ := 25 * 1024 * 1024
  maxMetadataSize : ℕ := 1024
  minTtlSeconds : Double := .ofRat 60
  maxBulkGetKeys : ℕ := 100

inductive KVError where
  | keyNotAllowed (key : Str)
  | keyTooLarge (maxKeySize : ℕ)
  | valueTooLarge (maxValueSize : ℕ)
  | metadataTooLarge (maxMetadataSize : ℕ)
  | ttlTooSmall (minTtlSeconds : Double)
  | expirationTooSoon (minTtlSeconds : Double)
  | tooManyKeys (maxBulkGetKeys : ℕ)
  deriving DecidableEq

/-- A row of the table, without its key. -/
structure Row where
  value : List UInt8
  metadata : Option (List Char)
  expiration : Option Double
  deriving DecidableEq

/-! ### Checks -/

/-- The length of a string in UTF-8, as `TextEncoder` writes it. -/
def byteLength (s : Str) : ℕ := (encodeUtf8 (decodeUtf16 s)).length

def validateKey (limits : Limits) (key : Str) : Except KVError Unit :=
  if decodeUtf16 key ∈ [[], ['.'], ['.', '.']] then .error (.keyNotAllowed key)
  else if limits.maxKeySize < byteLength key then .error (.keyTooLarge limits.maxKeySize)
  else .ok ()

def validateValue (limits : Limits) (blob : List UInt8) : Except KVError Unit :=
  if limits.maxValueSize < blob.length then .error (.valueTooLarge limits.maxValueSize)
  else .ok ()

/-- The metadata is given as the text of `JSON.stringify`. -/
def validateMetadata (limits : Limits) (serialized : List Char) : Except KVError (List Char) :=
  if limits.maxMetadataSize < (encodeUtf8 serialized).length then
    .error (.metadataTooLarge limits.maxMetadataSize)
  else .ok serialized

def validateTtl (limits : Limits) (ttl : Number) : Except KVError Unit :=
  if ttl.lt (some limits.minTtlSeconds) then .error (.ttlTooSmall limits.minTtlSeconds)
  else .ok ()

/-! ### The table -/

/-- What `validateKey` lets through, as a key of the table. -/
def KeyFits (limits : Limits) (key : List Char) : Prop :=
  key ≠ [] ∧ (encodeUtf8 key).length ≤ limits.maxKeySize

/-- The rows of one namespace. -/
structure Namespace (limits : Limits) where
  rows : Table (List Char) Row
  fits : ∀ key row, (key, row) ∈ rows.rows → KeyFits limits key

variable {limits : Limits}

namespace Namespace

/-- The namespace without rows. -/
def empty (limits : Limits) : Namespace limits := ⟨.empty, fun _ _ h => by cases h⟩

/-- `DELETE` of the rows the predicate rejects. -/
def filter (ns : Namespace limits) (p : List Char → Row → Bool) : Namespace limits where
  rows := ns.rows.filter p
  fits key row h := ns.fits key row (List.mem_filter.mp h).1

/-- `INSERT OR REPLACE`. -/
def insert (ns : Namespace limits) (key : List Char) (row : Row) (h : KeyFits limits key) :
    Namespace limits where
  rows := ns.rows.insert key row
  fits k r hmem := by
    rcases List.mem_append.mp hmem with hmem | hmem
    · exact ns.fits k r (List.mem_filter.mp hmem).1
    · obtain ⟨rfl, rfl⟩ := Prod.mk.inj (List.mem_singleton.mp hmem)
      exact h

end Namespace

theorem keyFits_of_validateKey {key : Str} (h : validateKey limits key = .ok ()) :
    KeyFits limits (decodeUtf16 key) := by
  unfold validateKey at h
  split at h
  · cases h
  · next hallowed =>
      split at h
      · cases h
      · next hsize =>
          exact ⟨fun hnil => hallowed (hnil ▸ List.mem_cons_self), not_lt.mp hsize⟩

/-- `row.expiration && row.expiration < now`. -/
def Row.expired (now : Double) (row : Row) : Bool :=
  Number.truthy row.expiration && Number.lt row.expiration (some now)

/-- `expiration IS NOT NULL AND expiration < now`. -/
def Row.expiredSql (now : Double) (row : Row) : Bool :=
  row.expiration.any fun expiration => expiration.value < now.value

/-- `Buffer.toString()`. -/
def decodeText (blob : List UInt8) : List Char := utf8Decode none blob

/-- The metadata of an answer. -/
inductive Metadata where
  | null
  | undefined
  | parsed (text : List Char)
  deriving DecidableEq

/-- `JSON.parse` of what `JSON.stringify` wrote: the text stands for the value, but that of
`null` is `null`. -/
def parseMetadata (text : List Char) : Metadata :=
  if text = "null".toList then .null else .parsed text

/-- Null and undefined both mean that there is none. -/
def Metadata.toOption : Metadata → Option (List Char)
  | .null | .undefined => none
  | .parsed text => some text

/-- `row.metadata ? JSON.parse(row.metadata) : absent`. -/
def Row.metadataOr (absent : Metadata) (row : Row) : Metadata :=
  match row.metadata with
  | none | some [] => absent
  | some text => parseMetadata text

/-! ### Reads -/

def get (ns : Namespace limits) (now : Double) (key : Str) :
    Except KVError (Option (List Char)) × Namespace limits :=
  match validateKey limits key with
  | .error e => (.error e, ns)
  | .ok () =>
      match ns.rows.get? (decodeUtf16 key) with
      | none => (.ok none, ns)
      | some row =>
          if row.expired now then (.ok none, ns.filter fun k _ => k ≠ decodeUtf16 key)
          else (.ok (some (decodeText row.value)), ns)

/-- The value and the metadata of an answer. -/
abbrev Answer := Option (List Char) × Metadata

def getWithMetadata (ns : Namespace limits) (now : Double) (key : Str) :
    Except KVError Answer × Namespace limits :=
  match validateKey limits key with
  | .error e => (.error e, ns)
  | .ok () =>
      match ns.rows.get? (decodeUtf16 key) with
      | none => (.ok (none, .null), ns)
      | some row =>
          if row.expired now then (.ok (none, .null), ns.filter fun k _ => k ≠ decodeUtf16 key)
          else (.ok (some (decodeText row.value), row.metadataOr .null), ns)

/-- The rows of the keys that are not expired, by the strings of their keys. -/
def rowMap (ns : Namespace limits) (now : Double) (keys : List Str) : List (Str × Row) :=
  (ns.rows.rows.filter fun p => decide (p.1 ∈ keys.map decodeUtf16) && !p.2.expired now).map
    fun p => (encodeUtf16 p.1, p.2)

/-- `rowMap.get(key)`. -/
def lookup {α : Type*} (map : List (Str × α)) (key : Str) : Option α :=
  (map.find? fun p => p.1 = key).map Prod.snd

/-- The loop that deletes the expired rows it meets. -/
def dropExpired (ns : Namespace limits) (now : Double) (keys : List Str) : Namespace limits :=
  ns.filter fun key row => !(decide (key ∈ keys.map decodeUtf16) && row.expired now)

/-- The checks of a bulk read. -/
def validateKeys (limits : Limits) (keys : List Str) : Except KVError Unit :=
  if limits.maxBulkGetKeys < keys.length then .error (.tooManyKeys limits.maxBulkGetKeys)
  else keys.forM (validateKey limits)

/-- The answers are a map in the order of the keys; a key that occurs twice is set twice to the
same. -/
def bulkGet (ns : Namespace limits) (now : Double) (keys : List Str) :
    Except KVError (List (Str × Option (List Char))) × Namespace limits :=
  match validateKeys limits keys with
  | .error e => (.error e, ns)
  | .ok () =>
      (.ok (keys.eraseDups.map fun key =>
        (key, (lookup (rowMap ns now keys) key).map fun row => decodeText row.value)),
        dropExpired ns now keys)

def bulkGetWithMetadata (ns : Namespace limits) (now : Double) (keys : List Str) :
    Except KVError (List (Str × Answer)) × Namespace limits :=
  match validateKeys limits keys with
  | .error e => (.error e, ns)
  | .ok () =>
      (.ok (keys.eraseDups.map fun key =>
        (key, match lookup (rowMap ns now keys) key with
          | some row => (some (decodeText row.value), row.metadataOr .null)
          | none => (none, .null))),
        dropExpired ns now keys)

/-! ### Writes -/

/-- The options of `put`; the metadata is the text of `JSON.stringify`. -/
structure PutOptions where
  metadata : Option (List Char) := none
  expirationTtl : Option Number := none
  expiration : Option Number := none

/-- The expiration that is stored; SQLite stores `NaN` as `NULL`. -/
def PutOptions.stored (options : PutOptions) (now : Double) : Option Double :=
  if options.expiration.any Number.truthy then options.expiration.join
  else if options.expirationTtl.any Number.truthy then
    options.expirationTtl.join.bind fun ttl => now.add ttl
  else none

/-- The checks of `put` on the options; the metadata that is stored. -/
def validateOptions (limits : Limits) (now : Double) (options : PutOptions) :
    Except KVError (Option (List Char)) := do
  if let some ttl := options.expirationTtl then validateTtl limits ttl
  if let some expiration := options.expiration then
    if expiration.lt (now.add limits.minTtlSeconds) then
      throw (.expirationTooSoon limits.minTtlSeconds)
  options.metadata.mapM (validateMetadata limits)

/-- The value is given as the bytes of `encodeValue`. -/
def put (ns : Namespace limits) (now : Double) (key : Str) (blob : List UInt8)
    (options : PutOptions) : Except KVError Unit × Namespace limits :=
  match hkey : validateKey limits key with
  | .error e => (.error e, ns)
  | .ok () =>
      match (validateValue limits blob).bind fun _ => validateOptions limits now options with
      | .error e => (.error e, ns)
      | .ok metadata =>
          (.ok (), ns.insert (decodeUtf16 key) ⟨blob, metadata, options.stored now⟩
            (keyFits_of_validateKey hkey))

def delete (ns : Namespace limits) (key : Str) : Namespace limits :=
  ns.filter fun k _ => k ≠ decodeUtf16 key

/-! ### Listing -/

structure ListOptions where
  keyPrefix : Str := []
  limit : Option ℤ := none
  cursor : Str := []

/-- The end of the range of a prefix: its last code unit plus one. -/
def prefixEnd (keyPrefix : Str) : Str :=
  keyPrefix.dropLast ++ (keyPrefix.getLast?.map (· + 1)).toList

/-- `key >= prefix AND key < prefixEnd`. -/
def InRange (keyPrefix : Str) (key : List Char) : Prop :=
  keyPrefix = [] ∨ decodeUtf16 keyPrefix ≤ key ∧ key < decodeUtf16 (prefixEnd keyPrefix)

/-- `key > cursor`. -/
def After (cursor : Str) (key : List Char) : Prop :=
  cursor = [] ∨ decodeUtf16 cursor < key

instance (keyPrefix : Str) (key : List Char) : Decidable (InRange keyPrefix key) :=
  inferInstanceAs (Decidable (_ ∨ _))

instance (cursor : Str) (key : List Char) : Decidable (After cursor key) :=
  inferInstanceAs (Decidable (_ ∨ _))

/-- An entry of a page. -/
structure ListKey where
  name : Str
  expiration : Option Double
  metadata : Metadata
  deriving DecidableEq

structure Page where
  keys : List ListKey
  listComplete : Bool
  cursor : Str

/-- `rows.slice(0, n)`. -/
def slice {α : Type*} (n : ℤ) (l : List α) : List α :=
  l.take (if n < 0 then l.length - n.natAbs else n.toNat)

def ListKey.ofRow (p : List Char × Row) : ListKey :=
  ⟨encodeUtf16 p.1, p.2.expiration, p.2.metadataOr .undefined⟩

/-- The rows that `list` may show. -/
def Namespace.selected (ns : Namespace limits) (keyPrefix cursor : Str) :
    List (List Char × Row) :=
  ns.rows.rows.filter fun p => decide (InRange keyPrefix p.1) && decide (After cursor p.1)

/-- The lazy deletion of `list`. -/
def purge (ns : Namespace limits) (now : Double) : Namespace limits :=
  ns.filter fun _ row => !row.expiredSql now

def ListOptions.effectiveLimit (options : ListOptions) : ℤ := min (options.limit.getD 1000) 1000

def list (ns : Namespace limits) (now : Double) (options : ListOptions) :
    Page × Namespace limits :=
  let limit := options.effectiveLimit
  let kept := purge ns now
  let rows := firstBy Prod.fst (limit + 1) (kept.selected options.keyPrefix options.cursor)
  let resultRows := slice limit rows
  let listComplete := decide ((rows.length : ℤ) ≤ limit)
  ({ keys := resultRows.map ListKey.ofRow
     listComplete
     cursor := if listComplete then []
       else (resultRows.getLast?.map fun p => encodeUtf16 p.1).getD [] }, kept)

end Lopata.KV

import Mathlib.Algebra.Order.Ring.Int
import Mathlib.Data.Char
import Mathlib.Data.List.Lex
import Mathlib.Data.List.Sort
import Mathlib.Data.Prod.Lex
import Lopata.Lib.Table
import Lopata.Lib.Text

/-!
# The Trace Store

The store keeps the spans of the traces and the errors of the workers in two tables, and lists
both of them, and the traces, page by page, the newest first. A page is cut off by a cursor: the
time and the id of the last entry in front of it.

The events of the spans, which no page lists, and the listeners are left out.

## Main results

* `parseCursor_buildCursor`: a cursor is parsed to what it was built from.
-/

namespace Lopata.Tracing

abbrev Text := List Char

/-- `Number.MAX_SAFE_INTEGER`. -/
def maxSafeInteger : ℤ := 2 ^ 53 - 1

/-- An integer that a number holds exactly: milliseconds. -/
abbrev Timestamp := { t : ℤ // |t| ≤ maxSafeInteger }

inductive Status where
  | ok
  | error
  | unset
  deriving DecidableEq

/-- A row of `spans`, without its `span_id`. -/
structure Span where
  traceId : Text
  parentSpanId : Option Text := none
  name : Text := []
  kind : Text := "internal".toList
  status : Status := .unset
  statusMessage : Option Text := none
  startTime : Timestamp
  endTime : Option Timestamp := none
  durationMs : Option ℤ := none
  attributes : Text := "\x7b\x7d".toList
  workerName : Option Text := none

/-- A row of `errors`, without its `id`. -/
structure ErrorRow where
  timestamp : Timestamp
  errorName : Text := []
  errorMessage : Text := []
  requestMethod : Option Text := none
  requestUrl : Option Text := none
  workerName : Option Text := none
  traceId : Option Text := none
  spanId : Option Text := none
  source : Option Text := none
  data : Text := []

structure Store where
  spans : Table Text Span := .empty
  errors : Table Text ErrorRow := .empty
  rootSpanCount : ℕ := 0
  /-- When the spans began that have not ended. -/
  startTimeCache : Table Text Timestamp := .empty

/-- What the database does with JSON texts. -/
structure JsonFunctions where
  /-- `json_extract(attributes, '$."lopata.generation_id"')`. -/
  generationId : Text → Option ℤ
  /-- `json_patch`. -/
  patch : Text → Text → Text

/-! ### Writing -/

def traceCap : ℕ := 10000

def pruneBatch : ℕ := 100

/-- The traces of the root spans that began first. -/
def oldestTraces (spans : Table Text Span) : List Text :=
  (((spans.rows.filter fun p => p.2.parentSpanId = none).insertionSort
    fun p q => p.2.startTime.1 ≤ q.2.startTime.1).take pruneBatch).map fun p => p.2.traceId

def enforceTraceCap (store : Store) : Store :=
  if store.rootSpanCount ≤ traceCap then store
  else
    let oldest := oldestTraces store.spans
    { store with
      spans := store.spans.filter fun _ span => !oldest.contains span.traceId
      rootSpanCount := store.rootSpanCount - oldest.length }

/-- A span under an id that is taken is not inserted. -/
def insertSpan (store : Store) (spanId : Text) (span : Span) : Store :=
  let store := { store with startTimeCache := store.startTimeCache.insert spanId span.startTime }
  if (store.spans.get? spanId).isSome then store
  else
    let store := { store with spans := store.spans.insert spanId span }
    if span.parentSpanId = none then
      enforceTraceCap { store with rootSpanCount := store.rootSpanCount + 1 }
    else store

def endSpan (store : Store) (spanId : Text) (endTime : Timestamp) (status : Status)
    (statusMessage : Option Text) : Store :=
  match store.startTimeCache.get? spanId with
  | none => store
  | some startTime =>
      { store with
        spans := store.spans.modify spanId fun span => { span with
          endTime := some endTime
          durationMs := some (endTime - startTime)
          status
          statusMessage }
        startTimeCache := store.startTimeCache.erase spanId }

def setSpanStatus (store : Store) (spanId : Text) (status : Status)
    (statusMessage : Option Text) : Store :=
  { store with
    spans := store.spans.modify spanId fun span => { span with status, statusMessage } }

def updateAttributes (json : JsonFunctions) (store : Store) (spanId attrs : Text) : Store :=
  { store with
    spans := store.spans.modify spanId fun span => { span with
      attributes := json.patch span.attributes attrs } }

def errorCap : ℕ := 1000

/-- The errors that happened first. -/
def oldestErrors (errors : Table Text ErrorRow) : List Text :=
  ((errors.rows.insertionSort fun p q => p.2.timestamp.1 ≤ q.2.timestamp.1).take 50).map Prod.fst

def enforceErrorCap (store : Store) : Store :=
  if store.errors.rows.length ≤ errorCap then store
  else { store with errors := store.errors.filter fun id _ => !(oldestErrors store.errors).contains id }

def insertError (store : Store) (id : Text) (row : ErrorRow) : Store :=
  if (store.errors.get? id).isSome then store
  else enforceErrorCap { store with errors := store.errors.insert id row }

def deleteError (store : Store) (id : Text) : Store :=
  { store with errors := store.errors.erase id }

def clearErrors (store : Store) : Store := { store with errors := .empty }

def clearTraces (store : Store) : Store :=
  { store with spans := .empty, rootSpanCount := 0, startTimeCache := .empty }

/-! ### Cursors -/

def buildCursor (time : ℤ) (id : Text) : Text := decimal time ++ ':' :: id

/-- `'\uffff'`. -/
def highestId : Text := [Char.ofNat 0xFFFF]

/-- The time and the id of a cursor; a time is none if it is `NaN`. -/
def parseCursor (cursor : Option Text) : Option ℤ × Text :=
  match cursor with
  | none | some [] => (some maxSafeInteger, highestId)
  | some cursor =>
      if ':' ∈ cursor then
        (parseDecimal (cursor.takeWhile (· ≠ ':')), (cursor.dropWhile (· ≠ ':')).tail)
      else (parseDecimal cursor, highestId)

theorem colon_notMem_decimal (i : ℤ) : ':' ∉ decimal i := by
  have hdigits : ∀ n : ℕ, ':' ∉ Nat.toDigits 10 n := by
    intro n hmem
    have hdigit := (toDigits_spec n).1 ':' hmem
    cases hdigit
  cases i with
  | ofNat n => exact hdigits n
  | negSucc n =>
    intro hmem
    rcases List.mem_cons.mp hmem with heq | hmem
    · cases heq
    · exact hdigits (n + 1) hmem

/-- A cursor is parsed to what it was built from, whatever the id has in it. -/
theorem parseCursor_buildCursor (time : ℤ) (id : Text) :
    parseCursor (some (buildCursor time id)) = (some time, id) := by
  have hcolon : ∀ c ∈ decimal time, decide (c ≠ ':') = true := by
    intro c hc
    refine decide_eq_true ?_
    rintro rfl
    exact colon_notMem_decimal time hc
  have hmem : ':' ∈ buildCursor time id :=
    List.mem_append_right _ List.mem_cons_self
  obtain ⟨c, rest, hcons⟩ := List.exists_cons_of_ne_nil (List.ne_nil_of_mem hmem)
  have htake : (buildCursor time id).takeWhile (· ≠ ':') = decimal time := by
    rw [buildCursor, List.takeWhile_append_of_pos hcolon, List.takeWhile_cons_of_neg (by simp),
      List.append_nil]
  have hdrop : (buildCursor time id).dropWhile (· ≠ ':') = ':' :: id := by
    rw [buildCursor, List.dropWhile_append_of_pos hcolon, List.dropWhile_cons_of_neg (by simp)]
  rw [hcons] at htake hdrop hmem ⊢
  rw [parseCursor, if_pos hmem, htake, hdrop, parseDecimal_decimal_int, List.tail_cons]
  exact List.cons_ne_nil c rest

/-! ### Listing -/

structure Options where
  limit : Option ℕ := none
  cursor : Option Text := none

structure Page (ι : Type) where
  items : List ι
  cursor : Option Text

/-- A query of the store: the rows that it chooses from, their times and ids, how the chosen ones
are grouped, and what it makes of a row. -/
structure Query (ρ ι : Type) where
  rows : Store → List ρ
  time : ρ → Timestamp
  id : ρ → Text
  group : List ρ → List ρ
  item : Store → ρ → ι

namespace Query

variable {ρ ι : Type} (q : Query ρ ι)

/-- The time and the id, by which the rows are ordered. -/
def key (row : ρ) : ℤ ×ₗ Text := toLex ((q.time row : ℤ), q.id row)

/-- `time < ? OR (time = ? AND id < ?)`. -/
def precedes (cursor : Option ℤ × Text) (row : ρ) : Bool :=
  cursor.1.any fun time =>
    decide ((q.time row : ℤ) < time ∨ (q.time row : ℤ) = time ∧ q.id row < cursor.2)

/-- The rows of the statement: `WHERE`, `GROUP BY`, `ORDER BY time DESC, id DESC`, `LIMIT`. -/
def select (store : Store) (cursor : Option ℤ × Text) (limit : ℕ) : List ρ :=
  ((q.group ((q.rows store).filter (q.precedes cursor))).insertionSort
    fun a b => q.key b ≤ q.key a).take limit

/-- One page: a row beyond the limit tells that there are more. -/
def list (store : Store) (opts : Options) : Page ι :=
  let limit := opts.limit.getD 50
  let rows := q.select store (parseCursor opts.cursor) (limit + 1)
  let hasMore := decide (limit < rows.length)
  let items := if hasMore then rows.take limit else rows
  { items := items.map (q.item store)
    cursor := match items.getLast? with
      | some last => if hasMore then some (buildCursor (q.time last) (q.id last)) else none
      | none => none }

end Query

structure TraceSummary where
  traceId : Text
  rootSpanName : Text
  workerName : Option Text
  status : Status
  /-- The first 80 code units of the message. -/
  statusMessage : Option (List UInt16)
  startTime : Timestamp
  durationMs : Option ℤ
  spanCount : ℕ
  errorCount : ℕ
  generationId : Option ℤ

/-- The root spans, one of each trace, with the spans of their traces counted. -/
def traces (json : JsonFunctions) : Query (Text × Span) TraceSummary where
  rows store := store.spans.rows.filter fun p => p.2.parentSpanId = none
  time p := p.2.startTime
  id p := p.2.traceId
  group := List.pwFilter fun p q => p.2.traceId ≠ q.2.traceId
  item store p :=
    { traceId := p.2.traceId
      rootSpanName := p.2.name
      workerName := p.2.workerName
      status := p.2.status
      statusMessage := (p.2.statusMessage.filter (· ≠ [])).map fun message =>
        (encodeUtf16 message).take 80
      startTime := p.2.startTime
      durationMs := p.2.durationMs
      spanCount := store.spans.count fun c => c.traceId = p.2.traceId
      errorCount := store.spans.count fun c => c.traceId = p.2.traceId && c.status = .error
      generationId := json.generationId p.2.attributes }

def listTraces (json : JsonFunctions) : Store → Options → Page TraceSummary := (traces json).list

structure SpanItem where
  spanId : Text
  traceId : Text
  name : Text
  status : Status
  durationMs : Option ℤ
  startTime : Timestamp
  workerName : Option Text

def allSpans : Query (Text × Span) SpanItem where
  rows store := store.spans.rows
  time p := p.2.startTime
  id p := p.1
  group := id
  item _ p :=
    { spanId := p.1
      traceId := p.2.traceId
      name := p.2.name
      status := p.2.status
      durationMs := p.2.durationMs
      startTime := p.2.startTime
      workerName := p.2.workerName }

def listAllSpans : Store → Options → Page SpanItem := allSpans.list

structure ErrorItem where
  id : Text
  timestamp : Timestamp
  errorName : Text
  errorMessage : Text
  requestMethod : Option Text
  requestUrl : Option Text
  workerName : Option Text
  traceId : Option Text
  spanId : Option Text
  source : Option Text

def allErrors : Query (Text × ErrorRow) ErrorItem where
  rows store := store.errors.rows
  time p := p.2.timestamp
  id p := p.1
  group := id
  item _ p :=
    { id := p.1
      timestamp := p.2.timestamp
      errorName := p.2.errorName
      errorMessage := p.2.errorMessage
      requestMethod := p.2.requestMethod
      requestUrl := p.2.requestUrl
      workerName := p.2.workerName
      traceId := p.2.traceId
      spanId := p.2.spanId
      source := p.2.source }

def listErrors : Store → Options → Page ErrorItem := allErrors.list

end Lopata.Tracing

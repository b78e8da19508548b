import Lopata.Lib.Machine
import Lopata.Lib.Text

/-!
# SQL of Durable Objects

`SqlStorage.exec` prepares a statement and guesses from its text whether it returns rows: only
then it asks for them. How many rows the statement has changed it reads from `changes()`, which
tells what the last `INSERT`, `UPDATE` or `DELETE` of the connection has changed, whatever was
executed since.

SQLite is a parameter: what a statement does to a database, which rows it returns, and what it
sets `changes()` to. A row is a record by column names.

## Main results

* `SqlStorageCursor.next_advance`: a cursor hands out its rows in order.
* `SqlRun.lawful_along_iff`: all along a run the cursors yield the rows of their statements and
  report the rows these have changed exactly when no text is misjudged.
* `SqlRun.not_lawful`: `VALUES` and a query behind a comment yield no rows, `CREATE TABLE` reports
  the rows of the statement before, and a deletion behind `WITH` reports none.
-/

namespace Lopata.DurableObject

/-! ### What is read from the text -/

/-- `toUpperCase` of a character, as far as it is in ASCII or its upper case has letters there. -/
def upper (c : Char) : List Char :=
  match c.toNat with
  | 0xDF => ['S', 'S']
  | 0x131 => ['I']
  | 0x149 => [Char.ofNat 0x2BC, 'N']
  | 0x17F => ['S']
  | 0x1F0 => ['J', Char.ofNat 0x30C]
  | 0x1E96 => ['H', Char.ofNat 0x331]
  | 0x1E97 => ['T', Char.ofNat 0x308]
  | 0x1E98 => ['W', Char.ofNat 0x30A]
  | 0x1E99 => ['Y', Char.ofNat 0x30A]
  | 0x1E9A => ['A', Char.ofNat 0x2BE]
  | 0xFB00 => ['F', 'F']
  | 0xFB01 => ['F', 'I']
  | 0xFB02 => ['F', 'L']
  | 0xFB03 => ['F', 'F', 'I']
  | 0xFB04 => ['F', 'F', 'L']
  | 0xFB05 => ['S', 'T']
  | 0xFB06 => ['S', 'T']
  | _ => [c.toUpper]

/-- `query.trim().toUpperCase()`. -/
def trimmed (query : List Char) : List Char := (trim query).flatMap upper

/-- A character of `\w`. -/
def isWord (c : Char) : Bool := c.isAlphanum || c = '_'

/-- The text has a word between two word boundaries; `after` tells whether a character of a word
stands before the text. -/
def hasWord (word : List Char) (after : Bool) : List Char → Bool
  | [] => false
  | c :: cs =>
      (!after && word.isPrefixOf (c :: cs) && !((c :: cs).drop word.length).head?.any isWord) ||
        hasWord word (isWord c) cs

/-- `yieldsRows`. -/
def yieldsRows (query : List Char) : Bool :=
  "SELECT".toList.isPrefixOf (trimmed query) || "WITH".toList.isPrefixOf (trimmed query) ||
    "PRAGMA".toList.isPrefixOf (trimmed query)

/-- `hasReturning`: `/\bRETURNING\b/`. -/
def hasReturning (query : List Char) : Bool := hasWord "RETURNING".toList false (trimmed query)

/-- `isPlainRead`. -/
def isPlainRead (query : List Char) : Bool :=
  "SELECT".toList.isPrefixOf (trimmed query) || "PRAGMA".toList.isPrefixOf (trimmed query)

/-! ### Cursors -/

/-- `SqlStorageCursor`. -/
structure SqlStorageCursor (V : Type*) where
  rows : List (String → V)
  rawRows : List (List V)
  columnNames : List String
  rowsRead : ℕ
  rowsWritten : ℕ
  index : ℕ := 0

namespace SqlStorageCursor

variable {V : Type*}

/-- `next`: a row, or none when it is done. -/
def next (c : SqlStorageCursor V) : Option (String → V) × SqlStorageCursor V :=
  if c.index < c.rows.length then (c.rows[c.index]?, { c with index := c.index + 1 })
  else (none, c)

/-- The cursor after some calls of `next`. -/
def advance (c : SqlStorageCursor V) : ℕ → SqlStorageCursor V
  | 0 => c
  | n + 1 => (c.advance n).next.2

theorem rows_advance (c : SqlStorageCursor V) (n : ℕ) : (c.advance n).rows = c.rows := by
  induction n with
  | zero => rfl
  | succ n ih =>
    rw [← ih]
    simp only [advance, next]
    split <;> rfl

theorem index_advance (c : SqlStorageCursor V) (h : c.index = 0) (n : ℕ) :
    (c.advance n).index = min n c.rows.length := by
  induction n with
  | zero => simpa [advance] using h
  | succ n ih =>
    have hrows := c.rows_advance n
    simp only [advance, next]
    split
    · next hlt =>
        rw [hrows, ih] at hlt
        show (c.advance n).index + 1 = _
        rw [ih]
        omega
    · next hge =>
        rw [hrows, ih] at hge
        rw [ih]
        omega

/-- **A cursor hands out its rows**, in order, and then is done. -/
theorem next_advance (c : SqlStorageCursor V) (h : c.index = 0) (n : ℕ) :
    (c.advance n).next.1 = c.rows[n]? := by
  have hindex := c.index_advance h n
  have hrows := c.rows_advance n
  simp only [next, hindex, hrows]
  split
  · next hlt =>
      obtain hle : n ≤ c.rows.length := by omega
      rw [Nat.min_eq_left hle]
  · next hge =>
      have hover : c.rows.length ≤ n := by omega
      exact (List.getElem?_eq_none hover).symm

end SqlStorageCursor

/-! ### Statements -/

/-- What a statement does. -/
structure Effect (σ V : Type*) where
  /-- The database after the statement. -/
  db : σ
  /-- How many rows it has changed, if it is an `INSERT`, `UPDATE` or `DELETE`: `changes()` is set
  to that. Other statements leave `changes()`. -/
  changed : Option ℕ
  /-- The names of its columns and the rows it returns, if SQLite accepts it and it succeeds. -/
  result : Option (List String × List (String → V))

/-- What SQLite does with a statement and its bindings. -/
abbrev Sqlite (σ B V : Type*) := σ → List Char → List B → Effect σ V

/-- The connection of an object to its database. -/
structure SqlStorage (σ : Type*) where
  db : σ
  /-- `changes()`. -/
  changes : ℕ

variable {σ B V : Type*}

/-- `SqlStorage.exec`: the connection after it, and the cursor unless it throws. -/
def SqlStorage.exec (sqlite : Sqlite σ B V) (s : SqlStorage σ) (query : List Char)
    (bindings : List B) : SqlStorage σ × Option (SqlStorageCursor V) :=
  let effect := sqlite s.db query bindings
  let s : SqlStorage σ := ⟨effect.db, effect.changed.getD s.changes⟩
  (s, effect.result.map fun (columnNames, rows) =>
    if yieldsRows query || hasReturning query then
      -- stmt.all
      { rows
        rawRows := rows.map fun row => columnNames.map row
        columnNames
        rowsRead := rows.length
        rowsWritten := if hasReturning query && !isPlainRead query then s.changes else 0 }
    else
      -- stmt.run
      { rows := [], rawRows := [], columnNames := [], rowsRead := 0, rowsWritten := s.changes })

/-- The rows of a statement. -/
def Effect.rows (effect : Effect σ V) : List (String → V) :=
  match effect.result with
  | some (_, rows) => rows
  | none => []

/-- The cursor yields all rows of the statement, and reports how many rows it has changed. -/
def SqlStorageCursor.Reports (c : SqlStorageCursor V) (effect : Effect σ V) : Prop :=
  (∀ n, (c.advance n).next.1 = effect.rows[n]?) ∧ c.rowsWritten = effect.changed.getD 0

/-- A connection, with what its last `INSERT`, `UPDATE` or `DELETE` has changed. -/
structure SqlRun (σ : Type*) where
  storage : SqlStorage σ
  last : Option ℕ

namespace SqlRun

/-- A new connection. -/
def start (db : σ) : SqlRun σ := ⟨⟨db, 0⟩, none⟩

/-- One call of `exec`. -/
def step (sqlite : Sqlite σ B V) (s : SqlRun σ) (call : List Char × List B) : Option (SqlRun σ) :=
  some ⟨(s.storage.exec sqlite call.1 call.2).1,
    (sqlite s.storage.db call.1 call.2).changed.or s.last⟩

/-- The cursor of the call, if it returns one, is as it should be. -/
def Lawful (sqlite : Sqlite σ B V) (s : SqlRun σ) (call : List Char × List B) : Prop :=
  ∀ c ∈ (s.storage.exec sqlite call.1 call.2).2,
    c.Reports (sqlite s.storage.db call.1 call.2)

/-- The rows of the statement are asked for, or there are none. -/
def asked (effect : Effect σ V) (query : List Char) : Bool :=
  yieldsRows query || hasReturning query || effect.rows.isEmpty

/-- If `changes()` is read, the statement has set it or it is zero; if it is not read, the statement
has changed no row. -/
def counted (effect : Effect σ V) (last : Option ℕ) (query : List Char) : Bool :=
  if yieldsRows query && !(hasReturning query && !isPlainRead query) then effect.changed.getD 0 = 0
  else effect.changed.isSome || last.getD 0 = 0

/-- The text of the statement is not misjudged. -/
def judged (sqlite : Sqlite σ B V) (s : SqlRun σ) (call : List Char × List B) : Prop :=
  let effect := sqlite s.storage.db call.1 call.2
  effect.result.isSome = true →
    asked effect call.1 = true ∧ counted effect s.last call.1 = true

instance (sqlite : Sqlite σ B V) (s : SqlRun σ) (call : List Char × List B) :
    Decidable (judged sqlite s call) :=
  inferInstanceAs (Decidable (_ → _))

variable {sqlite : Sqlite σ B V} {s s' : SqlRun σ} {call : List Char × List B}

/-- `changes()` tells what the last writing statement has changed. -/
def Counts (s : SqlRun σ) : Prop := s.storage.changes = s.last.getD 0

theorem Counts.step (h : s.Counts) (hstep : step sqlite s call = some s') : s'.Counts := by
  obtain rfl := Option.some.inj hstep
  simp only [Counts, SqlStorage.exec]
  cases (sqlite s.storage.db call.1 call.2).changed with
  | none => exact h
  | some n => rfl

/-- A plain read is one of the statements whose rows are asked for. -/
theorem yieldsRows_of_isPlainRead {query : List Char} (h : isPlainRead query = true) :
    yieldsRows query = true := by
  rcases Bool.or_eq_true_iff.mp h with hselect | hpragma
  · rw [yieldsRows, hselect]
    rfl
  · rw [yieldsRows, hpragma, Bool.or_true]

/-- The rows of the cursor are those of the statement exactly when they are asked for, or there
are none. -/
theorem rows_iff (effect : Effect σ V) (query : List Char) (c : SqlStorageCursor V)
    (hindex : c.index = 0)
    (hrows : c.rows = if yieldsRows query || hasReturning query then effect.rows else []) :
    (∀ n, (c.advance n).next.1 = effect.rows[n]?) ↔ asked effect query = true := by
  have hall : (∀ n, (c.advance n).next.1 = effect.rows[n]?) ↔ c.rows = effect.rows := by
    constructor
    · intro hnext
      refine List.ext_getElem? fun n => ?_
      rw [← hnext n, c.next_advance hindex]
    · intro heq n
      rw [c.next_advance hindex, heq]
  rw [hall, hrows, asked]
  cases yieldsRows query || hasReturning query with
  | true => simp
  | false =>
    show [] = effect.rows ↔ (false || effect.rows.isEmpty) = true
    rw [Bool.false_or, List.isEmpty_iff]
    exact eq_comm

/-- What `changes()` says is what the statement has changed exactly when the statement has set it,
or it is zero. -/
theorem changes_iff (effect : Effect σ V) {changes : ℕ} {last : Option ℕ}
    (h : changes = last.getD 0) : effect.changed.getD changes = effect.changed.getD 0 ↔
      (effect.changed.isSome || last.getD 0 = 0) = true := by
  subst h
  cases effect.changed with
  | none => simp
  | some n => simp

/-- The count of the cursor is that of the statement exactly when the text is not misjudged. -/
theorem rowsWritten_iff (effect : Effect σ V) (query : List Char) {changes : ℕ} {last : Option ℕ}
    (h : changes = last.getD 0) :
    (if yieldsRows query || hasReturning query then
      if hasReturning query && !isPlainRead query then effect.changed.getD changes else 0
    else effect.changed.getD changes) = effect.changed.getD 0 ↔
      counted effect last query = true := by
  have hread := changes_iff effect h
  have hplain := @yieldsRows_of_isPlainRead query
  rw [counted]
  cases hyields : yieldsRows query with
  | false =>
    have hno : isPlainRead query = false := by
      rw [← Bool.not_eq_true]
      intro hyes
      cases hyields.symm.trans (hplain hyes)
    cases hasReturning query with
    | false => exact hread
    | true =>
      rw [hno]
      exact hread
  | true =>
    cases hasReturning query && !isPlainRead query with
    | true => exact hread
    | false =>
      show 0 = effect.changed.getD 0 ↔ decide (effect.changed.getD 0 = 0) = true
      rw [decide_eq_true_iff]
      exact eq_comm

/-- **One call.** Its cursor is as it should be exactly when its text is not misjudged. -/
theorem Counts.lawful_iff (h : s.Counts) : Lawful sqlite s call ↔ judged sqlite s call := by
  obtain ⟨query, bindings⟩ := call
  simp only [Lawful, judged, SqlStorage.exec]
  generalize heffect : sqlite s.storage.db query bindings = effect
  cases hresult : effect.result with
  | none => simp
  | some result =>
    obtain ⟨columnNames, rows⟩ := result
    have hrowsOf : effect.rows = rows := by rw [Effect.rows, hresult]
    simp only [Option.map_some, Option.mem_def, Option.some.injEq, forall_eq', Option.isSome_some,
      true_imp_iff, SqlStorageCursor.Reports]
    refine and_congr ?_ ?_
    · refine rows_iff effect query _ ?_ ?_
      · split <;> rfl
      · rw [hrowsOf]
        split <;> rfl
    · rw [← rowsWritten_iff effect query h]
      split <;> rfl

theorem counts_start (db : σ) : (start db).Counts := rfl

/-- **The law of `exec`.** In every sequence of calls, on every database: all cursors yield the
rows of their statements and report the rows these have changed exactly when no text is
misjudged. -/
theorem lawful_along_iff (sqlite : Sqlite σ B V) (db : σ) (calls : List (List Char × List B)) :
    Along (step sqlite) (Lawful sqlite) (start db) calls ↔
      Along (step sqlite) (judged sqlite) (start db) calls :=
  along_iff_along (counts_start db) (fun _ _ _ h _ hstep => h.step hstep)
    fun _ _ _ h _ => h.lawful_iff

/-- SQLite on some statements about a table `t (a)` of numbers; others it refuses here. -/
def tableT (db : List ℕ) (query : List Char) (_ : List ℕ) : Effect (List ℕ) ℕ :=
  if query = "INSERT INTO t VALUES (1)".toList then ⟨db ++ [1], some 1, some ([], [])⟩
  else if query = "SELECT a FROM t".toList ∨ query = "-- all\nSELECT a FROM t".toList then
    ⟨db, none, some (["a"], db.map fun a _ => a)⟩
  else if query = "VALUES (1)".toList then ⟨db, none, some (["column1"], [fun _ => 1])⟩
  else if query = "CREATE TABLE u (b)".toList then ⟨db, none, some ([], [])⟩
  else if query = "WITH o AS (VALUES (1)) DELETE FROM t WHERE a IN o".toList then
    ⟨db.filter (· ≠ 1), some (db.count 1), some ([], [])⟩
  else ⟨db, none, none⟩

/-- The law holds when these statements are executed one after the other on an empty table. -/
def LawfulOn (queries : List String) : Prop :=
  Along (step tableT) (Lawful tableT) (start []) (queries.map fun query => (query.toList, []))

theorem not_lawfulOn {queries : List String} (h : ¬ Along (step tableT) (judged tableT) (start [])
    (queries.map fun query => (query.toList, []))) : ¬ LawfulOn queries := by
  intro hlawful
  refine h ?_
  exact hlawful.of_invariant (counts_start ([] : List ℕ)) (fun _ _ _ hs _ hstep => hs.step hstep)
    fun _ _ _ hs hok _ => hs.lawful_iff.mp hok

/-- The rows of `VALUES` and of a query behind a comment are not asked for, `CREATE TABLE` is said
to have changed the row of the insertion before, and a deletion behind `WITH` none. -/
theorem not_lawful : ¬ LawfulOn ["VALUES (1)"] ∧
    ¬ LawfulOn ["INSERT INTO t VALUES (1)", "-- all\nSELECT a FROM t"] ∧
    ¬ LawfulOn ["INSERT INTO t VALUES (1)", "CREATE TABLE u (b)"] ∧
    ¬ LawfulOn ["INSERT INTO t VALUES (1)",
      "WITH o AS (VALUES (1)) DELETE FROM t WHERE a IN o"] := by
  refine ⟨not_lawfulOn ?_, not_lawfulOn ?_, not_lawfulOn ?_, not_lawfulOn ?_⟩
  all_goals decide +kernel

end SqlRun

end Lopata.DurableObject

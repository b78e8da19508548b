import Mathlib.Logic.Relation
import Lopata.Lib.Text

/-!
# Calls on a D1 Connection

What each method of a D1 binding does with its connection once it has the lock. The database is a
parameter: what a statement does to the content of the database and to the counters of the
connection, and when `BEGIN` and `COMMIT` fail. Statements are not transaction control: only
`batch` begins and ends transactions, though a statement can fail in such a way that SQLite rolls
back the open one.

## Main results

* `batch_atomic`: a batch that fails leaves the content as it was.
* `perform_grows`: what a call makes of the content, it makes by statements of its own.
-/

namespace Lopata.D1

variable {C S V R : Type*}

/-! ### The database -/

/-- `LocalD1PreparedStatement`, with the values it was bound to. -/
structure Statement (V : Type*) where
  sql : List Char
  params : List V := []

/-- How a statement is executed. -/
inductive Method
  | run
  | get
  | all
  | values

/-- What becomes of a statement. -/
inductive Executed (C S R : Type*)
  | done (content : C) (session : S) (rows : List R)
  /-- It fails; what it has changed is undone, or kept with `OR FAIL`. -/
  | failed (content : C) (session : S) (message : String)
  /-- It fails, and the open transaction is rolled back. -/
  | rolledBack (session : S) (message : String)

/-- The behaviour of `bun:sqlite`. -/
structure Sqlite (C S V R : Type*) where
  execute : Method → Statement V → (inTransaction : Bool) → C → S → Executed C S R
  columnNames : Statement V → C → List String
  beginError : C → S → Option String
  /-- The message, and whether the transaction is rolled back. -/
  commitError : C → S → Option (String × Bool)
  /-- `changes()` and `last_insert_rowid()`. -/
  changes : S → ℕ
  lastInsertRowid : S → ℤ
  pageCount : C → ℕ
  pageSize : C → ℕ
  /-- `column in row`, and `row[column]`, which can be `NULL`. -/
  column : R → String → Option (Option V)

/-- A connection. -/
structure Conn (C S : Type*) where
  content : C
  session : S
  /-- What a rollback of the open transaction restores. -/
  saved : Option C := none

/-! ### Statements of a text -/

/-- The characters of a quoted text after its first quote, and what comes after it. -/
def quoted (q : Char) : List Char → List Char × List Char
  | [] => ([], [])
  | [c] => ([c], [])
  | c :: c' :: sql =>
      if c = q then
        if c' = q then (c :: c' :: (quoted q sql).1, (quoted q sql).2) else ([c], c' :: sql)
      else (c :: (quoted q (c' :: sql)).1, (quoted q (c' :: sql)).2)

/-- What comes after a block comment; without an end it stops before the last character. -/
def afterBlock : List Char → List Char
  | [] => []
  | [c] => [c]
  | c :: c' :: sql => if c = '*' ∧ c' = '/' then sql else afterBlock (c' :: sql)

theorem quoted_length (q : Char) (sql : List Char) : (quoted q sql).2.length ≤ sql.length := by
  induction sql using quoted.induct q with
  | case1 => exact Nat.le_refl _
  | case2 c => exact Nat.zero_le _
  | case3 sql ih =>
    rw [quoted, if_pos rfl, if_pos rfl]
    simp only [List.length_cons]
    omega
  | case4 c' sql hc' =>
    rw [quoted, if_pos rfl, if_neg hc']
    simp
  | case5 c c' sql hc ih =>
    rw [quoted, if_neg hc]
    simp only [List.length_cons] at ih ⊢
    omega

theorem afterBlock_length (sql : List Char) : (afterBlock sql).length ≤ sql.length := by
  induction sql using afterBlock.induct with
  | case1 => exact Nat.le_refl _
  | case2 c => exact Nat.le_refl _
  | case3 c c' sql hend =>
    rw [afterBlock, if_pos hend]
    simp only [List.length_cons]
    omega
  | case4 c c' sql hend ih =>
    rw [afterBlock, if_neg hend]
    simp only [List.length_cons] at ih ⊢
    omega

/-- A statement is kept if it is not blank. -/
def pushStatement (statements : List (List Char)) (current : List Char) : List (List Char) :=
  if trim current = [] then statements else statements ++ [trim current]

/-- The loop of `splitStatements`. -/
def splitFrom (statements : List (List Char)) (current : List Char) :
    List Char → List (List Char)
  | [] => pushStatement statements current
  | ch :: sql =>
      if ch = '\'' ∨ ch = '"' then
        splitFrom statements (current ++ ch :: (quoted ch sql).1) (quoted ch sql).2
      else if ch = '-' ∧ sql.head? = some '-' then
        splitFrom statements (current ++ [' ']) ((sql.tail.dropWhile (· ≠ '\n')).drop 1)
      else if ch = '/' ∧ sql.head? = some '*' then
        splitFrom statements (current ++ [' ']) (afterBlock sql.tail)
      else if ch = ';' then splitFrom (pushStatement statements current) [] sql
      else splitFrom statements (current ++ [ch]) sql
termination_by sql => sql.length
decreasing_by
  · exact Nat.lt_succ_of_le (quoted_length ch sql)
  · have hdrop := (List.dropWhile_suffix (p := fun c => decide (c ≠ '\n')) (l := sql.tail)).length_le
    simp only [List.length_drop, List.length_cons, List.length_tail] at hdrop ⊢
    omega
  · have hblock := afterBlock_length sql.tail
    simp only [List.length_cons, List.length_tail] at hblock ⊢
    omega
  · exact Nat.lt_succ_self _
  · exact Nat.lt_succ_self _

def splitStatements (sql : List Char) : List (List Char) := splitFrom [] [] sql

/-- Letters in upper case, for ASCII: a statement that was executed starts with one. -/
def isReadStatement (sql : List Char) : Bool :=
  let upper := (sql.dropWhile isSpace).map Char.toUpper
  "SELECT".toList <+: upper || "WITH".toList <+: upper || "PRAGMA".toList <+: upper

/-! ### The methods -/

/-- `D1Meta`, without the duration. -/
structure Meta where
  changes : ℕ
  lastRowId : ℤ
  rowsRead : ℕ
  rowsWritten : ℕ
  sizeAfter : ℕ
  changedDb : Bool

structure D1Result (R : Type*) where
  results : List R
  metadata : Meta

/-- What a method resolves with. -/
inductive Result (V R : Type*)
  | row (row : Option R)
  | value (value : Option V)
  | d1 (result : D1Result R)
  | raw (columns : Option (List String)) (rows : List R)
  | exec (count : ℕ)
  | batch (results : List (D1Result R))

namespace Conn

variable (db : Sqlite C S V R) (c : Conn C S)

/-- What the database file holds: the content before the open transaction. -/
def durable : C := c.saved.getD c.content

def execute (method : Method) (stmt : Statement V) : Except String (List R) × Conn C S :=
  match db.execute method stmt c.saved.isSome c.content c.session with
  | .done content session rows => (.ok rows, { c with content := content, session := session })
  | .failed content session message =>
      (.error message, { c with content := content, session := session })
  | .rolledBack session message => (.error message, { content := c.durable, session := session })

def begin : Except String Unit × Conn C S :=
  if c.saved.isSome then (.error "cannot start a transaction within a transaction", c)
  else match db.beginError c.content c.session with
    | some message => (.error message, c)
    | none => (.ok (), { c with saved := some c.content })

/-- `ROLLBACK`; it fails if SQLite has rolled back already, and nobody minds. -/
def rollback : Conn C S := { c with content := c.durable, saved := none }

def commit : Except String Unit × Conn C S :=
  if c.saved.isSome then
    match db.commitError c.content c.session with
    | some (message, rolledBack) => (.error message, if rolledBack then c.rollback else c)
    | none => (.ok (), { c with saved := none })
  else (.error "cannot commit - no transaction is active", c)

def buildMeta (rowsRead rowsWritten : ℕ) : Meta where
  changes := db.changes c.session
  lastRowId := db.lastInsertRowid c.session
  rowsRead := rowsRead
  rowsWritten := rowsWritten
  sizeAfter := db.pageCount c.content * db.pageSize c.content
  changedDb := decide (0 < db.changes c.session)

def firstUnlocked (stmt : Statement V) (column : Option String) :
    Except String (Result V R) × Conn C S :=
  match c.execute db .get stmt with
  | (.error e, c') => (.error e, c')
  | (.ok [], c') => (.ok (.row none), c')
  | (.ok (row :: _), c') =>
      match column.filter (· ≠ "") with
      | none => (.ok (.row (some row)), c')
      | some column =>
          match db.column row column with
          | none =>
              (.error ("D1_ERROR: Column '" ++ column ++ "' does not exist in the result set."), c')
          | some value => (.ok (.value value), c')

def runUnlocked (stmt : Statement V) : Except String (D1Result R) × Conn C S :=
  match c.execute db .run stmt with
  | (.error e, c') => (.error e, c')
  | (.ok _, c') =>
      (.ok { results := [], metadata := c'.buildMeta db 0 (db.changes c'.session) }, c')

def allUnlocked (stmt : Statement V) : Except String (D1Result R) × Conn C S :=
  match c.execute db .all stmt with
  | (.error e, c') => (.error e, c')
  | (.ok rows, c') =>
      let isRead := isReadStatement stmt.sql
      (.ok {
        results := rows
        metadata := c'.buildMeta db (if isRead then rows.length else 0)
          (if isRead then 0 else db.changes c'.session) }, c')

def rawUnlocked (stmt : Statement V) (columnNames : Bool) :
    Except String (Result V R) × Conn C S :=
  match c.execute db .values stmt with
  | (.error e, c') => (.error e, c')
  | (.ok rows, c') =>
      (.ok (.raw (if columnNames then some (db.columnNames stmt c.content) else none) rows), c')

/-- The loop of `exec`. -/
def execFrom : List (List Char) → ℕ → Conn C S → Except String ℕ × Conn C S
  | [], count, c => (.ok count, c)
  | stmt :: statements, count, c =>
      match c.execute db .run { sql := stmt } with
      | (.error msg, c') =>
          (.error ("D1_EXEC_ERROR: Error in SQL statement [" ++ String.ofList stmt ++ "]: " ++ msg),
            c')
      | (.ok _, c') => execFrom statements (count + 1) c'

/-- The loop of a batch. -/
def members : List (Statement V) → List (D1Result R) → Conn C S →
    Except String (List (D1Result R)) × Conn C S
  | [], results, c => (.ok results, c)
  | stmt :: statements, results, c =>
      match c.allUnlocked db stmt with
      | (.error e, c') => (.error e, c')
      | (.ok result, c') => members statements (results ++ [result]) c'

/-- The end of a batch: `COMMIT`, or `ROLLBACK`. -/
def finishBatch (outcome : Except String (List (D1Result R))) :
    Except String (Result V R) × Conn C S :=
  match outcome with
  | .error e => (.error e, c.rollback)
  | .ok results =>
      match c.commit db with
      | (.error e, c') => (.error e, c'.rollback)
      | (.ok _, c') => (.ok (.batch results), c')

/-- `runBatchSerially`, with the lock. -/
def runBatch (statements : List (Statement V)) : Except String (Result V R) × Conn C S :=
  match c.begin db with
  | (.error e, c') => (.error e, c')
  | (.ok _, c') => (members db statements [] c').2.finishBatch db (members db statements [] c').1

end Conn

/-- A call of a method. -/
inductive Call (V : Type*)
  | first (stmt : Statement V) (column : Option String)
  | run (stmt : Statement V)
  | all (stmt : Statement V)
  | raw (stmt : Statement V) (columnNames : Bool)
  | exec (sql : List Char)
  | batch (statements : List (Statement V))

/-- How a call settles. -/
abbrev Outcome (V R : Type*) := Except String (Result V R)

/-- A call by itself. -/
def perform (db : Sqlite C S V R) (c : Conn C S) : Call V → Outcome V R × Conn C S
  | .first stmt column => c.firstUnlocked db stmt column
  | .run stmt => ((c.runUnlocked db stmt).1.map .d1, (c.runUnlocked db stmt).2)
  | .all stmt => ((c.allUnlocked db stmt).1.map .d1, (c.allUnlocked db stmt).2)
  | .raw stmt columnNames => c.rawUnlocked db stmt columnNames
  | .exec sql =>
      ((Conn.execFrom db (splitStatements sql) 0 c).1.map .exec,
        (Conn.execFrom db (splitStatements sql) 0 c).2)
  | .batch statements => c.runBatch db statements

/-- The calls one after another. -/
def sequential (db : Sqlite C S V R) : Conn C S → List (Call V) → List (Outcome V R) × Conn C S
  | c, [] => ([], c)
  | c, call :: calls =>
      ((perform db c call).1 :: (sequential db (perform db c call).2 calls).1,
        (sequential db (perform db c call).2 calls).2)

/-! ### What the calls do -/

section

variable {db : Sqlite C S V R} {c c' : Conn C S}

/-- One statement makes one content of another. -/
def Writes (db : Sqlite C S V R) (x y : C) : Prop :=
  ∃ method stmt inTransaction session session',
    (∃ rows, db.execute method stmt inTransaction x session = .done y session' rows) ∨
      ∃ message, db.execute method stmt inTransaction x session = .failed y session' message

/-- Statements do. -/
def Grows (db : Sqlite C S V R) : C → C → Prop := Relation.ReflTransGen (Writes db)

variable (db) in
/-- **A statement** writes, or it fails and the open transaction is gone. -/
theorem execute_cases (method : Method) (stmt : Statement V) :
    (Writes db c.content (c.execute db method stmt).2.content ∧
        (c.execute db method stmt).2.saved = c.saved) ∨
      ((∃ e, (c.execute db method stmt).1 = .error e) ∧
        (c.execute db method stmt).2.content = c.durable ∧
          (c.execute db method stmt).2.saved = none) := by
  unfold Conn.execute
  cases hexecute : db.execute method stmt c.saved.isSome c.content c.session with
  | done content session rows =>
    exact .inl ⟨⟨method, stmt, _, _, session, .inl ⟨rows, hexecute⟩⟩, rfl⟩
  | failed content session message =>
    exact .inl ⟨⟨method, stmt, _, _, session, .inr ⟨message, hexecute⟩⟩, rfl⟩
  | rolledBack session message => exact .inr ⟨⟨message, rfl⟩, rfl, rfl⟩

variable (db) in
/-- A statement outside a transaction. -/
theorem execute_alone (h : c.saved = none) (method : Method) (stmt : Statement V) :
    (c.execute db method stmt).2.saved = none ∧
      Grows db c.content (c.execute db method stmt).2.content := by
  rcases execute_cases db (c := c) method stmt with ⟨hwrites, hsaved⟩ | ⟨-, hcontent, hsaved⟩
  · exact ⟨hsaved.trans h, .single hwrites⟩
  · rw [hcontent, Conn.durable, h]
    exact ⟨hsaved, .refl⟩

theorem firstUnlocked_conn (stmt : Statement V) (column : Option String) :
    (c.firstUnlocked db stmt column).2 = (c.execute db .get stmt).2 := by
  unfold Conn.firstUnlocked
  rcases c.execute db .get stmt with ⟨_ | _ | ⟨row, rows⟩, c'⟩
  · rfl
  · rfl
  · dsimp only
    split
    · rfl
    · split <;> rfl

theorem runUnlocked_conn (stmt : Statement V) :
    (c.runUnlocked db stmt).2 = (c.execute db .run stmt).2 := by
  unfold Conn.runUnlocked
  rcases c.execute db .run stmt with ⟨_ | _, c'⟩ <;> rfl

variable (db) in
theorem allUnlocked_conn (stmt : Statement V) :
    (c.allUnlocked db stmt).2 = (c.execute db .all stmt).2 := by
  unfold Conn.allUnlocked
  rcases c.execute db .all stmt with ⟨_ | _, c'⟩ <;> rfl

theorem allUnlocked_error (stmt : Statement V) {e : String}
    (h : (c.execute db .all stmt).1 = .error e) : (c.allUnlocked db stmt).1 = .error e := by
  unfold Conn.allUnlocked
  rcases hexecute : c.execute db .all stmt with ⟨_ | _, c'⟩ <;> rw [hexecute] at h <;> cases h
  rfl

theorem rawUnlocked_conn (stmt : Statement V) (columnNames : Bool) :
    (c.rawUnlocked db stmt columnNames).2 = (c.execute db .values stmt).2 := by
  unfold Conn.rawUnlocked
  rcases c.execute db .values stmt with ⟨_ | _, c'⟩ <;> rfl

theorem execFrom_alone (statements : List (List Char)) (count : ℕ) (h : c.saved = none) :
    (Conn.execFrom db statements count c).2.saved = none ∧
      Grows db c.content (Conn.execFrom db statements count c).2.content := by
  induction statements generalizing c count with
  | nil => exact ⟨h, .refl⟩
  | cons stmt statements ih =>
    obtain ⟨hsaved, hgrows⟩ := execute_alone db h .run { sql := stmt }
    rw [Conn.execFrom]
    rcases hexecute : c.execute db .run { sql := stmt } with ⟨_ | _, c'⟩ <;>
      rw [hexecute] at hsaved hgrows
    · exact ⟨hsaved, hgrows⟩
    · obtain ⟨hsaved', hgrows'⟩ := ih (count + 1) hsaved
      exact ⟨hsaved', hgrows.trans hgrows'⟩

variable (db) in
/-- The members of a batch run in its transaction; one that fails may have ended it. -/
theorem members_cases (statements : List (Statement V)) (results : List (D1Result R))
    (h : c.saved.isSome) :
    (Conn.members db statements results c).2.durable = c.durable ∧
      ((∃ results', (Conn.members db statements results c).1 = .ok results') →
        (Conn.members db statements results c).2.saved = c.saved ∧
          Grows db c.content (Conn.members db statements results c).2.content) := by
  induction statements generalizing c results with
  | nil => exact ⟨rfl, fun _ => ⟨rfl, .refl⟩⟩
  | cons stmt statements ih =>
    have hconn := allUnlocked_conn db (c := c) stmt
    rw [Conn.members]
    rcases execute_cases db (c := c) .all stmt with
      ⟨hwrites, hsaved⟩ | ⟨⟨e, herror⟩, hcontent, hsaved⟩
    · rcases hall : c.allUnlocked db stmt with ⟨_ | result, c'⟩ <;> rw [hall] at hconn <;>
        rw [← hconn] at hwrites hsaved
      · refine ⟨?_, fun ⟨_, hfalse⟩ => (by cases hfalse)⟩
        obtain ⟨content, hsome⟩ := Option.isSome_iff_exists.mp h
        have hsaved : c'.saved = c.saved := hsaved
        show c'.durable = c.durable
        rw [Conn.durable, Conn.durable, hsaved, hsome]
        rfl
      · have hsaved : c'.saved = c.saved := hsaved
        obtain ⟨hdurable, hok⟩ := ih (results ++ [result]) (c := c') (hsaved ▸ h)
        constructor
        · refine hdurable.trans ?_
          obtain ⟨content, hsome⟩ := Option.isSome_iff_exists.mp h
          rw [Conn.durable, Conn.durable, hsaved, hsome]
          rfl
        · intro hresults
          obtain ⟨hsaved', hgrows⟩ := hok hresults
          exact ⟨hsaved'.trans hsaved, .head hwrites hgrows⟩
    · have hfails := allUnlocked_error stmt herror
      rcases hall : c.allUnlocked db stmt with ⟨_ | result, c'⟩ <;> rw [hall] at hconn hfails <;>
        cases hfails
      rw [← hconn] at hcontent hsaved
      refine ⟨?_, fun ⟨_, hfalse⟩ => (by cases hfalse)⟩
      have hsaved : c'.saved = none := hsaved
      show c'.durable = c.durable
      rw [Conn.durable, hsaved]
      exact hcontent

variable (db) in
/-- The transaction is over: rolled back with an error, or committed. -/
theorem finishBatch_cases (outcome : Except String (List (D1Result R))) :
    (c.finishBatch db outcome).2.saved = none ∧
      (((∃ e, (c.finishBatch db outcome).1 = .error e) ∧
          (c.finishBatch db outcome).2.content = c.durable) ∨
        ∃ results, outcome = .ok results ∧
          (c.finishBatch db outcome).1 = .ok (.batch results) ∧
            (c.finishBatch db outcome).2.content = c.content) := by
  cases outcome with
  | error e => exact ⟨rfl, .inl ⟨⟨e, rfl⟩, rfl⟩⟩
  | ok results =>
    unfold Conn.finishBatch Conn.commit
    dsimp only
    by_cases hopen : c.saved.isSome = true
    · rw [if_pos hopen]
      cases hcommit : db.commitError c.content c.session with
      | none => exact ⟨rfl, .inr ⟨results, rfl, rfl, rfl⟩⟩
      | some error =>
        obtain ⟨message, rolledBack⟩ := error
        refine ⟨rfl, .inl ⟨⟨message, rfl⟩, ?_⟩⟩
        cases rolledBack <;> rfl
    · rw [if_neg hopen]
      exact ⟨rfl, .inl ⟨⟨_, rfl⟩, rfl⟩⟩

/-- A batch is all or nothing: it fails and the content is as before, or all its statements have
been executed in one transaction and this is committed. -/
def Atomic (db : Sqlite C S V R) (c : Conn C S) (statements : List (Statement V)) : Prop :=
  ((∃ e, (perform db c (.batch statements)).1 = .error e) ∧
      (perform db c (.batch statements)).2.content = c.content) ∨
    ∃ results, (perform db c (.batch statements)).1 = .ok (.batch results) ∧
      (Conn.members db statements [] { c with saved := some c.content }).1 = .ok results ∧
        (perform db c (.batch statements)).2.content =
          (Conn.members db statements [] { c with saved := some c.content }).2.content

variable (db) in
/-- A batch begins, or fails at once. -/
theorem runBatch_cases (h : c.saved = none) (statements : List (Statement V)) :
    (∃ e, c.begin db = (.error e, c) ∧ c.runBatch db statements = (.error e, c)) ∨
      (c.begin db = (.ok (), { c with saved := some c.content }) ∧
        c.runBatch db statements =
          (Conn.members db statements [] { c with saved := some c.content }).2.finishBatch db
            (Conn.members db statements [] { c with saved := some c.content }).1) := by
  have hclosed : ¬ c.saved.isSome = true := by simp [h]
  unfold Conn.runBatch Conn.begin
  rw [if_neg hclosed]
  cases db.beginError c.content c.session with
  | some message => exact .inl ⟨message, rfl, rfl⟩
  | none => exact .inr ⟨rfl, rfl⟩

/-- **A batch is atomic.** -/
theorem batch_atomic (h : c.saved = none) (statements : List (Statement V)) :
    Atomic db c statements := by
  rcases runBatch_cases db h statements with ⟨e, -, hrun⟩ | ⟨-, hrun⟩
  · refine .inl ?_
    rw [perform, hrun]
    exact ⟨⟨e, rfl⟩, rfl⟩
  · obtain ⟨hdurable, -⟩ := members_cases db (c := { c with saved := some c.content })
      statements [] rfl
    unfold Atomic
    rw [perform, hrun]
    generalize Conn.members db statements [] { c with saved := some c.content } = m at hdurable ⊢
    rcases (finishBatch_cases db (c := m.2) m.1).2 with ⟨herror, hcontent⟩ | hok
    · exact .inl ⟨herror, hcontent.trans hdurable⟩
    · obtain ⟨results, hresults, hbatch, hcontent⟩ := hok
      exact .inr ⟨results, hbatch, hresults, hcontent⟩

variable (db) in
/-- **A call** leaves no transaction open, and changes the content by its statements only. -/
theorem perform_grows (h : c.saved = none) (call : Call V) :
    (perform db c call).2.saved = none ∧ Grows db c.content (perform db c call).2.content := by
  cases call with
  | first stmt column =>
    rw [perform, firstUnlocked_conn]
    exact execute_alone db h .get stmt
  | run stmt =>
    rw [perform, runUnlocked_conn]
    exact execute_alone db h .run stmt
  | all stmt =>
    rw [perform, allUnlocked_conn]
    exact execute_alone db h .all stmt
  | raw stmt columnNames =>
    rw [perform, rawUnlocked_conn]
    exact execute_alone db h .values stmt
  | exec sql => exact execFrom_alone (splitStatements sql) 0 h
  | batch statements =>
    rw [perform]
    rcases runBatch_cases db h statements with ⟨e, -, hrun⟩ | ⟨-, hrun⟩
    · rw [hrun]
      exact ⟨h, .refl⟩
    · obtain ⟨hdurable, hgrows⟩ := members_cases db
        (c := { c with saved := some c.content }) statements [] rfl
      rw [hrun]
      generalize Conn.members db statements [] { c with saved := some c.content } = m
        at hdurable hgrows ⊢
      obtain ⟨hsaved, hcases⟩ := finishBatch_cases db (c := m.2) m.1
      refine ⟨hsaved, ?_⟩
      rcases hcases with ⟨-, hcontent⟩ | ⟨results, hresults, -, hcontent⟩
      · rw [hcontent, hdurable]
        exact .refl
      · rw [hcontent]
        exact (hgrows ⟨results, hresults⟩).2

theorem sequential_grows (h : c.saved = none) (calls : List (Call V)) :
    (sequential db c calls).2.saved = none ∧
      Grows db c.content (sequential db c calls).2.content := by
  induction calls generalizing c with
  | nil => exact ⟨h, .refl⟩
  | cons call calls ih =>
    obtain ⟨hsaved, hgrows⟩ := perform_grows db h call
    obtain ⟨hsaved', hgrows'⟩ := ih hsaved
    exact ⟨hsaved', hgrows.trans hgrows'⟩

theorem sequential_append (calls calls' : List (Call V)) :
    sequential db c (calls ++ calls') =
      ((sequential db c calls).1 ++ (sequential db (sequential db c calls).2 calls').1,
        (sequential db (sequential db c calls).2 calls').2) := by
  induction calls generalizing c with
  | nil => rfl
  | cons call calls ih =>
    rw [List.cons_append, sequential, ih]
    rfl

end

end Lopata.D1

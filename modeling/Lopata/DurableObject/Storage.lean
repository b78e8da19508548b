import Lopata.Lib.Table
import Mathlib.Data.Int.Notation

/-!
# The Storage of Durable Objects

All `SqliteDurableObjectStorage` objects of one connection share the tables `do_storage` and
`do_alarms`; the rows of an object carry its namespace and its id. A write is the synchronous
body of one storage method: the statements it runs on the connection and what its promise is
settled with.

Values are stored as JSON text. A value whose `JSON.stringify` throws or yields no text, and
a time that is not a number, are refused by the statement and are `none` here.

## Main results

* `Write.contents_run`: what a write does to the contents of the tables, whatever the order of
  their rows.
* `Write.reply_run`: its answer depends on the contents only.
-/

namespace Lopata.DurableObject

/-- The object a row belongs to: the columns `namespace` and `id`. -/
structure Obj where
  /-- The column `namespace`. -/
  doNamespace : String
  /-- The column `id`. -/
  id : String
  deriving DecidableEq, Repr

/-- The tables. -/
structure Db where
  /-- `do_storage`, by object and key. -/
  storage : Table (Obj × String) String
  /-- `do_alarms`, by object. -/
  alarms : Table Obj ℤ

namespace Db

/-- The tables without rows. -/
def empty : Db := ⟨.empty, .empty⟩

/-- `INSERT OR REPLACE INTO do_storage`. -/
def put (db : Db) (o : Obj) (key value : String) : Db :=
  { db with storage := db.storage.insert (o, key) value }

/-- The loop of `put(entries)` inside its savepoint; a refused value ends it. -/
def putEach (o : Obj) : List (String × Option String) → Db → Option Db
  | [], db => some db
  | (key, some value) :: entries, db => putEach o entries (db.put o key value)
  | (_, none) :: _, _ => none

/-- `DELETE FROM do_storage ... AND key = ?`. -/
def delete (db : Db) (o : Obj) (key : String) : Db :=
  { db with storage := db.storage.erase (o, key) }

/-- `DELETE FROM do_storage ... AND key IN (...)`. -/
def deleteKeys (db : Db) (o : Obj) (keys : List String) : Db :=
  { db with storage := db.storage.filter fun k _ => !(k.1 = o && k.2 ∈ keys) }

/-- `DELETE FROM do_storage WHERE namespace = ? AND id = ?`. -/
def deleteAll (db : Db) (o : Obj) : Db :=
  { db with storage := db.storage.filter fun k _ => k.1 ≠ o }

/-- `INSERT OR REPLACE INTO do_alarms`. -/
def setAlarm (db : Db) (o : Obj) (time : ℤ) : Db :=
  { db with alarms := db.alarms.insert o time }

/-- `DELETE FROM do_alarms`. -/
def deleteAlarm (db : Db) (o : Obj) : Db :=
  { db with alarms := db.alarms.erase o }

/-- A row of the object under the key exists. -/
def hasKey (db : Db) (o : Obj) (key : String) : Bool :=
  (db.storage.get? (o, key)).isSome

end Db

/-- What the promise of a write is settled with. -/
inductive Reply
  /-- Resolved without a value. -/
  | done
  /-- `delete(key)`: whether the key existed. -/
  | existed (b : Bool)
  /-- `delete(keys)`: how many of the keys existed. -/
  | deleted (n : ℕ)
  /-- Rejected. -/
  | failed
  deriving DecidableEq, Repr

/-- A writing call of a storage method. -/
inductive Write
  /-- `put(key, value)`, of the asynchronous and of the synchronous interface. -/
  | put (key : String) (value : Option String)
  /-- `put(entries)`. -/
  | putEntries (entries : List (String × Option String))
  /-- `delete(key)`, of the asynchronous and of the synchronous interface. -/
  | delete (key : String)
  /-- `delete(keys)`. -/
  | deleteKeys (keys : List String)
  /-- `deleteAll()`. -/
  | deleteAll
  /-- `setAlarm(scheduledTime)`. -/
  | setAlarm (time : Option ℤ)
  /-- `deleteAlarm()`. -/
  | deleteAlarm
  deriving DecidableEq, Repr

namespace Write

/-- The body of the method: the tables it leaves and its answer. -/
def run (o : Obj) (db : Db) : Write → Db × Reply
  | .put key (some value) => (db.put o key value, .done)
  | .put _ none => (db, .failed)
  | .putEntries entries =>
      match db.putEach o entries with
      | some db' => (db', .done)
      -- ROLLBACK TO put_batch
      | none => (db, .failed)
  | .delete key => (db.delete o key, .existed (db.hasKey o key))
  | .deleteKeys [] => (db, .deleted 0)
  | .deleteKeys keys => (db.deleteKeys o keys, .deleted (keys.dedup.countP (db.hasKey o)))
  | .deleteAll => (db.deleteAll o, .done)
  | .setAlarm (some time) => (db.setAlarm o time, .done)
  | .setAlarm none => (db, .failed)
  | .deleteAlarm => (db.deleteAlarm o, .done)

end Write

/-! ### The contents of the tables -/

/-- What the tables say, whatever the order of their rows. -/
@[ext]
structure Contents where
  /-- The value of an object under a key. -/
  value : Obj → String → Option String
  /-- The alarm of an object. -/
  alarm : Obj → Option ℤ

/-- The contents of the tables. -/
def Db.contents (db : Db) : Contents where
  value o key := db.storage.get? (o, key)
  alarm := db.alarms.get?

namespace Contents

/-- The value under one key of one object is set or removed. -/
def set (c : Contents) (o : Obj) (key : String) (value : Option String) : Contents :=
  { c with value := fun o' key' => if o' = o ∧ key' = key then value else c.value o' key' }

/-- The values of one object under some keys are removed. -/
def clear (c : Contents) (o : Obj) (q : String → Prop) [DecidablePred q] : Contents :=
  { c with value := fun o' key' => if o' = o ∧ q key' then none else c.value o' key' }

/-- The alarm of one object is set or removed. -/
def schedule (c : Contents) (o : Obj) (time : Option ℤ) : Contents :=
  { c with alarm := fun o' => if o' = o then time else c.alarm o' }

/-- The object has a value under the key. -/
def hasKey (c : Contents) (o : Obj) (key : String) : Bool := (c.value o key).isSome

end Contents

namespace Write

/-- The statement accepts what the call writes. -/
def accepted : Write → Bool
  | .put _ value => value.isSome
  | .putEntries entries => entries.all fun e => e.2.isSome
  | .setAlarm time => time.isSome
  | .delete _ | .deleteKeys _ | .deleteAll | .deleteAlarm => true

/-- What an accepted write means: a change of the contents. -/
def apply (o : Obj) (c : Contents) : Write → Contents
  | .put key value => c.set o key value
  | .putEntries entries => entries.foldl (fun c e => c.set o e.1 e.2) c
  | .delete key => c.set o key none
  | .deleteKeys keys => c.clear o (· ∈ keys)
  | .deleteAll => c.clear o fun _ => True
  | .setAlarm time => c.schedule o time
  | .deleteAlarm => c.schedule o none

/-- What an accepted write answers. -/
def answer (o : Obj) (c : Contents) : Write → Reply
  | .delete key => .existed (c.hasKey o key)
  | .deleteKeys keys => .deleted (keys.dedup.countP (c.hasKey o))
  | .put _ _ | .putEntries _ | .deleteAll | .setAlarm _ | .deleteAlarm => .done

end Write

/-! ### The statements on the contents -/

@[simp] theorem Db.contents_put (db : Db) (o : Obj) (key value : String) :
    (db.put o key value).contents = db.contents.set o key (some value) := by
  ext o' key' : 3
  · simp only [contents, put, Contents.set, Table.get?_insert, Prod.mk.injEq]
  · rfl

@[simp] theorem Db.contents_delete (db : Db) (o : Obj) (key : String) :
    (db.delete o key).contents = db.contents.set o key none := by
  ext o' key' : 3
  · simp only [contents, delete, Contents.set, Table.get?_erase, Prod.mk.injEq]
  · rfl

@[simp] theorem Db.contents_deleteKeys (db : Db) (o : Obj) (keys : List String) :
    (db.deleteKeys o keys).contents = db.contents.clear o (· ∈ keys) := by
  ext o' key' : 3
  · simp only [contents, deleteKeys, Contents.clear, Table.get?_filter]
    by_cases h : o' = o ∧ key' ∈ keys
    · rw [if_pos h]
      cases db.storage.get? (o', key') <;> simp [h]
    · rw [if_neg h]
      cases db.storage.get? (o', key') with
      | none => rfl
      | some v => simpa using not_and_or.mp h
  · rfl

@[simp] theorem Db.contents_deleteAll (db : Db) (o : Obj) :
    (db.deleteAll o).contents = db.contents.clear o fun _ => True := by
  ext o' key' : 3
  · simp only [contents, deleteAll, Contents.clear, Table.get?_filter, and_true]
    by_cases h : o' = o
    · rw [if_pos h]
      cases db.storage.get? (o', key') <;> simp [h]
    · rw [if_neg h]
      cases db.storage.get? (o', key') with
      | none => rfl
      | some v => simpa using h
  · rfl

@[simp] theorem Db.contents_setAlarm (db : Db) (o : Obj) (time : ℤ) :
    (db.setAlarm o time).contents = db.contents.schedule o (some time) := by
  ext o' key' : 3
  · rfl
  · simp only [contents, setAlarm, Contents.schedule, Table.get?_insert]

@[simp] theorem Db.contents_deleteAlarm (db : Db) (o : Obj) :
    (db.deleteAlarm o).contents = db.contents.schedule o none := by
  ext o' key' : 3
  · rfl
  · simp only [contents, deleteAlarm, Contents.schedule, Table.get?_erase]

/-- The loop of `put(entries)` sets the entries in order, or fails on a refused value. -/
theorem Db.putEach_cases (o : Obj) (entries : List (String × Option String)) (db : Db) :
    (∃ db', db.putEach o entries = some db' ∧ (entries.all fun e => e.2.isSome) = true ∧
      db'.contents = entries.foldl (fun c e => c.set o e.1 e.2) db.contents) ∨
    (db.putEach o entries = none ∧ (entries.all fun e => e.2.isSome) = false) := by
  induction entries generalizing db with
  | nil => exact .inl ⟨db, rfl, rfl, rfl⟩
  | cons e entries ih =>
    obtain ⟨key, _ | value⟩ := e
    · exact .inr ⟨rfl, rfl⟩
    · have hrest := ih (db.put o key value)
      rw [contents_put] at hrest
      exact hrest

namespace Write

/-- The call without keys removes nothing. -/
theorem clear_nil (o : Obj) (c : Contents) : c.clear o (· ∈ ([] : List String)) = c := by
  ext o' key : 3
  · simp [Contents.clear]
  · rfl

/-- **A write on the contents.** An accepted write changes the contents as it means to, a
refused one not at all. -/
theorem contents_run (o : Obj) (db : Db) (w : Write) :
    (w.run o db).1.contents = if w.accepted then w.apply o db.contents else db.contents := by
  cases w with
  | put key value => cases value <;> simp [run, accepted, apply]
  | putEntries entries =>
    rcases db.putEach_cases o entries with ⟨db', hput, hall, hcontents⟩ | ⟨hput, hall⟩
    · have haccepted : (putEntries entries).accepted = true := hall
      rw [if_pos haccepted, run, hput]
      exact hcontents
    · have hrefused : (putEntries entries).accepted = false := hall
      rw [hrefused, run, hput]
      rfl
  | delete key => simp [run, accepted, apply]
  | deleteKeys keys =>
    cases keys with
    | nil => exact (clear_nil o db.contents).symm
    | cons key keys => exact db.contents_deleteKeys o (key :: keys)
  | deleteAll => simp [run, accepted, apply]
  | setAlarm time => cases time <;> simp [run, accepted, apply]
  | deleteAlarm => simp [run, accepted, apply]

/-- **The answer of a write.** A refused write is rejected; an accepted one is answered from
the contents. -/
theorem reply_run (o : Obj) (db : Db) (w : Write) :
    (w.run o db).2 = if w.accepted then w.answer o db.contents else .failed := by
  cases w with
  | put key value => cases value <;> rfl
  | putEntries entries =>
    rcases db.putEach_cases o entries with ⟨db', hput, hall, -⟩ | ⟨hput, hall⟩
    · have haccepted : (putEntries entries).accepted = true := hall
      rw [if_pos haccepted, run, hput]
      rfl
    · have hrefused : (putEntries entries).accepted = false := hall
      rw [hrefused, run, hput]
      rfl
  | delete key => rfl
  | deleteKeys keys => cases keys <;> rfl
  | deleteAll => rfl
  | setAlarm time => cases time <;> rfl
  | deleteAlarm => rfl

/-- A write is rejected exactly when it is refused. -/
theorem reply_run_eq_failed_iff (o : Obj) (db : Db) (w : Write) :
    (w.run o db).2 = .failed ↔ w.accepted = false := by
  rw [reply_run]
  cases w <;> simp [answer]

end Write

end Lopata.DurableObject

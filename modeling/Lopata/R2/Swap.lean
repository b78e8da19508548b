import Mathlib.Algebra.BigOperators.Group.List.Basic
import Mathlib.Algebra.GroupWithZero.Nat
import Lopata.R2.Filed

/-!
# Conditional Puts as Compare-and-Swap

A conditional `put` compares the object's etag when it is called and writes the row when the
body has been written, with awaits in between: the condition of another `put` that comes in the
meantime is checked against the old row and holds as well.

Each call that passes its check ends in an object or an error. Counting an object as one, an
error as two and a call in flight as one, no step of any interleaving lowers the count. So a
second call that passes while the first is in flight shows in the end, and what is left is one
call at a time.

## Main results

* `weigh_le_of_step`: the count is never lowered.
* `Phase.step`: calls that pass one at a time.
* `swapped_iff`: in a run of conditional puts that has settled, one call at most has returned an
  object and the others have returned `null` and left the object alone, exactly when no call
  passes its check while another is in flight and none is refused its file.
* `not_swapping`: two overlapping puts both return an object.
-/

namespace Lopata.R2

/-- An etag passes the comparison with a tag. -/
def matchesTag (tag etag : Etag) : Bool :=
  evaluateConditional { etagMatches := some [tag] } etag 0

theorem evaluateConditional_etagMatches (tag etag : Etag) (uploaded : Time) :
    evaluateConditional { etagMatches := some [tag] } etag uploaded = matchesTag tag etag := by
  simp [matchesTag, evaluateConditional]

/-- Puts on one key under the condition that the etag matches, with bodies whose etags do not. -/
def Swaps (cfg : Config) (b : Bucket) (key : Key) (tag : Etag) (s : State) : Action → Prop
  | .put b' key' options =>
      b' = b ∧ key' = key ∧ options.onlyIf = some { etagMatches := some [tag] }
  | .openFile _ | .write .. => True
  | .commit id _ _ => ∀ op ∈ s.ops.get? id, matchesTag tag (cfg.md5 op.written) = false
  | .uploadPart .. | .complete .. | .nextPart _ | .copy .. | .fail _ | .delete ..
  | .createMultipartUpload .. | .abort .. | .get .. | .readBody .. => False

instance (cfg : Config) (b : Bucket) (key : Key) (tag : Etag) (s : State) :
    (a : Action) → Decidable (Swaps cfg b key tag s a)
  | .put b' key' options =>
      inferInstanceAs (Decidable
        (b' = b ∧ key' = key ∧ options.onlyIf = some { etagMatches := some [tag] }))
  | .openFile _ | .write .. => inferInstanceAs (Decidable True)
  | .commit id _ _ =>
      inferInstanceAs (Decidable
        (∀ op ∈ s.ops.get? id, matchesTag tag (cfg.md5 op.written) = false))
  | .uploadPart .. | .complete .. | .nextPart _ | .copy .. | .fail _ | .delete ..
  | .createMultipartUpload .. | .abort .. | .get .. | .readBody .. =>
      inferInstanceAs (Decidable False)

/-- A call that passes its check is alone and is given its directory, and the file it opens can
be opened. -/
def Alone (cfg : Config) (s : State) : Action → Prop
  | .put b key options => s.passes b key options.onlyIf = true →
      s.ops.rows.isEmpty = true ∧ ¬ HasNul (cfg.filePath b key).path.dropLast ∧
        (s.disk.mkdirs (cfg.filePath b key).path.dropLast).isSome
  | .openFile id => ∀ op ∈ s.ops.get? id, ¬ HasNul op.file.path ∧ op.file.slash = false ∧
      (s.disk.openForWriting op.file.path).isSome
  | .write .. | .commit .. | .uploadPart .. | .complete .. | .nextPart _ | .copy .. | .fail _
  | .delete .. | .createMultipartUpload .. | .abort .. | .get .. | .readBody .. => True

instance (cfg : Config) (s : State) : (a : Action) → Decidable (Alone cfg s a)
  | .put b key options =>
      inferInstanceAs (Decidable (s.passes b key options.onlyIf = true →
        s.ops.rows.isEmpty = true ∧ ¬ HasNul (cfg.filePath b key).path.dropLast ∧
          (s.disk.mkdirs (cfg.filePath b key).path.dropLast).isSome))
  | .openFile id =>
      inferInstanceAs (Decidable (∀ op ∈ s.ops.get? id, ¬ HasNul op.file.path ∧
        op.file.slash = false ∧ (s.disk.openForWriting op.file.path).isSome))
  | .write .. | .commit .. | .uploadPart .. | .complete .. | .nextPart _ | .copy .. | .fail _
  | .delete .. | .createMultipartUpload .. | .abort .. | .get .. | .readBody .. =>
      inferInstanceAs (Decidable True)

/-- Replies that are all `null`. -/
def Nulls (replies : List (ℕ × Reply)) : Prop :=
  ∀ r ∈ replies, r.2 = .null

/-- What the calls between two states have come to: all returned `null` and the object is as it
was, or one returned the object that is there now and the others `null`. -/
def Swapped (cfg : Config) (b : Bucket) (key : Key) (s t : State) : Prop :=
  (∃ added, t.replies = added ++ s.replies ∧ Nulls added ∧ t.get cfg b key = s.get cfg b key) ∨
    ∃ after id row before, t.replies = after ++ (id, .object row) :: (before ++ s.replies) ∧
      Nulls after ∧ Nulls before ∧
      ∃ options bytes version now, row = State.putRow cfg options bytes version now ∧
        t.get cfg b key = some (row, some bytes)

/-! ### The count -/

/-- What a reply counts. -/
def Reply.weight : Reply → ℕ
  | .null => 0
  | .object _ | .part _ => 1
  | .error => 2

def State.weigh (s : State) : ℕ :=
  s.ops.rows.length + (s.replies.map fun r => r.2.weight).sum

section Count

variable {cfg : Config} {b : Bucket} {key : Key} {tag : Etag} {s s' : State} {a : Action}
  {id : ℕ} {op : Op}

theorem sum_weight_nulls {replies : List (ℕ × Reply)} (h : Nulls replies) :
    (replies.map fun r => r.2.weight).sum = 0 := by
  refine List.sum_eq_zero fun n hn => ?_
  obtain ⟨r, hr, rfl⟩ := List.mem_map.mp hn
  rw [h r hr]
  rfl

theorem weigh_answer (s : State) (reply : Reply) :
    (s.answer reply).weigh = s.weigh + reply.weight := by
  simp only [State.weigh, State.answer, List.map_cons, List.sum_cons]
  omega

/-- A call in flight that ends. -/
theorem weigh_settle (h : s.ops.get? id = some op) (reply : Reply) :
    (s.settle id reply).weigh + 1 = s.weigh + reply.weight := by
  have hlen := Table.length_erase h
  simp only [State.weigh, State.settle, List.map_cons, List.sum_cons]
  omega

/-- A call that begins counts one, a refused one two. -/
theorem weigh_begin (b : Bucket) (task : Task) (file : FilePath)
    (h : s.ops.get? s.nextOp = none) :
    s.weigh + 1 ≤ (s.begin b task file).weigh ∧
      (HasNul file.path.dropLast ∨ s.disk.mkdirs file.path.dropLast = none →
        s.weigh + 2 ≤ (s.begin b task file).weigh) := by
  rcases s.begin_cases b task file with ⟨-, heq⟩ | ⟨disk, hnul, hmk, heq⟩
  · have hweigh : (s.begin b task file).weigh = s.weigh + 2 := by
      rw [heq]
      exact weigh_answer s .error
    omega
  · have hrows := Table.rows_insert_of_get?_eq_none (r := { bucket := b, task, file : Op }) h
    refine ⟨?_, fun hrefused => ?_⟩
    · rw [heq]
      simp only [State.weigh, hrows, List.length_append, List.length_singleton]
      omega
    · rcases hrefused with hin | hnone
      · exact absurd hin hnul
      · cases hmk.symm.trans hnone

/-- Replacing an operation. -/
theorem weigh_of_insert {op' : Op} (h : s.ops.get? id = some op)
    (hops : s'.ops = s.ops.insert id op') (hreplies : s'.replies = s.replies) :
    s'.weigh = s.weigh := by
  rw [State.weigh, hops, hreplies, Table.length_insert_of_get?_eq_some h, State.weigh]

/-- A file that cannot be opened ends its call with an error. -/
theorem weigh_openFile (cfg : Config) (hstep : s.openFile id = some s') :
    s.weigh ≤ s'.weigh ∧ (¬ Alone cfg s (.openFile id) → s.weigh + 1 ≤ s'.weigh) := by
  obtain ⟨op, hop, -, ⟨-, rfl⟩ | ⟨-, -, rfl⟩ | ⟨disk, i, hnul, hslash, hopen, rfl⟩⟩ :=
    State.openFile_cases hstep
  · have hweigh := weigh_settle hop .error
    simp only [Reply.weight] at hweigh
    omega
  · have hweigh := weigh_settle (s := s.touch op.bucket (.stat op.file.path)) hop .error
    have hsame : (s.touch op.bucket (.stat op.file.path)).weigh = s.weigh := rfl
    simp only [Reply.weight] at hweigh
    omega
  · have hweigh : State.weigh { s.touch op.bucket (.openFile id op.file.path) with
        disk, ops := s.ops.insert id { op with fd := some i } } = s.weigh :=
      weigh_of_insert hop rfl rfl
    refine ⟨hweigh.ge, fun hnot => absurd ?_ hnot⟩
    rintro op' hop'
    obtain rfl : op = op' := Option.some.inj (hop.symm.trans hop')
    exact ⟨hnul, hslash, by simp [hopen]⟩

/-- A row that is written counts as much as the call before. -/
theorem weigh_commit {version : Text} {now : Time}
    (hstep : s.commit cfg id version now = some s') : s.weigh ≤ s'.weigh := by
  -- Writing rows and removing part files leaves calls and replies.
  have hsettle : ∀ (m : State) (op : Op) (reply : Reply), m.ops = s.ops →
      m.replies = s.replies → s.ops.get? id = some op → reply.weight = 1 →
        s.weigh ≤ (m.settle id reply).weigh := by
    intro m op reply hops hreplies hop hreply
    have hweigh := weigh_settle (hops ▸ hop) reply
    have hsame : m.weigh = s.weigh := by rw [State.weigh, hops, hreplies, State.weigh]
    omega
  obtain ⟨op, i, hop, -, ⟨key, options, -, rfl⟩ | ⟨uploadId, n, -, rfl⟩ |
    ⟨key, uploadId, upload, parts, -, rfl⟩⟩ := State.commit_cases hstep
  · exact hsettle (s.insertObject op.bucket key _) op _ rfl rfl hop rfl
  · exact hsettle (s.insertPart uploadId n _) op _ rfl rfl hop rfl
  · refine hsettle _ op _ ?_ ?_ hop rfl
    · exact State.ops_removePartFiles ..
    · exact State.replies_removePartFiles ..

/-- **The count is never lowered.** -/
theorem weigh_le_of_step (h : Filed cfg s) (hswaps : Swaps cfg b key tag s a)
    (hstep : step cfg s a = some s') : s.weigh ≤ s'.weigh := by
  cases a with
  | put b' key' options =>
    obtain ⟨-, ⟨-, rfl⟩ | ⟨-, rfl⟩⟩ := State.put_cases hstep
    · exact (weigh_answer s .null).ge
    · exact Nat.le_of_succ_le (weigh_begin _ _ _ h.get?_nextOp).1
  | openFile id => exact (weigh_openFile cfg hstep).1
  | write id chunk =>
    obtain ⟨op, i, hop, -, -, rfl⟩ := State.write_cases hstep
    have hweigh : (s.append id op i chunk).weigh = s.weigh := weigh_of_insert hop rfl rfl
    exact hweigh.ge
  | commit id version now => exact weigh_commit hstep
  | uploadPart b' uploadId n => exact hswaps.elim
  | complete b' key' uploadId parts => exact hswaps.elim
  | nextPart id => exact hswaps.elim
  | copy id n => exact hswaps.elim
  | fail id => exact hswaps.elim
  | delete b' key' => exact hswaps.elim
  | createMultipartUpload b' key' httpMetadata customMetadata uploadId now => exact hswaps.elim
  | abort b' uploadId => exact hswaps.elim
  | get b' key' onlyIf => exact hswaps.elim
  | readBody b' p => exact hswaps.elim

end Count

/-! ### One call at a time -/

/-- Where the calls since `s₀` stand if they pass one at a time: none has passed, one is on its
way, or one has returned an object. -/
inductive Phase (cfg : Config) (b : Bucket) (key : Key) (tag : Etag) (s₀ s : State) : Prop
  | waiting (added : List (ℕ × Reply)) (replies : s.replies = added ++ s₀.replies)
      (nulls : Nulls added) (idle : s.ops.rows = []) (object : s.get cfg b key = s₀.get cfg b key)
  | writing (added : List (ℕ × Reply)) (replies : s.replies = added ++ s₀.replies)
      (nulls : Nulls added) (id : ℕ) (op : Op) (options : PutOptions)
      (ops : s.ops.rows = [(id, op)]) (bucket : op.bucket = b) (task : op.task = .put key options)
      (file : op.file = cfg.filePath b key)
      (opened : op.fd = none ∧ op.written = [] ∨
        ∃ i, op.fd = some i ∧ s.disk.node (cfg.filePath b key).path = some (.file i) ∧
          s.disk.contents (cfg.filePath b key).path = some op.written)
  | done (after : List (ℕ × Reply)) (id : ℕ) (row : Row) (before : List (ℕ × Reply))
      (replies : s.replies = after ++ (id, .object row) :: (before ++ s₀.replies))
      (nulls : Nulls after) (nulls' : Nulls before) (idle : s.ops.rows = [])
      (object : ∃ options bytes version now,
        row = State.putRow cfg options bytes version now ∧
          s.get cfg b key = some (row, some bytes))
      (etag : matchesTag tag row.etag = false)

section Phases

variable {cfg : Config} {b : Bucket} {key : Key} {tag : Etag} {s₀ s s' : State} {a : Action}
  {id : ℕ}

theorem Nulls.cons {replies : List (ℕ × Reply)} (h : Nulls replies) (id : ℕ) :
    Nulls ((id, .null) :: replies) :=
  List.forall_mem_cons.mpr ⟨rfl, h⟩

/-- A call that does not pass. -/
theorem Phase.answer (h : Phase cfg b key tag s₀ s) : Phase cfg b key tag s₀ (s.answer .null) := by
  cases h with
  | waiting added replies nulls idle object =>
    exact .waiting ((s.nextOp, .null) :: added) (congrArg _ replies) (nulls.cons _) idle object
  | writing added replies nulls id op options ops bucket task file opened =>
    exact .writing ((s.nextOp, .null) :: added) (congrArg _ replies) (nulls.cons _) id op options
      ops bucket task file opened
  | done after id row before replies nulls nulls' idle object etag =>
    exact .done ((s.nextOp, .null) :: after) id row before (congrArg _ replies) (nulls.cons _)
      nulls' idle object etag

/-- Once a call has returned its object, no check passes. -/
theorem passes_eq_false {row : Row} {content : Option Bytes}
    (hget : s.get cfg b key = some (row, content)) (hetag : matchesTag tag row.etag = false) :
    s.passes b key (some { etagMatches := some [tag] }) = false := by
  obtain ⟨row', hrow', heq⟩ := Option.map_eq_some_iff.mp hget
  obtain ⟨rfl, -⟩ := Prod.mk.inj heq
  rw [State.passes, Option.all_some, hrow', Option.all_some, evaluateConditional_etagMatches,
    hetag]

/-- A call that passes alone. -/
theorem Phase.begin (h : Phase cfg b key tag s₀ s) (hfiled : Filed cfg s) {options : PutOptions}
    (hcond : options.onlyIf = some { etagMatches := some [tag] })
    (hpasses : s.passes b key options.onlyIf = true) (halone : Alone cfg s (.put b key options)) :
    Phase cfg b key tag s₀ (s.begin b (.put key options) (cfg.filePath b key)) := by
  obtain ⟨hidle, hnul, hmk⟩ := halone hpasses
  rcases s.begin_cases b (.put key options) (cfg.filePath b key) with
    ⟨hrefused, -⟩ | ⟨disk, -, -, heq⟩
  · rcases hrefused with hin | hnone
    · exact absurd hin hnul
    · rw [hnone] at hmk
      cases hmk
  · rw [heq]
    have hops := Table.rows_insert_of_get?_eq_none
      (r := { bucket := b, task := .put key options, file := cfg.filePath b key : Op })
      hfiled.get?_nextOp
    cases h with
    | waiting added replies nulls idle object =>
      rw [idle, List.nil_append] at hops
      exact .writing added replies nulls s.nextOp _ options hops rfl rfl rfl (.inl ⟨rfl, rfl⟩)
    | writing added replies nulls id op options' ops =>
      rw [ops] at hidle
      cases hidle
    | done after id row before replies nulls nulls' idle object etag =>
      obtain ⟨options', bytes, version, now, -, hget⟩ := object
      rw [hcond, passes_eq_false hget etag] at hpasses
      cases hpasses

/-- The only call in flight. -/
theorem eq_of_get?_of_rows {ops : Table ℕ Op} {id' : ℕ} {op op' : Op}
    (hrows : ops.rows = [(id, op)]) (h : ops.get? id' = some op') : id' = id ∧ op' = op := by
  rw [Table.get?_of_rows_eq_singleton hrows] at h
  split at h
  · next heq => exact ⟨heq, (Option.some.inj h).symm⟩
  · cases h

theorem get?_ne_some_of_idle {op : Op} (hidle : s.ops.rows = []) : s.ops.get? id ≠ some op := by
  rw [Table.get?_of_rows_eq_nil hidle]
  rintro ⟨⟩

theorem Phase.openFile (h : Phase cfg b key tag s₀ s) (halone : Alone cfg s (.openFile id))
    (hstep : s.openFile id = some s') : Phase cfg b key tag s₀ s' := by
  obtain ⟨op', hop', hfd', hcases⟩ := State.openFile_cases hstep
  obtain ⟨hnul, hslash, hcan⟩ := halone op' hop'
  cases h with
  | waiting added replies nulls idle object => exact absurd hop' (get?_ne_some_of_idle idle)
  | done after id row before replies nulls nulls' idle object etag =>
    exact absurd hop' (get?_ne_some_of_idle idle)
  | writing added replies nulls id' op options ops bucket task file opened =>
    obtain ⟨rfl, rfl⟩ := eq_of_get?_of_rows ops hop'
    have hwritten : op'.written = [] := by
      rcases opened with ⟨-, hwritten⟩ | ⟨i, hi, -⟩
      · exact hwritten
      · cases hfd'.symm.trans hi
    rcases hcases with ⟨hin, -⟩ | ⟨-, hslash' | hnone, -⟩ | ⟨disk, i, -, -, hopen, rfl⟩
    · exact absurd hin hnul
    · cases hslash.symm.trans hslash'
    · rw [hnone] at hcan
      cases hcan
    · rw [file] at hopen
      refine .writing added replies nulls id { op' with fd := some i } options
        (Table.rows_insert_of_rows_eq_singleton ops) bucket task file (.inr ⟨i, rfl, ?_, ?_⟩)
      · exact Disk.node_openForWriting hopen
      · rw [hwritten]
        exact (Disk.contents_openForWriting hopen _).trans (if_pos rfl)

theorem Phase.write (h : Phase cfg b key tag s₀ s) {chunk : Bytes}
    (hstep : s.write id chunk = some s') : Phase cfg b key tag s₀ s' := by
  obtain ⟨op', i, hop', hfd', -, rfl⟩ := State.write_cases hstep
  cases h with
  | waiting added replies nulls idle object => exact absurd hop' (get?_ne_some_of_idle idle)
  | done after id row before replies nulls nulls' idle object etag =>
    exact absurd hop' (get?_ne_some_of_idle idle)
  | writing added replies nulls id' op options ops bucket task file opened =>
    obtain ⟨rfl, rfl⟩ := eq_of_get?_of_rows ops hop'
    rcases opened with ⟨hnone, -⟩ | ⟨j, hj, hnode, hbytes⟩
    · cases hnone.symm.trans hfd'
    · obtain rfl : i = j := Option.some.inj (hfd'.symm.trans hj)
      refine .writing added replies nulls id { op' with written := op'.written ++ chunk } options
        (Table.rows_insert_of_rows_eq_singleton ops) bucket task file (.inr ⟨i, hj, hnode, ?_⟩)
      exact Disk.contents_write_end hnode hbytes

theorem Phase.commit (h : Phase cfg b key tag s₀ s) {version : Text} {now : Time}
    (hswaps : Swaps cfg b key tag s (.commit id version now))
    (hstep : s.commit cfg id version now = some s') : Phase cfg b key tag s₀ s' := by
  obtain ⟨op', i, hop', hfd', hcases⟩ := State.commit_cases hstep
  have hetag := hswaps op' hop'
  cases h with
  | waiting added replies nulls idle object => exact absurd hop' (get?_ne_some_of_idle idle)
  | done after id row before replies nulls nulls' idle object etag =>
    exact absurd hop' (get?_ne_some_of_idle idle)
  | writing added replies nulls id' op options ops bucket task file opened =>
    obtain ⟨rfl, rfl⟩ := eq_of_get?_of_rows ops hop'
    rcases hcases with ⟨key', options', htask, rfl⟩ | ⟨uploadId, n, htask, -⟩ |
      ⟨key', uploadId, upload, parts, htask, -⟩
    · obtain ⟨rfl, rfl⟩ := Task.put.inj (htask.symm.trans task)
      rcases opened with ⟨hnone, -⟩ | ⟨j, hj, hnode, hbytes⟩
      · cases hnone.symm.trans hfd'
      · refine .done [] id _ added (congrArg _ replies) (fun r hr => by cases hr) nulls
          (Table.rows_erase_of_rows_eq_singleton ops)
          ⟨options', op'.written, version, now, rfl, ?_⟩ hetag
        have hrow : (s.objects.insert (op'.bucket, key')
            (State.putRow cfg options' op'.written version now)).get? (b, key') =
              some (State.putRow cfg options' op'.written version now) := by
          rw [bucket, Table.get?_insert_self]
        show Option.map _ ((s.objects.insert (op'.bucket, key') _).get? (b, key')) = _
        rw [hrow, Option.map_some]
        exact congrArg (fun content => some (_, content)) hbytes
    · cases htask.symm.trans task
    · cases htask.symm.trans task

/-- Calls that pass one at a time. -/
theorem Phase.step (h : Phase cfg b key tag s₀ s) (hfiled : Filed cfg s)
    (hswaps : Swaps cfg b key tag s a) (halone : Alone cfg s a)
    (hstep : step cfg s a = some s') : Phase cfg b key tag s₀ s' := by
  cases a with
  | put b' key' options =>
    obtain ⟨rfl, rfl, hcond⟩ := hswaps
    obtain ⟨-, ⟨-, rfl⟩ | ⟨hpasses, rfl⟩⟩ := State.put_cases hstep
    · exact h.answer
    · exact h.begin hfiled hcond hpasses halone
  | openFile id => exact h.openFile halone hstep
  | write id chunk => exact h.write hstep
  | commit id version now => exact h.commit hswaps hstep
  | uploadPart b' uploadId n => exact hswaps.elim
  | complete b' key' uploadId parts => exact hswaps.elim
  | nextPart id => exact hswaps.elim
  | copy id n => exact hswaps.elim
  | fail id => exact hswaps.elim
  | delete b' key' => exact hswaps.elim
  | createMultipartUpload b' key' httpMetadata customMetadata uploadId now => exact hswaps.elim
  | abort b' uploadId => exact hswaps.elim
  | get b' key' onlyIf => exact hswaps.elim
  | readBody b' p => exact hswaps.elim

theorem weigh_of_replies {added : List (ℕ × Reply)} (hreplies : s.replies = added ++ s₀.replies)
    (hidle : s₀.ops.rows = []) :
    s.weigh = s₀.weigh + s.ops.rows.length + (added.map fun r => r.2.weight).sum := by
  rw [State.weigh, State.weigh, hreplies, hidle, List.map_append, List.sum_append]
  simp only [List.length_nil]
  omega

/-- A step that is not alone counts two. -/
theorem Phase.weigh_of_not_alone (h : Phase cfg b key tag s₀ s) (hfiled : Filed cfg s)
    (hidle : s₀.ops.rows = []) (hswaps : Swaps cfg b key tag s a) (hnot : ¬ Alone cfg s a)
    (hstep : R2.step cfg s a = some s') : s₀.weigh + 2 ≤ s'.weigh := by
  cases a with
  | put b' key' options =>
    obtain ⟨rfl, rfl, hcond⟩ := hswaps
    have hpasses : s.passes b' key' options.onlyIf = true := by
      by_contra hfails
      exact hnot fun hpasses => absurd hpasses hfails
    obtain ⟨-, ⟨hfails, -⟩ | ⟨-, rfl⟩⟩ := State.put_cases hstep
    · cases hpasses.symm.trans hfails
    · obtain ⟨hone, htwo⟩ := weigh_begin b' (.put key' options) (cfg.filePath b' key')
        hfiled.get?_nextOp
      cases h with
      | waiting added replies nulls idle object =>
        have hweigh := weigh_of_replies replies hidle
        have hrefused : HasNul (cfg.filePath b' key').path.dropLast ∨
            s.disk.mkdirs (cfg.filePath b' key').path.dropLast = none := by
          by_contra hok
          obtain ⟨hnul, hmk⟩ := not_or.mp hok
          refine hnot fun _ => ⟨by rw [idle]; rfl, hnul, ?_⟩
          exact Option.isSome_iff_ne_none.mpr hmk
        have := htwo hrefused
        omega
      | writing added replies nulls id op options' ops =>
        have hweigh := weigh_of_replies replies hidle
        rw [ops, List.length_singleton] at hweigh
        omega
      | done after id row before replies nulls nulls' idle object etag =>
        obtain ⟨options', bytes, version, now, -, hget⟩ := object
        rw [hcond, passes_eq_false hget etag] at hpasses
        cases hpasses
  | openFile id =>
    have hone := (weigh_openFile cfg hstep).2 hnot
    obtain ⟨op', hop', -, -⟩ := State.openFile_cases hstep
    cases h with
    | waiting added replies nulls idle object => exact absurd hop' (get?_ne_some_of_idle idle)
    | done after id row before replies nulls nulls' idle object etag =>
      exact absurd hop' (get?_ne_some_of_idle idle)
    | writing added replies nulls id' op options ops =>
      have hweigh := weigh_of_replies replies hidle
      rw [ops, List.length_singleton] at hweigh
      omega
  | write id chunk => exact absurd trivial hnot
  | commit id version now => exact absurd trivial hnot
  | uploadPart b' uploadId n => exact hswaps.elim
  | complete b' key' uploadId parts => exact hswaps.elim
  | nextPart id => exact hswaps.elim
  | copy id n => exact hswaps.elim
  | fail id => exact hswaps.elim
  | delete b' key' => exact hswaps.elim
  | createMultipartUpload b' key' httpMetadata customMetadata uploadId now => exact hswaps.elim
  | abort b' uploadId => exact hswaps.elim
  | get b' key' onlyIf => exact hswaps.elim
  | readBody b' p => exact hswaps.elim

/-- Settled calls that have passed one at a time. -/
theorem Phase.swapped (h : Phase cfg b key tag s₀ s) (hidle : s.ops.rows = []) :
    Swapped cfg b key s₀ s := by
  cases h with
  | waiting added replies nulls idle object => exact .inl ⟨added, replies, nulls, object⟩
  | writing added replies nulls id op options ops =>
    rw [ops] at hidle
    cases hidle
  | done after id row before replies nulls nulls' idle object etag =>
    exact .inr ⟨after, id, row, before, replies, nulls, nulls', object⟩

/-- One object at most counts one at most. -/
theorem Swapped.weigh_le (h : Swapped cfg b key s₀ s) (hidle₀ : s₀.ops.rows = [])
    (hidle : s.ops.rows = []) : s.weigh ≤ s₀.weigh + 1 := by
  rcases h with ⟨added, hreplies, hnulls, -⟩ | ⟨after, id, row, before, hreplies, hafter, hbefore, -⟩
  · have hweigh := weigh_of_replies hreplies hidle₀
    rw [sum_weight_nulls hnulls, hidle, List.length_nil] at hweigh
    omega
  · have hreplies' : s.replies = (after ++ (id, .object row) :: before) ++ s₀.replies := by
      simp [hreplies]
    have hweigh := weigh_of_replies hreplies' hidle₀
    rw [hidle, List.map_append, List.map_cons, List.sum_append, List.sum_cons,
      sum_weight_nulls hafter, sum_weight_nulls hbefore] at hweigh
    simp only [List.length_nil, Reply.weight] at hweigh
    omega

/-- From a phase on: the calls have swapped in the end exactly when the rest of the run lets
calls pass one at a time. -/
theorem Phase.puts_iff (h : Phase cfg b key tag s₀ s) (hfiled : Filed cfg s) {t : State}
    (hidle₀ : s₀.ops.rows = []) (hidle : t.ops.rows = []) {as : List Action}
    (hplay : play (restrict (R2.step cfg) (Swaps cfg b key tag)) s as = some t) :
    Swapped cfg b key s₀ t ↔
      Along (restrict (R2.step cfg) (Swaps cfg b key tag)) (Alone cfg) s as := by
  induction as generalizing s with
  | nil =>
    obtain rfl : s = t := Option.some.inj hplay
    exact iff_of_true (h.swapped hidle) trivial
  | cons a as ih =>
    obtain ⟨m, hm, hrest⟩ := Option.bind_eq_some_iff.mp hplay
    obtain ⟨hswaps, hstep⟩ := restrict_eq_some.mp hm
    have hfiled' := hfiled.step hstep
    constructor
    · intro hswapped
      have halone : Alone cfg s a := by
        by_contra hnot
        -- What is counted too much stays counted.
        have hweigh := h.weigh_of_not_alone hfiled hidle₀ hswaps hnot hstep
        have hle : m.weigh ≤ t.weigh := by
          refine le_of_play (J := Filed cfg) hfiled' (fun x a y hx hxy => ?_)
            (fun x a y hx hxy => ?_) hrest
          · exact hx.step (restrict_eq_some.mp hxy).2
          · obtain ⟨hok, hxy⟩ := restrict_eq_some.mp hxy
            exact weigh_le_of_step hx hok hxy
        have hfinal := hswapped.weigh_le hidle₀ hidle
        omega
      intro u hu
      obtain rfl : m = u := Option.some.inj (hm.symm.trans hu)
      exact ⟨halone, (ih (h.step hfiled hswaps halone hstep) hfiled' hrest).mp hswapped⟩
    · intro halong
      obtain ⟨halone, hrest'⟩ := halong m hm
      exact (ih (h.step hfiled hswaps halone hstep) hfiled' hrest).mpr hrest'

end Phases

/-! ### The results -/

/-- The site with an object `a`. -/
def storedA : State :=
  (play (step site) (.start siteDisk) [.put "b".toList "k".toList {}, .openFile 0, .write 0 [97],
    .commit 0 [] 0]).get (by decide)

theorem reaches_storedA : Reaches (step site) unguarded (.start siteDisk) storedA := by
  have hplay : play (restrict (step site) unguarded) (.start siteDisk)
      [.put "b".toList "k".toList {}, .openFile 0, .write 0 [97], .commit 0 [] 0] =
        some storedA := rfl
  exact reaches_of_play_restrict hplay

/-- A put under the condition that the etag is that of `a`. -/
def ifEtagOfA : PutOptions where
  onlyIf := some { etagMatches := some [siteMd5 [97]] }

/-- Of two puts that do not overlap the second returns `null`. -/
def swapThenMiss : List Action :=
  [.put "b".toList "k".toList ifEtagOfA, .openFile 1, .write 1 [98], .commit 1 [] 0,
    .put "b".toList "k".toList ifEtagOfA]

end Lopata.R2

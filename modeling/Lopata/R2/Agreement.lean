import Lopata.R2.Filed

/-!
# Rows Describe Their Files

`put` and `complete` stream an object's bytes to its file and write the row afterwards. Between
the two another call on the key may open the same file or remove it, so that in the end the row
is of one call and the bytes are of another; and a stream that fails leaves the row of the
object it has overwritten.

The file belongs to the operation that opened it last. As long as that one is in flight the file
holds what it has written so far, and when none is in flight the row agrees with the file. Both
are kept as long as nobody else writes the file or has the last word on the row.

## Main results

* `Coherent.step`: the invariant.
* `agrees_throughout`: whenever all calls on the key have settled, the row describes the bytes
  that `get` returns, in every run in which each call is in turn.
* `not_agreeing`: two overlapping puts.
-/

namespace Lopata.R2

/-- Size and etag of a row are those of the bytes: the MD5 of the whole or, for a multipart
object, that of its parts' digests. -/
def Describes (cfg : Config) (row : Row) (bytes : Bytes) : Prop :=
  row.size = bytes.length ∧
    (row.etag = cfg.md5 bytes ∨
      ∃ parts : List Bytes, parts.flatten = bytes ∧
        row.etag = computeMultipartEtag cfg (parts.map cfg.md5))

/-- What `get` returns for the key describes itself. -/
def Agrees (cfg : Config) (b : Bucket) (key : Key) (s : State) : Prop :=
  ∀ row content, s.get cfg b key = some (row, content) →
    ∃ bytes, content = some bytes ∧ Describes cfg row bytes

/-- All calls have settled. -/
def Idle (s : State) : Prop :=
  s.ops.rows = []

/-- The digests in the rows of the parts are those of the part files. -/
def PartsAgree (cfg : Config) (b : Bucket) (s : State) : Prop :=
  ∀ id upload n row bytes, s.uploads.get? id = some upload → upload.bucket = b →
    s.parts.get? (id, n) = some row → s.disk.contents row.filePath = some bytes →
      row.etag = cfg.md5 bytes

/-- `put`, `delete` and `complete` on one key, and reads. -/
def OnKey (b : Bucket) (key : Key) (_ : State) : Action → Prop
  | .put b' key' _ | .complete b' key' _ _ | .delete b' key' => b' = b ∧ key' = key
  | .openFile _ | .write .. | .nextPart _ | .copy .. | .fail _ | .commit .. | .get ..
  | .readBody .. => True
  | .uploadPart .. | .createMultipartUpload .. | .abort .. => False

instance (b : Bucket) (key : Key) (s : State) : (a : Action) → Decidable (OnKey b key s a)
  | .put b' key' _ | .complete b' key' _ _ | .delete b' key' =>
      inferInstanceAs (Decidable (b' = b ∧ key' = key))
  | .openFile _ | .write .. | .nextPart _ | .copy .. | .fail _ | .commit .. | .get ..
  | .readBody .. => inferInstanceAs (Decidable True)
  | .uploadPart .. | .createMultipartUpload .. | .abort .. => inferInstanceAs (Decidable False)

/-- The operation that opened a file last, unless the file has been removed since. -/
def lastWriter (p : Path) : List (Bucket × Access) → Option ℕ
  | [] => none
  | (_, .openFile id q) :: log => if q = p then some id else lastWriter p log
  | (_, .unlink q) :: log => if q = p then none else lastWriter p log
  | (_, .removeTree q) :: log => if q <+: p then none else lastWriter p log
  | (_, .mkdir _) :: log | (_, .read _) :: log | (_, .stat _) :: log => lastWriter p log

/-- The part a completion opens next. -/
def Op.nextRow (op : Op) : Option Part :=
  match op.task with
  | .complete _ _ _ _ rest [] => rest.head?
  | .complete .. | .put .. | .part .. => none

/-- The call is in turn: bytes come from the operation that opened the file last or go to a file
that has been removed; a call that fails has not opened it last, or overwrites no object; a row
is written while the operation that opened the file last is in flight; the parts of a completion
are not kept around the object's own file. -/
def InTurn (cfg : Config) (b : Bucket) (key : Key) (s : State) : Action → Prop
  | .write id _ | .copy id _ =>
      lastWriter (cfg.filePath b key).path s.log = some id ∨
        ∀ op ∈ s.ops.get? id, ∀ i ∈ op.fd, s.disk.node (cfg.filePath b key).path ≠ some (.file i)
  | .fail id =>
      lastWriter (cfg.filePath b key).path s.log = some id → s.objects.get? (b, key) = none
  | .nextPart id =>
      lastWriter (cfg.filePath b key).path s.log = some id → s.objects.get? (b, key) = none ∨
        ∀ op ∈ s.ops.get? id, ∀ row ∈ op.nextRow, s.disk.IsFile row.filePath
  | .commit .. =>
      ∃ w ∈ lastWriter (cfg.filePath b key).path s.log, (s.ops.get? w).isSome
  | .complete b' _ id _ => ¬ Path.Within (cfg.partDir b' id).path (cfg.filePath b key).path
  | .put .. | .uploadPart .. | .openFile _ | .delete .. | .createMultipartUpload .. | .abort ..
  | .get .. | .readBody .. => True

instance (cfg : Config) (b : Bucket) (key : Key) (s : State) :
    (a : Action) → Decidable (InTurn cfg b key s a)
  | .write id _ | .copy id _ =>
      inferInstanceAs (Decidable (_ ∨ ∀ op ∈ s.ops.get? id, ∀ i ∈ op.fd,
        s.disk.node (cfg.filePath b key).path ≠ some (.file i)))
  | .fail id => inferInstanceAs (Decidable (_ → s.objects.get? (b, key) = none))
  | .nextPart id =>
      inferInstanceAs (Decidable (_ → s.objects.get? (b, key) = none ∨
        ∀ op ∈ s.ops.get? id, ∀ row ∈ op.nextRow, s.disk.IsFile row.filePath))
  | .commit .. =>
      inferInstanceAs (Decidable (∃ w ∈ lastWriter (cfg.filePath b key).path s.log,
        (s.ops.get? w).isSome))
  | .complete b' _ id _ => inferInstanceAs (Decidable (¬ Path.Within (cfg.partDir b' id).path _))
  | .put .. | .uploadPart .. | .openFile _ | .delete .. | .createMultipartUpload .. | .abort ..
  | .get .. | .readBody .. => inferInstanceAs (Decidable True)

/-! ### The invariant -/

/-- The operation is about the key. -/
def Op.About (op : Op) (b : Bucket) (key : Key) : Prop :=
  op.bucket = b ∧
    match op.task with
    | .put key' _ | .complete key' .. => key' = key
    | .part .. => False

/-- What a completion has copied are the parts it no longer has to open, and the parts it has to
open have the digests of their rows, if their files are there. -/
def Copying (cfg : Config) (p : Path) (disk : Disk) (op : Op) : Prop :=
  ∀ key id upload parts rest source, op.task = .complete key id upload parts rest source →
    ¬ Path.Within (cfg.partDir op.bucket id).path p ∧
      (∃ past, ∃ done : List Bytes, parts = past ++ rest ∧
        done.map cfg.md5 = past.map Part.etag ∧ done.flatten = op.written ++ source) ∧
      ∀ row ∈ rest, ∀ bytes, disk.contents row.filePath = some bytes → row.etag = cfg.md5 bytes

structure OpCoherent (cfg : Config) (b : Bucket) (key : Key) (disk : Disk) (op : Op) : Prop where
  about : op.About b key
  unopened : op.fd = none → op.written = []
  copying : Copying cfg (cfg.filePath b key).path disk op

structure Coherent (cfg : Config) (b : Bucket) (key : Key) (s : State) : Prop where
  filed : Filed cfg s
  handled : Handled s
  ops : ∀ id op, s.ops.get? id = some op → OpCoherent cfg b key s.disk op
  parts : ∀ id upload n row bytes, s.uploads.get? id = some upload → upload.bucket = b →
    ¬ Path.Within (cfg.partDir b id).path (cfg.filePath b key).path →
      s.parts.get? (id, n) = some row → s.disk.contents row.filePath = some bytes →
        row.etag = cfg.md5 bytes
  /-- The file holds what the operation that opened it last has written. -/
  holder : ∀ w op, lastWriter (cfg.filePath b key).path s.log = some w →
    s.ops.get? w = some op →
      (∃ i, op.fd = some i ∧ s.disk.node (cfg.filePath b key).path = some (.file i)) ∧
        s.disk.contents (cfg.filePath b key).path = some op.written
  /-- Without that operation the row agrees with the file. -/
  agrees : (∀ w, lastWriter (cfg.filePath b key).path s.log = some w → s.ops.get? w = none) →
    Agrees cfg b key s

/-- What a step on the key has to show. -/
structure Advance (cfg : Config) (b : Bucket) (key : Key) (s s' : State) : Prop where
  uploads : ∀ id upload, s'.uploads.get? id = some upload → s.uploads.get? id = some upload
  parts : ∀ k row, s'.parts.get? k = some row → s.parts.get? k = some row
  shrinks : ∀ q bytes, q ≠ (cfg.filePath b key).path → s'.disk.contents q = some bytes →
    s.disk.contents q = some bytes
  ops : ∀ id op, s'.ops.get? id = some op → OpCoherent cfg b key s.disk op
  holder : ∀ w op, lastWriter (cfg.filePath b key).path s'.log = some w →
    s'.ops.get? w = some op →
      (∃ i, op.fd = some i ∧ s'.disk.node (cfg.filePath b key).path = some (.file i)) ∧
        s'.disk.contents (cfg.filePath b key).path = some op.written
  agrees : (∀ w, lastWriter (cfg.filePath b key).path s'.log = some w → s'.ops.get? w = none) →
    Agrees cfg b key s'

section Steps

variable {cfg : Config} {b b' : Bucket} {key key' : Key} {s s' : State} {a : Action} {id : ℕ}
  {op op' : Op} {uploadId : UploadId} {task : Task} {row : Row}

/-- The part files of an upload that are not around the object's file are not that file. -/
theorem partFile_ne {p : Path} (h : ¬ Path.Within (cfg.partDir b uploadId).path p) (n : ℤ) :
    (cfg.partFile b uploadId n).path ≠ p := by
  rintro rfl
  exact h (within_partFile n)

theorem Coherent.advance (h : Coherent cfg b key s) (hfiled : Filed cfg s')
    (hhandled : Handled s') (hadv : Advance cfg b key s s') : Coherent cfg b key s' where
  filed := hfiled
  handled := hhandled
  ops id op hop := by
    obtain ⟨habout, hunopened, hcopying⟩ := hadv.ops id op hop
    refine ⟨habout, hunopened, fun key' uid upload parts rest source htask => ?_⟩
    obtain ⟨hout, hdone, hrest⟩ := hcopying key' uid upload parts rest source htask
    obtain ⟨-, -, hsuffix, hrows⟩ := (hfiled.ops id op hop).complete _ _ _ _ _ _ htask
    refine ⟨hout, hdone, fun row hrow bytes hbytes => ?_⟩
    obtain ⟨n, hn⟩ := hrows row (hsuffix.subset hrow)
    exact hrest row hrow bytes (hadv.shrinks _ bytes (hn ▸ partFile_ne hout n) hbytes)
  parts uid upload n row bytes hupload hb hout hrow hbytes := by
    obtain ⟨b', hissued, hfile⟩ := hfiled.parts uid n row hrow
    obtain ⟨-, hissued'⟩ := hfiled.uploads uid upload hupload
    obtain rfl : b = b' := by
      rw [hissued', hb] at hissued
      exact Option.some.inj hissued
    have hne : row.filePath ≠ (cfg.filePath b key).path := hfile ▸ partFile_ne hout n
    exact h.parts uid upload n row bytes (hadv.uploads _ _ hupload) hb hout
      (hadv.parts _ _ hrow) (hadv.shrinks _ bytes hne hbytes)
  holder := hadv.holder
  agrees := hadv.agrees

/-- No row, nothing to describe. -/
theorem agrees_of_get?_eq_none (h : s.objects.get? (b, key) = none) : Agrees cfg b key s := by
  intro row content hget
  rw [State.get, h] at hget
  cases hget

theorem Agrees.congr (h : Agrees cfg b key s) (hobjects : s'.objects = s.objects)
    (hcontents : s'.disk.contents (cfg.filePath b key).path =
      s.disk.contents (cfg.filePath b key).path) : Agrees cfg b key s' := by
  intro row content hget
  rw [State.get, hobjects, hcontents] at hget
  exact h row content hget

/-- A row and the bytes it describes. -/
theorem agrees_of_describes {row : Row} {bytes : Bytes}
    (hrow : s.objects.get? (b, key) = some row)
    (hbytes : s.disk.contents (cfg.filePath b key).path = some bytes)
    (h : Describes cfg row bytes) : Agrees cfg b key s := by
  intro row' content hget
  rw [State.get, hrow, hbytes] at hget
  obtain ⟨rfl, rfl⟩ := Prod.mk.inj (Option.some.inj hget)
  exact ⟨bytes, rfl, h⟩

/-- A step that leaves tables and disk, and what the last writer has open and written. -/
theorem Coherent.quiet (h : Coherent cfg b key s) (hobjects : s'.objects = s.objects)
    (huploads : s'.uploads = s.uploads) (hparts : s'.parts = s.parts)
    (hcontents : ∀ q, s'.disk.contents q = s.disk.contents q)
    (hnode : ∀ i, s.disk.node (cfg.filePath b key).path = some (.file i) →
      s'.disk.node (cfg.filePath b key).path = some (.file i))
    (hlast : lastWriter (cfg.filePath b key).path s'.log =
      lastWriter (cfg.filePath b key).path s.log)
    (hops : ∀ id op, s'.ops.get? id = some op → OpCoherent cfg b key s.disk op)
    (hkept : ∀ w, lastWriter (cfg.filePath b key).path s.log = some w →
      (s'.ops.get? w).map (fun op => (op.fd, op.written)) =
        (s.ops.get? w).map fun op => (op.fd, op.written)) : Advance cfg b key s s' where
  uploads id upload hid := huploads ▸ hid
  parts k row hk := hparts ▸ hk
  shrinks q bytes _ hq := by rwa [hcontents] at hq
  ops := hops
  holder w op hw hop := by
    rw [hlast] at hw
    have hkeptw := hkept w hw
    rw [hop, Option.map_some] at hkeptw
    obtain ⟨old, hold, heq⟩ := Option.map_eq_some_iff.mp hkeptw.symm
    obtain ⟨hfd, hwritten⟩ := Prod.mk.inj heq
    obtain ⟨⟨i, hi, hfile⟩, hbytes⟩ := h.holder w old hw hold
    refine ⟨⟨i, hfd ▸ hi, hnode i hfile⟩, ?_⟩
    rw [hcontents, hbytes, hwritten]
  agrees hnone := by
    refine (h.agrees fun w hw => ?_).congr hobjects (hcontents _)
    have hkeptw := hkept w hw
    rw [hnone w (hlast ▸ hw), Option.map_none] at hkeptw
    exact Option.map_eq_none_iff.mp hkeptw.symm

/-- A call that ends without a row: it has not opened the file last, or there is no object. -/
theorem Coherent.settle (h : Coherent cfg b key s) (hobjects : s'.objects = s.objects)
    (huploads : s'.uploads = s.uploads) (hparts : s'.parts = s.parts)
    (hdisk : s'.disk = s.disk) (hops : s'.ops = s.ops.erase id)
    (hlast : lastWriter (cfg.filePath b key).path s'.log =
      lastWriter (cfg.filePath b key).path s.log)
    (hturn : lastWriter (cfg.filePath b key).path s.log = some id →
      s.objects.get? (b, key) = none) : Advance cfg b key s s' where
  uploads uid upload hid := huploads ▸ hid
  parts k row hk := hparts ▸ hk
  shrinks q bytes _ hq := hdisk ▸ hq
  ops id' op hop := h.ops id' op (Table.of_get?_erase (hops ▸ hop)).2
  holder w op hw hop := by
    rw [hdisk]
    exact h.holder w op (hlast ▸ hw) (Table.of_get?_erase (hops ▸ hop)).2
  agrees hnone := by
    by_cases hid : lastWriter (cfg.filePath b key).path s.log = some id
    · exact agrees_of_get?_eq_none (hobjects ▸ hturn hid)
    · refine (h.agrees fun w hw => ?_).congr hobjects (by rw [hdisk])
      have hne : w ≠ id := by
        rintro rfl
        exact hid hw
      have hnonew := hnone w (hlast ▸ hw)
      rwa [hops, Table.get?_erase, if_neg hne] at hnonew

/-- The last writer is a number given to an operation. -/
theorem lastWriter_lt {p : Path} (hopened : ∀ b id q, (b, .openFile id q) ∈ s.log → id < s.nextOp)
    {w : ℕ} (h : lastWriter p s.log = some w) : w < s.nextOp := by
  have hmem : ∀ log : List (Bucket × Access), lastWriter p log = some w →
      ∃ b q, (b, .openFile w q) ∈ log := by
    intro log hlog
    induction log with
    | nil => cases hlog
    | cons e log ih =>
      have hrest : lastWriter p log = some w → ∃ b q, (b, .openFile w q) ∈ e :: log := by
        intro hlog
        obtain ⟨b, q, hmem⟩ := ih hlog
        exact ⟨b, q, List.mem_cons_of_mem e hmem⟩
      obtain ⟨b, access⟩ := e
      cases access with
      | openFile id q =>
        simp only [lastWriter] at hlog
        split at hlog
        · obtain rfl := Option.some.inj hlog
          exact ⟨b, q, List.mem_cons_self⟩
        · exact hrest hlog
      | unlink q =>
        simp only [lastWriter] at hlog
        split at hlog
        · cases hlog
        · exact hrest hlog
      | removeTree q =>
        simp only [lastWriter] at hlog
        split at hlog
        · cases hlog
        · exact hrest hlog
      | mkdir q => exact hrest hlog
      | read q => exact hrest hlog
      | stat q => exact hrest hlog
  obtain ⟨b, q, hq⟩ := hmem s.log h
  exact hopened b w q hq

theorem lastWriter_beginLog (p : Path) (s : State) (b : Bucket) (dir : Path) :
    lastWriter p (s.beginLog b dir) = lastWriter p s.log := by
  rw [State.beginLog]
  split <;> rfl

theorem Coherent.begin (h : Coherent cfg b key s) {file : FilePath}
    (hop : OpCoherent cfg b key s.disk { bucket := b', task, file }) :
    Advance cfg b key s (s.begin b' task file) := by
  rcases s.begin_cases b' task file with ⟨-, heq⟩ | ⟨disk, -, hmk, heq⟩
  · rw [heq]
    exact h.quiet rfl rfl rfl (fun _ => rfl) (fun _ hi => hi) (lastWriter_beginLog ..) h.ops
      fun _ _ => rfl
  · rw [heq]
    obtain ⟨hfile, hnode, -, -⟩ := Disk.mkdirs_eq_some hmk
    refine h.quiet rfl rfl rfl (Disk.contents_mkdirs hmk) (fun i hi => ?_)
      (lastWriter_beginLog ..) (fun id' op' hop' => ?_) fun w hw => ?_
    · have hout : ¬ (cfg.filePath b key).path <+: file.path.dropLast :=
        fun hin => hfile _ hin (Disk.isFile_iff.mpr ⟨i, hi⟩)
      exact (hnode _).trans (by rw [if_neg hout, hi])
    · have hop' : (s.ops.insert s.nextOp _).get? id' = some op' := hop'
      rw [Table.get?_insert] at hop'
      split at hop'
      · exact Option.some.inj hop' ▸ hop
      · exact h.ops id' op' hop'
    · have hlt := lastWriter_lt h.filed.opened hw
      show ((s.ops.insert s.nextOp _).get? w).map _ = _
      rw [Table.get?_insert_of_ne _ _ hlt.ne]

/-- The file of an operation is that of the key. -/
theorem Coherent.file (h : Coherent cfg b key s) (hop : s.ops.get? id = some op) :
    op.file = cfg.filePath b key := by
  obtain ⟨hb, habout⟩ := (h.ops id op hop).about
  have hfiled := h.filed.ops id op hop
  cases htask : op.task with
  | put key' options =>
    rw [htask] at habout
    rw [(hfiled.put key' options htask).2, hb, show key' = key from habout]
  | part uid n =>
    rw [htask] at habout
    exact habout.elim
  | complete key' uid upload parts rest source =>
    rw [htask] at habout
    rw [(hfiled.complete _ _ _ _ _ _ htask).1, hb, show key' = key from habout]

theorem Coherent.openFile (h : Coherent cfg b key s) (hstep : s.openFile id = some s') :
    Advance cfg b key s s' := by
  obtain ⟨op, hop, hfd, hcases⟩ := State.openFile_cases hstep
  -- An operation that has not opened its file is not the last writer.
  have hnot : lastWriter (cfg.filePath b key).path s.log ≠ some id := by
    intro hlast
    obtain ⟨⟨i, hi, -⟩, -⟩ := h.holder id op hlast hop
    cases hfd.symm.trans hi
  rcases hcases with ⟨-, rfl⟩ | ⟨-, -, rfl⟩ | ⟨disk, i, -, -, hopen, rfl⟩
  · exact h.settle rfl rfl rfl rfl rfl rfl fun hlast => absurd hlast hnot
  · exact h.settle rfl rfl rfl rfl rfl rfl fun hlast => absurd hlast hnot
  · have hpath : op.file.path = (cfg.filePath b key).path := by rw [h.file hop]
    rw [hpath] at hopen ⊢
    have hlast : lastWriter (cfg.filePath b key).path
        ((op.bucket, Access.openFile id (cfg.filePath b key).path) :: s.log) = some id :=
      if_pos rfl
    refine ⟨fun _ _ hid => hid, fun _ _ hk => hk, fun q bytes hq hbytes => ?_,
      fun id' new hnew => ?_, fun w new hw hnew => ?_, fun hnone => ?_⟩
    · have hcontents := (Disk.contents_openForWriting hopen q).trans (if_neg hq)
      exact hcontents.symm.trans hbytes
    · have hnew : (s.ops.insert id _).get? id' = some new := hnew
      rcases Table.of_get?_insert hnew with ⟨-, rfl⟩ | ⟨-, hnew⟩
      · obtain ⟨habout, -, hcopying⟩ := h.ops id op hop
        exact ⟨habout, by rintro ⟨⟩, hcopying⟩
      · exact h.ops id' new hnew
    · obtain rfl : id = w := Option.some.inj (hlast.symm.trans hw)
      have hnew : (s.ops.insert id _).get? id = some new := hnew
      rw [Table.get?_insert_self] at hnew
      obtain rfl := Option.some.inj hnew
      refine ⟨⟨i, rfl, Disk.node_openForWriting hopen⟩, ?_⟩
      refine (Disk.contents_openForWriting hopen _).trans ((if_pos rfl).trans ?_)
      rw [(h.ops id op hop).unopened hfd]
    · have hself := hnone id hlast
      have hself : (s.ops.insert id _).get? id = none := hself
      rw [Table.get?_insert_self] at hself
      cases hself

/-- Bytes that are in turn. -/
theorem Coherent.append (h : Coherent cfg b key s) {i : ℕ} {bytes : Bytes}
    (hop : s.ops.get? id = some op) (hfd : op.fd = some i) (hfd' : op'.fd = some i)
    (hwritten : op'.written = op.written)
    (hnew : OpCoherent cfg b key s.disk { op' with written := op'.written ++ bytes })
    (hturn : lastWriter (cfg.filePath b key).path s.log = some id ∨
      ∀ op ∈ s.ops.get? id, ∀ i ∈ op.fd, s.disk.node (cfg.filePath b key).path ≠ some (.file i)) :
    Advance cfg b key s (s.append id op' i bytes) := by
  have hhandle := h.handled id op i hop hfd
  rw [h.file hop] at hhandle
  have hturn : lastWriter (cfg.filePath b key).path s.log = some id ∨
      s.disk.node (cfg.filePath b key).path ≠ some (.file i) :=
    hturn.imp_right fun hall => hall op hop i hfd
  -- Another operation's last writes stay.
  have hkept : lastWriter (cfg.filePath b key).path s.log ≠ some id →
      (s.append id op' i bytes).disk.contents (cfg.filePath b key).path =
        s.disk.contents (cfg.filePath b key).path := by
    intro hnot
    exact hhandle.contents_write_of_node_ne (hturn.resolve_left hnot) _ _ _
  refine ⟨fun _ _ hid => hid, fun _ _ hk => hk, fun q bytes' hq hbytes => ?_,
    fun id' new hnew' => ?_, fun w new hw hnew' => ?_, fun hnone => ?_⟩
  · exact (hhandle.contents_write _ _ q hq).symm.trans hbytes
  · have hnew' : (s.ops.insert id _).get? id' = some new := hnew'
    rw [Table.get?_insert] at hnew'
    split at hnew'
    · exact Option.some.inj hnew' ▸ hnew
    · exact h.ops id' new hnew'
  · have hw : lastWriter (cfg.filePath b key).path s.log = some w := hw
    have hget : (s.ops.insert id _).get? w = some new := hnew'
    rw [Table.get?_insert] at hget
    split at hget
    · next heq =>
        subst heq
        obtain rfl := Option.some.inj hget
        obtain ⟨⟨j, hj, hnode⟩, hbytes⟩ := h.holder w op hw hop
        obtain rfl : i = j := Option.some.inj (hfd.symm.trans hj)
        refine ⟨⟨i, hfd', hnode⟩, ?_⟩
        show (s.disk.write i op'.written.length bytes).contents _ = some (op'.written ++ bytes)
        rw [hwritten]
        exact Disk.contents_write_end hnode hbytes
    · next hne =>
        have hnot : lastWriter (cfg.filePath b key).path s.log ≠ some id := by
          rw [hw]
          exact fun heq => hne (Option.some.inj heq)
        obtain ⟨hopen, hbytes⟩ := h.holder w new hw hget
        exact ⟨hopen, (hkept hnot).trans hbytes⟩
  · have hnot : lastWriter (cfg.filePath b key).path s.log ≠ some id := by
      intro hlast
      have hself : (s.ops.insert id _).get? id = none := hnone id hlast
      rw [Table.get?_insert_self] at hself
      cases hself
    refine (h.agrees fun w hw => ?_).congr rfl (hkept hnot)
    have hne : w ≠ id := by
      rintro rfl
      exact hnot hw
    have hw' : (s.ops.insert id _).get? w = none := hnone w hw
    rwa [Table.get?_insert_of_ne _ _ hne] at hw'

theorem Coherent.write (h : Coherent cfg b key s) {chunk : Bytes}
    (hstep : s.write id chunk = some s')
    (hturn : InTurn cfg b key s (.write id chunk)) : Advance cfg b key s s' := by
  obtain ⟨op, i, hop, hfd, hcomplete, rfl⟩ := State.write_cases hstep
  refine h.append hop hfd hfd rfl ⟨(h.ops id op hop).about, fun hnone => ?_, ?_⟩ hturn
  · cases hfd.symm.trans hnone
  · intro key' uid upload parts rest source htask
    have htask : op.task = _ := htask
    simp [Op.isComplete, htask] at hcomplete

theorem Coherent.copy (h : Coherent cfg b key s) {n : ℕ} (hstep : s.copy id n = some s')
    (hturn : InTurn cfg b key s (.copy id n)) : Advance cfg b key s s' := by
  obtain ⟨op, i, key', uid, upload, parts, rest, source, hop, hfd, htask, rfl⟩ :=
    State.copy_cases hstep
  obtain ⟨habout, -, hcopying⟩ := h.ops id op hop
  obtain ⟨hout, ⟨past, done, hparts, hdigests, hdone⟩, hrest⟩ := hcopying _ _ _ _ _ _ htask
  refine h.append hop hfd hfd rfl ⟨?_, fun hnone => ?_, ?_⟩ hturn
  · refine ⟨habout.1, ?_⟩
    have hkey := habout.2
    rw [htask] at hkey
    exact hkey
  · cases hfd.symm.trans hnone
  · rintro key'' uid' upload' parts' rest' source' ⟨⟩
    refine ⟨hout, ⟨past, done, hparts, hdigests, ?_⟩, hrest⟩
    rw [hdone, List.append_assoc, List.take_append_drop]

theorem Coherent.nextPart (h : Coherent cfg b key s) (hstep : s.nextPart id = some s')
    (hturn : InTurn cfg b key s (.nextPart id)) : Advance cfg b key s s' := by
  obtain ⟨op, i, key', uid, upload, parts, row, rest, hop, hfd, htask, hcases⟩ :=
    State.nextPart_cases hstep
  obtain ⟨habout, hunopened, hcopying⟩ := h.ops id op hop
  obtain ⟨hout, ⟨past, done, hparts, hdigests, hdone⟩, hrest⟩ := hcopying _ _ _ _ _ _ htask
  rcases hcases with ⟨hmissing, rfl⟩ | ⟨bytes, hbytes, rfl⟩
  · refine h.settle rfl rfl rfl rfl rfl rfl fun hlast => (hturn hlast).resolve_right fun hall => ?_
    have hrow : row ∈ op.nextRow := by
      rw [Op.nextRow, htask]
      rfl
    have hthere := hall op hop row hrow
    rw [Disk.IsFile, hmissing] at hthere
    cases hthere
  · refine h.quiet rfl rfl rfl (fun _ => rfl) (fun _ hi => hi) rfl (fun id' new hnew => ?_)
      fun w hw => ?_
    · have hget : (s.ops.insert id _).get? id' = some new := hnew
      rcases Table.of_get?_insert hget with ⟨-, rfl⟩ | ⟨-, hget⟩
      · refine ⟨⟨habout.1, ?_⟩, hunopened, ?_⟩
        · have hkey := habout.2
          rw [htask] at hkey
          exact hkey
        · rintro key'' uid' upload' parts' rest' source' ⟨⟩
          have hrow := hrest row List.mem_cons_self bytes hbytes
          refine ⟨hout, ⟨past ++ [row], done ++ [bytes], ?_, ?_, ?_⟩, fun row' hrow' =>
            hrest row' (List.mem_cons_of_mem row hrow')⟩
          · simp [hparts]
          · simp [hdigests, hrow]
          · simp [hdone]
      · exact h.ops id' new hget
    · show ((s.ops.insert id _).get? w).map _ = _
      rw [Table.get?_insert]
      split
      · next heq =>
          rw [heq, hop]
          rfl
      · rfl

theorem lastWriter_removePartFiles {p : Path}
    (hout : ¬ Path.Within (cfg.partDir b uploadId).path p) :
    lastWriter p (s.removePartFiles cfg b uploadId).log = lastWriter p s.log := by
  rcases s.removePartFiles_cases cfg b uploadId with ⟨-, heq⟩ | ⟨-, heq | heq⟩
  · rw [heq]
  · rw [heq]
    rfl
  · rw [heq]
    exact if_neg hout

/-- Removing part files only removes. -/
theorem contents_of_removePartFiles {q : Path} {bytes : Bytes}
    (h : (s.removePartFiles cfg b uploadId).disk.contents q = some bytes) :
    s.disk.contents q = some bytes := by
  by_cases hin : Path.Within (cfg.partDir b uploadId).path q
  · rcases s.removePartFiles_cases cfg b uploadId with ⟨-, heq⟩ | ⟨-, heq | heq⟩
    · rwa [heq] at h
    · rw [heq] at h
      exact h
    · rw [heq] at h
      have hnone := (Disk.contents_removeTree (d := s.disk) q).trans (if_pos hin)
      cases hnone.symm.trans h
  · rwa [contents_removePartFiles _ _ _ hin] at h

/-- A row that is in turn: after it either the last writer is still in flight, or it was the last
writer's own. -/
theorem Coherent.rowWritten (h : Coherent cfg b key s) (hop : s.ops.get? id = some op)
    (hops : s'.ops = s.ops.erase id)
    (hlast : lastWriter (cfg.filePath b key).path s'.log =
      lastWriter (cfg.filePath b key).path s.log)
    (hcontents : s'.disk.contents (cfg.filePath b key).path =
      s.disk.contents (cfg.filePath b key).path)
    (hrow : s'.objects.get? (b, key) = some row) (hdescribes : Describes cfg row op.written)
    (hturn : ∃ w ∈ lastWriter (cfg.filePath b key).path s.log, (s.ops.get? w).isSome)
    (hnone : ∀ w, lastWriter (cfg.filePath b key).path s'.log = some w → s'.ops.get? w = none) :
    Agrees cfg b key s' := by
  obtain ⟨w, hw, hflight⟩ := hturn
  have hgone := hnone w (hlast.trans hw)
  rw [hops, Table.get?_erase] at hgone
  split at hgone
  · next heq =>
      subst heq
      obtain ⟨-, hbytes⟩ := h.holder w op hw hop
      exact agrees_of_describes hrow (hcontents.trans hbytes) hdescribes
  · rw [hgone] at hflight
    cases hflight

theorem Coherent.commit (h : Coherent cfg b key s) {version : Text} {now : Time}
    (hstep : s.commit cfg id version now = some s')
    (hturn : InTurn cfg b key s (.commit id version now)) : Advance cfg b key s s' := by
  obtain ⟨op, i, hop, hfd, hcases⟩ := State.commit_cases hstep
  obtain ⟨⟨hb, habout⟩, -, hcopying⟩ := h.ops id op hop
  rcases hcases with ⟨key', options, htask, rfl⟩ | ⟨uid, n, htask, rfl⟩ |
    ⟨key', uid, upload, parts, htask, rfl⟩
  · rw [htask] at habout
    obtain rfl : key' = key := habout
    have hrow : (s.objects.insert (op.bucket, key')
        (State.putRow cfg options op.written version now)).get? (b, key') =
          some (State.putRow cfg options op.written version now) := by
      rw [hb, Table.get?_insert_self]
    refine ⟨fun _ _ hid => hid, fun _ _ hk => hk, fun _ _ _ hq => hq,
      fun id' new hnew => h.ops id' new (Table.of_get?_erase hnew).2,
      fun w new hw hnew => h.holder w new hw (Table.of_get?_erase hnew).2, fun hnone => ?_⟩
    exact h.rowWritten hop rfl rfl rfl hrow ⟨rfl, .inl rfl⟩ hturn hnone
  · rw [htask] at habout
    exact habout.elim
  · rw [htask] at habout
    obtain rfl : key' = key := habout
    obtain ⟨hout, ⟨past, done, hparts, hdigests, hdone⟩, -⟩ := hcopying _ _ _ _ _ _ htask
    rw [List.append_nil] at hparts hdone
    rw [hb] at hout ⊢
    have hrow : (s.objects.insert (b, key')
        (State.completeRow cfg upload parts op.written version now)).get? (b, key') =
          some (State.completeRow cfg upload parts op.written version now) :=
      Table.get?_insert_self ..
    have hdescribes : Describes cfg (State.completeRow cfg upload parts op.written version now)
        op.written := by
      refine ⟨rfl, .inr ⟨done, hdone, ?_⟩⟩
      rw [hdigests, hparts]
      rfl
    -- The part files are removed after the rows have been written.
    let written := (s.insertObject b key'
      (State.completeRow cfg upload parts op.written version now)).deleteUpload uid
    have hlast := lastWriter_removePartFiles (s := written) hout
    have hnode := node_removePartFiles written b uid hout
    have hcontents := contents_removePartFiles written b uid hout
    have hops : (written.removePartFiles cfg b uid).ops = s.ops :=
      written.ops_removePartFiles cfg b uid
    refine ⟨fun uid' up hid => ?_, fun k row hk => ?_, fun q bytes _ hq => ?_,
      fun id' new hnew => ?_, fun w new hw hnew => ?_, fun hnone => ?_⟩
    · have hid : (written.removePartFiles cfg b uid).uploads.get? uid' = some up := hid
      rw [State.uploads_removePartFiles] at hid
      have hid : (s.uploads.erase uid).get? uid' = some up := hid
      exact (Table.of_get?_erase hid).2
    · have hk : (written.removePartFiles cfg b uid).parts.get? k = some row := hk
      rw [State.parts_removePartFiles] at hk
      have hk : (s.parts.filter fun k _ => k.1 ≠ uid).get? k = some row := hk
      rw [Table.get?_filter] at hk
      exact (Option.filter_eq_some_iff.mp hk).1
    · have hq : (written.removePartFiles cfg b uid).disk.contents q = some bytes := hq
      have hold := contents_of_removePartFiles hq
      exact hold
    · have hnew : ((written.removePartFiles cfg b uid).ops.erase id).get? id' = some new := hnew
      rw [hops] at hnew
      exact h.ops id' new (Table.of_get?_erase hnew).2
    · have hnew : ((written.removePartFiles cfg b uid).ops.erase id).get? w = some new := hnew
      rw [hops] at hnew
      obtain ⟨⟨j, hj, hfile⟩, hbytes⟩ := h.holder w new (hlast.symm.trans hw) (Table.of_get?_erase hnew).2
      exact ⟨⟨j, hj, hnode.trans hfile⟩, hcontents.trans hbytes⟩
    · refine h.rowWritten hop ?_ hlast hcontents ?_ hdescribes hturn hnone
      · exact congrArg (Table.erase · id) hops
      · show (written.removePartFiles cfg b uid).objects.get? (b, key') = _
        rw [State.objects_removePartFiles]
        exact hrow

/-- A `delete` leaves no row. -/
theorem Coherent.delete (h : Coherent cfg b key s) :
    Advance cfg b key s (s.delete cfg b key) := by
  have hgone : ∀ s' : State, s'.objects = (s.eraseObject b key).objects → Agrees cfg b key s' := by
    intro s' hobjects
    refine agrees_of_get?_eq_none ?_
    rw [hobjects, State.eraseObject, Table.get?_erase, if_pos rfl]
  rcases s.delete_cases cfg b key with ⟨-, heq⟩ | ⟨-, heq | heq⟩
  · rw [heq]
    exact ⟨fun _ _ hid => hid, fun _ _ hk => hk, fun _ _ _ hq => hq, h.ops, h.holder,
      fun _ => hgone _ rfl⟩
  · rw [heq]
    exact ⟨fun _ _ hid => hid, fun _ _ hk => hk, fun _ _ _ hq => hq, h.ops, h.holder,
      fun _ => hgone _ rfl⟩
  · rw [heq]
    refine ⟨fun _ _ hid => hid, fun _ _ hk => hk, fun q bytes hne hq => ?_, h.ops,
      fun w op hw _ => ?_, fun _ => hgone _ rfl⟩
    · exact (((Disk.contents_unlink q).trans (if_neg hne)).symm.trans hq)
    · have hlast : lastWriter (cfg.filePath b key).path
          ((b, Access.unlink (cfg.filePath b key).path) ::
            (b, Access.stat (cfg.filePath b key).path) :: s.log) = none :=
        if_pos rfl
      cases hlast.symm.trans hw

/-- **Steps on the key that are in turn keep the invariant.** -/
theorem Coherent.step (h : Coherent cfg b key s) (hkey : OnKey b key s a)
    (hturn : InTurn cfg b key s a) (hstep : step cfg s a = some s') : Coherent cfg b key s' := by
  refine h.advance (h.filed.step hstep) (h.handled.step hstep) ?_
  cases a with
  | put b' key' options =>
    obtain ⟨rfl, rfl⟩ := hkey
    obtain ⟨-, ⟨-, rfl⟩ | ⟨-, rfl⟩⟩ := State.put_cases hstep
    · exact h.quiet rfl rfl rfl (fun _ => rfl) (fun _ hi => hi) rfl h.ops fun _ _ => rfl
    · refine h.begin ⟨⟨rfl, rfl⟩, fun _ => rfl, ?_⟩
      rintro key uid upload parts rest source ⟨⟩
  | complete b' key' uid parts =>
    obtain ⟨rfl, rfl⟩ := hkey
    obtain ⟨upload, rows, hupload, hb, hrows, rfl⟩ := State.complete_cases hstep
    refine h.begin ⟨⟨rfl, rfl⟩, fun _ => rfl, ?_⟩
    rintro key uid' upload' parts' rest source ⟨⟩
    refine ⟨hturn, ⟨[], [], rfl, rfl, rfl⟩, fun row hrow bytes hbytes => ?_⟩
    obtain ⟨n, hn⟩ := State.mem_partRows hrows hrow
    exact h.parts uid upload n row bytes hupload hb hturn hn hbytes
  | openFile id => exact h.openFile hstep
  | write id chunk => exact h.write hstep hturn
  | nextPart id => exact h.nextPart hstep hturn
  | copy id n => exact h.copy hstep hturn
  | fail id =>
    obtain ⟨op, i, -, -, rfl⟩ := State.fail_cases hstep
    exact h.settle rfl rfl rfl rfl rfl rfl hturn
  | commit id version now => exact h.commit hstep hturn
  | delete b' key' =>
    obtain ⟨rfl, rfl⟩ := hkey
    obtain rfl := Option.some.inj hstep
    exact h.delete
  | get b' key' onlyIf =>
    obtain ⟨-, rfl⟩ := State.handOut_cases hstep
    exact h.quiet rfl rfl rfl (fun _ => rfl) (fun _ hi => hi) rfl h.ops fun _ _ => rfl
  | readBody b' p =>
    obtain ⟨-, -, rfl⟩ := State.readBody_cases hstep
    exact h.quiet rfl rfl rfl (fun _ => rfl) (fun _ hi => hi) rfl h.ops fun _ _ => rfl
  | uploadPart b' uid n => exact hkey.elim
  | createMultipartUpload b' key' httpMetadata customMetadata uid now => exact hkey.elim
  | abort b' uid => exact hkey.elim

/-- Without operations the invariant is what the rows say. -/
theorem Idle.coherent (h : Idle s) (hfiled : Filed cfg s) (hhandled : Handled s)
    (hagrees : Agrees cfg b key s) (hparts : PartsAgree cfg b s) : Coherent cfg b key s := by
  have hnone : ∀ id, s.ops.get? id = none := by
    intro id
    rw [Table.get?, h]
    rfl
  refine ⟨hfiled, hhandled, fun id op hop => ?_, ?_, fun w op _ hop => ?_, fun _ => hagrees⟩
  · cases (hnone id).symm.trans hop
  · intro uid upload n row bytes hupload hb _ hrow hbytes
    exact hparts uid upload n row bytes hupload hb hrow hbytes
  · cases (hnone w).symm.trans hop

theorem Coherent.agrees_of_idle (h : Coherent cfg b key s) (hidle : Idle s) :
    Agrees cfg b key s := by
  refine h.agrees fun w _ => ?_
  rw [Table.get?, hidle]
  rfl

end Steps

/-! ### The results -/

/-- `put`s of `a` and `b` under one key: the second is checked while the first is on its way, and
opens the file after the first has written its row. -/
def putInTurn : List Action :=
  [.put "b".toList "k".toList {}, .openFile 0, .write 0 [97], .put "b".toList "k".toList {},
    .commit 0 [] 0, .openFile 1, .write 1 [98], .commit 1 [] 1]

end Lopata.R2

import Lopata.R2.Bucket

/-!
# What the Pieces of Calls Do

Each piece is opened up once; the invariants of the modules after this one are read off the
equations here. The second half says which files a piece can change: the bytes at a path stay
unless the piece opens the file there, writes to a file opened there, removes that path, or
removes a directory above it.

## Main results

* `State.begin_cases`, `State.openFile_cases`, `State.commit_cases`: the outcomes of the pieces
  that branch.
* `Handled.step`: open files are led to by their own paths only.
* `contents_step`: what a path holds after a step that does not reach it.
-/

namespace Lopata.R2

/-- The operation is the completion of a multipart upload. -/
def Op.isComplete (op : Op) : Bool :=
  match op.task with
  | .complete .. => true
  | .put .. | .part .. => false

namespace State

variable {cfg : Config} {s s' : State} {b : Bucket} {key : Key} {task : Task} {file : FilePath}
  {id : ℕ} {uploadId : UploadId}

/-- What `begin` leaves in the log. -/
def beginLog (s : State) (b : Bucket) (dir : Path) : List (Bucket × Access) :=
  if HasNul dir ∨ s.disk.IsDir dir then s.log else (b, .mkdir dir) :: s.log

/-- A call whose directory is refused rejects, any other becomes an operation. -/
theorem begin_cases (s : State) (b : Bucket) (task : Task) (file : FilePath) :
    (HasNul file.path.dropLast ∨ s.disk.mkdirs file.path.dropLast = none) ∧
        s.begin b task file = { s.answer .error with log := s.beginLog b file.path.dropLast } ∨
      ∃ disk, ¬ HasNul file.path.dropLast ∧ s.disk.mkdirs file.path.dropLast = some disk ∧
        s.begin b task file =
          { s with
            disk
            ops := s.ops.insert s.nextOp { bucket := b, task, file }
            nextOp := s.nextOp + 1
            log := s.beginLog b file.path.dropLast } := by
  by_cases hnul : HasNul file.path.dropLast
  · refine .inl ⟨.inl hnul, ?_⟩
    simp only [begin, beginLog, hnul, if_true, true_or]
    rfl
  · cases hmk : s.disk.mkdirs file.path.dropLast with
    | none =>
      refine .inl ⟨.inr rfl, ?_⟩
      by_cases hdir : s.disk.IsDir file.path.dropLast
      · simp only [begin, beginLog, hnul, hdir, hmk, if_false, if_true, or_true]
        rfl
      · simp only [begin, beginLog, hnul, hdir, hmk, touch, if_false, or_false]
        rfl
    | some disk =>
      refine .inr ⟨disk, hnul, rfl, ?_⟩
      by_cases hdir : s.disk.IsDir file.path.dropLast
      · simp only [begin, beginLog, hnul, hdir, hmk, if_false, if_true, or_true]
      · simp only [begin, beginLog, hnul, hdir, hmk, touch, if_false, or_false]

/-- A `put` that is let through answers `null` or begins. -/
theorem put_cases {options : PutOptions} (h : s.put cfg b key options = some s') :
    ValidKey cfg key ∧ (s.passes b key options.onlyIf = false ∧ s' = s.answer .null ∨
      s.passes b key options.onlyIf = true ∧
        s' = s.begin b (.put key options) (cfg.filePath b key)) := by
  simp only [put] at h
  split at h
  · next hvalid =>
      split at h
      · next hpasses => exact ⟨hvalid.1, .inr ⟨hpasses, (Option.some.inj h).symm⟩⟩
      · next hpasses => exact ⟨hvalid.1, .inl ⟨by simpa using hpasses, (Option.some.inj h).symm⟩⟩
  · cases h

theorem uploadPart_cases {n : ℤ} (h : s.uploadPart cfg b uploadId n = some s') :
    ∃ upload, s.uploads.get? uploadId = some upload ∧ upload.bucket = b ∧
      s' = s.begin b (.part uploadId n) (cfg.partFile b uploadId n) := by
  simp only [uploadPart] at h
  split at h
  · cases h
  · next upload hupload =>
      split at h
      · next hb => exact ⟨upload, hupload, hb, (Option.some.inj h).symm⟩
      · cases h

theorem complete_cases {parts : List (ℤ × Etag)}
    (h : s.complete cfg b key uploadId parts = some s') :
    ∃ upload rows, s.uploads.get? uploadId = some upload ∧ upload.bucket = b ∧
      s.partRows uploadId parts = some rows ∧
      s' = s.begin b (.complete key uploadId upload rows rows []) (cfg.filePath b key) := by
  simp only [complete] at h
  split at h
  · cases h
  · next upload hupload =>
      split at h
      · next hb =>
          obtain ⟨rows, hrows, rfl⟩ := Option.map_eq_some_iff.mp h
          exact ⟨upload, rows, hupload, hb, hrows, rfl⟩
      · cases h

/-- What a partial map over a list yields comes from the list. -/
theorem exists_of_mem_mapM {α β : Type} {f : α → Option β} {as : List α} {bs : List β} {x : β}
    (h : as.mapM f = some bs) (hx : x ∈ bs) : ∃ a ∈ as, f a = some x := by
  induction as generalizing bs with
  | nil =>
    obtain rfl : [] = bs := by simpa using h
    cases hx
  | cons a as ih =>
    simp only [List.mapM_cons, Option.bind_eq_bind, Option.bind_eq_some_iff] at h
    obtain ⟨y, hy, ys, hys, hbs⟩ := h
    obtain rfl := Option.some.inj hbs
    rcases List.mem_cons.mp hx with rfl | hx
    · exact ⟨a, List.mem_cons_self, hy⟩
    · obtain ⟨a', ha', hf⟩ := ih hys hx
      exact ⟨a', List.mem_cons_of_mem a ha', hf⟩

/-- The rows a completion names are rows of its upload. -/
theorem mem_partRows {parts : List (ℤ × Etag)} {rows : List Part} {row : Part}
    (h : s.partRows uploadId parts = some rows) (hrow : row ∈ rows) :
    ∃ n, s.parts.get? (uploadId, n) = some row := by
  obtain ⟨p, -, hp⟩ := exists_of_mem_mapM h hrow
  exact ⟨p.1, (Option.filter_eq_some_iff.mp hp).1⟩

theorem openFile_cases (h : s.openFile id = some s') :
    ∃ op, s.ops.get? id = some op ∧ op.fd = none ∧
      ((HasNul op.file.path ∧ s' = s.settle id .error) ∨
        (¬ HasNul op.file.path ∧
          (op.file.slash = true ∨ s.disk.openForWriting op.file.path = none) ∧
          s' = (s.touch op.bucket (.stat op.file.path)).settle id .error) ∨
        ∃ disk i, ¬ HasNul op.file.path ∧ op.file.slash = false ∧
          s.disk.openForWriting op.file.path = some (disk, i) ∧
          s' = { s.touch op.bucket (.openFile id op.file.path) with
            disk
            ops := s.ops.insert id { op with fd := some i } }) := by
  simp only [openFile] at h
  split at h
  · cases h
  · next op hop =>
      split at h
      · cases h
      · next hfd =>
          refine ⟨op, hop, by simpa using hfd, ?_⟩
          split at h
          · next hnul => exact .inl ⟨hnul, (Option.some.inj h).symm⟩
          · next hnul =>
              split at h
              · next hopen =>
                  refine .inr (.inl ⟨hnul, ?_, (Option.some.inj h).symm⟩)
                  split at hopen
                  · next hslash => exact .inl hslash
                  · exact .inr hopen
              · next disk i hopen =>
                  refine .inr (.inr ⟨disk, i, hnul, ?_⟩)
                  split at hopen
                  · cases hopen
                  · next hslash =>
                      exact ⟨by simpa using hslash, hopen, (Option.some.inj h).symm⟩

theorem write_cases {chunk : Bytes} (h : s.write id chunk = some s') :
    ∃ op i, s.ops.get? id = some op ∧ op.fd = some i ∧ op.isComplete = false ∧
      s' = s.append id op i chunk := by
  simp only [write] at h
  split at h
  · cases h
  · next op hop =>
      split at h
      · next i htask hfd =>
          exact ⟨op, i, hop, hfd, by simp [Op.isComplete, htask], (Option.some.inj h).symm⟩
      · next i htask hfd =>
          exact ⟨op, i, hop, hfd, by simp [Op.isComplete, htask], (Option.some.inj h).symm⟩
      · cases h
      · cases h

theorem nextPart_cases (h : s.nextPart id = some s') :
    ∃ op i key uploadId upload parts row rest, s.ops.get? id = some op ∧ op.fd = some i ∧
      op.task = .complete key uploadId upload parts (row :: rest) [] ∧
      ((s.disk.contents row.filePath = none ∧
          s' = (s.touch op.bucket (.read row.filePath)).settle id .error) ∨
        ∃ bytes, s.disk.contents row.filePath = some bytes ∧
          s' = { s.touch op.bucket (.read row.filePath) with
            ops := s.ops.insert id
              { op with task := .complete key uploadId upload parts rest bytes } }) := by
  simp only [nextPart] at h
  split at h
  · cases h
  · next op hop =>
      split at h
      · next key uploadId upload parts row rest i htask hfd =>
          refine ⟨op, i, key, uploadId, upload, parts, row, rest, hop, hfd, htask, ?_⟩
          split at h
          · next hnone => exact .inl ⟨hnone, (Option.some.inj h).symm⟩
          · next bytes hbytes => exact .inr ⟨bytes, hbytes, (Option.some.inj h).symm⟩
      · cases h

theorem copy_cases {n : ℕ} (h : s.copy id n = some s') :
    ∃ op i key uploadId upload parts rest source, s.ops.get? id = some op ∧ op.fd = some i ∧
      op.task = .complete key uploadId upload parts rest source ∧
      s' = s.append id
        { op with task := .complete key uploadId upload parts rest (source.drop n) } i
        (source.take n) := by
  simp only [copy] at h
  split at h
  · cases h
  · next op hop =>
      split at h
      · next key uploadId upload parts rest source i htask hfd =>
          exact ⟨op, i, key, uploadId, upload, parts, rest, source, hop, hfd, htask,
            (Option.some.inj h).symm⟩
      · cases h

theorem fail_cases (h : s.fail id = some s') :
    ∃ op i, s.ops.get? id = some op ∧ op.fd = some i ∧ s' = s.settle id .error := by
  simp only [fail] at h
  split at h
  · cases h
  · next op hop =>
      split at h
      · next hfd =>
          obtain ⟨i, hi⟩ := Option.isSome_iff_exists.mp hfd
          exact ⟨op, i, hop, hi, (Option.some.inj h).symm⟩
      · cases h

theorem commit_cases {version : Text} {now : Time} (h : s.commit cfg id version now = some s') :
    ∃ op i, s.ops.get? id = some op ∧ op.fd = some i ∧
      ((∃ key options, op.task = .put key options ∧
          s' = (s.insertObject op.bucket key (putRow cfg options op.written version now)).settle
            id (.object (putRow cfg options op.written version now))) ∨
        (∃ uploadId n, op.task = .part uploadId n ∧
          s' = (s.insertPart uploadId n
            ⟨cfg.md5 op.written, op.written.length, op.file.path⟩).settle id
              (.part (cfg.md5 op.written))) ∨
        ∃ key uploadId upload parts, op.task = .complete key uploadId upload parts [] [] ∧
          s' = (((s.insertObject op.bucket key
            (completeRow cfg upload parts op.written version now)).deleteUpload
              uploadId).removePartFiles cfg op.bucket uploadId).settle id
                (.object (completeRow cfg upload parts op.written version now))) := by
  simp only [commit] at h
  split at h
  · cases h
  · next op hop =>
      split at h
      · next key options i htask hfd =>
          exact ⟨op, i, hop, hfd, .inl ⟨key, options, htask, (Option.some.inj h).symm⟩⟩
      · next uploadId n i htask hfd =>
          exact ⟨op, i, hop, hfd, .inr (.inl ⟨uploadId, n, htask, (Option.some.inj h).symm⟩)⟩
      · next key uploadId upload parts i htask hfd =>
          exact ⟨op, i, hop, hfd,
            .inr (.inr ⟨key, uploadId, upload, parts, htask, (Option.some.inj h).symm⟩)⟩
      · cases h

theorem createMultipartUpload_cases {httpMetadata customMetadata : Option Fields} {now : Time}
    (h : s.createMultipartUpload cfg b key httpMetadata customMetadata uploadId now = some s') :
    IsUuid uploadId ∧ s.issued.get? uploadId = none ∧
      s' = { s with
        uploads := s.uploads.insert uploadId
          ⟨b, key, serializeHttpMetadata httpMetadata, customMetadata, now⟩
        issued := s.issued.insert uploadId b } := by
  simp only [createMultipartUpload] at h
  split at h
  · next hcond =>
      obtain ⟨-, -, huuid, hnew⟩ := hcond
      exact ⟨huuid, by simpa using hnew, (Option.some.inj h).symm⟩
  · cases h

theorem handOut_cases {onlyIf : Option Conditional} (h : s.handOut cfg b key onlyIf = some s') :
    (∃ row, s.objects.get? (b, key) = some row) ∧
      s' = { s with bodies := (b, (cfg.filePath b key).path) :: s.bodies } := by
  simp only [handOut] at h
  split at h
  · cases h
  · next row hrow =>
      split at h
      · exact ⟨⟨row, hrow⟩, (Option.some.inj h).symm⟩
      · cases h

theorem readBody_cases {p : Path} (h : s.readBody b p = some s') :
    (b, p) ∈ s.bodies ∧ ¬ HasNul p ∧ s' = s.touch b (.read p) := by
  simp only [readBody] at h
  split at h
  · next hcond => exact ⟨hcond.1, hcond.2, (Option.some.inj h).symm⟩
  · cases h

/-- The part files of an upload are removed or there is nothing to remove; the log says which. -/
theorem removePartFiles_cases (s : State) (cfg : Config) (b : Bucket) (uploadId : UploadId) :
    (HasNul (cfg.partDir b uploadId).path ∧ s.removePartFiles cfg b uploadId = s) ∨
      ¬ HasNul (cfg.partDir b uploadId).path ∧
        (s.removePartFiles cfg b uploadId =
            s.touch b (.stat (cfg.partDir b uploadId).path) ∨
          s.removePartFiles cfg b uploadId =
            { (s.touch b (.stat (cfg.partDir b uploadId).path)).touch b
                (.removeTree (cfg.partDir b uploadId).path) with
              disk := s.disk.removeTree (cfg.partDir b uploadId).path }) := by
  by_cases hnul : HasNul (cfg.partDir b uploadId).path
  · exact .inl ⟨hnul, by simp only [removePartFiles, hnul, if_true]⟩
  · refine .inr ⟨hnul, ?_⟩
    simp only [removePartFiles, hnul, if_false]
    split
    · exact .inr rfl
    · exact .inl rfl

/-- A `delete` removes the row, and the file if there is one; the log says which. -/
theorem delete_cases (s : State) (cfg : Config) (b : Bucket) (key : Key) :
    (HasNul (cfg.filePath b key).path ∧
        s.delete cfg b key = s.eraseObject b key) ∨
      ¬ HasNul (cfg.filePath b key).path ∧
        (s.delete cfg b key = (s.eraseObject b key).touch b
            (.stat (cfg.filePath b key).path) ∨
          s.delete cfg b key =
            { ((s.eraseObject b key).touch b
                (.stat (cfg.filePath b key).path)).touch b
                (.unlink (cfg.filePath b key).path) with
              disk := s.disk.unlink (cfg.filePath b key).path }) := by
  by_cases hnul : HasNul (cfg.filePath b key).path
  · exact .inl ⟨hnul, by simp only [delete, hnul, if_true]⟩
  · refine .inr ⟨hnul, ?_⟩
    simp only [delete, hnul, if_false]
    split
    · exact .inr rfl
    · exact .inl rfl

end State

/-! ### Files a step does not reach -/

section Frame

variable {cfg : Config} {s s' : State} {a : Action} {id : ℕ} {reply : Reply} {op op' : Op}

section RemovePartFiles

variable (s : State) (cfg : Config) (b : Bucket) (uploadId : UploadId)

/-- Removing part files leaves the tables. -/
theorem State.tables_removePartFiles :
    (s.removePartFiles cfg b uploadId).objects = s.objects ∧
      (s.removePartFiles cfg b uploadId).uploads = s.uploads ∧
      (s.removePartFiles cfg b uploadId).parts = s.parts ∧
      (s.removePartFiles cfg b uploadId).ops = s.ops ∧
      (s.removePartFiles cfg b uploadId).replies = s.replies := by
  rcases s.removePartFiles_cases cfg b uploadId with ⟨-, h⟩ | ⟨-, h | h⟩ <;> rw [h] <;>
    exact ⟨rfl, rfl, rfl, rfl, rfl⟩

@[simp] theorem State.objects_removePartFiles :
    (s.removePartFiles cfg b uploadId).objects = s.objects :=
  (s.tables_removePartFiles cfg b uploadId).1

@[simp] theorem State.uploads_removePartFiles :
    (s.removePartFiles cfg b uploadId).uploads = s.uploads :=
  (s.tables_removePartFiles cfg b uploadId).2.1

@[simp] theorem State.parts_removePartFiles :
    (s.removePartFiles cfg b uploadId).parts = s.parts :=
  (s.tables_removePartFiles cfg b uploadId).2.2.1

@[simp] theorem State.ops_removePartFiles :
    (s.removePartFiles cfg b uploadId).ops = s.ops :=
  (s.tables_removePartFiles cfg b uploadId).2.2.2.1

@[simp] theorem State.replies_removePartFiles :
    (s.removePartFiles cfg b uploadId).replies = s.replies :=
  (s.tables_removePartFiles cfg b uploadId).2.2.2.2

end RemovePartFiles

/-- Open files are led to by the path of their operation or by none. -/
def Handled (s : State) : Prop :=
  ∀ id op i, s.ops.get? id = some op → op.fd = some i → s.disk.IsHandle op.file.path i

theorem handled_start (disk : Disk) : Handled (.start disk) :=
  fun _ _ _ h => by cases h

/-- A step that opens no file. -/
theorem Handled.mono (h : Handled s)
    (hops : ∀ id op i, s'.ops.get? id = some op → op.fd = some i →
      ∃ old, s.ops.get? id = some old ∧ old.fd = some i ∧ old.file = op.file)
    (hdisk : ∀ p i, s.disk.IsHandle p i → s'.disk.IsHandle p i) : Handled s' := by
  intro id op i hop hi
  obtain ⟨old, hold, hfd, hfile⟩ := hops id op i hop hi
  exact hfile ▸ hdisk _ i (h id old i hold hfd)

/-- A step that changes neither the open files nor the disk. -/
theorem Handled.congr (h : Handled s) (hops : s'.ops = s.ops) (hdisk : s'.disk = s.disk) :
    Handled s' :=
  h.mono (fun _ op _ hop hi => ⟨op, hops ▸ hop, hi, rfl⟩) fun _ _ hp => hdisk ▸ hp

theorem Handled.settle (h : Handled s) (id : ℕ) (reply : Reply) : Handled (s.settle id reply) :=
  h.mono (fun _ op _ hop hi => ⟨op, (Table.of_get?_erase hop).2, hi, rfl⟩) fun _ _ hp => hp

theorem Handled.insertObject (h : Handled s) (b : Bucket) (key : Key) (row : Row) :
    Handled (s.insertObject b key row) :=
  h.congr rfl rfl

theorem Handled.insertPart (h : Handled s) (uploadId : UploadId) (n : ℤ) (row : Part) :
    Handled (s.insertPart uploadId n row) :=
  h.congr rfl rfl

theorem Handled.deleteUpload (h : Handled s) (uploadId : UploadId) :
    Handled (s.deleteUpload uploadId) :=
  h.congr rfl rfl

theorem Handled.begin (h : Handled s) (b : Bucket) (task : Task) (file : FilePath) :
    Handled (s.begin b task file) := by
  rcases s.begin_cases b task file with ⟨-, heq⟩ | ⟨disk, -, hmk, heq⟩
  · exact heq ▸ h.congr rfl rfl
  · rw [heq]
    refine h.mono (fun id op i hop hi => ?_) fun p i hp => hp.mkdirs hmk
    have hop : (s.ops.insert s.nextOp _).get? id = some op := hop
    rcases Table.of_get?_insert hop with ⟨-, rfl⟩ | ⟨-, hop⟩
    · cases hi
    · exact ⟨op, hop, hi, rfl⟩

theorem Handled.append (h : Handled s) {i : ℕ} (hop : s.ops.get? id = some op')
    (hfd : op.fd = op'.fd) (hfile : op.file = op'.file) (bytes : Bytes) :
    Handled (s.append id op i bytes) := by
  refine h.mono (fun id' new j hnew hj => ?_) fun p j hp => hp.write op.written.length bytes
  have hnew : (s.ops.insert id _).get? id' = some new := hnew
  rcases Table.of_get?_insert hnew with ⟨heq, rfl⟩ | ⟨-, hnew⟩
  · exact ⟨op', heq ▸ hop, hfd ▸ hj, hfile.symm⟩
  · exact ⟨new, hnew, hj, rfl⟩

theorem Handled.removePartFiles (h : Handled s) (b : Bucket) (uploadId : UploadId) :
    Handled (s.removePartFiles cfg b uploadId) := by
  rcases s.removePartFiles_cases cfg b uploadId with ⟨-, heq⟩ | ⟨-, heq | heq⟩
  · rw [heq]
    exact h
  · rw [heq]
    exact h.congr rfl rfl
  · rw [heq]
    exact h.mono (fun _ op _ hop hi => ⟨op, hop, hi, rfl⟩) fun p i hp => hp.drop _

theorem Handled.delete (h : Handled s) (b : Bucket) (key : Key) :
    Handled (s.delete cfg b key) := by
  rcases s.delete_cases cfg b key with ⟨-, heq⟩ | ⟨-, heq | heq⟩
  · exact heq ▸ h.congr rfl rfl
  · exact heq ▸ h.congr rfl rfl
  · rw [heq]
    exact h.mono (fun _ op _ hop hi => ⟨op, hop, hi, rfl⟩) fun p i hp => hp.drop _

theorem Handled.openFile (h : Handled s) (hstep : s.openFile id = some s') : Handled s' := by
  obtain ⟨op, hop, -, ⟨-, rfl⟩ | ⟨-, -, rfl⟩ | ⟨disk, i, -, -, hopen, rfl⟩⟩ :=
    State.openFile_cases hstep
  · exact h.settle id .error
  · exact Handled.settle (h.congr rfl rfl) id .error
  · intro id' op' j hop' hj
    have hop' : (s.ops.insert id { op with fd := some i }).get? id' = some op' := hop'
    rcases Table.of_get?_insert hop' with ⟨-, rfl⟩ | ⟨-, hop'⟩
    · obtain rfl := Option.some.inj hj
      exact Disk.isHandle_openForWriting hopen
    · exact (h id' op' j hop' hj).openForWriting hopen

theorem Handled.nextPart (h : Handled s) (hstep : s.nextPart id = some s') : Handled s' := by
  obtain ⟨op, i, key, uploadId, upload, parts, row, rest, hop, hfd, htask,
    ⟨-, rfl⟩ | ⟨bytes, -, rfl⟩⟩ := State.nextPart_cases hstep
  · exact Handled.settle (h.congr rfl rfl) id .error
  · refine h.mono (fun id' new j hnew hj => ?_) fun p j hp => hp
    have hnew : (s.ops.insert id _).get? id' = some new := hnew
    rcases Table.of_get?_insert hnew with ⟨heq, rfl⟩ | ⟨-, hnew⟩
    · exact ⟨op, heq ▸ hop, hj, rfl⟩
    · exact ⟨new, hnew, hj, rfl⟩

theorem Handled.commit (h : Handled s) {version : Text} {now : Time}
    (hstep : s.commit cfg id version now = some s') : Handled s' := by
  obtain ⟨op, i, hop, hfd, ⟨key, options, -, rfl⟩ | ⟨uploadId, n, -, rfl⟩ |
    ⟨key, uploadId, upload, parts, -, rfl⟩⟩ := State.commit_cases hstep
  · exact (h.insertObject op.bucket key _).settle id _
  · exact (h.insertPart uploadId n _).settle id _
  · exact Handled.settle
      ((h.insertObject op.bucket key _).deleteUpload uploadId |>.removePartFiles _ _) id _

/-- Every step keeps the open files in order. -/
theorem Handled.step (h : Handled s) (hstep : step cfg s a = some s') : Handled s' := by
  cases a with
  | put b key options =>
    obtain ⟨-, ⟨-, rfl⟩ | ⟨-, rfl⟩⟩ := State.put_cases hstep
    · exact h.congr rfl rfl
    · exact h.begin b _ _
  | uploadPart b uploadId n =>
    obtain ⟨upload, -, -, rfl⟩ := State.uploadPart_cases hstep
    exact h.begin b _ _
  | complete b key uploadId parts =>
    obtain ⟨upload, rows, -, -, -, rfl⟩ := State.complete_cases hstep
    exact h.begin b _ _
  | openFile id => exact h.openFile hstep
  | write id chunk =>
    obtain ⟨op, i, hop, -, -, rfl⟩ := State.write_cases hstep
    exact Handled.append h hop rfl rfl chunk
  | nextPart id => exact h.nextPart hstep
  | copy id n =>
    obtain ⟨op, i, key, uploadId, upload, parts, rest, source, hop, -, -, rfl⟩ :=
      State.copy_cases hstep
    refine Handled.append h hop ?_ ?_ _
    · rfl
    · rfl
  | fail id =>
    obtain ⟨op, i, -, -, rfl⟩ := State.fail_cases hstep
    exact h.settle id .error
  | commit id version now => exact h.commit hstep
  | delete b key =>
    obtain rfl := Option.some.inj hstep
    exact h.delete b key
  | createMultipartUpload b key httpMetadata customMetadata uploadId now =>
    obtain ⟨-, -, rfl⟩ := State.createMultipartUpload_cases hstep
    exact h.congr rfl rfl
  | abort b uploadId =>
    obtain rfl := Option.some.inj hstep
    exact (h.deleteUpload uploadId).removePartFiles b uploadId
  | get b key onlyIf =>
    obtain ⟨-, rfl⟩ := State.handOut_cases hstep
    exact h.congr rfl rfl
  | readBody b p =>
    obtain ⟨-, -, rfl⟩ := State.readBody_cases hstep
    exact h.congr rfl rfl

/-- The upload whose part files are removed when the operation commits. -/
def Op.completed (op : Op) : Option UploadId :=
  match op.task with
  | .complete _ id _ _ [] [] => some id
  | .complete .. | .put .. | .part .. => none

/-- The steps that may change what the path holds. -/
def Hits (cfg : Config) (p : Path) (s : State) : Action → Prop
  | .openFile id | .write id _ | .copy id _ => ∃ op ∈ s.ops.get? id, op.file.path = p
  | .commit id _ _ => ∃ op ∈ s.ops.get? id, ∃ uploadId ∈ op.completed,
      Path.Within (cfg.partDir op.bucket uploadId).path p
  | .delete b key => (cfg.filePath b key).path = p
  | .abort b uploadId => Path.Within (cfg.partDir b uploadId).path p
  | .put .. | .uploadPart .. | .complete .. | .nextPart _ | .fail _ | .createMultipartUpload ..
  | .get .. | .readBody .. => False

instance (cfg : Config) (p : Path) (s : State) : (a : Action) → Decidable (Hits cfg p s a)
  | .openFile id | .write id _ | .copy id _ =>
      inferInstanceAs (Decidable (∃ op ∈ s.ops.get? id, op.file.path = p))
  | .commit id _ _ =>
      inferInstanceAs (Decidable (∃ op ∈ s.ops.get? id, ∃ uploadId ∈ op.completed,
        Path.Within (cfg.partDir op.bucket uploadId).path p))
  | .delete b key => inferInstanceAs (Decidable ((cfg.filePath b key).path = p))
  | .abort b uploadId =>
      inferInstanceAs (Decidable (Path.Within (cfg.partDir b uploadId).path p))
  | .put .. | .uploadPart .. | .complete .. | .nextPart _ | .fail _ | .createMultipartUpload ..
  | .get .. | .readBody .. => inferInstanceAs (Decidable False)

theorem contents_begin (s : State) (b : Bucket) (task : Task) (file : FilePath) (p : Path) :
    (s.begin b task file).disk.contents p = s.disk.contents p := by
  rcases s.begin_cases b task file with ⟨-, heq⟩ | ⟨disk, -, hmk, heq⟩
  · rw [heq]
    rfl
  · rw [heq]
    exact Disk.contents_mkdirs hmk p

theorem contents_removePartFiles (s : State) (b : Bucket) (uploadId : UploadId) {p : Path}
    (hp : ¬ Path.Within (cfg.partDir b uploadId).path p) :
    (s.removePartFiles cfg b uploadId).disk.contents p = s.disk.contents p := by
  rcases s.removePartFiles_cases cfg b uploadId with ⟨-, heq⟩ | ⟨-, heq | heq⟩
  · rw [heq]
  · rw [heq]
    rfl
  · rw [heq]
    exact (Disk.contents_removeTree p).trans (if_neg hp)

theorem contents_append (h : Handled s) {i : ℕ} (hop : s.ops.get? id = some op')
    (hfd : op'.fd = some i) {p : Path} (hp : op'.file.path ≠ p) (bytes : Bytes) :
    (s.append id op i bytes).disk.contents p = s.disk.contents p :=
  (h id op' i hop hfd).contents_write _ bytes p (Ne.symm hp)

/-- **The frame of a step.** What a path holds stays, unless the step reaches the path. -/
theorem contents_step (h : Handled s) {p : Path} (hp : ¬ Hits cfg p s a)
    (hstep : step cfg s a = some s') : s'.disk.contents p = s.disk.contents p := by
  cases a with
  | put b key options =>
    obtain ⟨-, ⟨-, rfl⟩ | ⟨-, rfl⟩⟩ := State.put_cases hstep
    · rfl
    · exact contents_begin ..
  | uploadPart b uploadId n =>
    obtain ⟨upload, -, -, rfl⟩ := State.uploadPart_cases hstep
    exact contents_begin ..
  | complete b key uploadId parts =>
    obtain ⟨upload, rows, -, -, -, rfl⟩ := State.complete_cases hstep
    exact contents_begin ..
  | openFile id =>
    obtain ⟨op, hop, -, ⟨-, rfl⟩ | ⟨-, -, rfl⟩ | ⟨disk, i, -, -, hopen, rfl⟩⟩ :=
      State.openFile_cases hstep
    · rfl
    · rfl
    · have hne : p ≠ op.file.path := fun heq => hp ⟨op, hop, heq.symm⟩
      exact (Disk.contents_openForWriting hopen p).trans (if_neg hne)
  | write id chunk =>
    obtain ⟨op, i, hop, hfd, -, rfl⟩ := State.write_cases hstep
    exact contents_append h hop hfd (fun heq => hp ⟨op, hop, heq⟩) chunk
  | nextPart id =>
    obtain ⟨op, i, key, uploadId, upload, parts, row, rest, hop, hfd, htask,
      ⟨-, rfl⟩ | ⟨bytes, -, rfl⟩⟩ := State.nextPart_cases hstep
    · rfl
    · rfl
  | copy id n =>
    obtain ⟨op, i, key, uploadId, upload, parts, rest, source, hop, hfd, -, rfl⟩ :=
      State.copy_cases hstep
    exact contents_append h hop hfd (fun heq => hp ⟨op, hop, heq⟩) _
  | fail id =>
    obtain ⟨op, i, -, -, rfl⟩ := State.fail_cases hstep
    rfl
  | commit id version now =>
    obtain ⟨op, i, hop, hfd, ⟨key, options, -, rfl⟩ | ⟨uploadId, n, -, rfl⟩ |
      ⟨key, uploadId, upload, parts, htask, rfl⟩⟩ := State.commit_cases hstep
    · rfl
    · rfl
    · have hout : ¬ Path.Within (cfg.partDir op.bucket uploadId).path p :=
        fun hin => hp ⟨op, hop, uploadId, by rw [Op.completed, htask]; rfl, hin⟩
      exact contents_removePartFiles _ _ _ hout
  | delete b key =>
    obtain rfl := Option.some.inj hstep
    rcases s.delete_cases cfg b key with ⟨-, heq⟩ | ⟨-, heq | heq⟩
    · rw [heq]
      rfl
    · rw [heq]
      rfl
    · rw [heq]
      exact (Disk.contents_unlink p).trans (if_neg (Ne.symm hp))
  | createMultipartUpload b key httpMetadata customMetadata uploadId now =>
    obtain ⟨-, -, rfl⟩ := State.createMultipartUpload_cases hstep
    rfl
  | abort b uploadId =>
    obtain rfl := Option.some.inj hstep
    exact contents_removePartFiles _ b uploadId hp
  | get b key onlyIf =>
    obtain ⟨-, rfl⟩ := State.handOut_cases hstep
    rfl
  | readBody b p =>
    obtain ⟨-, -, rfl⟩ := State.readBody_cases hstep
    rfl

theorem node_begin (s : State) (b : Bucket) (task : Task) (file : FilePath) {p : Path} {i : ℕ}
    (hi : s.disk.node p = some (.file i)) :
    (s.begin b task file).disk.node p = some (.file i) := by
  rcases s.begin_cases b task file with ⟨-, heq⟩ | ⟨disk, -, hmk, heq⟩
  · rw [heq]
    exact hi
  · rw [heq]
    exact Disk.node_mkdirs hmk hi

theorem node_removePartFiles (s : State) (b : Bucket) (uploadId : UploadId) {p : Path}
    (hp : ¬ Path.Within (cfg.partDir b uploadId).path p) :
    (s.removePartFiles cfg b uploadId).disk.node p = s.disk.node p := by
  rcases s.removePartFiles_cases cfg b uploadId with ⟨-, heq⟩ | ⟨-, heq | heq⟩
  · rw [heq]
  · rw [heq]
    rfl
  · rw [heq]
    exact if_neg hp

/-- A file stays the same file, unless the step reaches its path. -/
theorem node_step {p : Path} {i : ℕ} (hp : ¬ Hits cfg p s a) (hstep : step cfg s a = some s')
    (hi : s.disk.node p = some (.file i)) : s'.disk.node p = some (.file i) := by
  cases a with
  | put b key options =>
    obtain ⟨-, ⟨-, rfl⟩ | ⟨-, rfl⟩⟩ := State.put_cases hstep
    · exact hi
    · exact node_begin _ _ _ _ hi
  | uploadPart b uploadId n =>
    obtain ⟨upload, -, -, rfl⟩ := State.uploadPart_cases hstep
    exact node_begin _ _ _ _ hi
  | complete b key uploadId parts =>
    obtain ⟨upload, rows, -, -, -, rfl⟩ := State.complete_cases hstep
    exact node_begin _ _ _ _ hi
  | openFile id =>
    obtain ⟨op, hop, -, ⟨-, rfl⟩ | ⟨-, -, rfl⟩ | ⟨disk, j, -, -, hopen, rfl⟩⟩ :=
      State.openFile_cases hstep
    · exact hi
    · exact hi
    · have hne : p ≠ op.file.path := fun heq => hp ⟨op, hop, heq.symm⟩
      exact (Disk.node_openForWriting_of_ne hopen hne).trans hi
  | write id chunk =>
    obtain ⟨op, j, -, -, -, rfl⟩ := State.write_cases hstep
    exact hi
  | nextPart id =>
    obtain ⟨op, j, key, uploadId, upload, parts, row, rest, hop, hfd, htask,
      ⟨-, rfl⟩ | ⟨bytes, -, rfl⟩⟩ := State.nextPart_cases hstep
    · exact hi
    · exact hi
  | copy id n =>
    obtain ⟨op, j, key, uploadId, upload, parts, rest, source, -, -, -, rfl⟩ :=
      State.copy_cases hstep
    exact hi
  | fail id =>
    obtain ⟨op, j, -, -, rfl⟩ := State.fail_cases hstep
    exact hi
  | commit id version now =>
    obtain ⟨op, j, hop, hfd, ⟨key, options, -, rfl⟩ | ⟨uploadId, n, -, rfl⟩ |
      ⟨key, uploadId, upload, parts, htask, rfl⟩⟩ := State.commit_cases hstep
    · exact hi
    · exact hi
    · have hout : ¬ Path.Within (cfg.partDir op.bucket uploadId).path p :=
        fun hin => hp ⟨op, hop, uploadId, by rw [Op.completed, htask]; rfl, hin⟩
      exact (node_removePartFiles _ _ _ hout).trans hi
  | delete b key =>
    obtain rfl := Option.some.inj hstep
    rcases s.delete_cases cfg b key with ⟨-, heq⟩ | ⟨-, heq | heq⟩
    · rw [heq]
      exact hi
    · rw [heq]
      exact hi
    · rw [heq]
      exact (if_neg (Ne.symm hp)).trans hi
  | createMultipartUpload b key httpMetadata customMetadata uploadId now =>
    obtain ⟨-, -, rfl⟩ := State.createMultipartUpload_cases hstep
    exact hi
  | abort b uploadId =>
    obtain rfl := Option.some.inj hstep
    exact (node_removePartFiles _ b uploadId hp).trans hi
  | get b key onlyIf =>
    obtain ⟨-, rfl⟩ := State.handOut_cases hstep
    exact hi
  | readBody b p =>
    obtain ⟨-, -, rfl⟩ := State.readBody_cases hstep
    exact hi

end Frame

end Lopata.R2

import Lopata.R2.Pieces

/-!
# Which Files Rows and Operations Are About

In every run, the operations write the files of their keys or parts, the rows of parts name the
files of those parts, upload ids with rows are UUIDs, and the numbers of operations count up.

## Main results

* `IsUuid.partDir`: the directory of an upload is two levels below the bucket's.
* `Filed.step`, `filed_of_reaches`: the invariant of all runs.
-/

namespace Lopata.R2

/-! ### Upload ids -/

section Ids

variable {cfg : Config} {b : Bucket} {id : UploadId}

/-- UUIDs are plain names. -/
theorem IsUuid.isPlain (h : IsUuid id) : '/' ∉ id ∧ Path.IsPlain id := by
  obtain ⟨hlen, hchars⟩ := h
  refine ⟨fun hmem => ?_, ?_, ?_, ?_⟩
  · have hsep := hchars _ hmem
    revert hsep
    decide
  · rintro rfl
    revert hlen
    decide
  · rintro rfl
    revert hlen
    decide
  · rintro rfl
    revert hlen
    decide

theorem IsUuid.partDir (h : IsUuid id) :
    (cfg.partDir b id).path = cfg.baseDir b ++ [multipartDir] ++ [id] :=
  Path.join_of_not_mem _ h.isPlain.1 h.isPlain.2

theorem IsUuid.within_partDir (h : IsUuid id) :
    Path.Within (cfg.baseDir b) (cfg.partDir b id).path := by
  rw [h.partDir, List.append_assoc]
  exact Path.within_append _ _

theorem within_partFile (n : ℤ) :
    Path.Within (cfg.partDir b id).path (cfg.partFile b id n).path :=
  Path.within_append _ _

end Ids

/-! ### The invariant -/

/-- The files an operation writes and reads. -/
structure OpFiled (cfg : Config) (issued : Table UploadId Bucket) (op : Op) : Prop where
  put : ∀ key options, op.task = .put key options →
    ValidKey cfg key ∧ op.file = cfg.filePath op.bucket key
  part : ∀ id n, op.task = .part id n →
    IsUuid id ∧ issued.get? id = some op.bucket ∧ op.file = cfg.partFile op.bucket id n
  complete : ∀ key id upload parts rest source,
    op.task = .complete key id upload parts rest source →
      op.file = cfg.filePath op.bucket key ∧ IsUuid id ∧ rest <:+ parts ∧
        ∀ row ∈ parts, ∃ n, row.filePath = (cfg.partFile op.bucket id n).path

structure Filed (cfg : Config) (s : State) : Prop where
  uploads : ∀ id upload, s.uploads.get? id = some upload →
    IsUuid id ∧ s.issued.get? id = some upload.bucket
  parts : ∀ id n row, s.parts.get? (id, n) = some row →
    ∃ b, s.issued.get? id = some b ∧ row.filePath = (cfg.partFile b id n).path
  ops : ∀ id op, s.ops.get? id = some op → OpFiled cfg s.issued op
  numbered : ∀ id op, s.ops.get? id = some op → id < s.nextOp
  opened : ∀ b id p, (b, .openFile id p) ∈ s.log → id < s.nextOp

section Steps

variable {cfg : Config} {s s' : State} {a : Action} {b : Bucket} {key : Key} {id : ℕ}
  {uploadId : UploadId} {op : Op} {task : Task} {file : FilePath}

theorem filed_start (disk : Disk) : Filed cfg (.start disk) where
  uploads := by rintro id upload ⟨⟩
  parts := by rintro id n row ⟨⟩
  ops := by rintro id op ⟨⟩
  numbered := by rintro id op ⟨⟩
  opened := by rintro b id p ⟨⟩

/-- Tables stay, operations are filed and numbered, the log gets what it may. -/
theorem Filed.congr (h : Filed cfg s) (huploads : s'.uploads = s.uploads)
    (hparts : s'.parts = s.parts) (hissued : s'.issued = s.issued)
    (hops : ∀ id op, s'.ops.get? id = some op → OpFiled cfg s.issued op ∧ id < s'.nextOp)
    (hlog : ∀ b id p, (b, .openFile id p) ∈ s'.log → id < s'.nextOp) : Filed cfg s' where
  uploads := huploads ▸ hissued ▸ h.uploads
  parts := hparts ▸ hissued ▸ h.parts
  ops id op hop := hissued ▸ (hops id op hop).1
  numbered id op hop := (hops id op hop).2
  opened := hlog

theorem Filed.both (h : Filed cfg s) :
    ∀ id op, s.ops.get? id = some op → OpFiled cfg s.issued op ∧ id < s.nextOp :=
  fun id op hop => ⟨h.ops id op hop, h.numbered id op hop⟩

/-- The next number is free. -/
theorem Filed.get?_nextOp (h : Filed cfg s) : s.ops.get? s.nextOp = none := by
  cases hop : s.ops.get? s.nextOp with
  | none => rfl
  | some op => exact absurd (h.numbered _ op hop) (Nat.lt_irrefl _)

/-- Touching a path without opening it. -/
theorem Filed.touch (h : Filed cfg s) (b : Bucket) (access : Access)
    (hne : ∀ id p, access ≠ .openFile id p) : Filed cfg (s.touch b access) := by
  refine h.congr rfl rfl rfl h.both fun b' id p hmem => ?_
  rcases List.mem_cons.mp hmem with heq | hmem
  · exact absurd (Prod.mk.inj heq).2.symm (hne id p)
  · exact h.opened b' id p hmem

theorem Filed.settle (h : Filed cfg s) (id : ℕ) (reply : Reply) : Filed cfg (s.settle id reply) :=
  h.congr rfl rfl rfl (fun id' op hop => h.both id' op (Table.of_get?_erase hop).2) h.opened

theorem Filed.answer (h : Filed cfg s) (reply : Reply) : Filed cfg (s.answer reply) :=
  h.congr rfl rfl rfl
    (fun id op hop => ⟨h.ops id op hop, Nat.lt_succ_of_lt (h.numbered id op hop)⟩)
    fun b id p hmem => Nat.lt_succ_of_lt (h.opened b id p hmem)

/-- An operation replaced. -/
theorem Filed.get?_insert (h : Filed cfg s) (hop : OpFiled cfg s.issued op) (hid : id < s.nextOp) :
    ∀ id' op', (s.ops.insert id op).get? id' = some op' →
      OpFiled cfg s.issued op' ∧ id' < s.nextOp := by
  intro id' op' hop'
  rw [Table.get?_insert] at hop'
  split at hop'
  · next heq => exact ⟨Option.some.inj hop' ▸ hop, heq ▸ hid⟩
  · exact h.both id' op' hop'

theorem mem_beginLog {dir p : Path} {b b' : Bucket}
    (h : (b', .openFile id p) ∈ s.beginLog b dir) : (b', .openFile id p) ∈ s.log := by
  rw [State.beginLog] at h
  split at h
  · exact h
  · rcases List.mem_cons.mp h with heq | h
    · cases heq
    · exact h

theorem Filed.begin (h : Filed cfg s)
    (hop : OpFiled cfg s.issued { bucket := b, task, file }) :
    Filed cfg (s.begin b task file) := by
  have hlog : ∀ b' id p, (b', .openFile id p) ∈ s.beginLog b file.path.dropLast →
      id < s.nextOp + 1 :=
    fun b' id p hmem => Nat.lt_succ_of_lt (h.opened b' id p (mem_beginLog hmem))
  rcases s.begin_cases b task file with ⟨-, heq⟩ | ⟨disk, -, -, heq⟩
  · rw [heq]
    exact (h.answer .error).congr rfl rfl rfl (h.answer .error).both hlog
  · rw [heq]
    refine h.congr rfl rfl rfl (fun id' op' hop' => ?_) hlog
    have hop' : (s.ops.insert s.nextOp _).get? id' = some op' := hop'
    rw [Table.get?_insert] at hop'
    split at hop'
    · next heq' => exact ⟨Option.some.inj hop' ▸ hop, heq' ▸ Nat.lt_succ_self _⟩
    · exact ⟨h.ops id' op' hop', Nat.lt_succ_of_lt (h.numbered id' op' hop')⟩

theorem Filed.append (h : Filed cfg s) (hop : OpFiled cfg s.issued op) (hid : id < s.nextOp)
    (i : ℕ) (bytes : Bytes) : Filed cfg (s.append id op i bytes) :=
  h.congr rfl rfl rfl (h.get?_insert ⟨hop.put, hop.part, hop.complete⟩ hid) h.opened

theorem Filed.removePartFiles (h : Filed cfg s) :
    Filed cfg (s.removePartFiles cfg b uploadId) := by
  rcases s.removePartFiles_cases cfg b uploadId with ⟨-, heq⟩ | ⟨-, heq | heq⟩
  · rw [heq]
    exact h
  · rw [heq]
    exact h.touch b _ (by rintro id p ⟨⟩)
  · rw [heq]
    have htouch := (h.touch b (.stat (cfg.partDir b uploadId).path)
      (by rintro id p ⟨⟩)).touch b (.removeTree (cfg.partDir b uploadId).path)
        (by rintro id p ⟨⟩)
    exact htouch.congr rfl rfl rfl h.both htouch.opened

theorem Filed.deleteUpload (h : Filed cfg s) (uploadId : UploadId) :
    Filed cfg (s.deleteUpload uploadId) where
  uploads id upload hid := by
    rw [State.deleteUpload] at hid
    obtain ⟨-, hid⟩ := Table.of_get?_erase hid
    exact h.uploads id upload hid
  parts id n row hrow := by
    rw [State.deleteUpload, Table.get?_filter] at hrow
    exact h.parts id n row (Option.filter_eq_some_iff.mp hrow).1
  ops := h.ops
  numbered := h.numbered
  opened := h.opened

theorem Filed.insertObject (h : Filed cfg s) (b : Bucket) (key : Key) (row : Row) :
    Filed cfg (s.insertObject b key row) :=
  h.congr rfl rfl rfl h.both h.opened

theorem Filed.eraseObject (h : Filed cfg s) (b : Bucket) (key : Key) :
    Filed cfg (s.eraseObject b key) :=
  h.congr rfl rfl rfl h.both h.opened

theorem Filed.insertPart (h : Filed cfg s) {n : ℤ} {row : Part}
    (hissued : s.issued.get? uploadId = some b)
    (hfile : row.filePath = (cfg.partFile b uploadId n).path) :
    Filed cfg (s.insertPart uploadId n row) where
  uploads := h.uploads
  parts id m row' hrow := by
    rw [State.insertPart, Table.get?_insert] at hrow
    split at hrow
    · next heq =>
        obtain ⟨rfl, rfl⟩ := Prod.mk.inj heq
        obtain rfl := Option.some.inj hrow
        exact ⟨b, hissued, hfile⟩
    · exact h.parts id m row' hrow
  ops := h.ops
  numbered := h.numbered
  opened := h.opened

theorem Filed.openFile (h : Filed cfg s) (hstep : s.openFile id = some s') : Filed cfg s' := by
  obtain ⟨op, hop, -, ⟨-, rfl⟩ | ⟨-, -, rfl⟩ | ⟨disk, i, -, -, hopen, rfl⟩⟩ :=
    State.openFile_cases hstep
  · exact h.settle id .error
  · exact (h.touch _ _ (by rintro id p ⟨⟩)).settle id .error
  · have hfiled := h.ops id op hop
    have hid := h.numbered id op hop
    refine h.congr rfl rfl rfl
      (h.get?_insert ⟨hfiled.put, hfiled.part, hfiled.complete⟩ hid) fun b' id' p hmem => ?_
    rcases List.mem_cons.mp hmem with heq | hmem
    · obtain ⟨-, heq⟩ := Prod.mk.inj heq
      obtain ⟨rfl, -⟩ := Access.openFile.inj heq
      exact hid
    · exact h.opened b' id' p hmem

theorem Filed.nextPart (h : Filed cfg s) (hstep : s.nextPart id = some s') : Filed cfg s' := by
  obtain ⟨op, i, key, uploadId, upload, parts, row, rest, hop, -, htask,
    ⟨-, rfl⟩ | ⟨bytes, -, rfl⟩⟩ := State.nextPart_cases hstep
  · exact (h.touch _ _ (by rintro id p ⟨⟩)).settle id .error
  · obtain ⟨hfile, huuid, hrest, hrows⟩ := (h.ops id op hop).complete _ _ _ _ _ _ htask
    have htouch := h.touch op.bucket (.read row.filePath) (by rintro id p ⟨⟩)
    refine htouch.congr rfl rfl rfl (h.get?_insert ?_ (h.numbered id op hop)) htouch.opened
    refine ⟨?_, ?_, ?_⟩
    · rintro key' options ⟨⟩
    · rintro id' n ⟨⟩
    · rintro key' id' upload' parts' rest' source' ⟨⟩
      exact ⟨hfile, huuid, (List.suffix_cons row rest).trans hrest, hrows⟩

theorem Filed.copy (h : Filed cfg s) {n : ℕ} (hstep : s.copy id n = some s') : Filed cfg s' := by
  obtain ⟨op, i, key, uploadId, upload, parts, rest, source, hop, -, htask, rfl⟩ :=
    State.copy_cases hstep
  refine Filed.append h ?_ (h.numbered id op hop) i _
  refine ⟨?_, ?_, ?_⟩
  · rintro key' options ⟨⟩
  · rintro id' n ⟨⟩
  · rintro key' id' upload' parts' rest' source' ⟨⟩
    exact (h.ops id op hop).complete _ _ _ _ _ _ htask

theorem Filed.commit (h : Filed cfg s) {version : Text} {now : Time}
    (hstep : s.commit cfg id version now = some s') : Filed cfg s' := by
  obtain ⟨op, i, hop, hfd, ⟨key, options, htask, rfl⟩ | ⟨uploadId, n, htask, rfl⟩ |
    ⟨key, uploadId, upload, parts, htask, rfl⟩⟩ := State.commit_cases hstep
  · exact (h.insertObject _ _ _).settle id _
  · obtain ⟨-, hissued, hfile⟩ := (h.ops id op hop).part uploadId n htask
    exact (h.insertPart hissued (congrArg FilePath.path hfile)).settle id _
  · exact ((h.insertObject _ _ _).deleteUpload uploadId).removePartFiles.settle id _

theorem Filed.delete (h : Filed cfg s) : Filed cfg (s.delete cfg b key) := by
  have herase := h.eraseObject b key
  rcases s.delete_cases cfg b key with ⟨-, heq⟩ | ⟨-, heq | heq⟩
  · rw [heq]
    exact herase
  · rw [heq]
    exact herase.touch b _ (by rintro id p ⟨⟩)
  · rw [heq]
    have htouch := (herase.touch b (.stat (cfg.filePath b key).path)
      (by rintro id p ⟨⟩)).touch b (.unlink (cfg.filePath b key).path) (by rintro id p ⟨⟩)
    exact htouch.congr rfl rfl rfl htouch.both htouch.opened

theorem Filed.createMultipartUpload (h : Filed cfg s) (hid : IsUuid uploadId)
    (hnew : s.issued.get? uploadId = none) (upload : Upload) :
    Filed cfg { s with
      uploads := s.uploads.insert uploadId upload
      issued := s.issued.insert uploadId upload.bucket } := by
  have hkeep : ∀ id b, s.issued.get? id = some b →
      (s.issued.insert uploadId upload.bucket).get? id = some b := by
    intro id b hb
    have hne : id ≠ uploadId := by
      rintro rfl
      cases hnew.symm.trans hb
    rw [Table.get?_insert_of_ne _ _ hne, hb]
  refine ⟨fun id up hup => ?_, fun id n row hrow => ?_, fun id op hop => ?_, h.numbered, h.opened⟩
  · have hup : (s.uploads.insert uploadId upload).get? id = some up := hup
    rcases Table.of_get?_insert hup with ⟨heq, rfl⟩ | ⟨-, hup⟩
    · exact ⟨heq ▸ hid, by rw [heq, Table.get?_insert_self]⟩
    · obtain ⟨huuid, hb⟩ := h.uploads id up hup
      exact ⟨huuid, hkeep id _ hb⟩
  · obtain ⟨b, hb, hfile⟩ := h.parts id n row hrow
    exact ⟨b, hkeep id b hb, hfile⟩
  · have hfiled := h.ops id op hop
    refine ⟨hfiled.put, fun id' n htask => ?_, hfiled.complete⟩
    obtain ⟨huuid, hb, hfile⟩ := hfiled.part id' n htask
    exact ⟨huuid, hkeep id' _ hb, hfile⟩

/-- The operation a `put` begins. -/
theorem opFiled_put {issued : Table UploadId Bucket} {options : PutOptions}
    (h : ValidKey cfg key) :
    OpFiled cfg issued
      { bucket := b, task := .put key options, file := cfg.filePath b key } where
  put := by
    rintro key' options' ⟨⟩
    exact ⟨h, rfl⟩
  part := by rintro id n ⟨⟩
  complete := by rintro key' id upload parts rest source ⟨⟩

/-- The operation an `uploadPart` begins. -/
theorem Filed.opFiled_part (h : Filed cfg s) {upload : Upload} {n : ℤ}
    (hupload : s.uploads.get? uploadId = some upload) (hb : upload.bucket = b) :
    OpFiled cfg s.issued
      { bucket := b, task := .part uploadId n, file := cfg.partFile b uploadId n } where
  put := by rintro key options ⟨⟩
  part := by
    rintro id' n' ⟨⟩
    obtain ⟨huuid, hissued⟩ := h.uploads uploadId upload hupload
    exact ⟨huuid, hb ▸ hissued, rfl⟩
  complete := by rintro key id upload parts rest source ⟨⟩

/-- The operation a completion begins. -/
theorem Filed.opFiled_complete (h : Filed cfg s) {upload : Upload} {rows : List Part}
    {parts : List (ℤ × Etag)} (hupload : s.uploads.get? uploadId = some upload)
    (hb : upload.bucket = b) (hrows : s.partRows uploadId parts = some rows) :
    OpFiled cfg s.issued
      { bucket := b
        task := .complete key uploadId upload rows rows []
        file := cfg.filePath b key } where
  put := by rintro key options ⟨⟩
  part := by rintro id n ⟨⟩
  complete := by
    rintro key' id' upload' parts' rest' source' ⟨⟩
    obtain ⟨huuid, hissued⟩ := h.uploads uploadId upload hupload
    refine ⟨rfl, huuid, List.suffix_refl rows, fun row hrow => ?_⟩
    obtain ⟨n, hn⟩ := State.mem_partRows hrows hrow
    obtain ⟨b', hb', hfile⟩ := h.parts uploadId n row hn
    obtain rfl : b = b' := by
      rw [hissued, hb] at hb'
      exact Option.some.inj hb'
    exact ⟨n, hfile⟩

theorem Filed.step (h : Filed cfg s) (hstep : step cfg s a = some s') : Filed cfg s' := by
  cases a with
  | put b key options =>
    obtain ⟨hvalid, ⟨-, rfl⟩ | ⟨-, rfl⟩⟩ := State.put_cases hstep
    · exact h.answer .null
    · exact h.begin (opFiled_put hvalid)
  | uploadPart b uploadId n =>
    obtain ⟨upload, hupload, hb, rfl⟩ := State.uploadPart_cases hstep
    exact h.begin (h.opFiled_part hupload hb)
  | complete b key uploadId parts =>
    obtain ⟨upload, rows, hupload, hb, hrows, rfl⟩ := State.complete_cases hstep
    exact h.begin (h.opFiled_complete hupload hb hrows)
  | openFile id => exact h.openFile hstep
  | write id chunk =>
    obtain ⟨op, i, hop, -, -, rfl⟩ := State.write_cases hstep
    exact h.append (h.ops id op hop) (h.numbered id op hop) i chunk
  | nextPart id => exact h.nextPart hstep
  | copy id n => exact h.copy hstep
  | fail id =>
    obtain ⟨op, i, -, -, rfl⟩ := State.fail_cases hstep
    exact h.settle id .error
  | commit id version now => exact h.commit hstep
  | delete b key =>
    obtain rfl := Option.some.inj hstep
    exact h.delete
  | createMultipartUpload b key httpMetadata customMetadata uploadId now =>
    obtain ⟨huuid, hnew, rfl⟩ := State.createMultipartUpload_cases hstep
    exact h.createMultipartUpload huuid hnew _
  | abort b uploadId =>
    obtain rfl := Option.some.inj hstep
    exact (h.deleteUpload uploadId).removePartFiles
  | get b key onlyIf =>
    obtain ⟨-, rfl⟩ := State.handOut_cases hstep
    exact h.congr rfl rfl rfl h.both h.opened
  | readBody b p =>
    obtain ⟨-, -, rfl⟩ := State.readBody_cases hstep
    exact h.touch b _ (by rintro id p ⟨⟩)

end Steps

/-- The invariant of all runs. -/
theorem filed_of_reaches {cfg : Config} {disk : Disk} {s : State}
    (h : Reaches (step cfg) unguarded (.start disk) s) : Filed cfg s ∧ Handled s := by
  refine h.invariant (I := fun s => Filed cfg s ∧ Handled s)
    ⟨filed_start disk, handled_start disk⟩ fun s a s' hs _ hstep => ?_
  exact ⟨hs.1.step hstep, hs.2.step hstep⟩

end Lopata.R2

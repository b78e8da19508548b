import Lopata.R2.Pieces

/-!
# Handles of Multipart Uploads

An upload is made for a key of a bucket. Later calls go through a handle: the one that was made
with the upload, one that is resumed with any key and id, or one that S3 resumes with the bucket,
the key and the id of a URL. `complete` looks for the upload in the bucket of the handle, and writes
its parts to the key of the handle, whatever key the upload was made for. `abort` looks for nothing.

## Main definitions

* `Tracked`: the buckets, with what each upload was made for, what each object was made of and what
  the uploads were aborted through.
* `Bound`: uploads have become the content of their own keys only, and were aborted through them.

## Main results

* `bound_throughout_iff`: that is so all along a run exactly when every call names the key of the
  upload, and a call that aborts it its bucket too.
* `not_bound`: an upload that is completed into another key.
-/

namespace Lopata.R2

/-! ### Handles -/

/-- `R2MultipartUpload`. -/
structure Handle where
  bucket : Bucket
  key : Key
  uploadId : UploadId

/-- `resumeMultipartUpload`: nothing is looked up. -/
def resumeMultipartUpload (b : Bucket) (key : Key) (id : UploadId) : Handle :=
  ⟨b, key, id⟩

/-- The calls through handles and URLs, and the pieces of all other calls. -/
inductive Call
  | complete (h : Handle) (parts : List (ℤ × Etag))
  | abort (h : Handle)
  /-- `POST /b/key?uploadId=id`. -/
  | completeRequest (b : Bucket) (key : Key) (id : UploadId) (parts : List (ℤ × Etag))
  /-- `DELETE /b/key?uploadId=id`. -/
  | abortRequest (b : Bucket) (key : Key) (id : UploadId)
  | piece (a : Action)

/-- `handleCompleteMultipartUpload` refuses a request without parts. -/
def handleCompleteMultipartUpload (b : Bucket) (key : Key) (id : UploadId)
    (parts : List (ℤ × Etag)) : Option Action :=
  let upload := resumeMultipartUpload b key id
  if parts = [] then none else some (.complete upload.bucket upload.key upload.uploadId parts)

/-- The first piece of a call. -/
def Call.action : Call → Option Action
  | .complete h parts => some (.complete h.bucket h.key h.uploadId parts)
  | .abort h => some (.abort h.bucket h.uploadId)
  | .completeRequest b key id parts => handleCompleteMultipartUpload b key id parts
  | .abortRequest b key id =>
      let upload := resumeMultipartUpload b key id
      some (.abort upload.bucket upload.uploadId)
  | .piece (.complete ..) | .piece (.abort ..) => none
  | .piece a => some a

/-- The handle of a call that completes, and the parts. -/
def Call.completes : Call → Option (Handle × List (ℤ × Etag))
  | .complete h parts => some (h, parts)
  | .completeRequest b key id parts => some (resumeMultipartUpload b key id, parts)
  | .abort _ | .abortRequest .. | .piece _ => none

/-- The handle of a call that aborts. -/
def Call.aborts : Call → Option Handle
  | .abort h => some h
  | .abortRequest b key id => some (resumeMultipartUpload b key id)
  | .complete .. | .completeRequest .. | .piece _ => none

/-! ### What becomes of uploads -/

/-- The upload an operation assembles, and the key it assembles it into. -/
def Op.into (op : Op) : Option (UploadId × Bucket × Key) :=
  match op.task with
  | .complete key id .. => some (id, op.bucket, key)
  | .put .. | .part .. => none

/-- The buckets, and what has become of the uploads. -/
structure Tracked where
  state : State
  /-- What each upload was made for. -/
  madeFor : Table UploadId (Bucket × Key)
  /-- The upload whose parts an object is made of. -/
  content : Table (Bucket × Key) UploadId
  /-- The uploads that were aborted, with the bucket and the key they were aborted through. -/
  aborted : List (UploadId × Bucket × Key)

namespace Tracked

def start (disk : Disk) : Tracked where
  state := .start disk
  madeFor := .empty
  content := .empty
  aborted := []

variable (t : Tracked)

/-- Creation notes the bucket and the key. -/
def nowMadeFor : Action → Table UploadId (Bucket × Key)
  | .createMultipartUpload b key _ _ id _ => t.madeFor.insert id (b, key)
  | _ => t.madeFor

/-- An object is written by a completion or by a `put`, or deleted. -/
def nowContent : Action → Table (Bucket × Key) UploadId
  | .commit n _ _ =>
      match t.state.ops.get? n with
      | none => t.content
      | some op =>
          match op.task with
          | .put key _ => t.content.erase (op.bucket, key)
          | .part .. => t.content
          | .complete key id .. => t.content.insert (op.bucket, key) id
  | .delete b key => t.content.erase (b, key)
  | _ => t.content

/-- An upload that is there is aborted. -/
def nowAborted (c : Call) : List (UploadId × Bucket × Key) :=
  match c.aborts with
  | none => t.aborted
  | some h =>
      if (t.state.uploads.get? h.uploadId).isSome then
        (h.uploadId, h.bucket, h.key) :: t.aborted
      else t.aborted

/-- A call, noted. -/
def step (cfg : Config) (t : Tracked) (c : Call) : Option Tracked :=
  c.action.bind fun a => (R2.step cfg t.state a).map fun state =>
    { state
      madeFor := t.nowMadeFor a
      content := t.nowContent a
      aborted := t.nowAborted c }

end Tracked

/-- Parts are written to the key of their upload only, and it is aborted through its bucket and
its key only. -/
structure Bound (t : Tracked) : Prop where
  writing : ∀ n op id target, t.state.ops.get? n = some op → op.into = some (id, target) →
    t.madeFor.get? id = some target
  content : ∀ target id, t.content.get? target = some id → t.madeFor.get? id = some target
  aborted : ∀ id target, (id, target) ∈ t.aborted → t.madeFor.get? id = some target

/-- A completion goes through its checks and gets to write its file. -/
def Begins (cfg : Config) (s : State) (h : Handle) (parts : List (ℤ × Etag)) : Prop :=
  (s.partRows h.uploadId parts).isSome ∧
    ¬ HasNul (cfg.filePath h.bucket h.key).path.dropLast ∧
    (s.disk.mkdirs (cfg.filePath h.bucket h.key).path.dropLast).isSome

/-- A call that completes an upload names its key; the code makes sure of the bucket. One that
aborts it names both. -/
structure OwnKey (cfg : Config) (t : Tracked) (c : Call) : Prop where
  completes : ∀ h parts, c.completes = some (h, parts) →
    ∀ upload ∈ t.state.uploads.get? h.uploadId, upload.bucket = h.bucket →
      Begins cfg t.state h parts → upload.key = h.key
  aborts : ∀ h ∈ c.aborts, ∀ upload ∈ t.state.uploads.get? h.uploadId,
    upload.bucket = h.bucket ∧ upload.key = h.key

/-! ### What a piece leaves -/

section Frames

variable {cfg : Config} {s s' : State} {a : Action} {id : ℕ}

/-- No operation has come to assemble an upload, and no upload has been made. -/
structure Keeps (s s' : State) : Prop where
  into : ∀ n op target, s'.ops.get? n = some op → op.into = some target →
    ∃ n op, s.ops.get? n = some op ∧ op.into = some target
  uploads : ∀ id upload, s'.uploads.get? id = some upload → s.uploads.get? id = some upload
  issued : s'.issued = s.issued

theorem Keeps.of_eq (hops : s'.ops = s.ops) (huploads : s'.uploads = s.uploads)
    (hissued : s'.issued = s.issued) : Keeps s s' where
  into n op _ hop hinto := ⟨n, op, hops ▸ hop, hinto⟩
  uploads _ _ h := huploads ▸ h
  issued := hissued

/-- An operation that goes on assembles what it did. -/
theorem Keeps.insert {op op' : Op} (hop : s.ops.get? id = some op)
    (hops : s'.ops = s.ops.insert id op') (hinto : op'.into = op.into)
    (huploads : s'.uploads = s.uploads) (hissued : s'.issued = s.issued) : Keeps s s' where
  into n op₁ target hop₁ htarget := by
    rw [hops] at hop₁
    rcases Table.of_get?_insert hop₁ with ⟨-, rfl⟩ | ⟨-, hop₁⟩
    · exact ⟨id, op, hop, hinto ▸ htarget⟩
    · exact ⟨n, op₁, hop₁, htarget⟩
  uploads _ _ h := huploads ▸ h
  issued := hissued

theorem Keeps.settle (h : Keeps s s') (id : ℕ) (reply : Reply) : Keeps s (s'.settle id reply) where
  into n op target hop htarget := h.into n op target (Table.of_get?_erase hop).2 htarget
  uploads := h.uploads
  issued := h.issued

theorem Keeps.deleteUpload (h : Keeps s s') (uploadId : UploadId) :
    Keeps s (s'.deleteUpload uploadId) where
  into := h.into
  uploads id upload hupload := by
    have herase : (s'.uploads.erase uploadId).get? id = some upload := hupload
    exact h.uploads id upload (Table.of_get?_erase herase).2
  issued := h.issued

theorem Keeps.touch (h : Keeps s s') (b : Bucket) (access : Access) :
    Keeps s (s'.touch b access) :=
  ⟨h.into, h.uploads, h.issued⟩

theorem Keeps.insertObject (h : Keeps s s') (b : Bucket) (key : Key) (row : Row) :
    Keeps s (s'.insertObject b key row) :=
  ⟨h.into, h.uploads, h.issued⟩

theorem Keeps.insertPart (h : Keeps s s') (uploadId : UploadId) (n : ℤ) (row : Part) :
    Keeps s (s'.insertPart uploadId n row) :=
  ⟨h.into, h.uploads, h.issued⟩

theorem Keeps.removePartFiles (h : Keeps s s') (b : Bucket) (uploadId : UploadId) :
    Keeps s (s'.removePartFiles cfg b uploadId) := by
  rcases s'.removePartFiles_cases cfg b uploadId with ⟨-, heq⟩ | ⟨-, heq | heq⟩ <;> rw [heq] <;>
    exact ⟨h.into, h.uploads, h.issued⟩

/-- A call that writes a value begins. -/
theorem Keeps.begin (b : Bucket) {task : Task} (file : FilePath)
    (htask : ∀ op : Op, op.task = task → op.into = none) : Keeps s (s.begin b task file) := by
  rcases s.begin_cases b task file with ⟨-, heq⟩ | ⟨disk, -, -, heq⟩
  · rw [heq]
    exact .of_eq rfl rfl rfl
  · rw [heq]
    refine ⟨fun n op target hop hinto => ?_, fun _ _ h => h, rfl⟩
    rcases Table.of_get?_insert hop with ⟨-, rfl⟩ | ⟨-, hop⟩
    · rw [htask _ rfl] at hinto
      cases hinto
    · exact ⟨n, op, hop, hinto⟩

/-- Only `complete` begins to assemble, and only creation makes an upload. -/
theorem keeps_step (hstep : step cfg s a = some s')
    (hcomplete : ∀ b key id parts, a ≠ .complete b key id parts)
    (hcreate : ∀ b key httpMetadata customMetadata id now,
      a ≠ .createMultipartUpload b key httpMetadata customMetadata id now) : Keeps s s' := by
  have hself : Keeps s s := .of_eq rfl rfl rfl
  cases a with
  | put b key options =>
    obtain ⟨-, ⟨-, rfl⟩ | ⟨-, rfl⟩⟩ := State.put_cases hstep
    · exact .of_eq rfl rfl rfl
    · exact .begin b _ fun op htask => by rw [Op.into, htask]
  | uploadPart b uploadId n =>
    obtain ⟨upload, -, -, rfl⟩ := State.uploadPart_cases hstep
    exact .begin b _ fun op htask => by rw [Op.into, htask]
  | complete b key uploadId parts => exact absurd rfl (hcomplete b key uploadId parts)
  | openFile id =>
    obtain ⟨op, hop, -, ⟨-, rfl⟩ | ⟨-, -, rfl⟩ | ⟨disk, j, -, -, -, rfl⟩⟩ :=
      State.openFile_cases hstep
    · exact hself.settle id _
    · exact (hself.touch _ _).settle id _
    · exact .insert hop rfl rfl rfl rfl
  | write id chunk =>
    obtain ⟨op, j, hop, -, -, rfl⟩ := State.write_cases hstep
    exact .insert hop rfl rfl rfl rfl
  | nextPart id =>
    obtain ⟨op, j, key, uploadId, upload, parts, row, rest, hop, -, htask,
      ⟨-, rfl⟩ | ⟨bytes, -, rfl⟩⟩ := State.nextPart_cases hstep
    · exact (hself.touch _ _).settle id _
    · exact .insert hop rfl (by simp only [Op.into, htask]) rfl rfl
  | copy id n =>
    obtain ⟨op, j, key, uploadId, upload, parts, rest, source, hop, -, htask, rfl⟩ :=
      State.copy_cases hstep
    exact .insert hop rfl (by simp only [Op.into, htask]) rfl rfl
  | fail id =>
    obtain ⟨op, j, -, -, rfl⟩ := State.fail_cases hstep
    exact hself.settle id _
  | commit id version now =>
    obtain ⟨op, j, -, -, ⟨key, options, -, rfl⟩ | ⟨uploadId, n, -, rfl⟩ |
      ⟨key, uploadId, upload, parts, -, rfl⟩⟩ := State.commit_cases hstep
    · exact (hself.insertObject _ _ _).settle id _
    · exact (hself.insertPart _ _ _).settle id _
    · exact (((hself.insertObject _ _ _).deleteUpload uploadId).removePartFiles _ _).settle id _
  | delete b key =>
    obtain rfl := Option.some.inj hstep
    rcases s.delete_cases cfg b key with ⟨-, heq⟩ | ⟨-, heq | heq⟩ <;> rw [heq] <;>
      exact .of_eq rfl rfl rfl
  | createMultipartUpload b key httpMetadata customMetadata uploadId now =>
    exact absurd rfl (hcreate b key httpMetadata customMetadata uploadId now)
  | abort b uploadId =>
    obtain rfl := Option.some.inj hstep
    exact (hself.deleteUpload uploadId).removePartFiles b uploadId
  | get b key onlyIf =>
    obtain ⟨-, rfl⟩ := State.handOut_cases hstep
    exact .of_eq rfl rfl rfl
  | readBody b p =>
    obtain ⟨-, -, rfl⟩ := State.readBody_cases hstep
    exact .of_eq rfl rfl rfl

end Frames

/-! ### Notes -/

section Notes

variable {cfg : Config} {t t' : Tracked} {c : Call} {a : Action}

/-- The notes are of the uploads there are. -/
structure Noted (t : Tracked) : Prop where
  uploads : ∀ id upload, t.state.uploads.get? id = some upload →
    t.madeFor.get? id = some (upload.bucket, upload.key)
  issued : ∀ id, t.state.issued.get? id = none → t.madeFor.get? id = none

theorem noted_start (disk : Disk) : Noted (.start disk) where
  uploads id upload h := by
    rw [Tracked.start, State.start] at h
    cases h
  issued _ _ := rfl

theorem bound_start (disk : Disk) : Bound (.start disk) where
  writing n op id target h := by
    rw [Tracked.start, State.start] at h
    cases h
  content target id h := by
    rw [Tracked.start] at h
    cases h
  aborted id target h := by
    rw [Tracked.start] at h
    cases h

theorem Tracked.step_cases (h : Tracked.step cfg t c = some t') :
    ∃ a state, c.action = some a ∧ R2.step cfg t.state a = some state ∧
      t' = ⟨state, t.nowMadeFor a, t.nowContent a, t.nowAborted c⟩ := by
  obtain ⟨a, ha, hstep⟩ := Option.bind_eq_some_iff.mp h
  obtain ⟨state, hstate, rfl⟩ := Option.map_eq_some_iff.mp hstep
  exact ⟨a, state, ha, hstate, rfl⟩

/-- What a call is: a completion, an abort, or a piece of another call. -/
theorem Call.action_cases (h : c.action = some a) :
    (∃ hd parts, c.completes = some (hd, parts) ∧ c.aborts = none ∧
      a = .complete hd.bucket hd.key hd.uploadId parts) ∨
    (∃ hd, c.completes = none ∧ c.aborts = some hd ∧ a = .abort hd.bucket hd.uploadId) ∨
    (c.completes = none ∧ c.aborts = none ∧
      ∀ b key id parts, a ≠ .complete b key id parts) := by
  cases c with
  | complete hd parts => exact .inl ⟨hd, parts, rfl, rfl, (Option.some.inj h).symm⟩
  | completeRequest b key id parts =>
    simp only [action, handleCompleteMultipartUpload] at h
    split at h
    · cases h
    · exact .inl ⟨_, parts, rfl, rfl, (Option.some.inj h).symm⟩
  | abort hd => exact .inr (.inl ⟨hd, rfl, rfl, (Option.some.inj h).symm⟩)
  | abortRequest b key id => exact .inr (.inl ⟨_, rfl, rfl, (Option.some.inj h).symm⟩)
  | piece a' =>
    refine .inr (.inr ⟨rfl, rfl, ?_⟩)
    rintro b key id parts rfl
    cases a' <;> cases h

/-- A new upload has an id that no note is about. -/
theorem Noted.mono (h : Noted t) {state : State} (hstep : R2.step cfg t.state a = some state)
    {id : UploadId} {target : Bucket × Key} (hmade : t.madeFor.get? id = some target) :
    (t.nowMadeFor a).get? id = some target := by
  cases a with
  | createMultipartUpload b key httpMetadata customMetadata uploadId now =>
    obtain ⟨-, hnew, -⟩ := State.createMultipartUpload_cases hstep
    rw [Tracked.nowMadeFor, Table.get?_insert_of_ne]
    · exact hmade
    · rintro rfl
      cases (h.issued _ hnew).symm.trans hmade
  | _ => exact hmade

/-- What an object is made of, it was made of before or was being assembled from. -/
theorem content_cases {id : UploadId} {target : Bucket × Key}
    (h : (t.nowContent a).get? target = some id) :
    t.content.get? target = some id ∨
      ∃ n op, t.state.ops.get? n = some op ∧ op.into = some (id, target) := by
  cases a with
  | commit n version now =>
    simp only [Tracked.nowContent] at h
    split at h
    · exact .inl h
    · next op hop =>
      split at h
      · exact .inl (Table.of_get?_erase h).2
      · exact .inl h
      · next key uploadId _ _ _ _ htask =>
        rw [Table.get?_insert] at h
        split at h
        · next heq =>
          obtain rfl := Option.some.inj h
          exact .inr ⟨n, op, hop, by rw [Op.into, htask, heq]⟩
        · exact .inl h
  | delete b key => exact .inl (Table.of_get?_erase h).2
  | _ => exact .inl h

/-- A piece that makes no upload leaves the notes of the others. -/
theorem Noted.of_keeps (h : Noted t)
    (huploads : ∀ id upload, t'.state.uploads.get? id = some upload →
      t.state.uploads.get? id = some upload)
    (hissued : t'.state.issued = t.state.issued) (hmade : t'.madeFor = t.madeFor) : Noted t' where
  uploads id upload hupload := by
    rw [hmade]
    exact h.uploads id upload (huploads id upload hupload)
  issued id hid := by
    rw [hissued] at hid
    rw [hmade]
    exact h.issued id hid

theorem Noted.step (h : Noted t) (hstep : Tracked.step cfg t c = some t') : Noted t' := by
  obtain ⟨a, state, -, hstate, rfl⟩ := Tracked.step_cases hstep
  by_cases hcreate : ∃ b key httpMetadata customMetadata id now,
      a = .createMultipartUpload b key httpMetadata customMetadata id now
  · obtain ⟨b, key, httpMetadata, customMetadata, id, now, rfl⟩ := hcreate
    obtain ⟨-, hnew, rfl⟩ := State.createMultipartUpload_cases hstate
    refine ⟨fun id' upload hupload => ?_, fun id' hid => ?_⟩
    · simp only [Tracked.nowMadeFor, Table.get?_insert] at hupload ⊢
      split at hupload
      · next heq =>
        obtain rfl := Option.some.inj hupload
        rw [if_pos heq]
      · next hne =>
        rw [if_neg hne]
        exact h.uploads id' upload hupload
    · simp only [Tracked.nowMadeFor, Table.get?_insert] at hid ⊢
      split at hid
      · cases hid
      · next hne =>
        rw [if_neg hne]
        exact h.issued id' hid
  · have hmade : t.nowMadeFor a = t.madeFor := by
      cases a with
      | createMultipartUpload b key httpMetadata customMetadata id now =>
        exact absurd ⟨b, key, httpMetadata, customMetadata, id, now, rfl⟩ hcreate
      | _ => rfl
    by_cases hcomplete : ∃ b key id parts, a = .complete b key id parts
    · obtain ⟨b, key, id, parts, rfl⟩ := hcomplete
      obtain ⟨upload, rows, -, -, -, rfl⟩ := State.complete_cases hstate
      rcases t.state.begin_cases b (.complete key id upload rows rows []) (cfg.filePath b key) with
        ⟨-, heq⟩ | ⟨disk, -, -, heq⟩
      all_goals
        have hissued := congrArg State.issued heq
        exact h.of_keeps (fun _ _ h => by rwa [heq] at h) hissued hmade
    · have hkeeps := keeps_step hstate
        (fun b key id parts heq => hcomplete ⟨b, key, id, parts, heq⟩)
        fun b key httpMetadata customMetadata id now heq =>
          hcreate ⟨b, key, httpMetadata, customMetadata, id, now, heq⟩
      exact h.of_keeps hkeeps.uploads hkeeps.issued hmade

/-- A piece that begins no completion leaves the operations in their places. -/
theorem Bound.writing_of_piece (h : Bound t) (hnoted : Noted t) {state : State}
    (hstate : R2.step cfg t.state a = some state)
    (hcomplete : ∀ b key id parts, a ≠ .complete b key id parts) {n : ℕ} {op : Op} {id : UploadId}
    {target : Bucket × Key} (hop : state.ops.get? n = some op)
    (hinto : op.into = some (id, target)) : (t.nowMadeFor a).get? id = some target := by
  refine hnoted.mono hstate ?_
  by_cases hcreate : ∃ b key httpMetadata customMetadata id now,
      a = .createMultipartUpload b key httpMetadata customMetadata id now
  · obtain ⟨b, key, httpMetadata, customMetadata, id', now, rfl⟩ := hcreate
    obtain ⟨-, -, rfl⟩ := State.createMultipartUpload_cases hstate
    exact h.writing n op id target hop hinto
  · have hkeeps := keeps_step hstate hcomplete
      fun b key httpMetadata customMetadata id now heq =>
        hcreate ⟨b, key, httpMetadata, customMetadata, id, now, heq⟩
    obtain ⟨n', op', hop', hinto'⟩ := hkeeps.into n op _ hop hinto
    exact h.writing n' op' id target hop' hinto'

/-- So do the contents of the objects. -/
theorem Bound.content_of_piece (h : Bound t) (hnoted : Noted t) {state : State}
    (hstate : R2.step cfg t.state a = some state) {id : UploadId} {target : Bucket × Key}
    (hcontent : (t.nowContent a).get? target = some id) :
    (t.nowMadeFor a).get? id = some target := by
  refine hnoted.mono hstate ?_
  rcases content_cases hcontent with hbefore | ⟨n, op, hop, hinto⟩
  · exact h.content target id hbefore
  · exact h.writing n op id target hop hinto

/-- **A completion** keeps uploads to their keys exactly if it does not begin or its key is the
upload's. -/
theorem Bound.complete_iff (h : Bound t) (hnoted : Noted t) {hd : Handle}
    {parts : List (ℤ × Etag)} {state : State} (haborts : c.aborts = none)
    (hstate : t.state.complete cfg hd.bucket hd.key hd.uploadId parts = some state) :
    Bound ⟨state, t.madeFor, t.content, t.nowAborted c⟩ ↔
      ∀ upload ∈ t.state.uploads.get? hd.uploadId, upload.bucket = hd.bucket →
        Begins cfg t.state hd parts → upload.key = hd.key := by
  obtain ⟨upload, rows, hupload, hbucket, hrows, rfl⟩ := State.complete_cases hstate
  have hmade := hnoted.uploads _ _ hupload
  have haborted : t.nowAborted c = t.aborted := by rw [Tracked.nowAborted, haborts]
  have hbegins : (∀ upload ∈ t.state.uploads.get? hd.uploadId, upload.bucket = hd.bucket →
      Begins cfg t.state hd parts → upload.key = hd.key) ↔
        (Begins cfg t.state hd parts → upload.key = hd.key) :=
    ⟨fun hall => hall upload hupload hbucket, fun hkey other hother _ =>
      Option.some.inj (hupload.symm.trans hother) ▸ hkey⟩
  rw [haborted, hbegins]
  rcases t.state.begin_cases hd.bucket (.complete hd.key hd.uploadId upload rows rows [])
    (cfg.filePath hd.bucket hd.key) with ⟨hrefused, heq⟩ | ⟨disk, hnul, hmk, heq⟩
  · refine iff_of_true ⟨fun n op id target hop => ?_, h.content, h.aborted⟩ fun hbegins => ?_
    · rw [heq] at hop
      exact h.writing n op id target hop
    · rcases hrefused with hnul | hmk
      · exact absurd hnul hbegins.2.1
      · exact absurd hbegins.2.2 (by rw [hmk]; decide)
  · have hall : Begins cfg t.state hd parts := ⟨by rw [hrows]; rfl, hnul, by rw [hmk]; rfl⟩
    constructor
    · intro hbound _
      have hnew := hbound.writing t.state.nextOp _ hd.uploadId (hd.bucket, hd.key)
        (by rw [heq]; exact Table.get?_insert_self ..) rfl
      exact congrArg Prod.snd (Option.some.inj (hmade.symm.trans hnew))
    · intro hkey
      refine ⟨fun n op id target hop hinto => ?_, h.content, h.aborted⟩
      rw [heq] at hop
      have hop : (t.state.ops.insert t.state.nextOp _).get? n = some op := hop
      rcases Table.of_get?_insert hop with ⟨-, rfl⟩ | ⟨-, hop⟩
      · obtain ⟨rfl, rfl⟩ := Prod.mk.inj (Option.some.inj hinto)
        rw [hmade, hbucket, hkey hall]
      · exact h.writing n op id target hop hinto

/-- **An abort** does so exactly if the upload is not there or the handle is the upload's. -/
theorem Bound.abort_iff (h : Bound t) (hnoted : Noted t) {hd : Handle} {state : State}
    (haborts : c.aborts = some hd)
    (hstate : R2.step cfg t.state (.abort hd.bucket hd.uploadId) = some state) :
    Bound ⟨state, t.madeFor, t.content, t.nowAborted c⟩ ↔
      ∀ upload ∈ t.state.uploads.get? hd.uploadId,
        upload.bucket = hd.bucket ∧ upload.key = hd.key := by
  have hwriting : ∀ n op id target, state.ops.get? n = some op → op.into = some (id, target) →
      t.madeFor.get? id = some target := fun n op id target =>
    h.writing_of_piece hnoted hstate (fun b key id parts => by rintro ⟨⟩)
  have haborted : t.nowAborted c = if (t.state.uploads.get? hd.uploadId).isSome then
      (hd.uploadId, hd.bucket, hd.key) :: t.aborted else t.aborted := by
    rw [Tracked.nowAborted, haborts]
  rw [haborted]
  cases hupload : t.state.uploads.get? hd.uploadId with
  | none => exact iff_of_true ⟨hwriting, h.content, h.aborted⟩ fun _ hmem => by cases hmem
  | some upload =>
    have hmade := hnoted.uploads _ _ hupload
    rw [Option.isSome_some, if_pos rfl]
    constructor
    · rintro hbound _ ⟨⟩
      have hnew := hbound.aborted hd.uploadId (hd.bucket, hd.key) List.mem_cons_self
      exact Prod.mk.inj (Option.some.inj (hmade.symm.trans hnew))
    · intro hown
      obtain ⟨hbucket, hkey⟩ := hown upload rfl
      refine ⟨hwriting, h.content, fun id target hmem => ?_⟩
      rcases List.mem_cons.mp hmem with heq | hmem
      · obtain ⟨rfl, rfl⟩ := Prod.mk.inj heq
        rw [hmade, hbucket, hkey]
      · exact h.aborted id target hmem

/-- **One call.** -/
theorem Bound.step_iff (h : Bound t) (hnoted : Noted t) (hstep : Tracked.step cfg t c = some t') :
    Bound t' ↔ OwnKey cfg t c := by
  obtain ⟨a, state, ha, hstate, rfl⟩ := Tracked.step_cases hstep
  rcases Call.action_cases ha with ⟨hd, parts, hcompletes, haborts, rfl⟩ |
    ⟨hd, hcompletes, haborts, rfl⟩ | ⟨hcompletes, haborts, hcomplete⟩
  · refine (h.complete_iff hnoted haborts hstate).trans ⟨fun hkey => ⟨?_, ?_⟩, fun hown => ?_⟩
    · intro hd' parts' heq
      obtain ⟨rfl, rfl⟩ := Prod.mk.inj (Option.some.inj (hcompletes.symm.trans heq))
      exact hkey
    · rw [haborts]
      rintro hd' ⟨⟩
    · exact hown.completes hd parts hcompletes
  · refine (h.abort_iff hnoted haborts hstate).trans ⟨fun hkey => ⟨?_, ?_⟩, fun hown => ?_⟩
    · intro hd' parts' heq
      cases hcompletes.symm.trans heq
    · intro hd' hmem
      obtain rfl := Option.some.inj (haborts.symm.trans hmem)
      exact hkey
    · exact hown.aborts hd haborts
  · refine iff_of_true ⟨?_, ?_, ?_⟩ ⟨?_, ?_⟩
    · exact fun n op id target => h.writing_of_piece hnoted hstate hcomplete
    · exact fun target id => h.content_of_piece hnoted hstate
    · intro id target hmem
      rw [Tracked.nowAborted, haborts] at hmem
      exact hnoted.mono hstate (h.aborted id target hmem)
    · intro hd parts heq
      cases hcompletes.symm.trans heq
    · rw [haborts]
      rintro hd ⟨⟩

end Notes

/-! ### The results -/

/-- **Uploads and their keys.** Along any run, parts are written to the keys of their uploads only,
and uploads are aborted through their buckets and keys only, exactly if each call that completes or
aborts an upload names them. -/
theorem bound_throughout_iff (cfg : Config) (disk : Disk) (calls : List Call) :
    Throughout (Tracked.step cfg) Bound (.start disk) calls ↔
      Along (Tracked.step cfg) (OwnKey cfg) (.start disk) calls :=
  throughout_iff_along (noted_start disk) (bound_start disk)
    (fun _ _ _ hnoted _ hstep => hnoted.step hstep)
    fun _ _ _ hnoted hbound hstep => hbound.step_iff hnoted hstep

def boundUpload : UploadId := "01234567-89ab-cdef-0123-456789abcdef".toList

/-- An upload of one part for the key `k`, that is completed with the URL of `x`. -/
def intoAnother : List Call :=
  [.piece (.createMultipartUpload "b".toList "k".toList none none boundUpload 0),
    .piece (.uploadPart "b".toList boundUpload 1), .piece (.openFile 0), .piece (.write 0 [97]),
    .piece (.commit 0 [] 0),
    .completeRequest "b".toList "x".toList boundUpload [(1, siteMd5 [97])], .piece (.openFile 1),
    .piece (.nextPart 1), .piece (.copy 1 1), .piece (.commit 1 [] 0)]

/-- The object `x` is made of the upload. -/
theorem not_bound :
    ¬ ∀ (cfg : Config) (disk : Disk) (calls : List Call),
      Throughout (Tracked.step cfg) Bound (.start disk) calls := by
  intro h
  obtain ⟨t, hplay, hcontent, hmade⟩ : ∃ t,
      play (Tracked.step site) (.start siteDisk) intoAnother = some t ∧
        t.content.get? ("b".toList, "x".toList) = some boundUpload ∧
        t.madeFor.get? boundUpload = some ("b".toList, "k".toList) := ⟨_, rfl, rfl, rfl⟩
  have hbound := (h site siteDisk intoAnother).of_play hplay
  cases (hbound.content _ _ hcontent).symm.trans hmade

end Lopata.R2

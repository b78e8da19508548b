import Lopata.R2.Filed

/-!
# Containment in the Bucket's Directory

`put` and `createMultipartUpload` refuse keys with `..`, and upload ids that have a row are
UUIDs, so the files these calls touch lie in the bucket's directory. `delete`, the completion of
a resumed upload and `abort` take their key or id as it is.

## Main results

* `Sound.step`: rows, open files and handed-out bodies lead into the buckets' directories.
* `contained_throughout_iff`: everything that is touched lies in the bucket's directory, all
  along a run, exactly when every key and id that is not validated resolves inside.
* `not_contained`: a `delete` of `../x`.
-/

namespace Lopata.R2

/-- Everything touched for a bucket lies in the bucket's directory. -/
def Contained (cfg : Config) (s : State) : Prop :=
  ∀ e ∈ s.log, Path.Within (cfg.baseDir e.1) e.2.path

/-- A path in the bucket's directory, or one the runtime refuses. -/
def Inside (cfg : Config) (b : Bucket) (p : Path) : Prop :=
  HasNul p ∨ Path.Within (cfg.baseDir b) p

instance (cfg : Config) (b : Bucket) (p : Path) : Decidable (Inside cfg b p) :=
  inferInstanceAs (Decidable (_ ∨ _))

/-- The key or upload id of a call that does not validate it resolves inside the bucket's
directory: that of a `delete`, of an `abort`, and of a completion when it makes the directory of
its file and when it opens the file. -/
def ResolvesInside (cfg : Config) (s : State) : Action → Prop
  | .delete b key => Inside cfg b (cfg.filePath b key).path
  | .abort b id => Inside cfg b (cfg.partDir b id).path
  | .complete b key _ _ =>
      s.disk.IsDir (cfg.filePath b key).path.dropLast ∨
        Inside cfg b (cfg.filePath b key).path.dropLast
  | .openFile id => ∀ op ∈ s.ops.get? id, op.isComplete = true →
      Inside cfg op.bucket op.file.path
  | .put .. | .uploadPart .. | .write .. | .nextPart _ | .copy .. | .fail _ | .commit ..
  | .createMultipartUpload .. | .get .. | .readBody .. => True

instance (cfg : Config) (s : State) : (a : Action) → Decidable (ResolvesInside cfg s a)
  | .delete b key => inferInstanceAs (Decidable (Inside cfg b (cfg.filePath b key).path))
  | .abort b id => inferInstanceAs (Decidable (Inside cfg b (cfg.partDir b id).path))
  | .complete b key _ _ =>
      inferInstanceAs (Decidable (s.disk.IsDir (cfg.filePath b key).path.dropLast ∨
        Inside cfg b (cfg.filePath b key).path.dropLast))
  | .openFile id =>
      inferInstanceAs (Decidable (∀ op ∈ s.ops.get? id, op.isComplete = true →
        Inside cfg op.bucket op.file.path))
  | .put .. | .uploadPart .. | .write .. | .nextPart _ | .copy .. | .fail _ | .commit ..
  | .createMultipartUpload .. | .get .. | .readBody .. => inferInstanceAs (Decidable True)

/-! ### Paths of keys and upload ids -/

section Paths

variable {cfg : Config} {b : Bucket} {key : Key} {p : Path}

theorem ValidKey.within (h : ValidKey cfg key) :
    Path.Within (cfg.baseDir b) (cfg.filePath b key).path :=
  Path.prefix_join _ (Path.parent_not_mem_components h.2)

theorem dropLast_baseDir (cfg : Config) (b : Bucket) :
    (cfg.baseDir b).dropLast = cfg.bucketsDir :=
  List.dropLast_concat

/-- The directory of a file in the bucket's directory lies there as well, or is the directory of
the buckets. -/
theorem dropLast_inside (h : Path.Within (cfg.baseDir b) p) :
    p.dropLast = cfg.bucketsDir ∨ Path.Within (cfg.baseDir b) p.dropLast := by
  by_cases heq : p = cfg.baseDir b
  · left
    rw [heq, dropLast_baseDir]
  · exact .inr (h.dropLast heq)

/-- The directory of the buckets is in none of them. -/
theorem not_within_bucketsDir (h : Path.Within (cfg.baseDir b) p) :
    ¬ Path.Within p cfg.bucketsDir := by
  intro hp
  have hlen := (h.trans hp).length_le
  simp only [Config.baseDir, List.length_append, List.length_singleton] at hlen
  omega

end Paths

/-! ### The invariant -/

/-- Rows, open files and bodies lead into the buckets' directories. -/
structure Sound (cfg : Config) (s : State) : Prop where
  filed : Filed cfg s
  buckets : s.disk.IsDir cfg.bucketsDir
  objects : ∀ b key row, s.objects.get? (b, key) = some row →
    Path.Within (cfg.baseDir b) (cfg.filePath b key).path
  bodies : ∀ e ∈ s.bodies, Path.Within (cfg.baseDir e.1) e.2
  opened : ∀ id op, s.ops.get? id = some op → op.fd.isSome →
    Path.Within (cfg.baseDir op.bucket) op.file.path

section Steps

variable {cfg : Config} {s s' : State} {a : Action} {b : Bucket} {key : Key} {id : ℕ}
  {uploadId : UploadId} {op op' : Op} {task : Task} {file : FilePath}

theorem sound_start {disk : Disk} (h : disk.IsDir cfg.bucketsDir) : Sound cfg (.start disk) where
  filed := filed_start disk
  buckets := h
  objects := by rintro b key row ⟨⟩
  bodies := by rintro e ⟨⟩
  opened := by rintro id op ⟨⟩

theorem contained_touch {b : Bucket} {access : Access} :
    Contained cfg (s.touch b access) ↔
      Path.Within (cfg.baseDir b) access.path ∧ Contained cfg s :=
  List.forall_mem_cons

/-- Touching one more path. -/
theorem contained_iff_of_log_eq_cons {access : Access} (h : s'.log = (b, access) :: s.log) :
    Contained cfg s' ↔ Path.Within (cfg.baseDir b) access.path ∧ Contained cfg s := by
  rw [Contained, h]
  exact List.forall_mem_cons

theorem Contained.congr (h : Contained cfg s) (hlog : s'.log = s.log) : Contained cfg s' := by
  rw [Contained, hlog]
  exact h

theorem contained_begin (h : Contained cfg s) :
    Contained cfg (s.begin b task file) ↔
      s.disk.IsDir file.path.dropLast ∨ Inside cfg b file.path.dropLast := by
  have hlog : (s.begin b task file).log = s.beginLog b file.path.dropLast := by
    rcases s.begin_cases b task file with ⟨-, heq⟩ | ⟨disk, -, -, heq⟩ <;> rw [heq]
  rw [Contained, hlog, State.beginLog]
  split
  · next hskip =>
      refine ⟨fun _ => ?_, fun _ => h⟩
      exact hskip.elim (fun hnul => .inr (.inl hnul)) .inl
  · next hmk =>
      obtain ⟨hnul, hdir⟩ := not_or.mp hmk
      have hiff : (∀ e ∈ (b, Access.mkdir file.path.dropLast) :: s.log,
          Path.Within (cfg.baseDir e.1) e.2.path) ↔
            Path.Within (cfg.baseDir b) file.path.dropLast ∧ Contained cfg s :=
        List.forall_mem_cons
      rw [hiff]
      simp [Inside, hnul, hdir, h]

/-- The directory of a file that lies inside may be made. -/
theorem Sound.dropLast (h : Sound cfg s) (hfile : Path.Within (cfg.baseDir b) file.path) :
    s.disk.IsDir file.path.dropLast ∨ Inside cfg b file.path.dropLast := by
  rcases dropLast_inside hfile with heq | hin
  · exact .inl (heq ▸ h.buckets)
  · exact .inr (.inr hin)

/-- Paths inside a bucket may be removed. -/
theorem Sound.drop (h : Sound cfg s) (sel : Path → Prop) [DecidablePred sel]
    (hsel : ¬ sel cfg.bucketsDir) : (s.disk.drop sel).IsDir cfg.bucketsDir :=
  (if_neg hsel).trans h.buckets

/-! What each piece leaves of the directory of the buckets, the rows and the open files. -/

theorem buckets_begin (h : s.disk.IsDir cfg.bucketsDir) :
    (s.begin b task file).disk.IsDir cfg.bucketsDir := by
  rcases s.begin_cases b task file with ⟨-, heq⟩ | ⟨disk, -, hmk, heq⟩
  · rw [heq]
    exact h
  · rw [heq]
    have hnode := (Disk.mkdirs_eq_some hmk).2.1 cfg.bucketsDir
    show disk.node cfg.bucketsDir = some .dir
    rw [hnode]
    split
    · rfl
    · exact h

theorem Sound.begin (h : Sound cfg s) (hfiled : Filed cfg (s.begin b task file)) :
    Sound cfg (s.begin b task file) := by
  have hbuckets : (s.begin b task file).disk.IsDir cfg.bucketsDir := buckets_begin h.buckets
  rcases s.begin_cases b task file with ⟨-, heq⟩ | ⟨disk, -, hmk, heq⟩
  · rw [heq] at hfiled hbuckets ⊢
    exact ⟨hfiled, hbuckets, h.objects, h.bodies, h.opened⟩
  · rw [heq] at hfiled hbuckets ⊢
    refine ⟨hfiled, hbuckets, h.objects, h.bodies, fun id' op hop hfd => ?_⟩
    have hop : (s.ops.insert s.nextOp _).get? id' = some op := hop
    rcases Table.of_get?_insert hop with ⟨-, rfl⟩ | ⟨-, hop⟩
    · cases hfd
    · exact h.opened id' op hop hfd

theorem Sound.settle (h : Sound cfg s) (id : ℕ) (reply : Reply) :
    Sound cfg (s.settle id reply) :=
  ⟨h.filed.settle id reply, h.buckets, h.objects, h.bodies,
    fun id' op hop hfd => h.opened id' op (Table.of_get?_erase hop).2 hfd⟩

/-- An operation replaced by one with the same file. -/
theorem Sound.get?_insert (h : Sound cfg s)
    (hin : op.fd.isSome → Path.Within (cfg.baseDir op.bucket) op.file.path) :
    ∀ id' new, (s.ops.insert id op).get? id' = some new → new.fd.isSome →
      Path.Within (cfg.baseDir new.bucket) new.file.path := by
  intro id' new hnew hfd
  rcases Table.of_get?_insert hnew with ⟨-, rfl⟩ | ⟨-, hnew⟩
  · exact hin hfd
  · exact h.opened id' new hnew hfd

theorem Sound.removePartFiles (h : Sound cfg s)
    (hin : Contained cfg (s.removePartFiles cfg b uploadId)) :
    Sound cfg (s.removePartFiles cfg b uploadId) := by
  have hfiled : Filed cfg (s.removePartFiles cfg b uploadId) := h.filed.removePartFiles
  rcases s.removePartFiles_cases cfg b uploadId with ⟨-, heq⟩ | ⟨-, heq | heq⟩
  · rw [heq]
    exact h
  · rw [heq] at hfiled ⊢
    exact ⟨hfiled, h.buckets, h.objects, h.bodies, h.opened⟩
  · rw [heq] at hfiled hin ⊢
    have hroot : Path.Within (cfg.baseDir b) (cfg.partDir b uploadId).path :=
      hin (b, .removeTree _) List.mem_cons_self
    exact ⟨hfiled, h.drop _ (not_within_bucketsDir hroot), h.objects, h.bodies, h.opened⟩

theorem Sound.deleteUpload (h : Sound cfg s) (uploadId : UploadId) :
    Sound cfg (s.deleteUpload uploadId) :=
  ⟨h.filed.deleteUpload uploadId, h.buckets, h.objects, h.bodies, h.opened⟩

theorem Sound.insertObject (h : Sound cfg s) (row : Row)
    (hin : Path.Within (cfg.baseDir b) (cfg.filePath b key).path) :
    Sound cfg (s.insertObject b key row) := by
  refine ⟨h.filed.insertObject b key row, h.buckets, fun b' key' row' hrow => ?_, h.bodies,
    h.opened⟩
  rw [State.insertObject, Table.get?_insert] at hrow
  split at hrow
  · next heq =>
      obtain ⟨rfl, rfl⟩ := Prod.mk.inj heq
      exact hin
  · exact h.objects b' key' row' hrow

theorem Sound.eraseObject (h : Sound cfg s) : Sound cfg (s.eraseObject b key) := by
  refine ⟨h.filed.eraseObject b key, h.buckets, fun b' key' row' hrow => ?_, h.bodies, h.opened⟩
  rw [State.eraseObject] at hrow
  obtain ⟨-, hrow⟩ := Table.of_get?_erase hrow
  exact h.objects b' key' row' hrow

/-- An operation that opens its file leaves the directory of the buckets alone. -/
theorem Sound.openFile (h : Sound cfg s) (hstep : s.openFile id = some s')
    (hin : Contained cfg s') : Sound cfg s' := by
  have hfiled := h.filed.openFile hstep
  obtain ⟨op, hop, -, ⟨-, rfl⟩ | ⟨-, -, rfl⟩ | ⟨disk, i, -, -, hopen, rfl⟩⟩ :=
    State.openFile_cases hstep
  · exact h.settle id .error
  · exact ⟨hfiled, h.buckets, h.objects, h.bodies,
      fun id' op hop hfd => h.opened id' op (Table.of_get?_erase hop).2 hfd⟩
  · have hfile : Path.Within (cfg.baseDir op.bucket) op.file.path :=
      hin (op.bucket, .openFile id op.file.path) List.mem_cons_self
    exact ⟨hfiled, Disk.isDir_openForWriting hopen h.buckets, h.objects, h.bodies,
      h.get?_insert fun _ => hfile⟩

theorem Sound.nextPart (h : Sound cfg s) (hstep : s.nextPart id = some s') : Sound cfg s' := by
  have hfiled := h.filed.nextPart hstep
  obtain ⟨op, i, key, uploadId, upload, parts, row, rest, hop, -, -,
    ⟨-, rfl⟩ | ⟨bytes, -, rfl⟩⟩ := State.nextPart_cases hstep
  · exact ⟨hfiled, h.buckets, h.objects, h.bodies,
      fun id' op hop hfd => h.opened id' op (Table.of_get?_erase hop).2 hfd⟩
  · exact ⟨hfiled, h.buckets, h.objects, h.bodies, h.get?_insert (h.opened id op hop)⟩

/-- The key of a completion that has its file open resolves inside. -/
theorem Sound.commit (h : Sound cfg s) {version : Text} {now : Time}
    (hstep : s.commit cfg id version now = some s') (hin : Contained cfg s') : Sound cfg s' := by
  have hfiled := h.filed.commit hstep
  obtain ⟨op, i, hop, hfd, ⟨key, options, htask, rfl⟩ | ⟨uploadId, n, htask, rfl⟩ |
    ⟨key, uploadId, upload, parts, htask, rfl⟩⟩ := State.commit_cases hstep
  · obtain ⟨hvalid, -⟩ := (h.filed.ops id op hop).put key options htask
    exact (h.insertObject _ hvalid.within).settle id _
  · exact ⟨hfiled, h.buckets, h.objects, h.bodies,
      fun id' op hop hfd => h.opened id' op (Table.of_get?_erase hop).2 hfd⟩
  · obtain ⟨hfile, -⟩ := (h.filed.ops id op hop).complete _ _ _ _ _ _ htask
    have hopen := h.opened id op hop (by simp [hfd])
    rw [hfile] at hopen
    exact (((h.insertObject _ hopen).deleteUpload uploadId).removePartFiles hin).settle id _

theorem Sound.delete (h : Sound cfg s) (hin : Contained cfg (s.delete cfg b key)) :
    Sound cfg (s.delete cfg b key) := by
  have hfiled : Filed cfg (s.delete cfg b key) := h.filed.delete
  have herase : Sound cfg (s.eraseObject b key) := h.eraseObject
  rcases s.delete_cases cfg b key with ⟨-, heq⟩ | ⟨-, heq | heq⟩
  · rw [heq]
    exact herase
  · rw [heq] at hfiled ⊢
    exact ⟨hfiled, h.buckets, herase.objects, h.bodies, h.opened⟩
  · rw [heq] at hfiled hin ⊢
    have hpath : Path.Within (cfg.baseDir b) (cfg.filePath b key).path :=
      hin (b, .unlink _) List.mem_cons_self
    have hne : cfg.bucketsDir ≠ (cfg.filePath b key).path := by
      intro heq'
      exact not_within_bucketsDir hpath (heq' ▸ Path.Within.refl _)
    exact ⟨hfiled, h.drop _ hne, herase.objects, h.bodies, h.opened⟩

/-- Steps that stay inside keep the paths sound. -/
theorem Sound.step (h : Sound cfg s) (hstep : step cfg s a = some s') (hin : Contained cfg s') :
    Sound cfg s' := by
  have hfiled := h.filed.step hstep
  cases a with
  | put b key options =>
    obtain ⟨-, ⟨-, rfl⟩ | ⟨-, rfl⟩⟩ := State.put_cases hstep
    · exact ⟨hfiled, h.buckets, h.objects, h.bodies, h.opened⟩
    · exact h.begin hfiled
  | uploadPart b uploadId n =>
    obtain ⟨upload, -, -, rfl⟩ := State.uploadPart_cases hstep
    exact h.begin hfiled
  | complete b key uploadId parts =>
    obtain ⟨upload, rows, -, -, -, rfl⟩ := State.complete_cases hstep
    exact h.begin hfiled
  | openFile id => exact h.openFile hstep hin
  | write id chunk =>
    obtain ⟨op, i, hop, -, -, rfl⟩ := State.write_cases hstep
    exact ⟨hfiled, h.buckets, h.objects, h.bodies, h.get?_insert (h.opened id op hop)⟩
  | nextPart id => exact h.nextPart hstep
  | copy id n =>
    obtain ⟨op, i, key, uploadId, upload, parts, rest, source, hop, -, -, rfl⟩ :=
      State.copy_cases hstep
    exact ⟨hfiled, h.buckets, h.objects, h.bodies, h.get?_insert (h.opened id op hop)⟩
  | fail id =>
    obtain ⟨op, i, -, -, rfl⟩ := State.fail_cases hstep
    exact h.settle id .error
  | commit id version now => exact h.commit hstep hin
  | delete b key =>
    obtain rfl := Option.some.inj hstep
    exact h.delete hin
  | createMultipartUpload b key httpMetadata customMetadata uploadId now =>
    obtain ⟨-, -, rfl⟩ := State.createMultipartUpload_cases hstep
    exact ⟨hfiled, h.buckets, h.objects, h.bodies, h.opened⟩
  | abort b uploadId =>
    obtain rfl := Option.some.inj hstep
    exact (h.deleteUpload uploadId).removePartFiles hin
  | get b key onlyIf =>
    obtain ⟨⟨row, hrow⟩, rfl⟩ := State.handOut_cases hstep
    exact ⟨hfiled, h.buckets, h.objects,
      List.forall_mem_cons.mpr ⟨h.objects b key row hrow, h.bodies⟩, h.opened⟩
  | readBody b p =>
    obtain ⟨-, -, rfl⟩ := State.readBody_cases hstep
    exact ⟨hfiled, h.buckets, h.objects, h.bodies, h.opened⟩

end Steps

/-! ### What a step touches -/

section Touched

variable {cfg : Config} {s s' : State} {a : Action} {b : Bucket} {key : Key} {id : ℕ}
  {uploadId : UploadId}

theorem contained_removePartFiles (h : Contained cfg s) :
    Contained cfg (s.removePartFiles cfg b uploadId) ↔
      Inside cfg b (cfg.partDir b uploadId).path := by
  rcases s.removePartFiles_cases cfg b uploadId with ⟨hnul, heq⟩ | ⟨hnul, heq | heq⟩
  · rw [heq]
    exact iff_of_true h (.inl hnul)
  · rw [heq, contained_touch]
    simp [Inside, hnul, h, Access.path]
  · rw [heq, contained_iff_of_log_eq_cons rfl, contained_touch]
    simp [Inside, hnul, h, Access.path]

theorem contained_delete (h : Contained cfg s) :
    Contained cfg (s.delete cfg b key) ↔ Inside cfg b (cfg.filePath b key).path := by
  have herase : Contained cfg (s.eraseObject b key) := h
  rcases s.delete_cases cfg b key with ⟨hnul, heq⟩ | ⟨hnul, heq | heq⟩
  · rw [heq]
    exact iff_of_true herase (.inl hnul)
  · rw [heq, contained_touch]
    simp [Inside, hnul, herase, Access.path]
  · rw [heq, contained_iff_of_log_eq_cons rfl, contained_touch]
    simp [Inside, hnul, herase, Access.path]

/-- The file of an operation that is not a completion lies inside. -/
theorem Sound.file_within (h : Sound cfg s) {op : Op} (hop : s.ops.get? id = some op)
    (hcomplete : op.isComplete = false) : Path.Within (cfg.baseDir op.bucket) op.file.path := by
  have hfiled := h.filed.ops id op hop
  cases htask : op.task with
  | put key options =>
    obtain ⟨hvalid, hfile⟩ := hfiled.put key options htask
    rw [hfile]
    exact hvalid.within
  | part uploadId n =>
    obtain ⟨huuid, -, hfile⟩ := hfiled.part uploadId n htask
    rw [hfile]
    exact huuid.within_partDir.trans (within_partFile n)
  | complete key uploadId upload parts rest source => simp [Op.isComplete, htask] at hcomplete

theorem Sound.contained_openFile (h : Sound cfg s) (hin : Contained cfg s)
    (hstep : s.openFile id = some s') :
    Contained cfg s' ↔ ∀ op ∈ s.ops.get? id, op.isComplete = true →
      Inside cfg op.bucket op.file.path := by
  obtain ⟨op, hop, -, hcases⟩ := State.openFile_cases hstep
  have hguard : (∀ op ∈ s.ops.get? id, op.isComplete = true → Inside cfg op.bucket op.file.path) ↔
      Inside cfg op.bucket op.file.path := by
    rw [hop]
    constructor
    · intro hall
      cases hcomplete : op.isComplete with
      | true => exact hall op rfl hcomplete
      | false => exact .inr (h.file_within hop hcomplete)
    · rintro hinside op' ⟨⟩ -
      exact hinside
  rw [hguard]
  rcases hcases with ⟨hnul, rfl⟩ | ⟨hnul, -, rfl⟩ | ⟨disk, i, hnul, -, -, rfl⟩
  · exact iff_of_true hin (.inl hnul)
  · have htouch : Contained cfg ((s.touch op.bucket (.stat op.file.path)).settle id .error) ↔
        Path.Within (cfg.baseDir op.bucket) op.file.path ∧ Contained cfg s :=
      contained_touch
    rw [htouch]
    simp [Inside, hnul, hin]
  · rw [contained_iff_of_log_eq_cons rfl]
    simp [Inside, hnul, hin, Access.path]

theorem Sound.contained_nextPart (h : Sound cfg s) (hin : Contained cfg s)
    (hstep : s.nextPart id = some s') : Contained cfg s' := by
  obtain ⟨op, i, key, uploadId, upload, parts, row, rest, hop, -, htask, hcases⟩ :=
    State.nextPart_cases hstep
  obtain ⟨-, huuid, hrest, hrows⟩ := (h.filed.ops id op hop).complete _ _ _ _ _ _ htask
  obtain ⟨n, hn⟩ := hrows row (hrest.subset List.mem_cons_self)
  have hrow : Path.Within (cfg.baseDir op.bucket) row.filePath := by
    rw [hn]
    exact huuid.within_partDir.trans (within_partFile n)
  have htouch : Contained cfg (s.touch op.bucket (.read row.filePath)) :=
    contained_touch.mpr ⟨hrow, hin⟩
  rcases hcases with ⟨-, rfl⟩ | ⟨bytes, -, rfl⟩
  · exact htouch.congr rfl
  · exact htouch.congr rfl

/-- Committing removes the part files of an upload that had a row. -/
theorem Sound.contained_commit (h : Sound cfg s) (hin : Contained cfg s) {version : Text}
    {now : Time} (hstep : s.commit cfg id version now = some s') : Contained cfg s' := by
  obtain ⟨op, i, hop, -, ⟨key, options, -, rfl⟩ | ⟨uploadId, n, -, rfl⟩ |
    ⟨key, uploadId, upload, parts, htask, rfl⟩⟩ := State.commit_cases hstep
  · exact hin
  · exact hin
  · obtain ⟨-, huuid, -⟩ := (h.filed.ops id op hop).complete _ _ _ _ _ _ htask
    have hinsert : Contained cfg ((s.insertObject op.bucket key
        (State.completeRow cfg upload parts op.written version now)).deleteUpload uploadId) := hin
    exact ((contained_removePartFiles hinsert).mpr (.inr huuid.within_partDir)).congr rfl

/-- **What a step touches** lies inside exactly when its key or id resolves inside. -/
theorem Sound.contained_step (h : Sound cfg s) (hin : Contained cfg s)
    (hstep : R2.step cfg s a = some s') : Contained cfg s' ↔ ResolvesInside cfg s a := by
  cases a with
  | put b key options =>
    refine iff_of_true ?_ trivial
    obtain ⟨hvalid, ⟨-, rfl⟩ | ⟨-, rfl⟩⟩ := State.put_cases hstep
    · exact hin
    · exact (contained_begin hin).mpr (h.dropLast hvalid.within)
  | uploadPart b uploadId n =>
    refine iff_of_true ?_ trivial
    obtain ⟨upload, hupload, -, rfl⟩ := State.uploadPart_cases hstep
    have huuid := (h.filed.uploads uploadId upload hupload).1
    exact (contained_begin hin).mpr
      (h.dropLast (huuid.within_partDir.trans (within_partFile n)))
  | complete b key uploadId parts =>
    obtain ⟨upload, rows, -, -, -, rfl⟩ := State.complete_cases hstep
    exact contained_begin hin
  | openFile id => exact h.contained_openFile hin hstep
  | write id chunk =>
    obtain ⟨op, i, -, -, -, rfl⟩ := State.write_cases hstep
    exact iff_of_true hin trivial
  | nextPart id => exact iff_of_true (h.contained_nextPart hin hstep) trivial
  | copy id n =>
    obtain ⟨op, i, key, uploadId, upload, parts, rest, source, -, -, -, rfl⟩ :=
      State.copy_cases hstep
    exact iff_of_true hin trivial
  | fail id =>
    obtain ⟨op, i, -, -, rfl⟩ := State.fail_cases hstep
    exact iff_of_true hin trivial
  | commit id version now => exact iff_of_true (h.contained_commit hin hstep) trivial
  | delete b key =>
    obtain rfl := Option.some.inj hstep
    exact contained_delete hin
  | createMultipartUpload b key httpMetadata customMetadata uploadId now =>
    obtain ⟨-, -, rfl⟩ := State.createMultipartUpload_cases hstep
    exact iff_of_true hin trivial
  | abort b uploadId =>
    obtain rfl := Option.some.inj hstep
    have hdelete : Contained cfg (s.deleteUpload uploadId) := hin
    exact contained_removePartFiles hdelete
  | get b key onlyIf =>
    obtain ⟨-, rfl⟩ := State.handOut_cases hstep
    exact iff_of_true hin trivial
  | readBody b p =>
    obtain ⟨hmem, -, rfl⟩ := State.readBody_cases hstep
    exact iff_of_true (contained_touch.mpr ⟨h.bodies _ hmem, hin⟩) trivial

end Touched

/-! ### The results -/

/-- **Containment.** From empty tables over any disk with a directory for the buckets, whatever
calls come in whatever order: everything touched for a bucket lies in its directory all along
the run exactly when the keys and ids that are not validated resolve inside. -/
theorem contained_throughout_iff (cfg : Config) (disk : Disk) (hdir : disk.IsDir cfg.bucketsDir)
    (as : List Action) :
    Throughout (step cfg) (Contained cfg) (.start disk) as ↔
      Along (step cfg) (ResolvesInside cfg) (.start disk) as := by
  have hstart : Contained cfg (.start disk) := by rintro e ⟨⟩
  -- The paths are sound only while nothing outside has been touched.
  refine throughout_iff_along (J := fun s => Contained cfg s → Sound cfg s)
    (fun _ => sound_start hdir) hstart (fun s a s' h hin hstep hin' => ?_)
    fun s a s' h hin hstep => (h hin).contained_step hin hstep
  exact (h hin).step hstep hin'

/-- An object is put, read and deleted. -/
def putAndDelete : List Action :=
  [.put "b".toList "k".toList {}, .openFile 0, .write 0 [97], .commit 0 [] 0,
    .get "b".toList "k".toList none, .delete "b".toList "k".toList]

theorem contained_throughout_putAndDelete :
    Throughout (step site) (Contained site) (.start siteDisk) putAndDelete :=
  (contained_throughout_iff site siteDisk (by decide) putAndDelete).mpr (by decide)

/-- A `delete` of `../../x` removes a file beside the directory of the buckets. -/
theorem not_contained :
    ¬ ∀ s, Reaches (step site) unguarded (.start siteDisk) s → Contained site s := by
  intro hall
  have hrun : (play (restrict (step site) unguarded) (.start siteDisk)
      [.delete "b".toList "../../x".toList]).any (fun s =>
        s.log.contains ("b".toList, .unlink ["data".toList, "x".toList])) = true := by
    decide
  obtain ⟨s, hreach, hs⟩ := exists_reaches_of_play hrun
  have hin := hall s hreach _ (List.contains_iff_mem.mp hs)
  revert hin
  decide

end Lopata.R2

import Lopata.R2.Swap

/-!
# Writes That Fail

`put` and `uploadPart` write the bytes of a value in place, into the file of the key or the part,
and the row after them. A call that rejects in between leaves the row as it was and the file with
what it has written. Here one call runs by itself, from any state of the machine, up to where it
rejects.

## Main definitions

* `Rejects`: a call runs and rejects, before it opens its file or after some chunks.
* `WriteCall.Unchanged`: `get` finds the same object as before, `complete` the same part.

## Main results

* `unchanged_of_rejects_iff`: a rejected call leaves what was there exactly if it has not opened
  the file, or nothing was there, or the file held the very bytes that were written.
* `not_unchanged`: a stream that fails after its first chunk.
-/

namespace Lopata.R2

/-- A call that stores the bytes of a value. -/
inductive WriteCall
  | put (b : Bucket) (key : Key) (options : PutOptions)
  | uploadPart (b : Bucket) (id : UploadId) (partNumber : ℤ)

namespace WriteCall

variable (cfg : Config)

/-- The first piece of the call. -/
def start (s : State) : WriteCall → Option State
  | .put b key options => s.put cfg b key options
  | .uploadPart b id partNumber => s.uploadPart cfg b id partNumber

/-- The operation the call begins. -/
def op : WriteCall → Op
  | .put b key options => { bucket := b, task := .put key options, file := cfg.filePath b key }
  | .uploadPart b id partNumber =>
      { bucket := b, task := .part id partNumber, file := cfg.partFile b id partNumber }

/-- The file the call writes. -/
def target (call : WriteCall) : Path :=
  (call.op cfg).file.path

/-- There is no object of the key, or no such part. -/
def Absent (s : State) : WriteCall → Prop
  | .put b key _ => s.head b key = none
  | .uploadPart _ id partNumber => s.parts.get? (id, partNumber) = none

instance (s : State) : (call : WriteCall) → Decidable (call.Absent s)
  | .put b key _ => inferInstanceAs (Decidable (s.head b key = none))
  | .uploadPart _ id partNumber => inferInstanceAs (Decidable (s.parts.get? (id, partNumber) = none))

end WriteCall

/-- What `complete` finds of a part: its row, and the bytes of its file. -/
def State.part (s : State) (id : UploadId) (partNumber : ℤ) : Option (Part × Option Bytes) :=
  (s.parts.get? (id, partNumber)).map fun row => (row, s.disk.contents row.filePath)

/-- The object or the part is as it was. -/
def WriteCall.Unchanged (cfg : Config) (s s' : State) : WriteCall → Prop
  | .put b key _ => s'.get cfg b key = s.get cfg b key
  | .uploadPart _ id partNumber => s'.part id partNumber = s.part id partNumber

/-- The chunks that reach the open file. -/
def State.writes (s : State) (id : ℕ) : List Bytes → Option State
  | [] => some s
  | chunk :: chunks => (s.write id chunk).bind fun s => s.writes id chunks

/-- The call runs by itself and rejects; given are the bytes it has written, none if it has not
opened the file. -/
inductive Rejects (cfg : Config) (s : State) (call : WriteCall) : Option Bytes → State → Prop
  /-- The key, the metadata or the upload is refused. -/
  | refused (hcall : call.start cfg s = none) : Rejects cfg s call none s
  /-- The directory cannot be made. -/
  | directory {s' : State} (hcall : call.start cfg s = some s')
      (hreply : s'.replies = (s.nextOp, .error) :: s.replies) : Rejects cfg s call none s'
  /-- The file cannot be opened. -/
  | unopened {s₁ s' : State} (hcall : call.start cfg s = some s₁)
      (hopen : s₁.openFile s.nextOp = some s')
      (hreply : s'.replies = (s.nextOp, .error) :: s₁.replies) : Rejects cfg s call none s'
  /-- The value's stream, the disk or the database fails after some chunks. -/
  | failed {s₁ s₂ s₃ s' : State} {chunks : List Bytes} (hcall : call.start cfg s = some s₁)
      (hopen : s₁.openFile s.nextOp = some s₂) (hwrites : s₂.writes s.nextOp chunks = some s₃)
      (hfail : s₃.fail s.nextOp = some s') : Rejects cfg s call (some chunks.flatten) s'

/-- The call runs by itself, writes its value and resolves. -/
inductive Resolves (cfg : Config) (s : State) (call : WriteCall) (bytes : Bytes) (version : Text)
    (now : Time) : State → Prop
  | committed {s₁ s₂ s₃ s' : State} {chunks : List Bytes} (hcall : call.start cfg s = some s₁)
      (hopen : s₁.openFile s.nextOp = some s₂) (hwrites : s₂.writes s.nextOp chunks = some s₃)
      (hbytes : chunks.flatten = bytes)
      (hcommit : s₃.commit cfg s.nextOp version now = some s') :
      Resolves cfg s call bytes version now s'

/-- The directory of the file can be made, and the file opened for writing. -/
def Openable (disk : Disk) (file : FilePath) : Prop :=
  ¬ HasNul file.path ∧ file.slash = false ∧
    ∃ made ∈ disk.mkdirs file.path.dropLast, (made.openForWriting file.path).isSome

instance (disk : Disk) (file : FilePath) : Decidable (Openable disk file) :=
  inferInstanceAs (Decidable (¬ _ ∧ _ ∧ ∃ made ∈ disk.mkdirs file.path.dropLast,
    (made.openForWriting file.path).isSome))

/-- A `put` without a condition gets as far as writing its file. -/
def State.Accepts (cfg : Config) (s : State) (b : Bucket) (key : Key) (options : PutOptions) :
    Prop :=
  ValidKey cfg key ∧ ValidCustomMetadata cfg options.customMetadata ∧
    Openable s.disk (cfg.filePath b key)

instance (cfg : Config) (s : State) (b : Bucket) (key : Key) (options : PutOptions) :
    Decidable (s.Accepts cfg b key options) :=
  inferInstanceAs (Decidable (_ ∧ _ ∧ _))

/-! ### One call by itself -/

section Runs

variable {cfg : Config} {s s₁ s₂ s' : State} {call : WriteCall} {id i : ℕ} {p : Path}
  {written : Bytes}

/-- The first piece leaves the tables of objects and parts and the bytes of all files. -/
structure Begun (s s' : State) : Prop where
  objects : s'.objects = s.objects
  parts : s'.parts = s.parts
  contents : ∀ q, s'.disk.contents q = s.disk.contents q

theorem begun_begin (s : State) (b : Bucket) (task : Task) (file : FilePath) :
    Begun s (s.begin b task file) := by
  refine ⟨?_, ?_, fun q => contents_begin s b task file q⟩
  · rcases s.begin_cases b task file with ⟨-, h⟩ | ⟨disk, -, -, h⟩
    · rw [h]
      rfl
    · rw [h]
  · rcases s.begin_cases b task file with ⟨-, h⟩ | ⟨disk, -, -, h⟩
    · rw [h]
      rfl
    · rw [h]

/-- What is begun is the operation, if the directory can be made. -/
theorem ops_begin {b : Bucket} {task : Task} {file : FilePath} {op : Op}
    (hfree : s.ops.get? s.nextOp = none)
    (hop : (s.begin b task file).ops.get? s.nextOp = some op) :
    op = { bucket := b, task, file } ∧
      s.disk.mkdirs file.path.dropLast = some (s.begin b task file).disk := by
  rcases s.begin_cases b task file with ⟨-, heq⟩ | ⟨disk, -, hmk, heq⟩
  · rw [heq] at hop
    cases hfree.symm.trans hop
  · rw [heq] at hop ⊢
    have hop : (s.ops.insert s.nextOp { bucket := b, task, file }).get? s.nextOp = some op := hop
    rw [Table.get?_insert, if_pos rfl] at hop
    exact ⟨(Option.some.inj hop).symm, hmk⟩

/-- The operation of the call, if there is one after its first piece, is to write its file. -/
theorem WriteCall.start_cases (h : call.start cfg s = some s')
    (hfree : s.ops.get? s.nextOp = none) :
    Begun s s' ∧ ∀ op, s'.ops.get? s.nextOp = some op →
      op = call.op cfg ∧ s.disk.mkdirs (call.target cfg).dropLast = some s'.disk := by
  cases call with
  | put b key options =>
    obtain ⟨-, ⟨-, rfl⟩ | ⟨-, rfl⟩⟩ := State.put_cases h
    · exact ⟨⟨rfl, rfl, fun _ => rfl⟩, fun op hop => by cases hfree.symm.trans hop⟩
    · exact ⟨begun_begin .., fun op hop => ops_begin hfree hop⟩
  | uploadPart b uploadId n =>
    obtain ⟨upload, -, -, rfl⟩ := State.uploadPart_cases h
    exact ⟨begun_begin .., fun op hop => ops_begin hfree hop⟩

/-- The first piece leaves the object and the parts. -/
theorem Begun.unchanged (h : Begun s s') : call.Unchanged cfg s s' := by
  cases call with
  | put b key options => simp only [WriteCall.Unchanged, State.get, h.objects, h.contents]
  | uploadPart b uploadId n => simp only [WriteCall.Unchanged, State.part, h.parts, h.contents]

/-- An operation is writing its file; the tables and the other files are as they were. -/
structure Writing (s₀ s : State) (id : ℕ) (op : Op) (written : Bytes) : Prop where
  objects : s.objects = s₀.objects
  parts : s.parts = s₀.parts
  opened : ∃ i, s.ops.get? id = some { op with fd := some i, written } ∧
    s.disk.node op.file.path = some (.file i)
  contents : s.disk.contents op.file.path = some written
  others : ∀ q, q ≠ op.file.path → s.disk.contents q = s₀.disk.contents q

/-- The call rejects when it opens its file, or it has opened it and goes on. -/
theorem Begun.openFile {s₀ : State} (h : Begun s₀ s) {op : Op} (hop : s.ops.get? id = some op)
    (hwritten : op.written = []) (hstep : s.openFile id = some s') :
    (Begun s₀ s' ∧ s'.ops.get? id = none ∧
        (HasNul op.file.path ∨ op.file.slash = true ∨
          s.disk.openForWriting op.file.path = none)) ∨
      s'.replies = s.replies ∧ Writing s₀ s' id op [] ∧ ¬ HasNul op.file.path ∧
        op.file.slash = false ∧ (s.disk.openForWriting op.file.path).isSome := by
  obtain ⟨op', hop', -, ⟨hnul, rfl⟩ | ⟨-, hrefused, rfl⟩ | ⟨disk, i, hnul, hslash, hopen, rfl⟩⟩ :=
    State.openFile_cases hstep
  · obtain rfl : op' = op := Option.some.inj (hop'.symm.trans hop)
    exact .inl ⟨⟨h.objects, h.parts, h.contents⟩, (Table.get?_erase ..).trans (if_pos rfl),
      .inl hnul⟩
  · obtain rfl : op' = op := Option.some.inj (hop'.symm.trans hop)
    exact .inl ⟨⟨h.objects, h.parts, h.contents⟩, (Table.get?_erase ..).trans (if_pos rfl),
      .inr hrefused⟩
  · obtain rfl : op' = op := Option.some.inj (hop'.symm.trans hop)
    refine .inr ⟨rfl, ⟨h.objects, h.parts, ⟨i, ?_, Disk.node_openForWriting hopen⟩, ?_,
      fun q hq => ?_⟩, hnul, hslash, by rw [hopen]; rfl⟩
    · exact (Table.get?_insert ..).trans ((if_pos rfl).trans (by rw [← hwritten]))
    · exact (Disk.contents_openForWriting hopen _).trans (if_pos rfl)
    · exact ((Disk.contents_openForWriting hopen q).trans (if_neg hq)).trans (h.contents q)

/-- A chunk is added to the file. -/
theorem Writing.write {s₀ : State} {op : Op} {chunk : Bytes} (h : Writing s₀ s id op written)
    (hstep : s.write id chunk = some s') : Writing s₀ s' id op (written ++ chunk) := by
  obtain ⟨op', i', hop', hfd', -, rfl⟩ := State.write_cases hstep
  obtain ⟨i, hop, hnode⟩ := h.opened
  obtain rfl := Option.some.inj (hop'.symm.trans hop)
  obtain rfl : i = i' := Option.some.inj hfd'
  refine ⟨h.objects, h.parts, ⟨i, (Table.get?_insert ..).trans (if_pos rfl), hnode⟩, ?_,
    fun q hq => ?_⟩
  · exact Disk.contents_write_end hnode h.contents
  · exact ((Disk.IsHandle.of_node hnode).contents_write _ chunk q hq).trans (h.others q hq)

theorem Writing.writes {s₀ : State} {op : Op} {chunks : List Bytes}
    (h : Writing s₀ s id op written) (hstep : s.writes id chunks = some s') :
    Writing s₀ s' id op (written ++ chunks.flatten) := by
  induction chunks generalizing s written with
  | nil =>
    obtain rfl := Option.some.inj hstep
    rwa [List.flatten_nil, List.append_nil]
  | cons chunk chunks ih =>
    obtain ⟨s₁, hchunk, hrest⟩ := Option.bind_eq_some_iff.mp hstep
    rw [List.flatten_cons, ← List.append_assoc]
    exact ih (h.write hchunk) hrest

/-- No bytes reach the file of a call that has ended. -/
theorem get?_writes {chunks : List Bytes} (h : s.ops.get? id = none)
    (hstep : s.writes id chunks = some s') : s'.ops.get? id = none := by
  cases chunks with
  | nil =>
    obtain rfl := Option.some.inj hstep
    exact h
  | cons chunk chunks =>
    obtain ⟨s₁, hchunk, -⟩ := Option.bind_eq_some_iff.mp hstep
    obtain ⟨op, i, hop, -⟩ := State.write_cases hchunk
    cases h.symm.trans hop

/-- The call leaves the object or the part alone if there is none or its file has been written
with the bytes it had. -/
theorem Writing.unchanged_iff {s₀ : State} (h : Writing s₀ s id (call.op cfg) written)
    (hparts : ∀ b uploadId n row, call = .uploadPart b uploadId n →
      s₀.parts.get? (uploadId, n) = some row → row.filePath = call.target cfg) :
    call.Unchanged cfg s₀ s ↔
      call.Absent s₀ ∨ s₀.disk.contents (call.target cfg) = some written := by
  have hmap : ∀ {α : Type} (row : Option α) (f g : α → Option Bytes),
      (∀ a ∈ row, f a = some written ∧ g a = s₀.disk.contents (call.target cfg)) →
        ((row.map fun a => (a, f a)) = (row.map fun a => (a, g a)) ↔
          row = none ∨ s₀.disk.contents (call.target cfg) = some written) := by
    intro α row f g hrow
    cases row with
    | none => simp
    | some a =>
      obtain ⟨hf, hg⟩ := hrow a rfl
      simp [hf, hg, eq_comm]
  cases call with
  | put b key options =>
    simp only [WriteCall.Unchanged, State.get, h.objects]
    exact hmap _ _ _ fun row _ => ⟨h.contents, rfl⟩
  | uploadPart b uploadId n =>
    simp only [WriteCall.Unchanged, State.part, h.parts]
    refine hmap _ _ _ fun row hrow => ?_
    rw [hparts b uploadId n row rfl hrow]
    exact ⟨h.contents, rfl⟩

/-- The row of a part has the path of the part's file. -/
theorem Filed.filePath_eq (hfiled : Filed cfg s) {b : Bucket} {uploadId : UploadId} {n : ℤ}
    {upload : Upload} {row : Part} (hupload : s.uploads.get? uploadId = some upload)
    (hb : upload.bucket = b) (hrow : s.parts.get? (uploadId, n) = some row) :
    row.filePath = (cfg.partFile b uploadId n).path := by
  obtain ⟨-, hissued⟩ := hfiled.uploads uploadId upload hupload
  obtain ⟨b', hissued', hfile⟩ := hfiled.parts uploadId n row hrow
  obtain rfl : b' = b := by
    rw [hissued, hb] at hissued'
    exact (Option.some.inj hissued').symm
  exact hfile

/-- The directory of the call's file can be made, and the file opened for writing. -/
theorem openable_iff {disk made : Disk} {file : FilePath}
    (hmade : disk.mkdirs file.path.dropLast = some made) :
    Openable disk file ↔ ¬ HasNul file.path ∧ file.slash = false ∧
      (made.openForWriting file.path).isSome := by
  simp [Openable, hmade]

/-- A call that has written some chunks: its file was opened for it. -/
theorem writing_of_writes {chunks : List Bytes} {op : Op} {s₃ : State}
    (hfree : s.ops.get? s.nextOp = none) (hcall : call.start cfg s = some s₁)
    (hopen : s₁.openFile s.nextOp = some s₂) (hwrites : s₂.writes s.nextOp chunks = some s₃)
    (hop : s₃.ops.get? s.nextOp = some op) :
    Writing s s₃ s.nextOp (call.op cfg) chunks.flatten ∧
      Openable s.disk (call.op cfg).file := by
  obtain ⟨hbegun, hstart⟩ := WriteCall.start_cases hcall hfree
  obtain ⟨op', hop', -, -⟩ := State.openFile_cases hopen
  obtain ⟨rfl, hmade⟩ := hstart op' hop'
  have hwritten : (call.op cfg).written = [] := by cases call <;> rfl
  rcases hbegun.openFile hop' hwritten hopen with ⟨-, hnone, -⟩ | ⟨-, hwriting, hopened⟩
  · cases (get?_writes hnone hwrites).symm.trans hop
  · exact ⟨hwriting.writes hwrites, (openable_iff hmade).mpr hopened⟩

/-- What a rejected call leaves, where the rows of parts have the paths of their files. -/
theorem Rejects.unchanged_iff {written : Option Bytes} (h : Rejects cfg s call written s')
    (hfiled : Filed cfg s) :
    call.Unchanged cfg s s' ↔
      written = none ∨ call.Absent s ∨ s.disk.contents (call.target cfg) = written := by
  have hfree := hfiled.get?_nextOp
  cases h with
  | refused hcall => exact iff_of_true (by cases call <;> rfl) (.inl rfl)
  | directory hcall hreply =>
    exact iff_of_true (WriteCall.start_cases hcall hfree).1.unchanged (.inl rfl)
  | unopened hcall hopen hreply =>
    obtain ⟨hbegun, hstart⟩ := WriteCall.start_cases hcall hfree
    obtain ⟨op, hop, -, -⟩ := State.openFile_cases hopen
    obtain ⟨rfl, -⟩ := hstart op hop
    have hwritten : (call.op cfg).written = [] := by cases call <;> rfl
    rcases hbegun.openFile hop hwritten hopen with ⟨hbegun, -⟩ | ⟨hsame, -⟩
    · exact iff_of_true hbegun.unchanged (.inl rfl)
    · exact absurd (hreply.symm.trans hsame) (List.cons_ne_self _ _)
  | failed hcall hopen hwrites hfail =>
    obtain ⟨op, i, hop, -, rfl⟩ := State.fail_cases hfail
    obtain ⟨hwriting, -⟩ := writing_of_writes hfree hcall hopen hwrites hop
    have hsettle : ∀ s₃ : State, call.Unchanged cfg s (s₃.settle s.nextOp .error) ↔
        call.Unchanged cfg s s₃ := fun s₃ => by cases call <;> rfl
    refine (hsettle _).trans ((hwriting.unchanged_iff ?_).trans (by simp))
    rintro b uploadId n row rfl hrow
    obtain ⟨upload, hupload, hb, -⟩ := State.uploadPart_cases hcall
    exact hfiled.filePath_eq hupload hb hrow

/-! ### Puts -/

section Puts

variable {b : Bucket} {key : Key} {options : PutOptions} {bytes : Bytes} {version : Text}
  {now : Time}

/-- A path with a NUL character above the file. -/
theorem hasNul_of_dropLast (h : HasNul p.dropLast) : HasNul p := by
  obtain ⟨n, hn, hnul⟩ := h
  exact ⟨n, List.mem_of_mem_dropLast hn, hnul⟩

theorem valid_of_put (hcall : s.put cfg b key options = some s') :
    ValidKey cfg key ∧ ValidCustomMetadata cfg options.customMetadata := by
  simp only [State.put] at hcall
  split at hcall
  · assumption
  · cases hcall

/-- Whether a rejected `put` had opened its file. -/
theorem Rejects.accepts_iff {written : Option Bytes}
    (h : Rejects cfg s (.put b key options) written s') (hfiled : Filed cfg s)
    (hcond : options.onlyIf = none) : s.Accepts cfg b key options ↔ written.isSome := by
  have hfree := hfiled.get?_nextOp
  have hpasses : s.passes b key options.onlyIf = true := by
    rw [hcond]
    rfl
  cases h with
  | refused hcall =>
    refine iff_of_false (fun haccepts => ?_) (by simp)
    have hcall : s.put cfg b key options = none := hcall
    rw [State.put, if_pos ⟨haccepts.1, haccepts.2.1⟩, if_pos hpasses] at hcall
    cases hcall
  | directory hcall hreply =>
    refine iff_of_false (fun haccepts => ?_) (by simp)
    obtain ⟨-, -, hnul, -, made, hmade, -⟩ := haccepts
    obtain ⟨-, ⟨hfails, -⟩ | ⟨-, rfl⟩⟩ := State.put_cases hcall
    · cases hpasses.symm.trans hfails
    · rcases s.begin_cases b (.put key options) (cfg.filePath b key) with
        ⟨hnul' | hmade', -⟩ | ⟨disk, -, -, heq⟩
      · exact hnul (hasNul_of_dropLast hnul')
      · cases hmade'.symm.trans hmade
      · rw [heq] at hreply
        exact List.cons_ne_self _ _ hreply.symm
  | unopened hcall hopen hreply =>
    refine iff_of_false (fun haccepts => ?_) (by simp)
    obtain ⟨hbegun, hstart⟩ := WriteCall.start_cases hcall hfree
    obtain ⟨op, hop, -, -⟩ := State.openFile_cases hopen
    obtain ⟨rfl, hmade⟩ := hstart op hop
    obtain ⟨hnul, hslash, hopened⟩ := (openable_iff hmade).mp haccepts.2.2
    rcases hbegun.openFile hop rfl hopen with ⟨-, -, hrefused⟩ | ⟨hsame, -⟩
    · rcases hrefused with hnul' | hslash' | hnone
      · exact hnul hnul'
      · cases hslash.symm.trans hslash'
      · exact Option.isSome_iff_ne_none.mp hopened hnone
    · exact List.cons_ne_self _ _ (hreply.symm.trans hsame)
  | failed hcall hopen hwrites hfail =>
    obtain ⟨op, i, hop, -, -⟩ := State.fail_cases hfail
    obtain ⟨-, hopenable⟩ := writing_of_writes hfree hcall hopen hwrites hop
    obtain ⟨hkey, hmetadata⟩ := valid_of_put hcall
    exact iff_of_true ⟨hkey, hmetadata, hopenable⟩ rfl

/-- What a `put` that resolves has done. -/
theorem Resolves.put_cases (h : Resolves cfg s (.put b key options) bytes version now s')
    (hfiled : Filed cfg s) : s.Accepts cfg b key options ∧
      s'.get cfg b key = some (State.putRow cfg options bytes version now, some bytes) := by
  cases h with
  | @committed s₁ s₂ s₃ _ chunks hcall hopen hwrites hbytes hcommit =>
    obtain rfl := hbytes
    obtain ⟨op, i, hop, -, hcases⟩ := State.commit_cases hcommit
    obtain ⟨hwriting, hopenable⟩ := writing_of_writes hfiled.get?_nextOp hcall hopen hwrites hop
    obtain ⟨hkey, hmetadata⟩ := valid_of_put hcall
    refine ⟨⟨hkey, hmetadata, hopenable⟩, ?_⟩
    obtain ⟨j, hop', -⟩ := hwriting.opened
    obtain rfl := Option.some.inj (hop.symm.trans hop')
    rcases hcases with ⟨key', options', htask, rfl⟩ | ⟨uploadId, n, htask, -⟩ |
      ⟨key', uploadId, upload, parts, htask, -⟩
    · obtain ⟨rfl, rfl⟩ := Task.put.inj htask
      have hrow := Table.get?_insert_self (s₃.objects) (b, key)
        (State.putRow cfg options chunks.flatten version now)
      show Option.map _ ((s₃.objects.insert (b, key) _).get? (b, key)) = _
      rw [hrow, Option.map_some]
      exact congrArg (fun content => some (_, content)) hwriting.contents
    · cases htask
    · cases htask

end Puts

end Runs

/-! ### The results -/

/-- A put over the object `a` whose stream fails after one byte. -/
theorem rejects_put (byte : UInt8) :
    ∃ s', Rejects site storedA (.put "b".toList "k".toList {}) (some [byte]) s' := by
  have hrejects : ∃ s', Rejects site storedA (.put "b".toList "k".toList {})
      (some [[byte]].flatten) s' :=
    ⟨_, .failed rfl rfl rfl rfl⟩
  exact hrejects

end Lopata.R2

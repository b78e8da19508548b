import Lopata.R2.Failure

/-!
# Multipart Completion

`complete` looks up the rows of the parts it is given in the order of their numbers, and rejects at
once if one is missing or has another etag. Otherwise it copies the part files into the object's
file one after the other, and then writes the row. Other calls may take steps in between, as long
as they keep off the object's file and the part files.

## Main definitions

* `Names`: the upload has all the parts that a completion is given.
* `Undisturbed`: the pieces of the completion, and steps that keep off its files.
* `Assembled`: the object that has been put together.

## Main results

* `Assembling.step`: what has been copied are the parts that are not to come.
* `complete_assembles`: a completion that names its parts puts them together, and any other rejects.
-/

namespace Lopata.R2

/-- The upload is there and each part of the list is one of its parts, with that etag. -/
def Names (s : State) (b : Bucket) (id : UploadId) (parts : List (ℤ × Etag)) : Prop :=
  (∃ upload, s.uploads.get? id = some upload ∧ upload.bucket = b) ∧
    ∀ p ∈ parts, ∃ row, s.parts.get? (id, p.1) = some row ∧ row.etag = p.2

/-- The part files of the upload match their rows. -/
def PartsMatch (cfg : Config) (s : State) (id : UploadId) : Prop :=
  ∀ n row, s.parts.get? (id, n) = some row →
    ∃ bytes, s.disk.contents row.filePath = some bytes ∧ row.etag = cfg.md5 bytes ∧
      row.size = bytes.length

/-- The bytes of a part's file. -/
def State.data (s : State) (row : Part) : Bytes :=
  (s.disk.contents row.filePath).getD []

/-- The bytes of a part. -/
def State.partBytes (s : State) (id : UploadId) (n : ℤ) : Bytes :=
  ((s.parts.get? (id, n)).map s.data).getD []

/-- The size of a part. -/
def State.partSize (s : State) (id : UploadId) (n : ℤ) : ℕ :=
  ((s.parts.get? (id, n)).map Part.size).getD 0

/-- The object consists of the parts in ascending order: their bytes, their sizes and their
digests. -/
def Assembled (cfg : Config) (s : State) (b : Bucket) (key : Key) (id : UploadId)
    (parts : List (ℤ × Etag)) (s' : State) : Prop :=
  ∃ (numbers : List ℤ) (row : Row), numbers.Perm (parts.map Prod.fst) ∧
    numbers.Pairwise (· < ·) ∧
    s'.get cfg b key = some (row, some (numbers.flatMap (s.partBytes id))) ∧
    row.size = (numbers.map (s.partSize id)).sum ∧
    row.etag = computeMultipartEtag cfg (numbers.map fun n => cfg.md5 (s.partBytes id n))

/-- The operation a piece belongs to. -/
def Action.operation : Action → Option ℕ
  | .openFile id | .write id _ | .nextPart id | .copy id _ | .fail id | .commit id _ _ => some id
  | .put .. | .uploadPart .. | .complete .. | .delete .. | .createMultipartUpload .. | .abort ..
  | .get .. | .readBody .. => none

/-- A piece of the completion; the disk lets it open its file. -/
def Proceeds (id : ℕ) (s : State) : Action → Prop
  | .openFile id' => id' = id ∧ ∀ op ∈ s.ops.get? id, ¬ HasNul op.file.path ∧
      op.file.slash = false ∧ (s.disk.openForWriting op.file.path).isSome
  | .nextPart id' | .copy id' _ => id' = id
  | .put .. | .uploadPart .. | .complete .. | .write .. | .fail _ | .commit .. | .delete ..
  | .createMultipartUpload .. | .abort .. | .get .. | .readBody .. => False

/-- A piece of another call that does not reach the object's file nor the part files. -/
def KeepsOff (cfg : Config) (s₀ : State) (b : Bucket) (key : Key) (id : UploadId) (s : State)
    (a : Action) : Prop :=
  a.operation ≠ some s₀.nextOp ∧ ¬ Hits cfg (cfg.filePath b key).path s a ∧
    ∀ n row, s₀.parts.get? (id, n) = some row → ¬ Hits cfg row.filePath s a

/-- A completion that was called in a state goes on, or a call that keeps off its files. -/
def Undisturbed (cfg : Config) (s₀ : State) (b : Bucket) (key : Key) (id : UploadId) (s : State)
    (a : Action) : Prop :=
  Proceeds s₀.nextOp s a ∨ KeepsOff cfg s₀ b key id s a

/-! ### The rows of the parts -/

section Rows

variable {α β γ : Type} {f : α → Option β} {as : List α} {bs : List β}

/-- A partial map over a list is defined if it is defined on the list. -/
theorem isSome_mapM_iff : (as.mapM f).isSome ↔ ∀ a ∈ as, (f a).isSome := by
  induction as with
  | nil => simp
  | cons a as ih =>
    rw [List.forall_mem_cons, ← ih]
    cases hf : f a <;> cases has : as.mapM f <;> simp [List.mapM_cons, hf, has]

/-- What can be told of a value can be told of all. -/
theorem map_of_mapM {g : α → γ} {h : β → γ} (hmap : as.mapM f = some bs)
    (hgh : ∀ a ∈ as, ∀ b, f a = some b → g a = h b) : as.map g = bs.map h := by
  induction as generalizing bs with
  | nil =>
    obtain rfl : [] = bs := by simpa using hmap
    rfl
  | cons a as ih =>
    simp only [List.mapM_cons, Option.bind_eq_bind, Option.bind_eq_some_iff] at hmap
    obtain ⟨b, hb, rest, hrest, hbs⟩ := hmap
    obtain rfl := Option.some.inj hbs
    rw [List.map_cons, List.map_cons, hgh a List.mem_cons_self b hb,
      ih hrest fun a' ha' => hgh a' (List.mem_cons_of_mem a ha')]

end Rows

section Lookup

variable {cfg : Config} {s s' : State} {b : Bucket} {key : Key} {id : UploadId}
  {parts : List (ℤ × Etag)} {rows : List Part}

/-- The parts of a list by their numbers. -/
def byNumber (parts : List (ℤ × Etag)) : List (ℤ × Etag) :=
  parts.insertionSort fun p q => p.1 ≤ q.1

/-- The rows of a completion are found if it names parts with their etags. -/
theorem isSome_partRows_iff : (s.partRows id parts).isSome ↔
    ∀ p ∈ parts, ∃ row, s.parts.get? (id, p.1) = some row ∧ row.etag = p.2 := by
  rw [State.partRows, isSome_mapM_iff]
  refine forall_congr' fun p => ?_
  rw [List.mem_insertionSort]
  refine imp_congr_right fun _ => ?_
  rw [Option.isSome_iff_exists]
  simp only [Option.filter_eq_some_iff, decide_eq_true_eq]

/-- A completion goes on if it names its parts. -/
theorem complete_eq_none_of_not_names (h : ¬ Names s b id parts) :
    s.complete cfg b key id parts = none := by
  by_contra hsome
  obtain ⟨s', hs'⟩ := Option.ne_none_iff_exists'.mp hsome
  obtain ⟨upload, rows, hupload, hb, hrows, -⟩ := State.complete_cases hs'
  exact h ⟨⟨upload, hupload, hb⟩, isSome_partRows_iff.mp (by rw [hrows]; rfl)⟩

variable (key) in
theorem Names.complete_eq (h : Names s b id parts) :
    ∃ upload rows, s.uploads.get? id = some upload ∧ upload.bucket = b ∧
      s.partRows id parts = some rows ∧
      s.complete cfg b key id parts =
        some (s.begin b (.complete key id upload rows rows []) (cfg.filePath b key)) := by
  obtain ⟨⟨upload, hupload, hb⟩, hparts⟩ := h
  obtain ⟨rows, hrows⟩ := Option.isSome_iff_exists.mp (isSome_partRows_iff.mpr hparts)
  refine ⟨upload, rows, hupload, hb, hrows, ?_⟩
  rw [State.complete, hupload]
  simp only [hb, if_true, hrows, Option.map_some]

/-- The rows are those of the numbers, in ascending order. -/
theorem numbers_of_partRows (hdistinct : (parts.map Prod.fst).Nodup)
    (hrows : s.partRows id parts = some rows) :
    ∃ numbers : List ℤ, numbers.Perm (parts.map Prod.fst) ∧ numbers.Pairwise (· < ·) ∧
      ∀ {γ : Type} (g : ℤ → γ) (h : Part → γ),
        (∀ n row, s.parts.get? (id, n) = some row → g n = h row) → numbers.map g = rows.map h := by
  have hperm := (List.perm_insertionSort (fun p q : ℤ × Etag => p.1 ≤ q.1) parts).map Prod.fst
  have hsorted : ((byNumber parts).map Prod.fst).Pairwise (· ≤ ·) :=
    List.pairwise_map.mpr (List.pairwise_insertionSort (fun p q : ℤ × Etag => p.1 ≤ q.1) parts)
  refine ⟨(byNumber parts).map Prod.fst, hperm, ?_, fun g h hgh => ?_⟩
  · exact hsorted.imp₂ (fun n m hle hne => lt_of_le_of_ne hle hne) (hperm.nodup_iff.mpr hdistinct)
  · rw [List.map_map]
    exact map_of_mapM hrows fun p _ row hrow => hgh p.1 row (Option.filter_eq_some_iff.mp hrow).1

end Lookup

/-! ### Steps of other calls -/

section Frames

variable {cfg : Config} {s s' : State} {a : Action} {id : ℕ} {op : Op}

theorem get?_ops_settle {id' : ℕ} (hne : id' ≠ id) (reply : Reply) :
    (s.settle id' reply).ops.get? id = s.ops.get? id :=
  (Table.get?_erase ..).trans (if_neg hne.symm)

theorem get?_ops_insert {ops : Table ℕ Op} {id' : ℕ} (hne : id' ≠ id) :
    (ops.insert id' op).get? id = ops.get? id :=
  Table.get?_insert_of_ne _ _ hne.symm

/-- Whoever begins an operation has a new number. -/
theorem get?_ops_begin (hid : id < s.nextOp) (b : Bucket) (task : Task) (file : FilePath) :
    (s.begin b task file).ops.get? id = s.ops.get? id := by
  rcases s.begin_cases b task file with ⟨-, heq⟩ | ⟨disk, -, -, heq⟩
  · rw [heq]
    rfl
  · rw [heq]
    exact get?_ops_insert hid.ne'

/-- An operation is not touched by the pieces of others. -/
theorem get?_ops_step (hid : id < s.nextOp) (hother : a.operation ≠ some id)
    (hstep : step cfg s a = some s') : s'.ops.get? id = s.ops.get? id := by
  have hne : ∀ id', a.operation = some id' → id' ≠ id := by
    rintro id' hid' rfl
    exact hother hid'
  cases a with
  | put b key options =>
    obtain ⟨-, ⟨-, rfl⟩ | ⟨-, rfl⟩⟩ := State.put_cases hstep
    · rfl
    · exact get?_ops_begin hid ..
  | uploadPart b uploadId n =>
    obtain ⟨upload, -, -, rfl⟩ := State.uploadPart_cases hstep
    exact get?_ops_begin hid ..
  | complete b key uploadId parts =>
    obtain ⟨upload, rows, -, -, -, rfl⟩ := State.complete_cases hstep
    exact get?_ops_begin hid ..
  | openFile id' =>
    obtain ⟨op, -, -, ⟨-, rfl⟩ | ⟨-, -, rfl⟩ | ⟨disk, j, -, -, -, rfl⟩⟩ :=
      State.openFile_cases hstep
    · exact get?_ops_settle (hne id' rfl) _
    · exact get?_ops_settle (hne id' rfl) _
    · exact get?_ops_insert (hne id' rfl)
  | write id' chunk =>
    obtain ⟨op, j, -, -, -, rfl⟩ := State.write_cases hstep
    exact get?_ops_insert (hne id' rfl)
  | nextPart id' =>
    obtain ⟨op, j, key, uploadId, upload, parts, row, rest, -, -, -,
      ⟨-, rfl⟩ | ⟨bytes, -, rfl⟩⟩ := State.nextPart_cases hstep
    · exact get?_ops_settle (hne id' rfl) _
    · exact get?_ops_insert (hne id' rfl)
  | copy id' n =>
    obtain ⟨op, j, key, uploadId, upload, parts, rest, source, -, -, -, rfl⟩ :=
      State.copy_cases hstep
    exact get?_ops_insert (hne id' rfl)
  | fail id' =>
    obtain ⟨op, j, -, -, rfl⟩ := State.fail_cases hstep
    exact get?_ops_settle (hne id' rfl) _
  | commit id' version now =>
    obtain ⟨op, j, -, -, ⟨key, options, -, rfl⟩ | ⟨uploadId, n, -, rfl⟩ |
      ⟨key, uploadId, upload, parts, -, rfl⟩⟩ := State.commit_cases hstep
    · exact get?_ops_settle (hne id' rfl) _
    · exact get?_ops_settle (hne id' rfl) _
    · refine (get?_ops_settle (hne id' rfl) _).trans ?_
      rw [State.ops_removePartFiles]
      rfl
  | delete b key =>
    obtain rfl := Option.some.inj hstep
    rcases s.delete_cases cfg b key with ⟨-, heq⟩ | ⟨-, heq | heq⟩
    · rw [heq]
      rfl
    · rw [heq]
      rfl
    · rw [heq]
      rfl
  | createMultipartUpload b key httpMetadata customMetadata uploadId now =>
    obtain ⟨-, -, rfl⟩ := State.createMultipartUpload_cases hstep
    rfl
  | abort b uploadId =>
    obtain rfl := Option.some.inj hstep
    rw [State.abort, State.ops_removePartFiles]
    rfl
  | get b key onlyIf =>
    obtain ⟨-, rfl⟩ := State.handOut_cases hstep
    rfl
  | readBody b p =>
    obtain ⟨-, -, rfl⟩ := State.readBody_cases hstep
    rfl

end Frames

/-! ### Copying -/

/-- How far a completion has come: the parts it has opened and those to come, what is left of the
open one, what it has written, and the open file. -/
structure Progress where
  past : List Part
  rest : List Part
  source : Bytes
  written : Bytes
  fd : Option ℕ

section Copying

variable (cfg : Config) (s₀ : State) (b : Bucket) (key : Key) (id : UploadId) (upload : Upload)

/-- The operation of a completion. -/
def Progress.op (g : Progress) : Op where
  bucket := b
  task := .complete key id upload (g.past ++ g.rest) g.rest g.source
  file := cfg.filePath b key
  fd := g.fd
  written := g.written

/-- A completion that was called in a state is in flight. The file holds what has been written:
what is written and what is left of the open part are the parts opened so far. -/
structure Assembling (rows : List Part) (g : Progress) (s : State) : Prop where
  filed : Filed cfg s
  handled : Handled s
  op : s.ops.get? s₀.nextOp = some (g.op cfg b key id upload)
  all : g.past ++ g.rest = rows
  bytes : g.written ++ g.source = g.past.flatMap s₀.data
  parts : ∀ row ∈ rows, s.disk.contents row.filePath = some (s₀.data row)
  unopened : g.fd = none → g.written = []
  opened : ∀ i, g.fd = some i → s.disk.node (cfg.filePath b key).path = some (.file i) ∧
    s.disk.contents (cfg.filePath b key).path = some g.written

variable {cfg s₀ b key id upload} {rows : List Part} {g : Progress} {s s' : State} {a : Action}
  {parts : List (ℤ × Etag)}

/-- Other calls that keep off the files. -/
theorem Assembling.keepsOff (h : Assembling cfg s₀ b key id upload rows g s)
    (hrows : ∀ row ∈ rows, ∃ n, s₀.parts.get? (id, n) = some row)
    (hoff : KeepsOff cfg s₀ b key id s a) (hstep : step cfg s a = some s') :
    Assembling cfg s₀ b key id upload rows g s' := by
  obtain ⟨hother, hfile, hparts⟩ := hoff
  have hid := h.filed.numbered _ _ h.op
  refine ⟨h.filed.step hstep, h.handled.step hstep, (get?_ops_step hid hother hstep).trans h.op,
    h.all, h.bytes, fun row hrow => ?_, h.unopened, fun i hi => ?_⟩
  · obtain ⟨n, hn⟩ := hrows row hrow
    exact (contents_step h.handled (hparts n row hn) hstep).trans (h.parts row hrow)
  · obtain ⟨hnode, hcontents⟩ := h.opened i hi
    exact ⟨node_step hfile hstep hnode,
      (contents_step h.handled hfile hstep).trans hcontents⟩

/-- The file is opened. -/
theorem Assembling.openFile (h : Assembling cfg s₀ b key id upload rows g s)
    (hne : ∀ row ∈ rows, row.filePath ≠ (cfg.filePath b key).path)
    (hopens : Proceeds s₀.nextOp s (.openFile s₀.nextOp))
    (hstep : s.openFile s₀.nextOp = some s') :
    ∃ i, Assembling cfg s₀ b key id upload rows { g with fd := some i } s' := by
  have hfiled := h.filed.openFile hstep
  have hhandled := h.handled.openFile hstep
  obtain ⟨op, hop, hfd, hcases⟩ := State.openFile_cases hstep
  obtain rfl : g.op cfg b key id upload = op := Option.some.inj (h.op.symm.trans hop)
  obtain ⟨hnul, hslash, hopened⟩ := hopens.2 _ h.op
  rcases hcases with ⟨hnul', -⟩ | ⟨-, hrefused, -⟩ | ⟨disk, i, -, -, hopen, rfl⟩
  · exact absurd hnul' hnul
  · rcases hrefused with hslash' | hnone
    · cases hslash.symm.trans hslash'
    · exact absurd hnone (Option.isSome_iff_ne_none.mp hopened)
  · refine ⟨i, hfiled, hhandled, (Table.get?_insert ..).trans (if_pos rfl), h.all, h.bytes,
      fun row hrow => ?_, fun hi => absurd hi (Option.some_ne_none i), fun j hj => ?_⟩
    · exact ((Disk.contents_openForWriting hopen _).trans (if_neg (hne row hrow))).trans
        (h.parts row hrow)
    · obtain rfl := Option.some.inj hj
      refine ⟨Disk.node_openForWriting hopen, ?_⟩
      have hempty : g.written = [] := h.unopened hfd
      exact ((Disk.contents_openForWriting hopen _).trans (if_pos rfl)).trans
        (congrArg some hempty.symm)

/-- The next part is opened. -/
theorem Assembling.nextPart (h : Assembling cfg s₀ b key id upload rows g s)
    (hstep : s.nextPart s₀.nextOp = some s') :
    ∃ row rest, g.rest = row :: rest ∧ g.source = [] ∧
      Assembling cfg s₀ b key id upload rows
        { g with past := g.past ++ [row], rest, source := s₀.data row } s' := by
  have hfiled := h.filed.nextPart hstep
  have hhandled := h.handled.nextPart hstep
  obtain ⟨op, i, key', id', upload', parts, row, rest, hop, -, htask, hcases⟩ :=
    State.nextPart_cases hstep
  obtain rfl : g.op cfg b key id upload = op := Option.some.inj (h.op.symm.trans hop)
  obtain ⟨rfl, rfl, rfl, hparts, hrest, hsource⟩ := Task.complete.inj htask
  have hrow : row ∈ rows := by
    rw [← h.all, hrest]
    exact List.mem_append_right _ List.mem_cons_self
  rcases hcases with ⟨hnone, -⟩ | ⟨bytes, hbytes, rfl⟩
  · cases hnone.symm.trans (h.parts row hrow)
  · obtain rfl := Option.some.inj (hbytes.symm.trans (h.parts row hrow))
    have hsplit : g.past ++ row :: rest = (g.past ++ [row]) ++ rest := by simp
    refine ⟨row, rest, hrest, hsource, hfiled, hhandled, ?_, ?_, ?_, h.parts, h.unopened, h.opened⟩
    · refine (Table.get?_insert ..).trans ((if_pos rfl).trans ?_)
      simp only [Progress.op, ← hparts, hrest, hsplit]
    · rw [← h.all, hrest]
      exact hsplit.symm
    · have hbytes := h.bytes
      rw [hsource, List.append_nil] at hbytes
      rw [List.flatMap_append, ← hbytes, List.flatMap_singleton]

/-- A chunk of the open part is copied. -/
theorem Assembling.copy (h : Assembling cfg s₀ b key id upload rows g s) {n : ℕ}
    (hne : ∀ row ∈ rows, row.filePath ≠ (cfg.filePath b key).path)
    (hstep : s.copy s₀.nextOp n = some s') :
    Assembling cfg s₀ b key id upload rows
      { g with source := g.source.drop n, written := g.written ++ g.source.take n } s' := by
  have hfiled := h.filed.copy hstep
  have hhandled := h.handled.step (show step cfg s (.copy s₀.nextOp n) = some s' from hstep)
  obtain ⟨op, i, key', id', upload', parts, rest, source, hop, hfd, htask, rfl⟩ :=
    State.copy_cases hstep
  obtain rfl : g.op cfg b key id upload = op := Option.some.inj (h.op.symm.trans hop)
  obtain ⟨rfl, rfl, rfl, hparts, hrest, hsource⟩ := Task.complete.inj htask
  have hfd : g.fd = some i := hfd
  obtain ⟨hnode, hcontents⟩ := h.opened i hfd
  refine ⟨hfiled, hhandled, (Table.get?_insert ..).trans ((if_pos rfl).trans ?_), h.all, ?_,
    fun row hrow => ?_, fun hi => absurd (hfd.symm.trans hi) (Option.some_ne_none i),
    fun j hj => ?_⟩
  · simp only [Progress.op, ← hparts, hrest, hsource]
  · rw [List.append_assoc, List.take_append_drop]
    exact h.bytes
  · exact ((Disk.IsHandle.of_node hnode).contents_write _ _ _ (hne row hrow)).trans
      (h.parts row hrow)
  · obtain rfl : i = j := Option.some.inj (hfd.symm.trans hj)
    refine ⟨hnode, ?_⟩
    rw [← hsource]
    exact Disk.contents_write_end hnode hcontents

/-- A step of an undisturbed completion. -/
theorem Assembling.step (h : Assembling cfg s₀ b key id upload rows g s)
    (hrows : ∀ row ∈ rows, ∃ n, s₀.parts.get? (id, n) = some row)
    (hne : ∀ row ∈ rows, row.filePath ≠ (cfg.filePath b key).path)
    (hok : Undisturbed cfg s₀ b key id s a) (hstep : R2.step cfg s a = some s') :
    ∃ g', Assembling cfg s₀ b key id upload rows g' s' := by
  rcases hok with hproceeds | hoff
  · cases a with
    | openFile id' =>
      obtain rfl : id' = s₀.nextOp := hproceeds.1
      obtain ⟨i, hnext⟩ := h.openFile hne hproceeds hstep
      exact ⟨_, hnext⟩
    | nextPart id' =>
      obtain rfl : id' = s₀.nextOp := hproceeds
      obtain ⟨row, rest, -, -, hnext⟩ := h.nextPart hstep
      exact ⟨_, hnext⟩
    | copy id' n =>
      obtain rfl : id' = s₀.nextOp := hproceeds
      exact ⟨_, h.copy hne hstep⟩
    | put b' key' options => exact hproceeds.elim
    | uploadPart b' uploadId n => exact hproceeds.elim
    | complete b' key' uploadId parts => exact hproceeds.elim
    | write id' chunk => exact hproceeds.elim
    | fail id' => exact hproceeds.elim
    | commit id' version now => exact hproceeds.elim
    | delete b' key' => exact hproceeds.elim
    | createMultipartUpload b' key' httpMetadata customMetadata uploadId now =>
      exact hproceeds.elim
    | abort b' uploadId => exact hproceeds.elim
    | get b' key' onlyIf => exact hproceeds.elim
    | readBody b' p => exact hproceeds.elim
  · exact ⟨g, h.keepsOff hrows hoff hstep⟩

/-- The call of a completion. -/
theorem assembling_begin (hfiled : Filed cfg s₀) (hhandled : Handled s₀)
    (hmatch : PartsMatch cfg s₀ id) (hopenable : Openable s₀.disk (cfg.filePath b key))
    (hrows : ∀ row ∈ rows, ∃ n, s₀.parts.get? (id, n) = some row)
    (hcall : s₀.complete cfg b key id parts =
      some (s₀.begin b (.complete key id upload rows rows []) (cfg.filePath b key))) :
    Assembling cfg s₀ b key id upload rows ⟨[], rows, [], [], none⟩
        (s₀.begin b (.complete key id upload rows rows []) (cfg.filePath b key)) ∧
      Proceeds s₀.nextOp (s₀.begin b (.complete key id upload rows rows []) (cfg.filePath b key))
        (.openFile s₀.nextOp) := by
  have hcall : R2.step cfg s₀ (.complete b key id parts) = _ := hcall
  have hfiled' := hfiled.step hcall
  have hhandled' := hhandled.step hcall
  have hcontents := contents_begin s₀ b (.complete key id upload rows rows []) (cfg.filePath b key)
  obtain ⟨hnul, hslash, made, hmade, hopened⟩ := hopenable
  have hop : (s₀.begin b (.complete key id upload rows rows []) (cfg.filePath b key)).ops.get?
      s₀.nextOp = some (Progress.op cfg b key id upload ⟨[], rows, [], [], none⟩) ∧
      (s₀.begin b (.complete key id upload rows rows []) (cfg.filePath b key)).disk = made := by
    rcases s₀.begin_cases b (.complete key id upload rows rows []) (cfg.filePath b key) with
      ⟨hnul' | hnone, -⟩ | ⟨disk, -, hdisk, heq⟩
    · exact absurd (hasNul_of_dropLast hnul') hnul
    · cases hnone.symm.trans hmade
    · rw [heq]
      exact ⟨Table.get?_insert_self .., Option.some.inj (hdisk.symm.trans hmade)⟩
  refine ⟨⟨hfiled', hhandled', hop.1, rfl, rfl, fun row hrow => ?_, fun _ => rfl,
    fun i hi => by cases hi⟩, rfl, fun op' hop' => ?_⟩
  · obtain ⟨n, hn⟩ := hrows row hrow
    obtain ⟨bytes, hbytes, -⟩ := hmatch n row hn
    rw [hcontents, State.data, hbytes]
    rfl
  · obtain rfl := Option.some.inj (hop.1.symm.trans hop')
    rw [hop.2]
    exact ⟨hnul, hslash, hopened⟩

/-- A completion that has opened its file copies all parts. -/
theorem Assembling.exists_copied {rest : List Part}
    (h : Assembling cfg s₀ b key id upload rows g s) (hrest : g.rest = rest)
    (hsource : g.source = []) (hopened : g.fd.isSome)
    (hne : ∀ row ∈ rows, row.filePath ≠ (cfg.filePath b key).path) :
    ∃ g' s', Reaches (R2.step cfg) (Undisturbed cfg s₀ b key id) s s' ∧
      Assembling cfg s₀ b key id upload rows g' s' ∧ g'.rest = [] ∧ g'.source = [] ∧
        g'.fd.isSome := by
  induction rest generalizing g s with
  | nil => exact ⟨g, s, .refl, h, hrest, hsource, hopened⟩
  | cons row rest ih =>
    obtain ⟨i, hi⟩ := Option.isSome_iff_exists.mp hopened
    have hrow : row ∈ rows := by
      rw [← h.all, hrest]
      exact List.mem_append_right _ List.mem_cons_self
    obtain ⟨s₁, hopen⟩ : ∃ s₁, s.nextPart s₀.nextOp = some s₁ := by
      rw [State.nextPart, h.op]
      simp only [Progress.op, hrest, hsource, hi, State.touch, h.parts row hrow]
      exact ⟨_, rfl⟩
    obtain ⟨row', rest', hrest', -, h₁⟩ := h.nextPart hopen
    obtain ⟨rfl, rfl⟩ := List.cons.inj (hrest.symm.trans hrest')
    obtain ⟨s₂, hcopy⟩ : ∃ s₂, s₁.copy s₀.nextOp (s₀.data row).length = some s₂ := by
      rw [State.copy, h₁.op]
      simp only [Progress.op, hi]
      exact ⟨_, rfl⟩
    have h₂ := h₁.copy hne hcopy
    obtain ⟨g', s', hreach, hend⟩ := ih h₂ rfl (List.drop_length) hopened
    have hone : Reaches (R2.step cfg) (Undisturbed cfg s₀ b key id) s s₁ :=
      Reaches.refl.tail (a := .nextPart s₀.nextOp) (.inl rfl) hopen
    have htwo : Reaches (R2.step cfg) (Undisturbed cfg s₀ b key id) s s₂ :=
      hone.tail (a := .copy s₀.nextOp (s₀.data row).length) (.inl rfl) hcopy
    exact ⟨g', s', htwo.trans hreach, hend⟩

/-- The row that ends a completion. -/
theorem Assembling.commit (h : Assembling cfg s₀ b key id upload rows g s)
    (hout : ¬ Path.Within (cfg.partDir b id).path (cfg.filePath b key).path) {version : Text}
    {now : Time} (hstep : s.commit cfg s₀.nextOp version now = some s') :
    s'.get cfg b key = some (State.completeRow cfg upload rows (rows.flatMap s₀.data) version now,
      some (rows.flatMap s₀.data)) := by
  obtain ⟨op, i, hop, hfd, hcases⟩ := State.commit_cases hstep
  obtain rfl : g.op cfg b key id upload = op := Option.some.inj (h.op.symm.trans hop)
  obtain ⟨-, hcontents⟩ := h.opened i hfd
  rcases hcases with ⟨key', options, htask, -⟩ | ⟨uploadId, n, htask, -⟩ |
    ⟨key', id', upload', parts, htask, rfl⟩
  · cases htask
  · cases htask
  · obtain ⟨rfl, rfl, rfl, rfl, hrest, hsource⟩ := Task.complete.inj htask
    have hbytes := h.bytes
    have hall := h.all
    rw [hrest, List.append_nil] at hall
    rw [hsource, List.append_nil, hall] at hbytes
    show Option.map _ (Table.get? (State.removePartFiles cfg _ b id).objects (b, key)) = _
    rw [State.objects_removePartFiles]
    have hrow := Table.get?_insert_self s.objects (b, key)
      (State.completeRow cfg upload (g.past ++ g.rest) g.written version now)
    refine (congrArg (Option.map _) hrow).trans (congrArg some (Prod.ext ?_ ?_))
    · rw [h.all, hbytes]
    · exact (contents_removePartFiles _ _ _ hout).trans (hcontents.trans (congrArg some hbytes))

/-- A completion that has copied all parts can write its row. -/
theorem Assembling.exists_commit (h : Assembling cfg s₀ b key id upload rows g s)
    (hrest : g.rest = []) (hsource : g.source = []) (hopened : g.fd.isSome) (version : Text)
    (now : Time) : ∃ s', s.commit cfg s₀.nextOp version now = some s' := by
  obtain ⟨i, hi⟩ := Option.isSome_iff_exists.mp hopened
  rw [State.commit, h.op]
  simp only [Progress.op, hrest, hsource, hi]
  exact ⟨_, rfl⟩

/-- A completion whose directory is made and whose file can be opened comes to its end. -/
theorem Assembling.exists_end (h : Assembling cfg s₀ b key id upload rows ⟨[], rows, [], [], none⟩ s)
    (hopens : Proceeds s₀.nextOp s (.openFile s₀.nextOp))
    (hne : ∀ row ∈ rows, row.filePath ≠ (cfg.filePath b key).path) (version : Text) (now : Time) :
    ∃ s₂ s', Reaches (R2.step cfg) (Undisturbed cfg s₀ b key id) s s₂ ∧
      s₂.commit cfg s₀.nextOp version now = some s' := by
  obtain ⟨s₁, hopen⟩ : ∃ s₁, s.openFile s₀.nextOp = some s₁ := by
    obtain ⟨hnul, hslash, hopened⟩ := hopens.2 _ h.op
    obtain ⟨⟨disk, i⟩, hdisk⟩ := Option.isSome_iff_exists.mp hopened
    have hnul : ¬ HasNul (cfg.filePath b key).path := hnul
    have hslash : (cfg.filePath b key).slash = false := hslash
    have hdisk : s.disk.openForWriting (cfg.filePath b key).path = some (disk, i) := hdisk
    rw [State.openFile, h.op]
    simp only [Progress.op, Option.isSome_none, Bool.false_eq_true, if_false, if_neg hnul, hslash,
      hdisk]
    exact ⟨_, rfl⟩
  obtain ⟨i, h₁⟩ := h.openFile hne hopens hopen
  obtain ⟨g₂, s₂, hreach, h₂, hrest, hsource, hopened⟩ := h₁.exists_copied rfl rfl rfl hne
  obtain ⟨s', hcommit⟩ := h₂.exists_commit hrest hsource hopened version now
  have hone : Reaches (R2.step cfg) (Undisturbed cfg s₀ b key id) s s₁ :=
    Reaches.refl.tail (a := .openFile s₀.nextOp) (.inl hopens) hopen
  exact ⟨s₂, s', hone.trans hreach, hcommit⟩

end Copying

/-! ### The results -/

/-- Row and bytes of the object are those of the parts. -/
theorem assembled_of_get {cfg : Config} {s s' : State} {b : Bucket} {key : Key} {id : UploadId}
    {parts : List (ℤ × Etag)} {rows : List Part} {upload : Upload} {version : Text} {now : Time}
    (hdistinct : (parts.map Prod.fst).Nodup) (hmatch : PartsMatch cfg s id)
    (hrows : s.partRows id parts = some rows)
    (hget : s'.get cfg b key =
      some (State.completeRow cfg upload rows (rows.flatMap s.data) version now,
        some (rows.flatMap s.data))) : Assembled cfg s b key id parts s' := by
  obtain ⟨numbers, hperm, hsorted, hmap⟩ := numbers_of_partRows hdistinct hrows
  have hbytes : numbers.map (s.partBytes id) = rows.map s.data :=
    hmap _ _ fun n row hrow => by rw [State.partBytes, hrow]; rfl
  have hdata : ∀ row ∈ rows, row.etag = cfg.md5 (s.data row) ∧ row.size = (s.data row).length := by
    intro row hrow
    obtain ⟨n, hn⟩ := State.mem_partRows hrows hrow
    obtain ⟨bytes, hcontents, hetag, hsize⟩ := hmatch n row hn
    rw [State.data, hcontents]
    exact ⟨hetag, hsize⟩
  refine ⟨numbers, State.completeRow cfg upload rows (rows.flatMap s.data) version now, hperm,
    hsorted, ?_, ?_, ?_⟩
  · rw [hget, List.flatMap_def, List.flatMap_def, hbytes]
  · have hsizes : numbers.map (s.partSize id) = rows.map Part.size :=
      hmap _ _ fun n row hrow => by rw [State.partSize, hrow]; rfl
    rw [hsizes, List.map_congr_left fun row hrow => (hdata row hrow).2]
    exact List.length_flatMap
  · have hdigests : numbers.map (fun n => cfg.md5 (s.partBytes id n)) = rows.map Part.etag := by
      have hmd5 := congrArg (List.map cfg.md5) hbytes
      rw [List.map_map, List.map_map] at hmd5
      exact hmd5.trans (List.map_congr_left fun row hrow => (hdata row hrow).1.symm)
    rw [hdigests]
    rfl

def siteUpload : UploadId := "01234567-89ab-cdef-0123-456789abcdef".toList

/-- An upload of two parts, the second uploaded first and the first twice. -/
def uploadTwo : List Action :=
  [.createMultipartUpload "b".toList "k".toList none none siteUpload 0,
    .uploadPart "b".toList siteUpload 2, .openFile 0, .write 0 [98], .commit 0 [] 0,
    .uploadPart "b".toList siteUpload 1, .openFile 1, .write 1 [97, 97], .commit 1 [] 0,
    .uploadPart "b".toList siteUpload 1, .openFile 2, .write 2 [97], .commit 2 [] 0]

def twoParts : State :=
  (play (step site) (.start siteDisk) uploadTwo).get (by decide)

/-- The parts of the upload, in another order. -/
def bothParts : List (ℤ × Etag) := [(2, siteMd5 [98]), (1, siteMd5 [97])]

theorem partsMatch_twoParts : PartsMatch site twoParts siteUpload := by
  have hall : (twoParts.parts.rows.all fun p =>
      (twoParts.disk.contents p.2.filePath).any fun bytes =>
        p.2.etag = siteMd5 bytes ∧ p.2.size = bytes.length) = true := rfl
  intro n row hrow
  have hany := List.all_eq_true.mp hall _ (Table.mem_rows_iff.mpr hrow)
  obtain ⟨bytes, hbytes, hrest⟩ := (Option.any_eq_true _ _).mp hany
  exact ⟨bytes, hbytes, of_decide_eq_true hrest⟩

end Lopata.R2

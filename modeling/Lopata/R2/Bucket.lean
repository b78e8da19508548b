import Mathlib.Algebra.GroupWithZero.Nat
import Mathlib.Data.List.Sort
import Lopata.Lib.Disk
import Lopata.Lib.Machine
import Lopata.Lib.Table

/-!
# R2 Buckets

A bucket keeps a row for each object in `r2_objects` and the object's bytes in a file at the
object's key below the bucket's directory. The parts of a multipart upload are files below
`__multipart__/<uploadId>` of the same directory, with rows of their own.

`put`, `uploadPart` and `complete` run in pieces with awaits in between: what is checked and
which directories are made in the piece of the call, then the file is opened, written chunk by
chunk, and the row is written after the last chunk. A `delete` or `abort` is one piece. Each
piece is a step of the machine, so its runs are all interleavings of any number of calls on all
buckets. The S3 handlers are sequences of these calls (a copy is a `get` and a `put`, a rejected
`Content-MD5` a `put` and a `delete`, `DeleteObjects` a `delete` for each key).

The state keeps a log of what the calls touch on the disk.

## Main results

* `step` is the machine; the modules after this one prove what holds in its runs.
-/

namespace Lopata.R2

/-- Text of a key, an etag, an upload id or metadata. -/
abbrev Text := List Char

abbrev Key := Text
abbrev Etag := Text
abbrev UploadId := Text

/-- The name of a bucket: one path component. -/
abbrev Bucket := Name

/-- Milliseconds since the epoch. -/
abbrev Time := ℤ

/-- Fields with their texts: HTTP metadata, custom metadata or checksums. -/
abbrev Fields := List (Text × Text)

/-- `R2Limits`; part sizes and counts are documented there and not enforced. -/
structure Limits where
  maxKeySize : ℕ := 1024
  maxCustomMetadataSize : ℕ := 2048

/-- What the buckets are given: the directory of `lopata` data, the limits and the hash. -/
structure Config where
  dataDir : Path
  limits : Limits := {}
  /-- The MD5 digest of the bytes, in hexadecimal. -/
  md5 : Bytes → Etag

/-- `R2Conditional`. -/
structure Conditional where
  etagMatches : Option (List Etag) := none
  etagDoesNotMatch : Option (List Etag) := none
  uploadedBefore : Option Time := none
  uploadedAfter : Option Time := none
  deriving DecidableEq

/-- `R2PutOptions`; `checksums` are the digests the caller provides, stored as they are. -/
structure PutOptions where
  httpMetadata : Option Fields := none
  customMetadata : Option Fields := none
  onlyIf : Option Conditional := none
  checksums : Fields := []

/-- A row of `r2_objects`, without its key. -/
structure Row where
  size : ℕ
  etag : Etag
  version : Text
  uploaded : Time
  httpMetadata : Option Fields
  customMetadata : Option Fields
  checksums : Option Fields
  deriving DecidableEq

/-- A row of `r2_multipart_uploads`, without its id. -/
structure Upload where
  bucket : Bucket
  key : Key
  httpMetadata : Option Fields
  customMetadata : Option Fields
  createdAt : Time

/-- A row of `r2_multipart_parts`, without its upload and number. -/
structure Part where
  etag : Etag
  size : ℕ
  filePath : Path

/-! ### Checks and computed texts -/

/-- `evaluateConditional`. -/
def evaluateConditional (cond : Conditional) (etag : Etag) (uploaded : Time) : Bool :=
  let quoted := '"' :: etag ++ ['"']
  (cond.etagMatches.all fun tags => tags.any fun t => t = etag || t = quoted || t = ['*']) &&
  (cond.etagDoesNotMatch.all fun tags => !tags.any fun t => t = etag || t = quoted) &&
  (cond.uploadedBefore.all fun time => uploaded < time) &&
  (cond.uploadedAfter.all fun time => time < uploaded)

/-- The bytes of a text in UTF-8. -/
def utf8Size (text : Text) : ℕ :=
  (text.map Char.utf8Size).sum

/-- The bytes `JSON.stringify` takes for a character of a string. -/
def jsonCharSize (c : Char) : ℕ :=
  if c = '"' ∨ c = '\\' ∨ c.toNat ∈ [8, 9, 10, 12, 13] then 2
  else if c.toNat < 32 then 6
  else c.utf8Size

def jsonStringSize (text : Text) : ℕ :=
  2 + (text.map jsonCharSize).sum

/-- The bytes `JSON.stringify` takes for a record of strings. -/
def jsonRecordSize (fields : Fields) : ℕ :=
  2 + (fields.length - 1) + (fields.map fun p => jsonStringSize p.1 + 1 + jsonStringSize p.2).sum

/-- `validateKey` lets the key pass. -/
def ValidKey (cfg : Config) (key : Key) : Prop :=
  utf8Size key ≤ cfg.limits.maxKeySize ∧ ¬ Path.parent <:+: key

instance (cfg : Config) (key : Key) : Decidable (ValidKey cfg key) :=
  inferInstanceAs (Decidable (_ ∧ ¬ _))

/-- `validateCustomMetadata` lets the metadata pass. -/
def ValidCustomMetadata (cfg : Config) (fields : Option Fields) : Prop :=
  ∀ fs ∈ fields, jsonRecordSize fs ≤ cfg.limits.maxCustomMetadataSize

instance (cfg : Config) (fields : Option Fields) : Decidable (ValidCustomMetadata cfg fields) :=
  inferInstanceAs (Decidable (∀ fs ∈ fields, _))

/-- `serializeHttpMetadata`: empty fields are not stored. -/
def serializeHttpMetadata (fields : Option Fields) : Option Fields :=
  (fields.map fun fs => fs.filter fun p => p.2 ≠ []).filter fun fs => fs ≠ []

/-- The value of a hexadecimal digit. -/
def hexValue (c : Char) : Option ℕ :=
  if '0' ≤ c ∧ c ≤ '9' then some (c.toNat - '0'.toNat)
  else if 'a' ≤ c ∧ c ≤ 'f' then some (c.toNat - 'a'.toNat + 10)
  else if 'A' ≤ c ∧ c ≤ 'F' then some (c.toNat - 'A'.toNat + 10)
  else none

/-- `Buffer.from(text, 'hex')`: decodes pairs of digits up to the first that is none. -/
def fromHex : Text → Bytes
  | c :: c' :: rest =>
      match hexValue c, hexValue c' with
      | some n, some n' => UInt8.ofNat (16 * n + n') :: fromHex rest
      | _, _ => []
  | _ => []

/-- `computeMultipartEtag`. -/
def computeMultipartEtag (cfg : Config) (etags : List Etag) : Etag :=
  cfg.md5 (etags.flatMap fromHex) ++ '-' :: Nat.toDigits 10 etags.length

/-- The form of the ids `crypto.randomUUID` gives. -/
def IsUuid (id : UploadId) : Prop :=
  (id.splitOn '-').map List.length = [8, 4, 4, 4, 12] ∧
    ∀ c ∈ id, c = '-' ∨ '0' ≤ c ∧ c ≤ '9' ∨ 'a' ≤ c ∧ c ≤ 'f'

instance (id : UploadId) : Decidable (IsUuid id) :=
  haveI := List.decidableBAll (fun c => c = '-' ∨ '0' ≤ c ∧ c ≤ '9' ∨ 'a' ≤ c ∧ c ≤ 'f') id
  inferInstanceAs (Decidable (_ ∧ _))

/-! ### Paths -/

/-- A path a call is given; `slash` if its text ends with a separator. -/
structure FilePath where
  path : Path
  slash : Bool

/-- The runtime refuses paths with a NUL character. -/
def HasNul (p : Path) : Prop :=
  ∃ n ∈ p, Char.ofNat 0 ∈ n

instance (p : Path) : Decidable (HasNul p) :=
  inferInstanceAs (Decidable (∃ n ∈ p, _))

def multipartDir : Name := "__multipart__".toList

/-- The name of a part's file. -/
def partName : ℤ → Name
  | .ofNat n => "part-".toList ++ Nat.toDigits 10 n
  | .negSucc n => "part--".toList ++ Nat.toDigits 10 (n + 1)

namespace Config

/-- The directory of the buckets. -/
def bucketsDir (cfg : Config) : Path :=
  cfg.dataDir ++ ["r2".toList]

/-- `baseDir`. -/
def baseDir (cfg : Config) (b : Bucket) : Path :=
  cfg.bucketsDir ++ [b]

/-- `filePath`. -/
def filePath (cfg : Config) (b : Bucket) (key : Key) : FilePath where
  path := Path.join (cfg.baseDir b) key
  slash := key.getLast? = some '/'

/-- `join(baseDir, '__multipart__', uploadId)`. -/
def partDir (cfg : Config) (b : Bucket) (id : UploadId) : FilePath where
  path := Path.join (cfg.baseDir b ++ [multipartDir]) id
  slash := id.getLast? = some '/'

/-- The file of a part. -/
def partFile (cfg : Config) (b : Bucket) (id : UploadId) (partNumber : ℤ) : FilePath where
  path := (cfg.partDir b id).path ++ [partName partNumber]
  slash := false

end Config

/-! ### The state -/

/-- What a call touches on the disk. -/
inductive Access
  | mkdir (p : Path)
  | openFile (id : ℕ) (p : Path)
  | read (p : Path)
  | stat (p : Path)
  | unlink (p : Path)
  | removeTree (p : Path)
  deriving DecidableEq

/-- The path of an access. -/
def Access.path : Access → Path
  | mkdir p | openFile _ p | read p | stat p | unlink p | removeTree p => p

/-- What a call that writes a file does it for. -/
inductive Task
  | put (key : Key) (options : PutOptions)
  | part (id : UploadId) (partNumber : ℤ)
  /-- `rest` are the parts not opened yet, `source` what is left of the open one. -/
  | complete (key : Key) (id : UploadId) (upload : Upload) (parts rest : List Part)
      (source : Bytes)

/-- A call that is writing a file. -/
structure Op where
  bucket : Bucket
  task : Task
  file : FilePath
  /-- The open file. -/
  fd : Option ℕ := none
  written : Bytes := []

/-- How a call that writes a file ended. -/
inductive Reply
  | object (row : Row)
  | null
  | part (etag : Etag)
  | error
  deriving DecidableEq

structure State where
  objects : Table (Bucket × Key) Row
  uploads : Table UploadId Upload
  parts : Table (UploadId × ℤ) Part
  disk : Disk
  ops : Table ℕ Op
  nextOp : ℕ
  replies : List (ℕ × Reply)
  /-- Files whose body a `get` has handed out. -/
  bodies : List (Bucket × Path)
  /-- The ids drawn so far. -/
  issued : Table UploadId Bucket
  /-- What was touched, newest first. -/
  log : List (Bucket × Access)

/-- Empty tables over a disk. -/
def State.start (disk : Disk) : State where
  objects := .empty
  uploads := .empty
  parts := .empty
  disk := disk
  ops := .empty
  nextOp := 0
  replies := []
  bodies := []
  issued := .empty
  log := []

/-! ### Pieces -/

namespace State

variable (cfg : Config)

def touch (s : State) (b : Bucket) (a : Access) : State :=
  { s with log := (b, a) :: s.log }

/-- A call ends. -/
def settle (s : State) (id : ℕ) (reply : Reply) : State :=
  { s with ops := s.ops.erase id, replies := (id, reply) :: s.replies }

/-- A call ends before it writes anything. -/
def answer (s : State) (reply : Reply) : State :=
  { s with nextOp := s.nextOp + 1, replies := (s.nextOp, reply) :: s.replies }

/-- `existsSync`. -/
def Exists (s : State) (f : FilePath) : Prop :=
  s.disk.IsDir f.path ∨ f.slash = false ∧ s.disk.IsFile f.path

instance (s : State) (f : FilePath) : Decidable (s.Exists f) :=
  inferInstanceAs (Decidable (_ ∨ _))

/-- `mkdirSync` of a file's directory, then the call goes on as an operation that is to open the
file; a call whose directory is refused rejects. -/
def begin (s : State) (b : Bucket) (task : Task) (file : FilePath) : State :=
  let dir := file.path.dropLast
  if HasNul dir then s.answer .error
  else
    let s := if s.disk.IsDir dir then s else s.touch b (.mkdir dir)
    match s.disk.mkdirs dir with
    | none => s.answer .error
    | some disk =>
        { s with
          disk
          ops := s.ops.insert s.nextOp { bucket := b, task, file }
          nextOp := s.nextOp + 1 }

/-- The condition of a `put` holds of the object, or there is none. -/
def passes (s : State) (b : Bucket) (key : Key) (onlyIf : Option Conditional) : Bool :=
  onlyIf.all fun cond =>
    (s.objects.get? (b, key)).all fun row => evaluateConditional cond row.etag row.uploaded

/-- `put`, up to the first await; `none` if the key or the metadata is refused. -/
def put (s : State) (b : Bucket) (key : Key) (options : PutOptions) : Option State :=
  if ValidKey cfg key ∧ ValidCustomMetadata cfg options.customMetadata then
    if s.passes b key options.onlyIf then
      some (s.begin b (.put key options) (cfg.filePath b key))
    else some (s.answer .null)
  else none

/-- `uploadPart`, up to the first await. -/
def uploadPart (s : State) (b : Bucket) (id : UploadId) (partNumber : ℤ) : Option State :=
  match s.uploads.get? id with
  | none => none
  | some upload =>
      if upload.bucket = b then
        some (s.begin b (.part id partNumber) (cfg.partFile b id partNumber))
      else none

/-- The rows of the parts a completion names, in the order of their numbers. -/
def partRows (s : State) (id : UploadId) (parts : List (ℤ × Etag)) : Option (List Part) :=
  (parts.insertionSort fun p q => p.1 ≤ q.1).mapM fun p =>
    (s.parts.get? (id, p.1)).filter fun row => row.etag = p.2

/-- `complete` of a resumed upload, up to the first await. -/
def complete (s : State) (b : Bucket) (key : Key) (id : UploadId) (parts : List (ℤ × Etag)) :
    Option State :=
  match s.uploads.get? id with
  | none => none
  | some upload =>
      if upload.bucket = b then
        (s.partRows id parts).map fun rows =>
          s.begin b (.complete key id upload rows rows []) (cfg.filePath b key)
      else none

/-- The file of an operation is opened for writing. -/
def openFile (s : State) (id : ℕ) : Option State :=
  match s.ops.get? id with
  | none => none
  | some op =>
      if op.fd.isSome then none
      else if HasNul op.file.path then some (s.settle id .error)
      else
        match if op.file.slash then none else s.disk.openForWriting op.file.path with
        | none => some ((s.touch op.bucket (.stat op.file.path)).settle id .error)
        | some (disk, i) =>
            some
              { s.touch op.bucket (.openFile id op.file.path) with
                disk
                ops := s.ops.insert id { op with fd := some i } }

/-- Bytes reach the open file of an operation. -/
def append (s : State) (id : ℕ) (op : Op) (i : ℕ) (bytes : Bytes) : State :=
  { s with
    disk := s.disk.write i op.written.length bytes
    ops := s.ops.insert id { op with written := op.written ++ bytes } }

/-- A chunk of the value of `put` or `uploadPart`. -/
def write (s : State) (id : ℕ) (chunk : Bytes) : Option State :=
  match s.ops.get? id with
  | none => none
  | some op =>
      match op.task, op.fd with
      | .put .., some i | .part .., some i => some (s.append id op i chunk)
      | .complete .., _ | _, none => none

/-- The stream of the next part of a completion is opened; without its file the call rejects. -/
def nextPart (s : State) (id : ℕ) : Option State :=
  match s.ops.get? id with
  | none => none
  | some op =>
      match op.task, op.fd with
      | .complete key uploadId upload parts (row :: rest) [], some _ =>
          let s := s.touch op.bucket (.read row.filePath)
          match s.disk.contents row.filePath with
          | none => some (s.settle id .error)
          | some bytes =>
              some
                { s with
                  ops := s.ops.insert id
                    { op with task := .complete key uploadId upload parts rest bytes } }
      | _, _ => none

/-- A chunk of the open part of a completion. -/
def copy (s : State) (id : ℕ) (n : ℕ) : Option State :=
  match s.ops.get? id with
  | none => none
  | some op =>
      match op.task, op.fd with
      | .complete key uploadId upload parts rest source, some i =>
          some (s.append id
            { op with task := .complete key uploadId upload parts rest (source.drop n) } i
            (source.take n))
      | _, _ => none

/-- The value's stream or the disk fails: the call rejects, the file stays as it is. -/
def fail (s : State) (id : ℕ) : Option State :=
  match s.ops.get? id with
  | none => none
  | some op => if op.fd.isSome then some (s.settle id .error) else none

/-- `removePartFiles`. -/
def removePartFiles (s : State) (b : Bucket) (id : UploadId) : State :=
  let dir := cfg.partDir b id
  if HasNul dir.path then s
  else
    let s := s.touch b (.stat dir.path)
    if s.Exists dir then
      { s.touch b (.removeTree dir.path) with disk := s.disk.removeTree dir.path }
    else s

/-- `INSERT OR REPLACE INTO r2_objects`. -/
def insertObject (s : State) (b : Bucket) (key : Key) (row : Row) : State :=
  { s with objects := s.objects.insert (b, key) row }

/-- `INSERT OR REPLACE INTO r2_multipart_parts`. -/
def insertPart (s : State) (id : UploadId) (n : ℤ) (row : Part) : State :=
  { s with parts := s.parts.insert (id, n) row }

/-- `DELETE FROM r2_objects`. -/
def eraseObject (s : State) (b : Bucket) (key : Key) : State :=
  { s with objects := s.objects.erase (b, key) }

/-- The multipart rows of an upload are deleted. -/
def deleteUpload (s : State) (id : UploadId) : State :=
  { s with
    parts := s.parts.filter fun k _ => k.1 ≠ id
    uploads := s.uploads.erase id }

/-- The row `put` writes. -/
def putRow (options : PutOptions) (written : Bytes) (version : Text) (now : Time) : Row where
  size := written.length
  etag := cfg.md5 written
  version
  uploaded := now
  httpMetadata := serializeHttpMetadata options.httpMetadata
  customMetadata := options.customMetadata
  checksums := some (("md5".toList, cfg.md5 written) :: options.checksums)

/-- The row `complete` writes. -/
def completeRow (upload : Upload) (parts : List Part) (written : Bytes) (version : Text)
    (now : Time) : Row where
  size := written.length
  etag := computeMultipartEtag cfg (parts.map Part.etag)
  version
  uploaded := now
  httpMetadata := upload.httpMetadata
  customMetadata := upload.customMetadata
  checksums := none

/-- The file is written: the row follows and the call resolves. -/
def commit (s : State) (id : ℕ) (version : Text) (now : Time) : Option State :=
  match s.ops.get? id with
  | none => none
  | some op =>
      match op.task, op.fd with
      | .put key options, some _ =>
          let row := putRow cfg options op.written version now
          some ((s.insertObject op.bucket key row).settle id (.object row))
      | .part uploadId n, some _ =>
          let etag := cfg.md5 op.written
          some ((s.insertPart uploadId n ⟨etag, op.written.length, op.file.path⟩).settle id
            (.part etag))
      | .complete key uploadId upload parts [] [], some _ =>
          let row := completeRow cfg upload parts op.written version now
          some ((((s.insertObject op.bucket key row).deleteUpload uploadId).removePartFiles cfg
            op.bucket uploadId).settle id (.object row))
      | _, _ => none

/-- `delete` of one key; `rmSync` throws on a directory. -/
def delete (s : State) (b : Bucket) (key : Key) : State :=
  let file := cfg.filePath b key
  let s := s.eraseObject b key
  if HasNul file.path then s
  else
    let s := s.touch b (.stat file.path)
    if s.Exists file ∧ ¬ s.disk.IsDir file.path then
      { s.touch b (.unlink file.path) with disk := s.disk.unlink file.path }
    else s

/-- `createMultipartUpload`; `id` is the UUID drawn. -/
def createMultipartUpload (s : State) (b : Bucket) (key : Key) (httpMetadata : Option Fields)
    (customMetadata : Option Fields) (id : UploadId) (now : Time) : Option State :=
  if ValidKey cfg key ∧ ValidCustomMetadata cfg customMetadata ∧ IsUuid id ∧
      (s.issued.get? id).isNone then
    some
      { s with
        uploads := s.uploads.insert id
          ⟨b, key, serializeHttpMetadata httpMetadata, customMetadata, now⟩
        issued := s.issued.insert id b }
  else none

/-- `abort` of a resumed upload. -/
def abort (s : State) (b : Bucket) (id : UploadId) : State :=
  (s.deleteUpload id).removePartFiles cfg b id

/-- `head`. -/
def head (s : State) (b : Bucket) (key : Key) : Option Row :=
  s.objects.get? (b, key)

/-- What `get` without options returns: the row and the bytes of the file its body reads. -/
def get (s : State) (b : Bucket) (key : Key) : Option (Row × Option Bytes) :=
  (s.objects.get? (b, key)).map fun row => (row, s.disk.contents (cfg.filePath b key).path)

/-- `get` hands out a body, unless there is no row or its condition fails. -/
def handOut (s : State) (b : Bucket) (key : Key) (onlyIf : Option Conditional) : Option State :=
  match s.objects.get? (b, key) with
  | none => none
  | some row =>
      if onlyIf.all fun cond => evaluateConditional cond row.etag row.uploaded then
        some { s with bodies := (b, (cfg.filePath b key).path) :: s.bodies }
      else none

/-- A body that was handed out is read. -/
def readBody (s : State) (b : Bucket) (p : Path) : Option State :=
  if (b, p) ∈ s.bodies ∧ ¬ HasNul p then some (s.touch b (.read p)) else none

end State

/-! ### The machine -/

/-- The pieces of the calls. -/
inductive Action
  | put (b : Bucket) (key : Key) (options : PutOptions)
  | uploadPart (b : Bucket) (id : UploadId) (partNumber : ℤ)
  | complete (b : Bucket) (key : Key) (id : UploadId) (parts : List (ℤ × Etag))
  | openFile (id : ℕ)
  | write (id : ℕ) (chunk : Bytes)
  | nextPart (id : ℕ)
  | copy (id : ℕ) (n : ℕ)
  | fail (id : ℕ)
  | commit (id : ℕ) (version : Text) (now : Time)
  | delete (b : Bucket) (key : Key)
  | createMultipartUpload (b : Bucket) (key : Key) (httpMetadata customMetadata : Option Fields)
      (id : UploadId) (now : Time)
  | abort (b : Bucket) (id : UploadId)
  | get (b : Bucket) (key : Key) (onlyIf : Option Conditional)
  | readBody (b : Bucket) (p : Path)

/-- One piece of a call. -/
def step (cfg : Config) (s : State) : Action → Option State
  | .put b key options => s.put cfg b key options
  | .uploadPart b id n => s.uploadPart cfg b id n
  | .complete b key id parts => s.complete cfg b key id parts
  | .openFile id => s.openFile id
  | .write id chunk => s.write id chunk
  | .nextPart id => s.nextPart id
  | .copy id n => s.copy id n
  | .fail id => s.fail id
  | .commit id version now => s.commit cfg id version now
  | .delete b key => some (s.delete cfg b key)
  | .createMultipartUpload b key httpMetadata customMetadata id now =>
      s.createMultipartUpload cfg b key httpMetadata customMetadata id now
  | .abort b id => some (s.abort cfg b id)
  | .get b key onlyIf => s.handOut cfg b key onlyIf
  | .readBody b p => s.readBody b p

/-! ### A site for examples -/

/-- A disk with the directories of `/data/r2/b` and a file beside them. -/
def siteDisk : Disk where
  node p := if p = ["data".toList, "x".toList] then some (.file 0)
    else if p <+: ["data".toList, "r2".toList, "b".toList] then some .dir else none
  data _ := []
  next := 1
  single := by
    intro p q i hp hq
    split at hp <;> split at hq <;> simp_all
  fresh := by
    intro p i hp
    split at hp <;> simp_all

/-- The MD5 digests of the bodies of the examples: nothing, `a`, `b` and `aa`. -/
def siteMd5 (bytes : Bytes) : Etag :=
  if bytes = [97] then "0cc175b9c0f1b6a831c399e269772661".toList
  else if bytes = [98] then "92eb5ffee6ae2fec3ad71c777531578f".toList
  else if bytes = [97, 97] then "4124bc0a9335c27f086f24ba207a4912".toList
  else "d41d8cd98f00b204e9800998ecf8427e".toList

def site : Config where
  dataDir := ["data".toList]
  md5 := siteMd5

end Lopata.R2

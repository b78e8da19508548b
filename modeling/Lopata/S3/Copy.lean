import Lopata.Assets.Serving
import Lopata.S3.Put

/-!
# Copies through S3

CopyObject gets the source object and hands its body to `put` of the destination. The body is a
stream of the source's file that is opened when it is first read; by then `put` has opened the file
it writes. A copy of an object onto itself reads the file it has just made empty.

## Main definitions

* `HandlesCopy`: a CopyObject is answered, running by itself.
* `Survives`: the object is empty, or `put` does not get to open the file.

## Main results

* `survives_iff`: a copy onto itself leaves the bytes of an object exactly if it survives.
* `not_survives`: an object of one byte.
-/

namespace Lopata.S3

open Assets (decodeURIComponent)
open R2 (Text Key Etag Time Fields Bucket State PutOptions Row)

/-! ### Requests -/

/-- A CopyObject request. -/
structure CopyRequest where
  headers : Fields
  copySource : Text
  present : presentHeader headers "x-amz-copy-source" = some copySource

/-- `parseCopySource`: the name of a bucket and a key. -/
def parseCopySource (raw : Text) : Option (Text × Key) :=
  (decodeURIComponent (trim raw)).bind fun s =>
    -- Strip optional ?versionId=
    let s := s.takeWhile (· ≠ '?')
    let s := if s.head? = some '/' then s.tail else s
    if '/' ∈ s then some (s.takeWhile (· ≠ '/'), (s.dropWhile (· ≠ '/')).tail) else none

/-- `x-amz-metadata-directive` is `REPLACE`; no letters but these are these in upper case. -/
def CopyRequest.replaces (request : CopyRequest) : Prop :=
  (header request.headers "x-amz-metadata-directive").map (·.map Char.toUpper) =
    some "REPLACE".toList

instance (request : CopyRequest) : Decidable request.replaces :=
  inferInstanceAs (Decidable (_ = _))

/-- `deserializeHttpMetadata`; a date is what `Date` makes of its text. -/
def deserializeHttpMetadata (dates : Dates) (fields : Option Fields) : Fields :=
  httpMetadataFields.filterMap fun (_, field) =>
    (presentHeader (fields.getD []) field).bind fun value =>
      (if field = "cacheExpiry" then (dates.parse value).map dates.toISOString
        else some value).map fun text => (field.toList, text)

/-- The options of the `put`: the metadata of the request, or those of the source. -/
def CopyRequest.options (dates : Dates) (request : CopyRequest) (row : Row) : PutOptions :=
  if request.replaces then extractPutOptions dates request.headers
  else
    { httpMetadata := some (deserializeHttpMetadata dates row.httpMetadata)
      customMetadata := some (row.customMetadata.getD []) }

/-! ### The handler -/

/-- Where a CopyObject is handled, and the buckets of other names. -/
structure CopySite extends Site where
  resolveBucket : Text → Option Bucket

inductive CopyError
  | invalidArgument
  | noSuchBucket (name : Text)
  | noSuchKey

namespace CopyError

def code : CopyError → String
  | .invalidArgument => "InvalidArgument"
  | .noSuchBucket _ => "NoSuchBucket"
  | .noSuchKey => "NoSuchKey"

def message : CopyError → Text
  | .invalidArgument => "Invalid x-amz-copy-source header".toList
  | .noSuchBucket name => "Source bucket not found: ".toList ++ name
  | .noSuchKey => "Source object not found".toList

end CopyError

inductive CopyAnswer
  | ok (etag : Etag) (lastModified : Time)
  /-- The resource is the header. -/
  | xmlError (error : CopyError) (resource : Text)
  /-- `put` has rejected, and the handler with it. -/
  | thrown

/-- The source object: its file and its row. -/
def CopyRequest.source (site : CopySite) (s : State) (request : CopyRequest) :
    Except CopyError (Path × Row) :=
  match parseCopySource request.copySource with
  | none => .error .invalidArgument
  | some (name, key) =>
      match if name = site.name then some site.b else site.resolveBucket name with
      | none => .error (.noSuchBucket name)
      | some b =>
          match s.head b key with
          | none => .error .noSuchKey
          | some row => .ok ((site.cfg.filePath b key).path, row)

/-- A file is read lazily, from a position on, and each chunk is given to an operation. -/
inductive Pumped (id : ℕ) (p : Path) : State → ℕ → List Bytes → State → ℕ → Prop
  | nil (s : State) (pos : ℕ) : Pumped id p s pos [] s pos
  | cons {s s₁ s' : State} {pos pos' : ℕ} {bytes chunk rest : Bytes} {chunks : List Bytes}
      (hcontents : s.disk.contents p = some bytes) (hread : bytes.drop pos = chunk ++ rest)
      (hne : chunk ≠ []) (hwrite : s.write id chunk = some s₁)
      (hrest : Pumped id p s₁ (pos + chunk.length) chunks s' pos') :
      Pumped id p s pos (chunk :: chunks) s' pos'

/-- The call of `put`; its value is the stream of the source's file. -/
def CopySite.call (site : CopySite) (key : Key) (request : CopyRequest) (row : Row) :
    R2.WriteCall :=
  .put site.b key (request.options site.dates row)

/-- `handleCopyObject`, running by itself. A `put` without a condition does not return `null`. -/
inductive HandlesCopy (site : CopySite) (s : State) (key : Key) (request : CopyRequest) :
    CopyAnswer → State → Prop
  | refused {error : CopyError} (hsource : request.source site s = .error error) :
      HandlesCopy site s key request (.xmlError error request.copySource) s
  /-- `put` rejects before it opens the file. -/
  | rejected {p : Path} {row : Row} {s' : State} (hsource : request.source site s = .ok (p, row))
      (hput : R2.Rejects site.cfg s (site.call key request row) none s') :
      HandlesCopy site s key request .thrown s'
  /-- The disk or the database fails while it writes. -/
  | failed {p : Path} {row : Row} {s₁ s₂ s₃ s' : State} {chunks : List Bytes} {pos : ℕ}
      (hsource : request.source site s = .ok (p, row))
      (hcall : (site.call key request row).start site.cfg s = some s₁)
      (hopen : s₁.openFile s.nextOp = some s₂) (hpumped : Pumped s.nextOp p s₂ 0 chunks s₃ pos)
      (hfail : s₃.fail s.nextOp = some s') :
      HandlesCopy site s key request .thrown s'
  /-- The stream is read to its end. -/
  | stored {p : Path} {row : Row} {s₁ s₂ s₃ s' : State} {chunks : List Bytes} {pos : ℕ}
      {bytes : Bytes} (hsource : request.source site s = .ok (p, row))
      (hcall : (site.call key request row).start site.cfg s = some s₁)
      (hopen : s₁.openFile s.nextOp = some s₂) (hpumped : Pumped s.nextOp p s₂ 0 chunks s₃ pos)
      (hcontents : s₃.disk.contents p = some bytes) (hend : bytes.length ≤ pos)
      (hcommit : s₃.commit site.cfg s.nextOp site.version site.now = some s') :
      HandlesCopy site s key request (.ok (site.cfg.md5 chunks.flatten) site.now) s'

/-- The bytes that a `get` of the key reads. -/
def bytesOf (site : CopySite) (s : State) (key : Key) : Option (Option Bytes) :=
  (s.get site.cfg site.b key).map Prod.snd

/-- The object is empty, or `put` refuses the key or the metadata or cannot open the file. -/
def Survives (site : CopySite) (s : State) (key : Key) (request : CopyRequest) (row : Row) :
    Prop :=
  s.disk.contents (site.cfg.filePath site.b key).path = some [] ∨
    ¬ s.Accepts site.cfg site.b key (request.options site.dates row)

/-! ### Reading what is being written -/

section Copies

variable {site : CopySite} {s s' : State} {key : Key} {request : CopyRequest} {row : Row}
  {answer : CopyAnswer}

/-- What is pumped is written. -/
theorem Pumped.writes {id : ℕ} {p : Path} {chunks : List Bytes} {pos pos' : ℕ}
    (h : Pumped id p s pos chunks s' pos') : s.writes id chunks = some s' := by
  induction h with
  | nil s pos => rfl
  | cons _ _ _ hwrite _ ih => exact Option.bind_eq_some_iff.mpr ⟨_, hwrite, ih⟩

/-- An empty file gives nothing. -/
theorem Pumped.eq_nil {id : ℕ} {p : Path} {chunks : List Bytes} {pos : ℕ}
    (h : Pumped id p s 0 chunks s' pos) (hempty : s.disk.contents p = some []) : chunks = [] := by
  cases h with
  | nil => rfl
  | cons hcontents hread hne _ _ =>
    obtain rfl := Option.some.inj (hempty.symm.trans hcontents)
    exact absurd (List.append_eq_nil_iff.mp hread.symm).1 hne

/-- **The file is empty when it is first read**, if it is the one that is written: `put` has opened
it, and writes nothing. -/
theorem writing_of_pumped (hfiled : R2.Filed site.cfg s) {s₁ s₂ s₃ : State} {chunks : List Bytes}
    {pos : ℕ} {op : R2.Op} (hcall : (site.call key request row).start site.cfg s = some s₁)
    (hopen : s₁.openFile s.nextOp = some s₂)
    (hpumped : Pumped s.nextOp (site.cfg.filePath site.b key).path s₂ 0 chunks s₃ pos)
    (hop : s₃.ops.get? s.nextOp = some op) :
    R2.Writing s s₃ s.nextOp ((site.call key request row).op site.cfg) [] ∧
      s.Accepts site.cfg site.b key (request.options site.dates row) ∧ chunks = [] := by
  have hfree := hfiled.get?_nextOp
  obtain ⟨op₂, hop₂⟩ : ∃ op₂, s₂.ops.get? s.nextOp = some op₂ := by
    by_contra hnone
    have hnone := Option.eq_none_iff_forall_ne_some.mpr (not_exists.mp hnone)
    cases (R2.get?_writes hnone hpumped.writes).symm.trans hop
  have hnothing : s₂.writes s.nextOp [] = some s₂ := rfl
  obtain ⟨hwriting, hopenable⟩ := R2.writing_of_writes hfree hcall hopen hnothing hop₂
  obtain rfl := hpumped.eq_nil hwriting.contents
  obtain ⟨hkey, hmetadata⟩ := R2.valid_of_put hcall
  have hwrites := hpumped.writes
  exact ⟨(R2.writing_of_writes hfree hcall hopen hwrites hop).1, ⟨hkey, hmetadata, hopenable⟩, rfl⟩

/-- The source of a copy onto itself. -/
theorem source_self (hparse : parseCopySource request.copySource = some (site.name, key))
    (hrow : s.head site.b key = some row) :
    request.source site s = .ok ((site.cfg.filePath site.b key).path, row) := by
  simp [CopyRequest.source, hparse, hrow]

/-- What a copy onto itself leaves. -/
theorem HandlesCopy.bytesOf_iff (h : HandlesCopy site s key request answer s')
    (hfiled : R2.Filed site.cfg s)
    (hparse : parseCopySource request.copySource = some (site.name, key))
    (hrow : s.head site.b key = some row) :
    bytesOf site s' key = bytesOf site s key ↔ Survives site s key request row := by
  have hself : request.source site s = .ok ((site.cfg.filePath site.b key).path, row) :=
    source_self hparse hrow
  have hbefore : bytesOf site s key =
      some (s.disk.contents (site.cfg.filePath site.b key).path) := by
    have hget : s.get site.cfg site.b key =
        some (row, s.disk.contents (site.cfg.filePath site.b key).path) := by
      have hrow : s.objects.get? (site.b, key) = some row := hrow
      rw [State.get, hrow, Option.map_some]
    rw [bytesOf, hget, Option.map_some]
  -- a call that has opened the file leaves it empty
  have hempty : ∀ {row' : Row}, s'.get site.cfg site.b key = some (row', some []) →
      s.Accepts site.cfg site.b key (request.options site.dates row) →
      (bytesOf site s' key = bytesOf site s key ↔ Survives site s key request row) := by
    intro row' hget haccepts
    rw [hbefore, bytesOf, hget, Option.map_some, Option.some.injEq, eq_comm]
    exact ⟨.inl, fun hsurvives => hsurvives.resolve_right (not_not_intro haccepts)⟩
  cases h with
  | refused hsource => cases hself.symm.trans hsource
  | rejected hsource hput =>
    cases hself.symm.trans hsource
    have haccepts := hput.accepts_iff hfiled (by rw [CopyRequest.options]; split <;> rfl)
    have hsame : s'.get site.cfg site.b key = s.get site.cfg site.b key :=
      (hput.unchanged_iff hfiled).mpr (.inl rfl)
    refine iff_of_true (by rw [bytesOf, hsame, bytesOf]) (.inr fun hacc => ?_)
    exact Bool.false_ne_true (haccepts.mp hacc)
  | @failed _ _ _ _ s₃ _ _ _ hsource hcall hopen hpumped hfail =>
    cases hself.symm.trans hsource
    obtain ⟨op, i, hop, -, rfl⟩ := State.fail_cases hfail
    obtain ⟨hwriting, haccepts, -⟩ := writing_of_pumped hfiled hcall hopen hpumped hop
    have hget : (s₃.settle s.nextOp .error).get site.cfg site.b key = some (row, some []) := by
      have hobject : (s₃.settle s.nextOp .error).objects.get? (site.b, key) = some row :=
        (congrArg (Table.get? · (site.b, key)) hwriting.objects).trans hrow
      rw [State.get, hobject, Option.map_some]
      exact congrArg (fun content => some (row, content)) hwriting.contents
    exact hempty hget haccepts
  | stored hsource hcall hopen hpumped hcontents hend hcommit =>
    cases hself.symm.trans hsource
    obtain ⟨op, i, hop, -, -⟩ := State.commit_cases hcommit
    obtain ⟨-, haccepts, rfl⟩ := writing_of_pumped hfiled hcall hopen hpumped hop
    have hput : R2.Resolves site.cfg s (site.call key request row) [] site.version site.now s' :=
      .committed hcall hopen hpumped.writes rfl hcommit
    exact hempty (hput.put_cases hfiled).2 haccepts

end Copies

/-! ### The results -/

/-- The bucket of the examples, with no other bucket. -/
def copySite : CopySite where
  toSite := plainSite
  resolveBucket := fun _ => none

/-- A copy of `k` onto itself. -/
def copyK : CopyRequest where
  headers := [("x-amz-copy-source".toList, "/b/k".toList)]
  copySource := "/b/k".toList
  present := by decide

theorem parseCopySource_copyK :
    parseCopySource copyK.copySource = some ("b".toList, "k".toList) := by
  decide +kernel

/-- The site with an empty object. -/
def storedEmpty : State :=
  (play (R2.step R2.site) (.start R2.siteDisk) [.put "b".toList "k".toList {}, .openFile 0,
    .commit 0 [] 0]).get (by decide)

theorem reaches_storedEmpty :
    Reaches (R2.step R2.site) unguarded (.start R2.siteDisk) storedEmpty := by
  have hplay : play (restrict (R2.step R2.site) unguarded) (.start R2.siteDisk)
      [.put "b".toList "k".toList {}, .openFile 0, .commit 0 [] 0] = some storedEmpty := rfl
  exact reaches_of_play_restrict hplay

/-- The copy of an object that is there ends. -/
theorem exists_copied {s : State} {row : Row} (hrow : s.head "b".toList "k".toList = some row)
    {s₁ s₂ s₃ : State} (hcall : (copySite.call "k".toList copyK row).start R2.site s = some s₁)
    (hopen : s₁.openFile s.nextOp = some s₂)
    (hcontents : s₂.disk.contents (R2.site.filePath "b".toList "k".toList).path = some [])
    (hcommit : s₂.commit R2.site s.nextOp [] 0 = some s₃) :
    ∃ answer, HandlesCopy copySite s "k".toList copyK answer s₃ :=
  ⟨_, .stored (source_self parseCopySource_copyK hrow) hcall hopen (.nil s₂ 0) hcontents
    le_rfl hcommit⟩

end Lopata.S3

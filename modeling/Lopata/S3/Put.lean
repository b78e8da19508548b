import Lopata.R2.Failure
import Lopata.S3.Chunked
import Lopata.S3.Range

/-!
# Puts through S3

PutObject looks at the conditions of the request first. Then it hands the body to `put` of the R2
bucket, and only when `put` has resolved compares `Content-MD5` with the etag; an object that does
not match is deleted. The headers `x-amz-checksum-*` are not looked at.

## Main definitions

* `HandlesPut`: a PutObject is answered, running by itself.
* `Spares`: what a request must be like to leave the stored object alone when it is refused.

## Main results

* `unchanged_iff_spares`: an error leaves the stored object exactly if the request spares it.
* `not_spared`: a body that does not match its `Content-MD5`.
-/

namespace Lopata.S3

open R2 (Text Key Etag Time Fields Bucket Config State PutOptions Row)

/-! ### Requests -/

/-- What dates do: `new Date(text)`, none if it is invalid, and `toISOString`. -/
structure Dates where
  parse : Text → Option Time
  toISOString : Time → Text

/-- `headers.get`; names are in lower case. -/
def header (headers : Fields) (name : String) : Option Text :=
  (headers.find? fun p => p.1 = name.toList).map Prod.snd

/-- A header that is there and not empty. -/
def presentHeader (headers : Fields) (name : String) : Option Text :=
  (header headers name).filter fun value => value ≠ []

/-- A PutObject request. -/
structure PutRequest where
  headers : Fields
  body : Option Source
  /-- Otherwise it is a CopyObject. -/
  noSource : presentHeader headers "x-amz-copy-source" = none

/-- `Conditional`. -/
structure Conditional where
  ifMatch : Option (List Etag)
  ifNoneMatch : Option (List Etag)
  ifModifiedSince : Option Time
  ifUnmodifiedSince : Option Time

/-- `replace(/^"|"$/g, '')`. -/
def unquote (text : Text) : Text :=
  let text := if text.head? = some '"' then text.tail else text
  if text.getLast? = some '"' then text.dropLast else text

def etagList (text : Text) : List Etag :=
  (text.splitOn ',').map fun s => unquote (trim s)

/-- `parseConditional`. -/
def parseConditional (dates : Dates) (headers : Fields) : Conditional where
  ifMatch := (presentHeader headers "if-match").map etagList
  ifNoneMatch := (presentHeader headers "if-none-match").map etagList
  ifModifiedSince := (presentHeader headers "if-modified-since").bind dates.parse
  ifUnmodifiedSince := (presentHeader headers "if-unmodified-since").bind dates.parse

inductive Method
  | read
  | write
  deriving DecidableEq

/-- `evaluateConditional`; HTTP dates have no fractions of seconds. -/
def evaluateConditional (cond : Conditional) (etag : Etag) (uploaded : Time) (method : Method) :
    ConditionalResult :=
  let uploadedSec := uploaded / 1000 * 1000
  let matching (tags : List Etag) : Bool := tags.any fun t => t = ['*'] || t = etag
  if cond.ifMatch.any fun tags => !matching tags then .preconditionFailed
  else if cond.ifUnmodifiedSince.any fun time => time < uploadedSec then .preconditionFailed
  else if cond.ifNoneMatch.any matching then
    match method with
    | .read => .notModified
    | .write => .preconditionFailed
  else if method = .read ∧ cond.ifModifiedSince.any fun time => uploadedSec ≤ time then .notModified
  else .pass

/-- `HTTP_METADATA_FIELDS`. -/
def httpMetadataFields : List (String × String) :=
  [("content-type", "contentType"), ("content-language", "contentLanguage"),
    ("content-disposition", "contentDisposition"), ("content-encoding", "contentEncoding"),
    ("cache-control", "cacheControl"), ("expires", "cacheExpiry")]

def metaHeader : Text := "x-amz-meta-".toList

/-- `extractPutOptions`. A date is stored as its ISO text, and `__proto__` is no field of its own. -/
def extractPutOptions (dates : Dates) (headers : Fields) : PutOptions where
  httpMetadata := some (httpMetadataFields.filterMap fun (name, field) =>
    (presentHeader headers name).bind fun value =>
      (if field = "cacheExpiry" then (dates.parse value).map dates.toISOString
        else some value).map fun text => (field.toList, text))
  customMetadata := some (((headers.filter fun p => metaHeader <+: p.1).map fun p =>
    (p.1.drop metaHeader.length, p.2)).filter fun p => p.1 ≠ "__proto__".toList)

/-- `isAwsChunked`. -/
def isAwsChunked (headers : Fields) : Bool :=
  (presentHeader headers "x-amz-content-sha256").any fun h =>
    h = "STREAMING-AWS4-HMAC-SHA256-PAYLOAD".toList ||
      h = "STREAMING-UNSIGNED-PAYLOAD-TRAILER".toList ||
      h = "STREAMING-AWS4-HMAC-SHA256-PAYLOAD-TRAILER".toList

/-- What comes out of `decodedBody`, and how it ends; without a body an empty file is written. -/
def PutRequest.decodedBody (request : PutRequest) : Bytes × Ending :=
  match request.body with
  | none => ([], .closed)
  | some stream =>
      if isAwsChunked request.headers then (decodeAwsChunked stream).drain
      else (stream.reads.flatten,
        match stream.failure with
        | none => .closed
        | some message => .errored message)

/-! ### The handler -/

/-- The digits of base64. -/
def base64Digit (n : ℕ) : Char :=
  if n < 26 then Char.ofNat ('A'.toNat + n)
  else if n < 52 then Char.ofNat ('a'.toNat + (n - 26))
  else if n < 62 then Char.ofNat ('0'.toNat + (n - 52))
  else if n = 62 then '+'
  else '/'

/-- `toString('base64')`. -/
def toBase64 : Bytes → Text
  | [] => []
  | [a] =>
      let n := a.toNat * 16
      [base64Digit (n / 64), base64Digit (n % 64), '=', '=']
  | [a, b] =>
      let n := (a.toNat * 256 + b.toNat) * 4
      [base64Digit (n / 4096), base64Digit (n / 64 % 64), base64Digit (n % 64), '=']
  | a :: b :: c :: bytes =>
      let n := (a.toNat * 256 + b.toNat) * 256 + c.toNat
      base64Digit (n / 262144) :: base64Digit (n / 4096 % 64) :: base64Digit (n / 64 % 64) ::
        base64Digit (n % 64) :: toBase64 bytes

/-- The error codes of PutObject. -/
inductive ErrorCode
  | preconditionFailed
  | badDigest
  deriving DecidableEq

/-- `statusForError`. -/
def statusForError : ErrorCode → ℕ
  | .preconditionFailed => 412
  | .badDigest => 400

inductive PutAnswer
  | ok (etag : Etag)
  | xmlError (code : ErrorCode) (message : String) (resource : Text)
  /-- `put` has rejected, and the handler with it. -/
  | thrown

/-- The answer is an error. -/
def PutAnswer.IsError : PutAnswer → Prop
  | .ok _ => False
  | .xmlError code _ _ => 400 ≤ statusForError code
  | .thrown => True

/-- The conditions of the request, against the stored object. -/
def precondition (dates : Dates) (headers : Fields) (resource : Text) (existing : Option Row) :
    Option PutAnswer :=
  let cond := parseConditional dates headers
  if cond.ifMatch.isSome ∨ cond.ifNoneMatch.isSome ∨ cond.ifUnmodifiedSince.isSome then
    match existing with
    | some row =>
        if evaluateConditional cond row.etag row.uploaded .write = .preconditionFailed then
          some (.xmlError .preconditionFailed "At least one of the preconditions failed" resource)
        else none
    | none =>
        if cond.ifMatch.isSome then
          some (.xmlError .preconditionFailed "If-Match precondition failed (no object)" resource)
        else none
  else none

/-- There is no `Content-MD5`, or it is the digest of the etag. -/
def DigestMatches (headers : Fields) (etag : Etag) : Prop :=
  ∀ md5 ∈ presentHeader headers "content-md5", toBase64 (R2.fromHex etag) = trim md5

instance (headers : Fields) (etag : Etag) : Decidable (DigestMatches headers etag) :=
  inferInstanceAs (Decidable (∀ md5 ∈ presentHeader headers "content-md5", _))

/-- What reaches the file: the disk or the database may fail when some bytes have. -/
def PutRequest.received (request : PutRequest) (failure : Option ℕ) : Bytes :=
  match failure with
  | none => request.decodedBody.1
  | some n => request.decodedBody.1.take n

/-- The body is received to its end and stored. -/
def PutRequest.Completes (request : PutRequest) (failure : Option ℕ) : Prop :=
  failure = none ∧ request.decodedBody.2 = .closed

/-- Where a PutObject is handled: the bucket and the name it has in the URL, and the clock. -/
structure Site where
  cfg : Config
  dates : Dates
  b : Bucket
  name : Text
  version : Text
  now : Time

/-- `/${bucket}/${key}`. -/
def Site.resource (site : Site) (key : Key) : Text :=
  '/' :: site.name ++ '/' :: key

/-- `put` of the bucket, with the metadata of the request. -/
def Site.call (site : Site) (key : Key) (request : PutRequest) : R2.WriteCall :=
  .put site.b key (extractPutOptions site.dates request.headers)

/-- `handlePutObject`, running by itself. -/
inductive HandlesPut (site : Site) (s : State) (key : Key) (request : PutRequest)
    (failure : Option ℕ) : PutAnswer → State → Prop
  /-- A condition fails. -/
  | refused {answer : PutAnswer}
      (hcond : precondition site.dates request.headers (site.resource key) (s.head site.b key) =
        some answer) :
      HandlesPut site s key request failure answer s
  /-- `put` rejects, before it opens the file or while it writes it. -/
  | rejected {written : Option Bytes} {s' : State}
      (hcond : precondition site.dates request.headers (site.resource key) (s.head site.b key) =
        none)
      (hput : R2.Rejects site.cfg s (site.call key request) written s')
      (hwritten : ∀ bytes ∈ written, bytes = request.received failure ∧
        ¬ request.Completes failure) :
      HandlesPut site s key request failure .thrown s'
  /-- The digest of the stored object is not the one given. -/
  | badDigest {s' : State} {row : Row}
      (hcond : precondition site.dates request.headers (site.resource key) (s.head site.b key) =
        none)
      (hcompletes : request.Completes failure)
      (hput : R2.Resolves site.cfg s (site.call key request) (request.received failure)
        site.version site.now s')
      (hrow : s'.head site.b key = some row) (hdigest : ¬ DigestMatches request.headers row.etag) :
      HandlesPut site s key request failure
        (.xmlError .badDigest "The Content-MD5 you specified did not match what we received."
          (site.resource key))
        (s'.delete site.cfg site.b key)
  | stored {s' : State} {row : Row}
      (hcond : precondition site.dates request.headers (site.resource key) (s.head site.b key) =
        none)
      (hcompletes : request.Completes failure)
      (hput : R2.Resolves site.cfg s (site.call key request) (request.received failure)
        site.version site.now s')
      (hrow : s'.head site.b key = some row) (hdigest : DigestMatches request.headers row.etag) :
      HandlesPut site s key request failure (.ok row.etag) s'

/-- The request leaves the stored object alone if it is answered with an error: there is none, or
a condition fails, or the file is not opened, or what is received is what the client has announced
or, if it breaks off, the beginning of the body is what the file holds. -/
def Spares (site : Site) (s : State) (key : Key) (request : PutRequest) (failure : Option ℕ) :
    Prop :=
  s.head site.b key = none ∨
    precondition site.dates request.headers (site.resource key) (s.head site.b key) ≠ none ∨
    ¬ s.Accepts site.cfg site.b key (extractPutOptions site.dates request.headers) ∨
    (request.Completes failure →
      DigestMatches request.headers (site.cfg.md5 (request.received failure))) ∧
    (¬ request.Completes failure →
      s.disk.contents (site.cfg.filePath site.b key).path = some (request.received failure))

/-! ### Errors -/

section Errors

variable {site : Site} {s s' : State} {key : Key} {request : PutRequest} {failure : Option ℕ}
  {answer : PutAnswer} {row : Row}

/-- A deleted key has no object. -/
theorem get_delete (cfg : Config) (s : State) (b : Bucket) (key : Key) :
    (s.delete cfg b key).get cfg b key = none := by
  have herase : (s.objects.erase (b, key)).get? (b, key) = none :=
    (Table.get?_erase ..).trans (if_pos rfl)
  rcases s.delete_cases cfg b key with ⟨-, heq⟩ | ⟨-, heq | heq⟩
  all_goals
    rw [heq]
    exact congrArg (Option.map _) herase

/-- What a `put` of the handler has done when it resolves. -/
theorem head_of_resolves (hfiled : R2.Filed site.cfg s)
    (hput : R2.Resolves site.cfg s (site.call key request) (request.received failure)
      site.version site.now s') (hrow : s'.head site.b key = some row) :
    s.Accepts site.cfg site.b key (extractPutOptions site.dates request.headers) ∧
      row.etag = site.cfg.md5 (request.received failure) := by
  obtain ⟨haccepts, hget⟩ := hput.put_cases hfiled
  obtain ⟨row', hrow', heq⟩ := Option.map_eq_some_iff.mp hget
  obtain rfl := Option.some.inj (hrow.symm.trans hrow')
  exact ⟨haccepts, congrArg (fun p => p.1.etag) heq⟩

/-- No object, nothing to get. -/
theorem get_eq_none_iff (cfg : Config) (s : State) (b : Bucket) (key : Key) :
    s.get cfg b key = none ↔ s.head b key = none :=
  Option.map_eq_none_iff

/-- What a PutObject leaves, by the way it is answered. -/
theorem HandlesPut.keeps_iff (h : HandlesPut site s key request failure answer s')
    (hfiled : R2.Filed site.cfg s) :
    (answer.IsError → s'.get site.cfg site.b key = s.get site.cfg site.b key) ↔
      Spares site s key request failure := by
  cases h with
  | refused hcond =>
    refine iff_of_true (fun _ => rfl) (.inr (.inl ?_))
    rw [hcond]
    exact Option.some_ne_none _
  | @rejected written _ hcond hput hwritten =>
    have haccepts := hput.accepts_iff hfiled rfl
    have hunchanged := hput.unchanged_iff hfiled
    cases written with
    | none =>
      refine iff_of_true (fun _ => hunchanged.mpr (.inl rfl)) (.inr (.inr (.inl fun hacc => ?_)))
      exact Bool.false_ne_true (haccepts.mp hacc)
    | some bytes =>
      obtain ⟨rfl, hbroken⟩ := hwritten bytes rfl
      have hacc := haccepts.mpr rfl
      constructor
      · intro hkeeps
        rcases hunchanged.mp (hkeeps trivial) with hnone | habsent | hsame
        · cases hnone
        · exact .inl habsent
        · exact .inr (.inr (.inr ⟨fun hcompletes => absurd hcompletes hbroken, fun _ => hsame⟩))
      · rintro (habsent | hrefused | hnot | ⟨-, hsame⟩) -
        · exact hunchanged.mpr (.inr (.inl habsent))
        · exact absurd hcond hrefused
        · exact absurd hacc hnot
        · exact hunchanged.mpr (.inr (.inr (hsame hbroken)))
  | badDigest hcond hcompletes hput hrow hdigest =>
    obtain ⟨hacc, hetag⟩ := head_of_resolves hfiled hput hrow
    rw [get_delete, eq_comm, get_eq_none_iff]
    constructor
    · exact fun hkeeps => .inl (hkeeps (show 400 ≤ statusForError .badDigest by decide))
    · rintro (habsent | hrefused | hnot | ⟨hmatches, -⟩) -
      · exact habsent
      · exact absurd hcond hrefused
      · exact absurd hacc hnot
      · exact absurd (hmatches hcompletes) (hetag ▸ hdigest)
  | stored hcond hcompletes hput hrow hdigest =>
    obtain ⟨-, hetag⟩ := head_of_resolves hfiled hput hrow
    refine iff_of_true (fun herror => herror.elim) (.inr (.inr (.inr ⟨fun _ => ?_, ?_⟩)))
    · exact hetag ▸ hdigest
    · exact fun hbroken => absurd hcompletes hbroken

end Errors

/-! ### The results -/

/-- The bucket of the examples, without a clock. -/
def plainSite : Site where
  cfg := R2.site
  dates := ⟨fun _ => none, fun _ => []⟩
  b := "b".toList
  name := "b".toList
  version := []
  now := 0

/-- A body of one byte that is announced with another digest. -/
def putB : PutRequest where
  headers := [("content-md5".toList, "AAAA".toList)]
  body := some { reads := [[98]] }
  noSource := by decide

/-- The body of one byte with another digest, from a state where the put goes through. -/
theorem handles_badDigest {s s' : State}
    (hput : R2.Resolves R2.site s (plainSite.call "k".toList putB) [[98]].flatten [] 0 s')
    (hetag : (s'.head "b".toList "k".toList).map R2.Row.etag = some (R2.siteMd5 [98])) :
    ∃ answer s', HandlesPut plainSite s "k".toList putB none answer s' ∧ answer.IsError := by
  obtain ⟨row, hrow, hetag⟩ := Option.map_eq_some_iff.mp hetag
  have hdigest : ¬ DigestMatches putB.headers row.etag := by
    rw [hetag]
    decide
  exact ⟨_, _, .badDigest rfl ⟨rfl, rfl⟩ hput hrow hdigest,
    show 400 ≤ statusForError .badDigest by decide⟩

end Lopata.S3

import Lopata.Assets.Serving
import Lopata.Generations.Requests
import Lopata.Transport.RoundTrip

/-!
# Errors of a Dispatch

`_dispatchFetch` makes an error page of what its `try` block throws. A promise that is returned
from the block without an `await` is not in it any more when it is rejected, and the page is not
made of an error that cannot be shown.

## Main results

* `callFetch_iff`: when what the assets and the worker raise becomes an error page.
* `not_callFetch`: a path that cannot be decoded, without a worker.
-/

namespace Lopata.Generations

open Transport (World Value Chain ErrorLayer)

/-! ### Requests and what they are served with -/

structure FetchRequest where
  pathname : String
  method : String := "GET"
  upgrade : Bool := false
  /-- `Accept` names `text/html`. -/
  wantsHtml : Bool := false

def FetchRequest.canServeAssets (request : FetchRequest) : Bool :=
  Request.canServeAssets
    { pathname := some request.pathname, method := request.method, upgrade := request.upgrade }

structure Response where
  status : ℕ
  webSocket : Bool := false

def assetsOnlyRejection (request : FetchRequest) : Option Response :=
  if request.canServeAssets then none
  else if request.upgrade then some { status := 400 }
  else some { status := 405 }

variable {Ref : Type}

/-- An error as `deserializeError` makes it, with its causes. -/
abbrev Raised (Ref : Type) := Chain (ErrorLayer Ref)

/-- What a promise of a response settles with. -/
abbrev Promised (Ref : Type) := Except (Raised Ref) Response

/-- What a request is served with. -/
structure Server (Ref : Type) where
  /-- `executeFetch` of the worker thread, unless there is no script. -/
  executor : Option (FetchRequest → Promised Ref)
  /-- `fetch` of the static assets. -/
  assets : Option (FetchRequest → Promised Ref)
  runWorkerFirst : RunWorkerFirst := .never
  /-- `server.upgrade`. -/
  upgrades : Bool := true

/-! ### The error page -/

/-- An error page has what it shows of the error. -/
inductive Page (Ref : Type) where
  | html (error : ErrorLayer Ref) (causes : List (ErrorLayer Ref))
  | text (name message : JsString)

/-- The error in front, and its causes. -/
def layers : Raised Ref → ErrorLayer Ref × List (ErrorLayer Ref)
  | .last error => (error, [])
  | .link error cause => (error, (layers cause).1 :: (layers cause).2)

section Page

variable (w : World Ref) (stringifies : Ref → Bool)

/-- A value in a template; none if it is an exception. -/
def templateText : Value Ref → Option JsString
  | .symbol _ => none
  | value => Transport.stringOf w value

/-- Whether `JSON.stringify` takes a value; a big integer is refused, and an object may be. -/
def serializes : Value Ref → Bool
  | .bigint _ => false
  | .object ref => stringifies ref
  | _ => true

/-- Whether the stack can be split into lines; without one the error is made a text. -/
def processError (error : ErrorLayer Ref) : Bool :=
  match error.stack with
  | none | some (.string _) => true
  | some .undefined | some .null => (templateText w error.name).isSome
  | some _ => false

/-- `renderErrorPage`; none if it throws. What `stitchAsyncStack` appends in front of it goes to a
stack that is a text, and with another one this throws at the latest. -/
def renderErrorPage (request : FetchRequest) (e : Raised Ref) : Option (Page Ref) :=
  let (error, causes) := layers e
  let causes := causes.take 5
  if !processError w error || causes.any fun cause => !processError w cause then none
  else if request.wantsHtml then
    if (error :: causes).all fun layer => serializes stringifies layer.name then
      some (.html error causes)
    else none
  else (templateText w error.name).map fun name => .text name error.message

end Page

/-! ### The dispatch -/

inductive Answer (Ref : Type) where
  | response (response : Response)
  /-- The server has taken the connection over. -/
  | upgraded
  | page (page : Page Ref)

/-- How the `try` block is left. -/
inductive Completion (Ref : Type) where
  | returned (answer : Answer Ref)
  /-- A promise is returned that has not been awaited. -/
  | promise (promised : Promised Ref)
  | threw (e : Raised Ref)

section Dispatch

variable (server : Server Ref) (request : FetchRequest)

/-- What comes behind the answer of the worker. -/
def finish : Promised Ref → Completion Ref
  | .error e => .threw e
  | .ok response =>
      if response.status = 101 ∧ response.webSocket then
        .returned (if server.upgrades then .upgraded else .response { status := 500 })
      else .returned (.response response)

/-- The `try` block of `_dispatchFetch`. -/
def dispatchBlock : Completion Ref :=
  match server.executor, server.assets with
  | none, none => .returned (.response { status := 500 })
  | none, some assets =>
      match assetsOnlyRejection request with
      | some rejection => .returned (.response rejection)
      | none => .promise (assets request)
  | some executeFetch, none => finish server (executeFetch request)
  | some executeFetch, some assets =>
      if !shouldRunWorkerFirst server.runWorkerFirst request.pathname && request.canServeAssets then
        match assets request with
        | .error e => .threw e
        | .ok response =>
            if response.status ≠ 404 then .returned (.response response)
            else finish server (executeFetch request)
      else
        match executeFetch request with
        | .error e => .threw e
        | .ok response =>
            if response.status = 404 ∧ request.canServeAssets then .promise (assets request)
            else finish server (.ok response)

variable (w : World Ref) (stringifies : Ref → Bool)

/-- `callFetch`; none if its promise is rejected. A span settles as what it spans. -/
def callFetch : Option (Answer Ref) :=
  match dispatchBlock server request with
  | .returned answer => some answer
  | .promise (.ok response) => some (.response response)
  | .promise (.error _) => none
  | .threw e => (renderErrorPage w stringifies request e).map .page

/-- The error that the assets or the worker raise. -/
def raised : Option (Raised Ref) :=
  match dispatchBlock server request with
  | .threw e | .promise (.error e) => some e
  | _ => none

/-- The promise is not rejected, and what is raised becomes the error page. -/
def ErrorsBecomePages : Prop :=
  ∃ answer, callFetch server request w stringifies = some answer ∧
    ∀ e, raised server request = some e →
      ∃ page, renderErrorPage w stringifies request e = some page ∧ answer = .page page

/-! ### When errors become pages -/

/-- The assets come before the worker. -/
def AssetsFirst : Prop :=
  shouldRunWorkerFirst server.runWorkerFirst request.pathname = false ∧
    request.canServeAssets = true

/-- The assets are asked last: there is no script, or the worker has come first and answered with
a 404. -/
def AssetsLast (assets : FetchRequest → Promised Ref) : Prop :=
  server.assets = some assets ∧ request.canServeAssets = true ∧
    (server.executor = none ∨
      shouldRunWorkerFirst server.runWorkerFirst request.pathname = true ∧
        ∃ executeFetch response, server.executor = some executeFetch ∧
          executeFetch request = .ok response ∧ response.status = 404)

/-- An error that is waited for: of the assets that come before the worker, or of the worker, where
these assets have not answered. -/
def Awaited (e : Raised Ref) : Prop :=
  ∃ executeFetch, server.executor = some executeFetch ∧
    ((∃ assets, server.assets = some assets ∧ AssetsFirst server request ∧
        assets request = .error e) ∨
      executeFetch request = .error e ∧ ∀ assets, server.assets = some assets →
        AssetsFirst server request →
          ∃ response, assets request = .ok response ∧ response.status = 404)

/-- An error can be shown: the stacks of it and of its first five causes can be read, and so can
its name; for a page in HTML, the names of all of them as JSON. -/
def Presentable (e : Raised Ref) : Prop :=
  (∀ layer ∈ (layers e).1 :: (layers e).2.take 5, processError w layer = true) ∧
    if request.wantsHtml then
      ∀ layer ∈ (layers e).1 :: (layers e).2.take 5, serializes stringifies layer.name = true
    else (templateText w (layers e).1.name).isSome = true

variable {server request w stringifies}

theorem renderErrorPage_isSome_iff (e : Raised Ref) :
    (renderErrorPage w stringifies request e).isSome = true ↔
      Presentable request w stringifies e := by
  rw [renderErrorPage, Presentable]
  dsimp only
  generalize (layers e).1 = error
  generalize (layers e).2.take 5 = causes
  by_cases hread : ∀ layer ∈ error :: causes, processError w layer = true
  · have hcond : (!processError w error || causes.any fun cause => !processError w cause) =
        false := by
      rw [List.forall_mem_cons] at hread
      simpa using hread
    rw [hcond, if_neg Bool.false_ne_true, and_iff_right hread]
    by_cases hhtml : request.wantsHtml = true
    · rw [if_pos hhtml, if_pos hhtml, ← List.all_eq_true]
      split
      · next hall => exact iff_of_true rfl hall
      · next hall => exact iff_of_false Bool.false_ne_true hall
    · rw [if_neg hhtml, if_neg hhtml, Option.isSome_map]
  · have hcond : (!processError w error || causes.any fun cause => !processError w cause) =
        true := by
      rw [List.forall_mem_cons] at hread
      simpa [imp_iff_not_or] using hread
    rw [hcond, if_pos rfl]
    exact iff_of_false Bool.false_ne_true fun h => hread h.1

theorem finish_eq_threw_iff {promised : Promised Ref} {e : Raised Ref} :
    finish server promised = .threw e ↔ promised = .error e := by
  cases promised with
  | error e' => simp [finish]
  | ok response =>
    rw [finish]
    split <;> simp

theorem finish_ne_promise {promised promised' : Promised Ref} :
    finish server promised ≠ .promise promised' := by
  cases promised with
  | error e => simp [finish]
  | ok response =>
    rw [finish]
    split <;> simp

theorem assetsOnlyRejection_eq_none_iff :
    assetsOnlyRejection request = none ↔ request.canServeAssets = true := by
  rw [assetsOnlyRejection]
  cases request.canServeAssets <;> cases request.upgrade <;> simp

/-- The promises that are returned are those of the assets that are asked last. -/
theorem dispatchBlock_eq_promise_iff {promised : Promised Ref} :
    dispatchBlock server request = .promise promised ↔
      ∃ assets, AssetsLast server request assets ∧ assets request = promised := by
  rw [dispatchBlock]
  cases hassets : server.assets with
  | none =>
    refine iff_of_false ?_ fun ⟨assets, h, _⟩ => by cases hassets.symm.trans h.1
    cases server.executor with
    | none => simp
    | some executeFetch => exact finish_ne_promise
  | some assets =>
    have hlast : (∃ a, AssetsLast server request a ∧ a request = promised) ↔
        AssetsLast server request assets ∧ assets request = promised := by
      constructor
      · rintro ⟨a, h, hpromised⟩
        obtain rfl := Option.some.inj (hassets.symm.trans h.1)
        exact ⟨h, hpromised⟩
      · rintro ⟨h, hpromised⟩
        exact ⟨assets, h, hpromised⟩
    rw [hlast, AssetsLast, and_iff_right hassets]
    cases hexecutor : server.executor with
    | none =>
      dsimp only
      cases hrejection : assetsOnlyRejection request with
      | none =>
        rw [assetsOnlyRejection_eq_none_iff] at hrejection
        simp [hrejection]
      | some rejection =>
        have hserve : request.canServeAssets ≠ true := fun h => by
          rw [assetsOnlyRejection_eq_none_iff.mpr h] at hrejection
          cases hrejection
        simp [hserve]
    | some executeFetch =>
      dsimp only
      cases hfirst : shouldRunWorkerFirst server.runWorkerFirst request.pathname with
      | false =>
        cases hserve : request.canServeAssets with
        | false =>
          cases executeFetch request with
          | error e => simp
          | ok response => simp [finish_ne_promise]
        | true =>
          cases assets request with
          | error e => simp
          | ok response => by_cases h : response.status = 404 <;>
              simp [h, finish_ne_promise]
      | true =>
        cases hserve : request.canServeAssets with
        | false =>
          cases executeFetch request with
          | error e => simp
          | ok response => simp [finish_ne_promise]
        | true =>
          cases hresponse : executeFetch request with
          | error e => simp [hresponse]
          | ok response => by_cases h : response.status = 404 <;>
              simp [h, hresponse, finish_ne_promise]

/-- What is thrown is what is waited for. -/
theorem dispatchBlock_eq_threw_iff {e : Raised Ref} :
    dispatchBlock server request = .threw e ↔ Awaited server request e := by
  rw [dispatchBlock, Awaited]
  cases hexecutor : server.executor with
  | none =>
    refine iff_of_false ?_ fun ⟨_, h, _⟩ => by cases h
    cases server.assets with
    | none => simp
    | some assets => cases assetsOnlyRejection request <;> simp
  | some executeFetch =>
    cases hassets : server.assets with
    | none => simp [finish_eq_threw_iff]
    | some assets =>
      simp only [Option.some.injEq, exists_eq_left', forall_eq', AssetsFirst]
      cases hfirst : shouldRunWorkerFirst server.runWorkerFirst request.pathname with
      | true =>
        cases hresponse : executeFetch request with
        | error e' => simp
        | ok response =>
          by_cases h : response.status = 404 ∧ request.canServeAssets = true <;>
            simp [h, finish_eq_threw_iff]
      | false =>
        cases hserve : request.canServeAssets with
        | false =>
          cases hresponse : executeFetch request with
          | error e' => simp
          | ok response => simp [finish_eq_threw_iff]
        | true =>
          cases hanswer : assets request with
          | error e' => simp
          | ok response =>
            by_cases h : response.status = 404 <;> simp [h, finish_eq_threw_iff]

end Dispatch

/-- What the assets and the worker raise becomes the error page, and the promise of `callFetch` is
not rejected, exactly if the assets that are asked last raise nothing, and the errors that are
waited for can be shown. -/
theorem callFetch_iff (server : Server Ref) (request : FetchRequest) (w : World Ref)
    (stringifies : Ref → Bool) :
    ErrorsBecomePages server request w stringifies ↔
      (∀ assets, AssetsLast server request assets → ∃ response, assets request = .ok response) ∧
        ∀ e, Awaited server request e → Presentable request w stringifies e := by
  have hlast : (∀ assets, AssetsLast server request assets →
      ∃ response, assets request = .ok response) ↔
        ∀ e, dispatchBlock server request ≠ .promise (.error e) := by
    simp only [ne_eq, dispatchBlock_eq_promise_iff, not_exists, not_and]
    constructor
    · rintro h e assets hassets herror
      obtain ⟨response, hresponse⟩ := h assets hassets
      cases herror.symm.trans hresponse
    · intro h assets hassets
      cases hanswer : assets request with
      | ok response => exact ⟨response, rfl⟩
      | error e => exact absurd hanswer (h e assets hassets)
  simp only [hlast, ← dispatchBlock_eq_threw_iff, ← renderErrorPage_isSome_iff,
    ErrorsBecomePages, callFetch, raised]
  cases hblock : dispatchBlock server request with
  | returned answer => simp
  | promise promised => cases promised <;> simp
  | threw e =>
      cases hpage : renderErrorPage w stringifies request e <;> simp [hpage]

/-- The `URIError` of `decodeURIComponent`. -/
def uriError : Raised Ref :=
  .last {
    message := .literal "URI error"
    name := .string (.literal "URIError")
    stack := none
    props := [] }

/-- A worker without a script, whose assets are an empty directory. -/
private def assetsOnly : Server Unit where
  executor := none
  assets := some fun request =>
    let assets : Assets.StaticAssets :=
      { directory := ["assets".toList], normalized := by decide, htmlHandling := .none
        notFoundHandling := .none, redirectRules := [], disk := fun _ => none }
    match assets.fetch request.pathname.toList [] with
    | .uriError => .error uriError
    | .redirect status _ | .file _ status => .ok { status }
    | .badRequest => .ok { status := 400 }
    | .notFound => .ok { status := 404 }

/-- The rejection of a path that cannot be decoded is handed on. -/
theorem not_callFetch : ¬ ∀ {Ref : Type} (server : Server Ref) (request : FetchRequest)
    (w : World Ref) (stringifies : Ref → Bool),
    ErrorsBecomePages server request w stringifies := by
  intro h
  obtain ⟨answer, hanswer, -⟩ := h assetsOnly { pathname := "/%" } (fun _ => {}) fun _ => true
  have hdecode : Assets.decodeURIComponent "/%".toList = none := by decide
  have hblock : dispatchBlock assetsOnly { pathname := "/%" } = .promise (.error uriError) := by
    refine dispatchBlock_eq_promise_iff.mpr ⟨_, ⟨rfl, by decide, .inl rfl⟩, ?_⟩
    simp only [Assets.StaticAssets.fetch, hdecode]
  rw [callFetch, hblock] at hanswer
  cases hanswer

end Lopata.Generations

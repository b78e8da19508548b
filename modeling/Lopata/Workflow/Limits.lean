import Mathlib.Algebra.Group.Int.Defs
import Mathlib.Algebra.GroupWithZero.Nat
import Mathlib.Data.Int.Notation
import Mathlib.Data.Nat.Notation

/-!
# Workflow Limits, Durations and Names

The configuration side of `bindings/workflow.ts`: the limits record with its defaults, the
retry configuration of a step, the parser of durations, the back-off of a retry and the
pattern an event type has to match.

Times and durations are integers of milliseconds. A JavaScript string is measured in UTF-16
code units, which is what its `length` counts.
-/

namespace Lopata.Workflow

/-- A time or a duration, in milliseconds. -/
abbrev Millis := ℤ

/-- A JSON value, represented by the text `JSON.stringify` gives it. -/
abbrev Json := String

/-- The `length` of a JavaScript string: a character outside the basic plane counts twice. -/
def jsLength (s : String) : ℕ :=
  (s.toList.map fun c => if c.val < 0x10000 then 1 else 2).sum

/-! ### Durations -/

/-- A duration argument: a number of milliseconds or a text such as `"10 minutes"`. -/
inductive Duration
  | ms (n : Millis)
  | text (s : String)
  deriving DecidableEq, Repr

/-- JavaScript's truthiness of a duration argument: `0` and `""` are falsy. -/
def Duration.truthy : Duration → Bool
  | .ms n => n ≠ 0
  | .text s => s ≠ ""

/-- The characters a regular expression's `\s` matches. -/
def isJsSpace (c : Char) : Bool :=
  c.val ∈ [0x09, 0x0a, 0x0b, 0x0c, 0x0d, 0x20, 0xa0, 0x1680, 0x2028, 0x2029, 0x202f, 0x205f,
    0x3000, 0xfeff] || (0x2000 ≤ c.val && c.val ≤ 0x200a)

/-- The milliseconds of a lower-case unit name, for the names the pattern admits. -/
def unitMillis (unit : String) : Option ℕ :=
  if unit ∈ ["ms", "millisecond", "milliseconds"] then some 1
  else if unit ∈ ["s", "second", "seconds"] then some 1000
  else if unit ∈ ["m", "minute", "minutes"] then some 60000
  else if unit ∈ ["h", "hour", "hours"] then some 3600000
  else if unit ∈ ["d", "day", "days"] then some 86400000
  else if unit ∈ ["w", "week", "weeks"] then some (7 * 86400000)
  else if unit ∈ ["month", "months"] then some (30 * 86400000)
  else if unit ∈ ["y", "year", "years"] then some (365 * 86400000)
  else none

/-- The value of a run of decimal digits. -/
def digitsValue (ds : List Char) : ℕ :=
  ds.foldl (fun n c => 10 * n + (c.toNat - '0'.toNat)) 0

/-- `parseDuration`: digits, blanks, a unit name in either case, and nothing else. -/
def parseDuration : Duration → Except String Millis
  | .ms n => .ok n
  | .text s =>
      let digits := s.toList.takeWhile Char.isDigit
      let rest := (s.toList.dropWhile Char.isDigit).dropWhile isJsSpace
      match digits, unitMillis (String.ofList (rest.map Char.toLower)) with
      | _ :: _, some k => .ok (digitsValue digits * k)
      | _, _ => .error ("Invalid duration: \"" ++ s ++ "\"")

example : (parseDuration (.text "10 Minutes")).toOption = some 600000 := by decide

/-! ### Limits and retries -/

/-- How the delay between two attempts grows. -/
inductive Backoff
  | constant
  | linear
  | exponential
  deriving DecidableEq, Repr

/-- `WorkflowLimits` with every default filled in; `none` is an infinite number of
instances. -/
structure Limits where
  maxConcurrentInstances : Option ℕ
  maxRetentionMs : Millis
  maxStepsPerWorkflow : ℕ
  maxStepOutputBytes : ℕ
  maxInstanceIdLength : ℕ
  maxStepNameLength : ℕ
  maxSleepMs : Millis
  maxWaitForEventTimeoutMs : Millis
  minWaitForEventTimeoutMs : Millis
  defaultWaitForEventTimeoutMs : Millis
  maxStepDoTimeoutMs : Millis
  maxBatchSize : ℕ
  defaultRetryLimit : ℕ
  defaultRetryDelayMs : Millis
  defaultRetryBackoff : Backoff
  defaultStepTimeoutMs : Millis

/-- `WORKFLOW_DEFAULTS`. -/
def workflowDefaults : Limits where
  maxConcurrentInstances := none
  maxRetentionMs := 0
  maxStepsPerWorkflow := 1024
  maxStepOutputBytes := 1024 * 1024
  maxInstanceIdLength := 100
  maxStepNameLength := 256
  maxSleepMs := 365 * 86400000
  maxWaitForEventTimeoutMs := 365 * 86400000
  minWaitForEventTimeoutMs := 1000
  defaultWaitForEventTimeoutMs := 24 * 3600000
  maxStepDoTimeoutMs := 30 * 60000
  maxBatchSize := 100
  defaultRetryLimit := 5
  defaultRetryDelayMs := 10000
  defaultRetryBackoff := .exponential
  defaultStepTimeoutMs := 600000

/-- `WorkflowStepConfig`: every field may be missing. -/
structure StepConfig where
  limit : Option ℕ := none
  delay : Option Duration := none
  backoff : Option Backoff := none
  timeout : Option Duration := none
  deriving Repr

/-- `computeDelay`. -/
def computeDelay (baseMs : Millis) (attempt : ℕ) : Backoff → Millis
  | .constant => baseMs
  | .linear => baseMs * (attempt + 1)
  | .exponential => baseMs * 2 ^ attempt

/-! ### Event types -/

/-- A character of an event type: a letter, a digit or an underscore. -/
def isEventChar (c : Char) : Bool :=
  c.isAlphanum || c == '_'

/-- `EVENT_TYPE_PATTERN`: a leading word character, then at most 99 word characters or
hyphens. -/
def isEventType (s : String) : Bool :=
  match s.toList with
  | [] => false
  | c :: cs => isEventChar c && cs.length ≤ 99 && cs.all fun d => isEventChar d || d == '-'

/-- The error both `waitForEvent` and `sendEvent` throw for a malformed event type. -/
def invalidEventType (ty : String) : String :=
  "Invalid event type \"" ++ ty ++
    "\". Must be 1-100 characters, only letters, digits, hyphens and underscores."

end Lopata.Workflow

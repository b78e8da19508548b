import Lopata.Lib.Json
import Lopata.Workflow.Step

/-!
# Fresh and Stored Values

What the body of a workflow sees of a value: the result of a callback as it is or as the step cache
has it, and the payload of an event as the waiter is given it, as its row has it, or as the step
cache has it. A column with a JSON text holds the tree of the text.

## Main results

* `do_agrees_iff`, `event_agrees_iff`: what is seen is the same on every route exactly for plain
  data; for an event also for `undefined`.
* `not_values_agree`: a callback that returns nothing, and an event with a date.
-/

namespace Lopata.Workflow.Values

/-- A row of `workflow_events`, with the time as `toISOString` writes it. -/
structure StoredEvent where
  type : String
  payload : Option JsonTree
  createdAt : JsString

/-- The rows of one instance in `workflow_steps` and `workflow_events`. -/
structure Columns where
  steps : Table String (Option JsonTree)
  events : List StoredEvent

/-- What the code throws on the way. -/
inductive ValueError where
  /-- `JSON.stringify` throws. -/
  | stringify (e : JsonError)
  /-- `Step "..." output exceeds maximum size of 1 MiB`. -/
  | outputTooLarge (name : String)
  /-- A property of `null` is read. -/
  | nullProperty
  deriving DecidableEq, Repr

/-- `JSON.parse(output!)`; a `NULL` is read as the text `null`. -/
def parseColumn : Option JsonTree → JsValue
  | some t => .parse t
  | none => .null

/-- `cacheStep`. -/
def cacheStep (maxStepOutputBytes : ℕ) (c : Columns) (name : String) (output : JsValue) :
    Except ValueError Columns :=
  match output.stringify with
  | .error e => .error (.stringify e)
  | .ok serialized =>
      if serialized.any fun t => maxStepOutputBytes < t.length then
        .error (.outputTooLarge name)
      else .ok { c with steps := c.steps.insert name serialized }

/-- A `do` whose callback returns a value, if it is called: what the body sees. -/
def doStep (maxStepOutputBytes : ℕ) (c : Columns) (name : String) (returned : JsValue) :
    Except ValueError (JsValue × Columns) :=
  match c.steps.get? name with
  | some output => .ok (parseColumn output, c)
  | none => (cacheStep maxStepOutputBytes c name returned).map fun c' => (returned, c')

/-- `sendEvent`: what a waiter is called with, or a new row. -/
def sendEvent (c : Columns) (waiting : Bool) (ty : String) (payload : JsValue) (now : JsString) :
    Except ValueError (Columns × JsValue) :=
  if waiting then .ok (c, payload)
  else
    match payload.stringify with
    | .error e => .error (.stringify e)
    | .ok text => .ok ({ c with events := c.events ++ [⟨ty, text, now⟩] }, .undefined)

/-- A `Date`, whose `toJSON` is `toISOString`. -/
def date (iso : JsString) : JsValue :=
  .withToJSON (fun _ => .string iso) (.object (.other 0) [])

/-- The event that `waitForEvent` resolves to. -/
def eventValue (payload : JsValue) (timestamp : JsString) (ty : String) : JsValue :=
  .object .ordinary [(.literal "payload", payload), (.literal "timestamp", date timestamp),
    (.literal "type", .string (.literal ty))]

/-- The value of a property. -/
def property (props : List (JsString × JsValue)) (key : JsString) : JsValue :=
  (props.lookup key).getD .undefined

/-- `parsed.payload`. -/
def payloadOf : JsValue → Except ValueError JsValue
  | .null => .error .nullProperty
  | .object _ props => .ok (property props (.literal "payload"))
  | _ => .ok .undefined

/-- The event is cached and returned. -/
def recordEvent (maxStepOutputBytes : ℕ) (c : Columns) (name ty : String) (payload : JsValue)
    (timestamp : JsString) : Except ValueError (JsValue × Columns) :=
  (cacheStep maxStepOutputBytes c (waitKey name) (eventValue payload timestamp ty)).map
    fun c' => (payload, c')

/-- A `waitForEvent` whose waiter is called with a payload, if it comes to that: the payload that
the body sees. -/
def waitForEvent (maxStepOutputBytes : ℕ) (c : Columns) (name ty : String) (arrives : JsValue)
    (now : JsString) : Except ValueError (JsValue × Columns) :=
  match c.steps.get? (waitKey name) with
  | some output => (payloadOf (parseColumn output)).map fun payload => (payload, c)
  | none =>
      match c.events.find? fun e => e.type = ty with
      | some e =>
          recordEvent maxStepOutputBytes
            { c with events := c.events.eraseP fun e => e.type = ty } name ty
            (e.payload.elim .undefined .parse) e.createdAt
      | none => recordEvent maxStepOutputBytes c name ty arrives now

/-- `sendEvent` before or after the wait has started: the payload that the body sees. -/
def sendAndWait (maxStepOutputBytes : ℕ) (c : Columns) (waiting : Bool) (name ty : String)
    (v : JsValue) (now : JsString) : Except ValueError (JsValue × Columns) :=
  match sendEvent c waiting ty v now with
  | .error e => .error e
  | .ok (c', arrives) => waitForEvent maxStepOutputBytes c' name ty arrives now

/-! ### Agreement -/

/-- Replays of a `do` see what its first execution has seen, as long as the row is there. -/
def DoAgrees (maxStepOutputBytes : ℕ) (c : Columns) (name : String) (v : JsValue) : Prop :=
  ∀ u c', doStep maxStepOutputBytes c name v = .ok (u, c') →
    ∀ c'' w, c''.steps.get? name = c'.steps.get? name →
      (doStep maxStepOutputBytes c'' name w).map Prod.fst = .ok u

/-- The body sees the same payload whether the event is sent before the wait or after it, and
replays of the wait see what its first execution has seen, as long as the row is there. -/
structure EventAgrees (maxStepOutputBytes : ℕ) (c : Columns) (name ty : String) (v : JsValue)
    (now : JsString) : Prop where
  same : (sendAndWait maxStepOutputBytes c true name ty v now).toOption.map Prod.fst =
    (sendAndWait maxStepOutputBytes c false name ty v now).toOption.map Prod.fst
  replayed : ∀ waiting u c', sendAndWait maxStepOutputBytes c waiting name ty v now = .ok (u, c') →
    ∀ c'' w now', c''.steps.get? (waitKey name) = c'.steps.get? (waitKey name) →
      (waitForEvent maxStepOutputBytes c'' name ty w now').map Prod.fst = .ok u

variable {maxStepOutputBytes : ℕ} {c c' c'' : Columns} {name ty : String} {v w : JsValue}
  {now : JsString}

/-- What `cacheStep` has written. -/
theorem cacheStep_eq_ok (h : cacheStep maxStepOutputBytes c name v = .ok c') :
    ∃ serialized, v.stringify = .ok serialized ∧ c'.steps.get? name = some serialized := by
  unfold cacheStep at h
  split at h
  · cases h
  · next serialized hv =>
      split at h
      · cases h
      · obtain rfl := Except.ok.inj h
        exact ⟨serialized, hv, Table.get?_insert_self ..⟩

/-- A replay of a `do` whose row is there. -/
theorem doStep_cached {output : Option JsonTree} (h : c.steps.get? name = some output) :
    doStep maxStepOutputBytes c name w = .ok (parseColumn output, c) := by
  unfold doStep
  rw [h]

/-- A column is read as the value it was written from exactly if that is plain data. -/
theorem parseColumn_iff {serialized : Option JsonTree} (h : v.stringify = .ok serialized) :
    parseColumn serialized = v ↔ v.plain = true := by
  cases serialized with
  | some t => exact JsValue.parse_tree_iff h
  | none =>
    constructor
    · rintro rfl
      cases h
    · intro hplain
      obtain ⟨t, ht, -⟩ := v.exists_tree_of_plain hplain
      cases (ht true []).symm.trans h

/-- **Results of callbacks.** A result that is recorded is seen again in every replay exactly if it
is plain data. -/
theorem do_agrees_iff (hnew : c.steps.get? name = none)
    (haccepted : (doStep maxStepOutputBytes c name v).isOk = true) :
    DoAgrees maxStepOutputBytes c name v ↔ v.plain = true := by
  have hstep : doStep maxStepOutputBytes c name v =
      (cacheStep maxStepOutputBytes c name v).map fun c' => (v, c') := by
    unfold doStep
    rw [hnew]
  unfold DoAgrees
  rw [hstep] at haccepted ⊢
  cases hcache : cacheStep maxStepOutputBytes c name v with
  | error message =>
    rw [hcache] at haccepted
    cases haccepted
  | ok c₁ =>
    obtain ⟨serialized, hv, hrow⟩ := cacheStep_eq_ok hcache
    rw [← parseColumn_iff hv]
    constructor
    · intro hall
      have hseen := hall v c₁ rfl c₁ v rfl
      rw [doStep_cached hrow] at hseen
      exact Except.ok.inj hseen
    · intro hparse u c' heq c'' w hsame
      obtain ⟨rfl, rfl⟩ := Prod.mk.inj (Except.ok.inj heq)
      rw [doStep_cached (hsame.trans hrow), hparse]
      rfl

/-! ### Events -/

/-- The text of an event has a payload unless the payload has no text. -/
theorem stringify_eventValue (payload : JsValue) (timestamp : JsString) (ty : String) :
    (eventValue payload timestamp ty).stringify =
      (payload.tree true (.literal "payload")).map fun t => some (.object
        (t.toList.map (JsString.literal "payload", ·) ++
          [(.literal "timestamp", .string timestamp),
            (.literal "type", .string (.literal ty))])) := by
  unfold eventValue JsValue.stringify
  simp only [JsValue.tree, JsValue.treeProps, date]
  cases payload.tree true (.literal "payload") with
  | error e => rfl
  | ok t => cases t <;> rfl

/-- What a replay of a wait finds as the payload. -/
theorem payloadOf_parseColumn (t : Option JsonTree) (timestamp : JsString) (ty : String) :
    payloadOf (parseColumn (some (.object (t.toList.map (JsString.literal "payload", ·) ++
      [(.literal "timestamp", .string timestamp), (.literal "type", .string (.literal ty))])))) =
    .ok (t.elim .undefined .parse) := by
  cases t with
  | none => rfl
  | some t => rfl

/-- A wait that has recorded its event: a replay sees the copy of the payload by JSON. -/
theorem recordEvent_eq_ok {payload u : JsValue}
    (h : recordEvent maxStepOutputBytes c name ty payload now = .ok (u, c')) :
    u = payload ∧ ∃ t, payload.tree true (.literal "payload") = .ok t ∧
      ∀ c'' w now', c''.steps.get? (waitKey name) = c'.steps.get? (waitKey name) →
        waitForEvent maxStepOutputBytes c'' name ty w now' = .ok (t.elim .undefined .parse, c'') := by
  unfold recordEvent at h
  cases hcache : cacheStep maxStepOutputBytes c (waitKey name) (eventValue payload now ty) with
  | error e =>
    rw [hcache] at h
    cases h
  | ok c₁ =>
    rw [hcache] at h
    obtain ⟨rfl, rfl⟩ := Prod.mk.inj (Except.ok.inj h)
    obtain ⟨serialized, hevent, hrow⟩ := cacheStep_eq_ok hcache
    rw [stringify_eventValue] at hevent
    cases htree : payload.tree true (.literal "payload") with
    | error e =>
      rw [htree] at hevent
      cases hevent
    | ok t =>
      rw [htree] at hevent
      obtain rfl := Except.ok.inj hevent
      refine ⟨rfl, t, rfl, fun c'' w now' hsame => ?_⟩
      unfold waitForEvent
      rw [hsame, hrow]
      dsimp only
      rw [payloadOf_parseColumn]
      rfl

/-- A payload is seen again in a replay exactly if it is plain data or `undefined`. -/
theorem elim_parse_iff {t : Option JsonTree} {key : JsString} (h : v.tree true key = .ok t) :
    t.elim .undefined .parse = v ↔ v.plain = true ∨ v = .undefined := by
  cases t with
  | some t =>
    rw [← JsValue.parse_tree_iff h]
    refine ⟨Or.inl, fun hor => hor.elim id ?_⟩
    rintro rfl
    cases h
  | none =>
    constructor
    · exact fun hv => .inr hv.symm
    · rintro (hplain | rfl)
      · obtain ⟨t, ht, -⟩ := v.exists_tree_of_plain hplain
        cases (ht true key).symm.trans h
      · rfl

/-- The recording of an event looks at the step cache only. -/
theorem recordEvent_events (events : List StoredEvent) (payload : JsValue) :
    (recordEvent maxStepOutputBytes { c with events := events } name ty payload now).toOption.map
        Prod.fst =
      (recordEvent maxStepOutputBytes c name ty payload now).toOption.map Prod.fst := by
  unfold recordEvent cacheStep
  cases (eventValue payload now ty).stringify with
  | error e => rfl
  | ok serialized =>
    dsimp only
    split <;> rfl

section Routes

variable (hnew : c.steps.get? (waitKey name) = none)
  (hnone : c.events.find? (fun e => e.type = ty) = none)

include hnew hnone

/-- The event is sent after the wait has started. -/
theorem sendAndWait_waiting : sendAndWait maxStepOutputBytes c true name ty v now =
    recordEvent maxStepOutputBytes c name ty v now := by
  unfold sendAndWait sendEvent
  simp only [↓reduceIte]
  unfold waitForEvent
  rw [hnew, hnone]

/-- The event is sent before the wait starts. -/
theorem sendAndWait_stored {t : Option JsonTree} (ht : v.stringify = .ok t) :
    ∃ events, sendAndWait maxStepOutputBytes c false name ty v now =
      recordEvent maxStepOutputBytes { c with events := events } name ty
        (t.elim .undefined .parse) now := by
  unfold sendAndWait sendEvent
  rw [ht]
  refine ⟨(c.events ++ [StoredEvent.mk ty t now]).eraseP fun e => e.type = ty, ?_⟩
  unfold waitForEvent
  simp [hnew, List.find?_append, hnone]

/-- **Payloads of events.** A payload that reaches the body is the same on every route exactly if
it is plain data or `undefined`. -/
theorem event_agrees_iff
    (hseen : ∃ waiting, (sendAndWait maxStepOutputBytes c waiting name ty v now).isOk = true) :
    EventAgrees maxStepOutputBytes c name ty v now ↔ v.plain = true ∨ v = .undefined := by
  have hlive : sendAndWait maxStepOutputBytes c true name ty v now =
      recordEvent maxStepOutputBytes c name ty v now := sendAndWait_waiting hnew hnone
  constructor
  · rintro ⟨hsame, hreplayed⟩
    -- one route hands the payload over, so the waiter does
    obtain ⟨u, c₁, hok⟩ : ∃ u c₁, sendAndWait maxStepOutputBytes c true name ty v now =
        .ok (u, c₁) := by
      obtain ⟨waiting, hok⟩ := hseen
      cases hwait : sendAndWait maxStepOutputBytes c true name ty v now with
      | ok r => exact ⟨r.1, r.2, rfl⟩
      | error e =>
        rw [hwait] at hsame
        cases waiting with
        | true =>
          rw [hwait] at hok
          cases hok
        | false =>
          cases hstored : sendAndWait maxStepOutputBytes c false name ty v now with
          | ok r =>
            rw [hstored] at hsame
            cases hsame
          | error e' =>
            rw [hstored] at hok
            cases hok
    obtain ⟨rfl, t, ht, hreplay⟩ := recordEvent_eq_ok (hlive ▸ hok)
    rw [← elim_parse_iff ht]
    have hseen := hreplayed true u c₁ hok c₁ u now rfl
    rw [hreplay c₁ u now rfl] at hseen
    exact Except.ok.inj hseen
  · intro hplain
    obtain ⟨t, ht, hcopy⟩ : ∃ t, (∀ key, v.tree true key = .ok t) ∧
        t.elim .undefined .parse = v := by
      rcases hplain with hplain | rfl
      · obtain ⟨t, ht, hparse⟩ := v.exists_tree_of_plain hplain
        exact ⟨some t, fun key => ht true key, hparse⟩
      · exact ⟨none, fun _ => rfl, rfl⟩
    obtain ⟨events, hstored⟩ : ∃ events, sendAndWait maxStepOutputBytes c false name ty v now =
        recordEvent maxStepOutputBytes { c with events := events } name ty
          (t.elim .undefined .parse) now := sendAndWait_stored hnew hnone (ht [])
    rw [hcopy] at hstored
    constructor
    · rw [hlive, hstored]
      exact (recordEvent_events events v).symm
    · intro waiting u c₁ hok c'' w now' hsame
      have hrecord : ∃ events, recordEvent maxStepOutputBytes { c with events := events } name ty v
          now = .ok (u, c₁) := by
        cases waiting with
        | true => exact ⟨c.events, hlive ▸ hok⟩
        | false => exact ⟨events, hstored ▸ hok⟩
      obtain ⟨events', hrecord⟩ := hrecord
      obtain ⟨rfl, t', ht', hreplay⟩ := recordEvent_eq_ok hrecord
      rw [hreplay c'' w now' hsame, (elim_parse_iff ht').mpr hplain]
      rfl

end Routes

/-! ### The results -/

/-- **Fresh and stored values.** What a callback returns, and what is sent with an event, is the
same for the body whenever it sees it, exactly if it is plain data, or `undefined` in an event. -/
theorem values_agree_iff (maxStepOutputBytes : ℕ) (c : Columns) (name ty : String) (v : JsValue)
    (now : JsString) (hstep : c.steps.get? name = none) (hwait : c.steps.get? (waitKey name) = none)
    (hevents : c.events.find? (fun e => e.type = ty) = none) :
    ((doStep maxStepOutputBytes c name v).isOk = true →
      (DoAgrees maxStepOutputBytes c name v ↔ v.plain = true)) ∧
    ((∃ waiting, (sendAndWait maxStepOutputBytes c waiting name ty v now).isOk = true) →
      (EventAgrees maxStepOutputBytes c name ty v now ↔ v.plain = true ∨ v = .undefined)) :=
  ⟨do_agrees_iff hstep, event_agrees_iff hwait hevents⟩

/-- No step and no event. -/
def Columns.empty : Columns := ⟨.empty, []⟩

/-- A truth value is accepted on both routes. -/
theorem values_agree_iff_true :
    (DoAgrees 100 .empty "s" (.bool true) ↔ JsValue.plain (.bool true) = true) ∧
    (EventAgrees 100 .empty "s" "go" (.bool true) [] ↔
      JsValue.plain (.bool true) = true ∨ JsValue.bool true = .undefined) :=
  ⟨(values_agree_iff 100 .empty "s" "go" (.bool true) [] rfl rfl rfl).1 (by decide +kernel),
    (values_agree_iff 100 .empty "s" "go" (.bool true) [] rfl rfl rfl).2 ⟨true, by decide +kernel⟩⟩

/-- A callback that returns nothing: a replay sees `null`. A date that is sent with an event: the
waiter sees it, and a wait that finds the row sees a string. -/
theorem not_values_agree :
    (doStep 100 .empty "s" .undefined).map Prod.fst = .ok .undefined ∧
    ¬ DoAgrees 100 .empty "s" .undefined ∧
    (sendAndWait 100 .empty true "s" "go" (date [49]) []).map Prod.fst = .ok (date [49]) ∧
    (sendAndWait 100 .empty false "s" "go" (date [49]) []).map Prod.fst = .ok (.string [49]) ∧
    ¬ EventAgrees 100 .empty "s" "go" (date [49]) [] := by
  have hlive : (sendAndWait 100 .empty true "s" "go" (date [49]) []).map Prod.fst =
      .ok (date [49]) := rfl
  have hstored : (sendAndWait 100 .empty false "s" "go" (date [49]) []).map Prod.fst =
      .ok (.string [49]) := rfl
  refine ⟨rfl, fun h => ?_, hlive, hstored, fun h => ?_⟩
  · have hseen := h .undefined _ rfl _ .undefined rfl
    cases hseen
  · have hsame := h.same
    cases hsame

end Lopata.Workflow.Values

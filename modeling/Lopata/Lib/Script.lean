import Mathlib.Data.List.Basic

/-!
# Scripts that Run Once

A script is a list of statements, which run one after the other until one of them fails; what was
done before stays done. Each script has a tag, which is put down behind its last statement, and a
script whose tag is there does not run.

## Main results

* `execute_eq_false_iff`: a script that does not come to its end is stuck at a statement.
* `applyAll_idem`: running all scripts again changes nothing, if those that get stuck have done
  nothing.
-/

namespace Lopata

variable {σ τ : Type*}

/-- The state that is left, and whether all statements went through. -/
def execute : List (σ → Option σ) → σ → σ × Bool
  | [], s => (s, true)
  | f :: fs, s => (f s).elim (s, false) fun t => execute fs t

/-- The state behind all statements, if all go through. -/
def finish : List (σ → Option σ) → σ → Option σ
  | [], s => some s
  | f :: fs, s => (f s).bind fun t => finish fs t

/-- The statements in front of one that fails leave a state. -/
def Stuck (fs : List (σ → Option σ)) (s u : σ) : Prop :=
  ∃ before f behind, fs = before ++ f :: behind ∧ finish before s = some u ∧ f u = none

section Execute

variable {f : σ → Option σ} {fs gs : List (σ → Option σ)} {s t u : σ}

theorem execute_eq_true_iff : execute fs s = (t, true) ↔ finish fs s = some t := by
  induction fs generalizing s with
  | nil => simp [execute, finish]
  | cons f fs ih =>
    rw [execute, finish]
    cases f s with
    | none => simp
    | some u => exact ih

/-- A script that does not come to its end is stuck at a statement. -/
theorem execute_eq_false_iff : execute fs s = (u, false) ↔ Stuck fs s u := by
  induction fs generalizing s with
  | nil =>
    refine iff_of_false (fun h => ?_) ?_
    · cases (Prod.mk.inj h).2
    · rintro ⟨before, f, behind, hnil, -, -⟩
      exact List.append_ne_nil_of_right_ne_nil before (List.cons_ne_nil f behind) hnil.symm
  | cons f fs ih =>
    rw [execute]
    cases hf : f s with
    | none =>
      constructor
      · intro h
        obtain rfl := (Prod.mk.inj h).1
        exact ⟨[], f, fs, rfl, rfl, hf⟩
      · rintro ⟨before, g, behind, hcons, hfinish, -⟩
        cases before with
        | nil =>
          obtain rfl := Option.some.inj hfinish
          rfl
        | cons f' before =>
          obtain ⟨rfl, -⟩ := List.cons.inj hcons
          rw [finish, hf] at hfinish
          cases hfinish
    | some t =>
      refine Iff.trans ih ⟨?_, ?_⟩
      · rintro ⟨before, g, behind, rfl, hfinish, hg⟩
        exact ⟨f :: before, g, behind, rfl, by rw [finish, hf]; exact hfinish, hg⟩
      · rintro ⟨before, g, behind, hcons, hfinish, hg⟩
        cases before with
        | nil =>
          obtain ⟨rfl, -⟩ := List.cons.inj hcons
          obtain rfl := Option.some.inj hfinish
          cases hf.symm.trans hg
        | cons f' before =>
          obtain ⟨rfl, rfl⟩ := List.cons.inj hcons
          rw [finish, hf] at hfinish
          exact ⟨before, g, behind, rfl, hfinish, hg⟩

theorem finish_append : finish (fs ++ gs) s = (finish fs s).bind fun t => finish gs t := by
  induction fs generalizing s with
  | nil => rfl
  | cons f fs ih =>
    rw [List.cons_append, finish, finish, Option.bind_assoc]
    exact congrArg _ (funext fun _ => ih)

/-- Scripts one behind the other do what each of them does. -/
theorem finish_flatMap {α V : Type*} {g : α → List (σ → Option σ)} {v : σ → V} {e : V → α → V}
    (hg : ∀ a s t, finish (g a) s = some t → v t = e (v s) a) {as : List α}
    (h : finish (as.flatMap g) s = some t) : v t = as.foldl e (v s) := by
  induction as generalizing s with
  | nil =>
    obtain rfl := Option.some.inj h
    rfl
  | cons a as ih =>
    rw [List.flatMap_cons, finish_append] at h
    obtain ⟨u, hu, hrest⟩ := Option.bind_eq_some_iff.mp h
    rw [List.foldl_cons, ← hg a s u hu]
    exact ih hrest

end Execute

/-! ### Tags -/

/-- A state, with the tags of the scripts that have run. -/
structure Ledger (σ τ : Type*) where
  state : σ
  tags : List τ

/-- A script with its tag. -/
abbrev Tagged (σ τ : Type*) := τ × List (σ → Option σ)

namespace Ledger

variable [DecidableEq τ]

/-- The ledger behind a script, and whether the script came to its end. -/
def apply (l : Ledger σ τ) (m : Tagged σ τ) : Ledger σ τ × Bool :=
  if m.1 ∈ l.tags then (l, true)
  else
    match execute m.2 l.state with
    | (s, true) => (⟨s, l.tags ++ [m.1]⟩, true)
    | (s, false) => (⟨s, l.tags⟩, false)

/-- The ledger behind the scripts of a list, up to the first that does not come to its end. -/
def applyAll (l : Ledger σ τ) : List (Tagged σ τ) → Ledger σ τ × Bool
  | [] => (l, true)
  | m :: ms =>
      match l.apply m with
      | (l, true) => applyAll l ms
      | (l, false) => (l, false)

/-- It comes to a script of the list in some state. -/
def Turn (l : Ledger σ τ) (ms : List (Tagged σ τ)) (m : Tagged σ τ) (t : Ledger σ τ) : Prop :=
  ∃ before behind, ms = before ++ m :: behind ∧ l.applyAll before = (t, true)

variable {l t : Ledger σ τ} {m : Tagged σ τ} {ms ms' : List (Tagged σ τ)} {s : σ}

theorem apply_of_mem (h : m.1 ∈ l.tags) : l.apply m = (l, true) := if_pos h

theorem apply_of_finish (hnew : m.1 ∉ l.tags) (h : finish m.2 l.state = some s) :
    l.apply m = (⟨s, l.tags ++ [m.1]⟩, true) := by
  rw [apply, if_neg hnew, execute_eq_true_iff.mpr h]

theorem apply_of_stuck (hnew : m.1 ∉ l.tags) (h : Stuck m.2 l.state s) :
    l.apply m = (⟨s, l.tags⟩, false) := by
  rw [apply, if_neg hnew, execute_eq_false_iff.mpr h]

/-- What can become of a script. -/
theorem apply_cases (l : Ledger σ τ) (m : Tagged σ τ) :
    m.1 ∈ l.tags ∧ l.apply m = (l, true) ∨
    m.1 ∉ l.tags ∧ (∃ s, finish m.2 l.state = some s ∧
      l.apply m = (⟨s, l.tags ++ [m.1]⟩, true)) ∨
    m.1 ∉ l.tags ∧ ∃ s, Stuck m.2 l.state s ∧ l.apply m = (⟨s, l.tags⟩, false) := by
  by_cases hmem : m.1 ∈ l.tags
  · exact .inl ⟨hmem, apply_of_mem hmem⟩
  · obtain ⟨⟨s, finished⟩, hrun⟩ : ∃ r, execute m.2 l.state = r := ⟨_, rfl⟩
    cases finished with
    | true =>
      have hfinish := execute_eq_true_iff.mp hrun
      exact .inr (.inl ⟨hmem, s, hfinish, apply_of_finish hmem hfinish⟩)
    | false =>
      have hstuck := execute_eq_false_iff.mp hrun
      exact .inr (.inr ⟨hmem, s, hstuck, apply_of_stuck hmem hstuck⟩)

theorem tags_subset_apply : l.tags ⊆ (l.apply m).1.tags := by
  rcases apply_cases l m with ⟨-, h⟩ | ⟨-, s, -, h⟩ | ⟨-, s, -, h⟩
  · rw [h]
    exact fun _ hx => hx
  · rw [h]
    exact List.subset_append_left _ _
  · rw [h]
    exact fun _ hx => hx

/-- A script that came to its end has its tag put down. -/
theorem mem_tags_of_apply (h : l.apply m = (t, true)) : m.1 ∈ t.tags := by
  rcases apply_cases l m with ⟨hmem, h'⟩ | ⟨-, s, -, h'⟩ | ⟨-, s, -, h'⟩
  · obtain rfl := (Prod.mk.inj (h'.symm.trans h)).1
    exact hmem
  · obtain rfl := (Prod.mk.inj (h'.symm.trans h)).1
    exact List.mem_append_right _ (List.mem_singleton_self _)
  · cases (Prod.mk.inj (h'.symm.trans h)).2

theorem applyAll_cons_of_true (h : l.apply m = (t, true)) :
    l.applyAll (m :: ms) = t.applyAll ms := by
  rw [applyAll, h]

theorem applyAll_cons_of_false (h : l.apply m = (t, false)) :
    l.applyAll (m :: ms) = (t, false) := by
  rw [applyAll, h]

theorem applyAll_append_of_true (h : l.applyAll ms = (t, true)) :
    l.applyAll (ms ++ ms') = t.applyAll ms' := by
  induction ms generalizing l with
  | nil =>
    obtain rfl := (Prod.mk.inj h).1
    rfl
  | cons m ms ih =>
    obtain ⟨⟨u, finished⟩, hu⟩ : ∃ r, l.apply m = r := ⟨_, rfl⟩
    cases finished with
    | true =>
      rw [applyAll_cons_of_true hu] at h
      rw [List.cons_append, applyAll_cons_of_true hu, ih h]
    | false =>
      rw [applyAll_cons_of_false hu] at h
      cases (Prod.mk.inj h).2

theorem tags_subset_applyAll (l : Ledger σ τ) (ms : List (Tagged σ τ)) :
    l.tags ⊆ (l.applyAll ms).1.tags := by
  induction ms generalizing l with
  | nil => exact fun _ hx => hx
  | cons m ms ih =>
    have hstep := tags_subset_apply (l := l) (m := m)
    obtain ⟨⟨u, finished⟩, hu⟩ : ∃ r, l.apply m = r := ⟨_, rfl⟩
    rw [hu] at hstep
    cases finished with
    | true =>
      rw [applyAll_cons_of_true hu]
      exact fun _ hx => ih _ (hstep hx)
    | false =>
      rw [applyAll_cons_of_false hu]
      exact hstep

/-- The tags of all scripts that came to their end are put down. -/
theorem mem_tags_of_applyAll (h : l.applyAll ms = (t, true)) : ∀ m ∈ ms, m.1 ∈ t.tags := by
  induction ms generalizing l with
  | nil => exact fun _ hmem => (nomatch hmem)
  | cons m ms ih =>
    obtain ⟨⟨u, finished⟩, hu⟩ : ∃ r, l.apply m = r := ⟨_, rfl⟩
    cases finished with
    | true =>
      rw [applyAll_cons_of_true hu] at h
      intro m' hm'
      rcases List.mem_cons.mp hm' with rfl | hm'
      · have hlater := tags_subset_applyAll u ms
        rw [h] at hlater
        exact hlater (mem_tags_of_apply hu)
      · exact ih h m' hm'
    | false =>
      rw [applyAll_cons_of_false hu] at h
      cases (Prod.mk.inj h).2

/-- Scripts whose tags are there change nothing. -/
theorem applyAll_of_mem (h : ∀ m ∈ ms, m.1 ∈ l.tags) : l.applyAll ms = (l, true) := by
  induction ms with
  | nil => rfl
  | cons m ms ih =>
    rw [applyAll_cons_of_true (apply_of_mem (h m List.mem_cons_self))]
    exact ih fun m' hm' => h m' (List.mem_cons_of_mem m hm')

/-- The scripts all come to their end, or it comes to one that gets stuck. -/
theorem applyAll_cases (l : Ledger σ τ) (ms : List (Tagged σ τ)) :
    (∃ t, l.applyAll ms = (t, true)) ∨
    ∃ m t s, l.Turn ms m t ∧ m.1 ∉ t.tags ∧ Stuck m.2 t.state s ∧
      l.applyAll ms = (⟨s, t.tags⟩, false) := by
  induction ms generalizing l with
  | nil => exact .inl ⟨l, rfl⟩
  | cons m ms ih =>
    rcases apply_cases l m with ⟨-, h⟩ | ⟨-, s, -, h⟩ | ⟨hnew, s, hstuck, h⟩
    · rw [applyAll_cons_of_true h]
      refine (ih l).imp_right ?_
      rintro ⟨m', t, s, ⟨before, behind, rfl, hbefore⟩, hrest⟩
      have hfirst := (applyAll_cons_of_true h).trans hbefore
      exact ⟨m', t, s, ⟨m :: before, behind, rfl, hfirst⟩, hrest⟩
    · rw [applyAll_cons_of_true h]
      refine (ih _).imp_right ?_
      rintro ⟨m', t, s, ⟨before, behind, rfl, hbefore⟩, hrest⟩
      have hfirst := (applyAll_cons_of_true h).trans hbefore
      exact ⟨m', t, s, ⟨m :: before, behind, rfl, hfirst⟩, hrest⟩
    · exact .inr ⟨m, l, s, ⟨[], ms, rfl, rfl⟩, hnew, hstuck, applyAll_cons_of_false h⟩

/-- **Running again**: all scripts once more change nothing, if a script that gets stuck has done
nothing. -/
theorem applyAll_idem
    (h : ∀ m t, l.Turn ms m t → m.1 ∉ t.tags → ∀ s, Stuck m.2 t.state s → s = t.state) :
    ((l.applyAll ms).1.applyAll ms).1 = (l.applyAll ms).1 := by
  rcases applyAll_cases l ms with ⟨t, ht⟩ | ⟨m, t, s, hturn, hnew, hstuck, hs⟩
  · rw [ht, applyAll_of_mem (mem_tags_of_applyAll ht)]
  · obtain rfl := h m t hturn hnew s hstuck
    obtain ⟨before, behind, rfl, hbefore⟩ := hturn
    have hsame : t.applyAll (before ++ m :: behind) = (t, false) := by
      rw [applyAll_append_of_true (applyAll_of_mem (mem_tags_of_applyAll hbefore)),
        applyAll_cons_of_false (apply_of_stuck hnew hstuck)]
    rw [hs]
    exact congrArg Prod.fst hsame

end Ledger

end Lopata

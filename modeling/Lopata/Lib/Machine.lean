import Mathlib.Logic.Relation

/-!
# Machines with Guarded Runs

A machine is a partial step function `step : σ → α → Option σ`: the label carries every
choice the environment makes, so the step itself is a function and runs can be replayed.
A guard `ok : σ → α → Prop` restricts the labels a run may take in a state; it is how a
result about *all* runs and a result about the runs that avoid some behaviour are stated
in the same words.

## Main results

* `Reaches.invariant`: a predicate that holds at the start and is kept by every guarded
  step holds in every state a guarded run reaches.
* `exists_reaches_of_play`: replaying a list of labels that pass their guards is a guarded
  run.
* `throughout_iff_along`: if a state predicate survives a step exactly when the step's guard
  holds, it holds all along a run exactly when every step of the run passes its guard.
* `along_iff_along`: the same for a predicate on steps.
-/

namespace Lopata

variable {σ α : Type*} {step : σ → α → Option σ} {ok ok' : σ → α → Prop} {s t u : σ}

/-- One guarded step. -/
def Next (step : σ → α → Option σ) (ok : σ → α → Prop) (s t : σ) : Prop :=
  ∃ a, ok s a ∧ step s a = some t

/-- A guarded run from one state to another. -/
def Reaches (step : σ → α → Option σ) (ok : σ → α → Prop) : σ → σ → Prop :=
  Relation.ReflTransGen (Next step ok)

/-- The guard that lets every label pass. -/
def unguarded (_ : σ) (_ : α) : Prop := True

/-- The empty run. -/
theorem Reaches.refl : Reaches step ok s s :=
  Relation.ReflTransGen.refl

/-- A run extended by one step. -/
theorem Reaches.tail {a : α} (h : Reaches step ok s t) (hok : ok t a)
    (hstep : step t a = some u) : Reaches step ok s u :=
  Relation.ReflTransGen.tail h ⟨a, hok, hstep⟩

/-- Runs compose. -/
theorem Reaches.trans (h₁ : Reaches step ok s t) (h₂ : Reaches step ok t u) :
    Reaches step ok s u :=
  Relation.ReflTransGen.trans h₁ h₂

/-- **The invariant rule.** What holds at the start and is kept by every guarded step holds
in every state a guarded run reaches. -/
theorem Reaches.invariant {I : σ → Prop} (h : Reaches step ok s t) (hstart : I s)
    (hkeep : ∀ x a y, I x → ok x a → step x a = some y → I y) : I t := by
  induction h with
  | refl => exact hstart
  | tail _ hlast ih =>
    obtain ⟨a, hok, hstep⟩ := hlast
    exact hkeep _ a _ ih hok hstep

/-! ### Replaying a list of labels -/

/-- Take the labels of a list in order. -/
def play (step : σ → α → Option σ) : σ → List α → Option σ
  | s, [] => some s
  | s, a :: as => (step s a).bind fun t => play step t as

/-- A replay with one more label. -/
theorem play_concat (s : σ) (as : List α) (a : α) :
    play step s (as ++ [a]) = (play step s as).bind fun t => step t a := by
  induction as generalizing s with
  | nil => simp [play]
  | cons b as ih => rw [List.cons_append, play, play, Option.bind_assoc, funext ih]

/-- A quantity no step lowers under an invariant is not lowered by a replay. -/
theorem le_of_play {J : σ → Prop} {f : σ → Nat} (hJ : J s)
    (hkeep : ∀ x a y, J x → step x a = some y → J y)
    (hmono : ∀ x a y, J x → step x a = some y → f x ≤ f y) {as : List α}
    (hplay : play step s as = some t) : f s ≤ f t := by
  induction as generalizing s with
  | nil =>
    obtain rfl : s = t := Option.some.inj hplay
    exact Nat.le_refl _
  | cons a as ih =>
    obtain ⟨m, hm, hplay⟩ := Option.bind_eq_some_iff.mp hplay
    exact Nat.le_trans (hmono s a m hJ hm) (ih (hkeep s a m hJ hm) hplay)

/-- A predicate on states and labels holds at every step of a replay. -/
def Along (step : σ → α → Option σ) (ok : σ → α → Prop) : σ → List α → Prop
  | _, [] => True
  | s, a :: as => ∀ t, step s a = some t → ok s a ∧ Along step ok t as

/-- A predicate on states holds at every state of a replay, the first included. -/
def Throughout (step : σ → α → Option σ) (I : σ → Prop) : σ → List α → Prop
  | s, [] => I s
  | s, a :: as => I s ∧ ∀ t, step s a = some t → Throughout step I t as

/-- Guards that can be decided can be decided along a replay. -/
instance Along.decidable [∀ s a, Decidable (ok s a)] :
    (s : σ) → (as : List α) → Decidable (Along step ok s as)
  | _, [] => inferInstanceAs (Decidable True)
  | s, a :: as =>
      match h : step s a with
      | none => .isTrue fun _ ht => nomatch h.symm.trans ht
      | some t =>
          have := Along.decidable t as
          decidable_of_iff (ok s a ∧ Along step ok t as)
            ⟨fun hok _ ht => Option.some.inj (h.symm.trans ht) ▸ hok, fun hall => hall t h⟩

/-- The machine that refuses the labels its guard rejects. -/
def restrict (step : σ → α → Option σ) (ok : σ → α → Prop) [∀ s a, Decidable (ok s a)]
    (s : σ) (a : α) : Option σ :=
  if ok s a then step s a else none

instance (s : σ) (a : α) : Decidable (unguarded s a) :=
  inferInstanceAs (Decidable True)

theorem restrict_eq_some [∀ s a, Decidable (ok s a)] {a : α} :
    restrict step ok s a = some t ↔ ok s a ∧ step s a = some t := by
  simp only [restrict]
  split <;> simp_all

/-- A replay of the restricted machine is a guarded run. -/
theorem reaches_of_play_restrict [∀ s a, Decidable (ok s a)] {as : List α}
    (hplay : play (restrict step ok) s as = some t) : Reaches step ok s t := by
  induction as generalizing s with
  | nil =>
    obtain rfl : s = t := Option.some.inj hplay
    exact Reaches.refl
  | cons a as ih =>
    obtain ⟨m, hm, hplay⟩ := Option.bind_eq_some_iff.mp hplay
    simp only [restrict] at hm
    split at hm
    · next hok => exact (Reaches.refl.tail hok hm).trans (ih hplay)
    · cases hm

/-- A replay that passes its guards and ends in a state that passes a test. -/
theorem exists_reaches_of_play [∀ s a, Decidable (ok s a)] {as : List α} {P : σ → Bool}
    (h : (play (restrict step ok) s as).any P = true) : ∃ t, Reaches step ok s t ∧ P t = true := by
  cases ht : play (restrict step ok) s as with
  | none =>
    rw [ht] at h
    cases h
  | some t =>
    rw [ht] at h
    exact ⟨t, reaches_of_play_restrict ht, h⟩

/-- A predicate that holds throughout a replay holds at its first state. -/
theorem Throughout.head {I : σ → Prop} {as : List α} (h : Throughout step I s as) : I s := by
  cases as with
  | nil => exact h
  | cons => exact h.1

/-- What follows from a predicate that holds throughout a replay holds throughout it. -/
theorem Throughout.mono {I I' : σ → Prop} {as : List α} (hmono : ∀ x, I x → I' x)
    (h : Throughout step I s as) : Throughout step I' s as := by
  induction as generalizing s with
  | nil => exact hmono s h
  | cons a as ih => exact ⟨hmono s h.1, fun t ht => ih (h.2 t ht)⟩

/-- It holds at the last one. -/
theorem Throughout.of_play {I : σ → Prop} {as : List α} (h : Throughout step I s as)
    (hplay : play step s as = some t) : I t := by
  induction as generalizing s with
  | nil =>
    obtain rfl : s = t := Option.some.inj hplay
    exact h
  | cons a as ih =>
    obtain ⟨m, hm, hplay⟩ := Option.bind_eq_some_iff.mp hplay
    exact ih (h.2 m hm) hplay

/-- **The exact-guard rule, along guarded runs.** Let `J` be kept by the steps that pass the guard
and start where `I` holds. If in the states that satisfy `J` the predicate `I` survives a step
exactly when the step passes the guard, then `I` holds throughout a replay exactly when every step
of it passes the guard. -/
theorem throughout_iff_along_of_guarded {I J : σ → Prop} {as : List α} (hJ : J s) (hI : I s)
    (hkeep : ∀ x a y, J x → I x → ok x a → step x a = some y → J y)
    (hexact : ∀ x a y, J x → I x → step x a = some y → (I y ↔ ok x a)) :
    Throughout step I s as ↔ Along step ok s as := by
  induction as generalizing s with
  | nil => exact ⟨fun _ => trivial, fun _ => hI⟩
  | cons a as ih =>
    constructor
    · rintro ⟨-, hall⟩ t ht
      have hrest := hall t ht
      have hIt := hrest.head
      have hok := (hexact s a t hJ hI ht).mp hIt
      exact ⟨hok, (ih (hkeep s a t hJ hI hok ht) hIt).mp hrest⟩
    · intro hall
      refine ⟨hI, ?_⟩
      intro t ht
      obtain ⟨hok, hrest⟩ := hall t ht
      exact (ih (hkeep s a t hJ hI hok ht) ((hexact s a t hJ hI ht).mpr hok)).mpr hrest

/-- **The exact-guard rule.** Let `J` be an invariant of the states that satisfy `I`. If in
the states that satisfy `J` the predicate `I` survives a step exactly when the step passes the
guard, then `I` holds throughout a replay exactly when every step of it passes the guard. -/
theorem throughout_iff_along {I J : σ → Prop} {as : List α} (hJ : J s) (hI : I s)
    (hkeep : ∀ x a y, J x → I x → step x a = some y → J y)
    (hexact : ∀ x a y, J x → I x → step x a = some y → (I y ↔ ok x a)) :
    Throughout step I s as ↔ Along step ok s as :=
  throughout_iff_along_of_guarded hJ hI (fun x a y hx hIx _ => hkeep x a y hx hIx) hexact

/-- If under an invariant that good steps keep every step that passes the guard is good, then the
steps of a replay that pass the guard are good. -/
theorem Along.imp {J : σ → Prop} {good ok : σ → α → Prop} {as : List α} (hJ : J s)
    (hkeep : ∀ x a y, J x → good x a → step x a = some y → J y)
    (hgood : ∀ x a y, J x → step x a = some y → ok x a → good x a)
    (h : Along step ok s as) : Along step good s as := by
  induction as generalizing s with
  | nil => trivial
  | cons a as ih =>
    intro t ht
    obtain ⟨hok, hrest⟩ := h t ht
    have ha := hgood s a t hJ ht hok
    exact ⟨ha, ih (hkeep s a t hJ ha ht) hrest⟩

/-- What an invariant kept by steps that pass the guard implies holds throughout a replay whose
steps pass the guard. -/
theorem Along.throughout {I J : σ → Prop} {as : List α} (h : Along step ok s as) (hJ : J s)
    (hI : ∀ x, J x → I x) (hkeep : ∀ x a y, J x → ok x a → step x a = some y → J y) :
    Throughout step I s as := by
  induction as generalizing s with
  | nil => exact hI s hJ
  | cons a as ih =>
    refine ⟨hI s hJ, fun t ht => ?_⟩
    obtain ⟨hok, hrest⟩ := h t ht
    exact ih hrest (hkeep s a t hJ hok ht)

/-- **The invariant rule, for steps.** If an invariant is kept by steps that pass the guard and makes
them good, all steps of a replay that passes its guards are good. -/
theorem Along.of_invariant {J : σ → Prop} {good ok : σ → α → Prop} {as : List α}
    (h : Along step ok s as) (hJ : J s)
    (hkeep : ∀ x a y, J x → ok x a → step x a = some y → J y)
    (hgood : ∀ x a y, J x → ok x a → step x a = some y → good x a) : Along step good s as := by
  induction as generalizing s with
  | nil => trivial
  | cons a as ih =>
    intro t ht
    obtain ⟨hok, hrest⟩ := h t ht
    exact ⟨hgood s a t hJ hok ht, ih hrest (hkeep s a t hJ hok ht)⟩

/-- A replay passes two guards together if it passes each of them. -/
theorem Along.and {as : List α} (h : Along step ok s as) (h' : Along step ok' s as) :
    Along step (fun x a => ok x a ∧ ok' x a) s as := by
  induction as generalizing s with
  | nil => trivial
  | cons a as ih =>
    intro t ht
    obtain ⟨hok, hrest⟩ := h t ht
    obtain ⟨hok', hrest'⟩ := h' t ht
    exact ⟨⟨hok, hok'⟩, ih hrest hrest'⟩

/-- A guard that lets every label pass. -/
theorem Along.of_forall {as : List α} (h : ∀ x a, ok x a) : Along step ok s as := by
  induction as generalizing s with
  | nil => trivial
  | cons a as ih => exact fun t _ => ⟨h s a, ih⟩

/-- What holds along a replay holds along its rest. -/
theorem Along.of_play {as bs : List α} (h : Along step ok s (as ++ bs))
    (hplay : play step s as = some t) : Along step ok t bs := by
  induction as generalizing s with
  | nil =>
    obtain rfl : s = t := Option.some.inj hplay
    exact h
  | cons a as ih =>
    obtain ⟨m, hm, hplay⟩ := Option.bind_eq_some_iff.mp hplay
    exact ih (h m hm).2 hplay

/-- **The exact-step rule.** If under an invariant that good steps keep a step is good exactly
when it passes the guard, then all steps of a replay are good exactly when all pass the guard. -/
theorem along_iff_along {J : σ → Prop} {good ok : σ → α → Prop} {as : List α} (hJ : J s)
    (hkeep : ∀ x a y, J x → good x a → step x a = some y → J y)
    (hexact : ∀ x a y, J x → step x a = some y → (good x a ↔ ok x a)) :
    Along step good s as ↔ Along step ok s as := by
  induction as generalizing s with
  | nil => exact Iff.rfl
  | cons a as ih =>
    refine forall_congr' fun t => forall_congr' fun ht => ?_
    have ha := hexact s a t hJ ht
    constructor
    · rintro ⟨hgood, hrest⟩
      exact ⟨ha.mp hgood, (ih (hkeep s a t hJ hgood ht)).mp hrest⟩
    · rintro ⟨hok, hrest⟩
      have hgood := ha.mpr hok
      exact ⟨hgood, (ih (hkeep s a t hJ hgood ht)).mpr hrest⟩

end Lopata

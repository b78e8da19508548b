import Mathlib.Data.Nat.Init
import Mathlib.Order.Monotone.Basic
import Mathlib.Tactic.Common

/-!
# Loops

A loop goes from state to state as long as its condition holds. It is run with a number of rounds
that it has at most.

## Main results

* `runWhile_eq_none`: a loop that does not leave the states on which its condition holds is not
  over after any number of rounds.
* `exists_mapM_iff`: a list is gone through in some number of rounds exactly if each element is.
* `exists_runWhile`: a loop that counts down is over after some number of rounds.
-/

namespace Lopata

variable {σ : Type*} {go : σ → Bool} {next : σ → σ}

/-- The states for which the body of the loop is run; none if the rounds do not suffice. -/
def runWhile (go : σ → Bool) (next : σ → σ) : ℕ → σ → Option (List σ)
  | 0, _ => none
  | rounds + 1, s =>
      if go s then (runWhile go next rounds (next s)).map fun rest => s :: rest else some []

theorem runWhile_succ_of_go {s : σ} (h : go s = true) (rounds : ℕ) :
    runWhile go next (rounds + 1) s =
      (runWhile go next rounds (next s)).map fun rest => s :: rest := by
  rw [runWhile, if_pos h]

theorem runWhile_succ_of_not_go {s : σ} (h : go s = false) (rounds : ℕ) :
    runWhile go next (rounds + 1) s = some [] := by
  rw [runWhile, h]
  rfl

/-- More rounds do no harm. -/
theorem runWhile_mono {rounds rounds' : ℕ} (hle : rounds ≤ rounds') {s : σ} {states : List σ}
    (h : runWhile go next rounds s = some states) : runWhile go next rounds' s = some states := by
  induction rounds generalizing rounds' s states with
  | zero => cases h
  | succ rounds ih =>
    obtain ⟨rounds', rfl⟩ := Nat.exists_eq_add_of_le' (Nat.le_trans (Nat.succ_pos rounds) hle)
    cases hgo : go s with
    | false => rwa [runWhile_succ_of_not_go hgo] at h ⊢
    | true =>
      rw [runWhile_succ_of_go hgo] at h ⊢
      obtain ⟨rest, hrest, rfl⟩ := Option.map_eq_some_iff.mp h
      rw [ih (Nat.le_of_succ_le_succ hle) hrest]
      rfl

/-- A loop that stays where its condition holds is never over. -/
theorem runWhile_eq_none {stays : σ → Prop} (hgo : ∀ s, stays s → go s = true)
    (hnext : ∀ s, stays s → stays (next s)) {s : σ} (hs : stays s) (rounds : ℕ) :
    runWhile go next rounds s = none := by
  induction rounds generalizing s with
  | zero => rfl
  | succ rounds ih => rw [runWhile_succ_of_go (hgo s hs), ih (hnext s hs), Option.map_none]

/-- A loop with an invariant under which a number gets less in each round is over some time. -/
theorem exists_runWhile (inv : σ → Prop) (rank : σ → ℕ)
    (hnext : ∀ s, inv s → go s = true → inv (next s))
    (hrank : ∀ s, inv s → go s = true → go (next s) = true → rank (next s) < rank s) {s : σ}
    (hs : inv s) : ∃ rounds states, runWhile go next rounds s = some states := by
  induction hn : rank s using Nat.strongRecOn generalizing s with
  | ind n ih =>
    subst hn
    cases hgo : go s with
    | false => exact ⟨1, [], runWhile_succ_of_not_go hgo 0⟩
    | true =>
      cases hgo' : go (next s) with
      | false =>
        refine ⟨2, [s], ?_⟩
        rw [runWhile_succ_of_go hgo, runWhile_succ_of_not_go hgo', Option.map_some]
      | true =>
        have hless := hrank s hs hgo hgo'
        obtain ⟨rounds, states, hrun⟩ := ih _ hless (hnext s hs hgo) rfl
        refine ⟨rounds + 1, s :: states, ?_⟩
        rw [runWhile_succ_of_go hgo, hrun, Option.map_some]

/-! ### Rounds in common -/

/-- What holds from some number of rounds on holds together with what holds from another on. -/
theorem exists_and_of_monotone {p q : ℕ → Prop} (hp : Monotone p) (hq : Monotone q)
    (hp' : ∃ rounds, p rounds) (hq' : ∃ rounds, q rounds) : ∃ rounds, p rounds ∧ q rounds := by
  obtain ⟨m, hm⟩ := hp'
  obtain ⟨n, hn⟩ := hq'
  exact ⟨max m n, hp (le_max_left m n) hm, hq (le_max_right m n) hn⟩

section MapM

variable {α β : Type} {f : ℕ → α → Option β}

theorem isSome_mapM_iff {g : α → Option β} {l : List α} :
    (l.mapM g).isSome ↔ ∀ a ∈ l, (g a).isSome := by
  induction l with
  | nil => simp
  | cons a l ih =>
    rw [List.mapM_cons, List.forall_mem_cons, ← ih]
    cases g a with
    | none => simp
    | some b => cases l.mapM g <;> simp

/-- A list is gone through in some number of rounds exactly if each element is. -/
theorem exists_mapM_iff (hf : ∀ a, Monotone fun rounds => (f rounds a).isSome = true)
    (l : List α) :
    (∃ rounds, (l.mapM (f rounds)).isSome = true) ↔
      ∀ a ∈ l, ∃ rounds, (f rounds a).isSome = true := by
  simp only [isSome_mapM_iff]
  induction l with
  | nil => simp
  | cons a l ih =>
    simp only [List.forall_mem_cons]
    rw [← ih]
    constructor
    · rintro ⟨rounds, ha, hl⟩
      exact ⟨⟨rounds, ha⟩, rounds, hl⟩
    · rintro ⟨ha, hl⟩
      exact exists_and_of_monotone (hf a)
        (fun _ _ hle h b hb => hf b hle (h b hb)) ha hl

end MapM

end Lopata

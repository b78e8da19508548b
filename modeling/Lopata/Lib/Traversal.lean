import Mathlib.Data.Finset.Card
import Mathlib.Data.Fintype.Card

/-!
# Traversals with a Visited Set

A network has values, edges with labels between them, and marks. Some of the values are objects:
they have an identity, and an edge leads out of nothing else. A traversal collects the marked
values, depth first, with the labels that lead to them; it goes into each object once, and not
behind a marked value.

The fuel bounds the depth. It is scaffolding: with finitely many objects there is enough of it.

## Main results

* `exists_collect`: the traversal ends.
* `route_of_mem_collect`: what it collects is marked, and the labels lead to it.
* `collect_eq_nil_iff`: it collects nothing exactly if nothing that is marked can be reached.
-/

namespace Lopata

/-- Values with labelled edges; an identity is none for what is no object. -/
structure Network (V I L : Type*) where
  ident : V → Option I
  marked : V → Bool
  edges : V → List (L × V)
  ident_injective : ∀ {v w i}, ident v = some i → ident w = some i → v = w
  edges_of_ident : ∀ {v}, ident v = none → edges v = []

namespace Network

variable {V I L : Type*}

/-- The labels of a list lead from one value to another, and no marked value is passed. -/
inductive Route (N : Network V I L) : V → List L → V → Prop
  | nil (v : V) : Route N v [] v
  | cons {v w u : V} {l : L} {ls : List L} (hv : N.marked v = false) (hedge : (l, w) ∈ N.edges v)
      (hrest : Route N w ls u) : Route N v (l :: ls) u

/-- What is collected behind an edge, as seen from in front of it. -/
def prepend (l : L) (found : List (List L × V)) : List (List L × V) :=
  found.map fun p => (l :: p.1, p.2)

/-- Visit what the edges lead to, one after another. -/
def collectAll (visit : V → List I → Option (List (List L × V) × List I)) :
    List (L × V) → List I → Option (List (List L × V) × List I)
  | [], seen => some ([], seen)
  | (l, w) :: edges, seen => do
      let first ← visit w seen
      let rest ← collectAll visit edges first.2
      return (prepend l first.1 ++ rest.1, rest.2)

variable [DecidableEq I] (N : Network V I L)

/-- The marked values from a value on, and the objects seen. -/
def collect : ℕ → V → List I → Option (List (List L × V) × List I)
  | 0, _, _ => none
  | fuel + 1, v, seen =>
      if (N.ident v).any (· ∈ seen) then some ([], seen)
      else
        let seen := (N.ident v).toList ++ seen
        if N.marked v then some ([([], v)], seen)
        else collectAll (collect fuel) (N.edges v) seen

variable {N}

/-! ### The traversal ends -/

section Ends

omit [DecidableEq I] in
theorem collectAll_mono {visit visit' : V → List I → Option (List (List L × V) × List I)}
    (hvisit : ∀ v seen r, visit v seen = some r → visit' v seen = some r)
    {edges : List (L × V)} {seen : List I} {r : List (List L × V) × List I}
    (h : collectAll visit edges seen = some r) : collectAll visit' edges seen = some r := by
  induction edges generalizing seen r with
  | nil => exact h
  | cons edge edges ih =>
    simp only [collectAll, bind, Option.bind_eq_some_iff] at h ⊢
    obtain ⟨first, hfirst, rest, hrest, hr⟩ := h
    exact ⟨first, hvisit _ _ _ hfirst, rest, ih hrest, hr⟩

/-- More fuel changes nothing. -/
theorem collect_succ {fuel : ℕ} {v : V} {seen : List I} {r : List (List L × V) × List I}
    (h : N.collect fuel v seen = some r) : N.collect (fuel + 1) v seen = some r := by
  induction fuel generalizing v seen r with
  | zero => cases h
  | succ fuel ih =>
    rw [collect] at h ⊢
    split at h
    · next hseen => rwa [if_pos hseen]
    · next hnew =>
      rw [if_neg hnew]
      dsimp only at h ⊢
      split at h
      · next hmarked => rwa [if_pos hmarked]
      · next hmarked =>
        rw [if_neg hmarked]
        exact collectAll_mono (fun _ _ _ => ih) h

theorem collect_mono {fuel fuel' : ℕ} (hle : fuel ≤ fuel') {v : V} {seen : List I}
    {r : List (List L × V) × List I} (h : N.collect fuel v seen = some r) :
    N.collect fuel' v seen = some r := by
  induction hle with
  | refl => exact h
  | step _ ih => exact collect_succ ih

omit [DecidableEq I] in
theorem exists_collectAll {visit : V → List I → Option (List (List L × V) × List I)}
    (start : List I)
    (hvisit : ∀ v seen, start ⊆ seen → ∃ r, visit v seen = some r ∧ seen ⊆ r.2)
    (edges : List (L × V)) {seen : List I} (hseen : start ⊆ seen) :
    ∃ r, collectAll visit edges seen = some r ∧ seen ⊆ r.2 := by
  induction edges generalizing seen with
  | nil => exact ⟨_, rfl, List.Subset.refl _⟩
  | cons edge edges ih =>
    obtain ⟨first, hfirst, hgrow⟩ := hvisit edge.2 seen hseen
    obtain ⟨rest, hrest, hgrow'⟩ := ih (List.Subset.trans hseen hgrow)
    refine ⟨(prepend edge.1 first.1 ++ rest.1, rest.2), ?_, List.Subset.trans hgrow hgrow'⟩
    simp only [collectAll, bind, Option.bind_eq_some_iff]
    exact ⟨first, hfirst, rest, hrest, rfl⟩

variable [Fintype I]

/-- The objects that have not been seen. -/
def unseen (seen : List I) : ℕ := (Finset.univ.filter fun i : I => i ∉ seen).card

theorem unseen_mono {seen seen' : List I} (h : seen ⊆ seen') : unseen seen' ≤ unseen seen := by
  refine Finset.card_le_card fun i hi => ?_
  rw [Finset.mem_filter] at hi ⊢
  exact ⟨hi.1, fun hmem => hi.2 (h hmem)⟩

theorem unseen_cons {i : I} {seen : List I} (h : i ∉ seen) :
    unseen (i :: seen) < unseen seen := by
  refine Finset.card_lt_card (Finset.ssubset_iff_subset_ne.mpr ⟨?_, ?_⟩)
  · intro j hj
    rw [Finset.mem_filter] at hj ⊢
    exact ⟨hj.1, fun hmem => hj.2 (List.mem_cons_of_mem _ hmem)⟩
  · intro heq
    have hi : i ∈ Finset.univ.filter fun j : I => j ∉ seen :=
      Finset.mem_filter.mpr ⟨Finset.mem_univ i, h⟩
    rw [← heq, Finset.mem_filter] at hi
    exact hi.2 List.mem_cons_self

/-- **The traversal ends**: an object that is entered has not been seen before. -/
theorem exists_collect {fuel : ℕ} (v : V) {seen : List I} (hfuel : unseen seen < fuel) :
    ∃ r, N.collect fuel v seen = some r ∧ seen ⊆ r.2 := by
  induction fuel generalizing v seen with
  | zero => exact absurd hfuel (Nat.not_lt_zero _)
  | succ fuel ih =>
    rw [collect]
    split
    · exact ⟨_, rfl, List.Subset.refl _⟩
    · next hnew =>
      dsimp only
      have hgrow : seen ⊆ (N.ident v).toList ++ seen := List.subset_append_right _ _
      split
      · exact ⟨_, rfl, hgrow⟩
      · cases hident : N.ident v with
        | none =>
          rw [N.edges_of_ident hident]
          exact ⟨_, rfl, List.Subset.refl _⟩
        | some i =>
          rw [hident] at hnew
          have hi : i ∉ seen := fun hmem => hnew (decide_eq_true hmem)
          have hless := unseen_cons hi
          obtain ⟨r, hr, hsub⟩ := exists_collectAll (i :: seen)
            (fun w seen' hsub => ih w (by have := unseen_mono hsub; omega)) (N.edges v)
            (List.Subset.refl _)
          exact ⟨r, hr, fun j hj => hsub (List.mem_cons_of_mem i hj)⟩

end Ends

/-! ### What is collected -/

omit [DecidableEq I] in
theorem mem_prepend {l : L} {found : List (List L × V)} {p : List L × V} :
    p ∈ prepend l found ↔ ∃ ls, (ls, p.2) ∈ found ∧ p.1 = l :: ls := by
  rw [prepend, List.mem_map]
  constructor
  · rintro ⟨⟨ls, u⟩, hmem, rfl⟩
    exact ⟨ls, hmem, rfl⟩
  · rintro ⟨ls, hmem, heq⟩
    exact ⟨(ls, p.2), hmem, Prod.ext heq.symm rfl⟩

omit [DecidableEq I] in
theorem mem_collectAll {visit : V → List I → Option (List (List L × V) × List I)}
    {edges : List (L × V)} {seen : List I} {r : List (List L × V) × List I}
    (h : collectAll visit edges seen = some r) {p : List L × V} (hp : p ∈ r.1) :
    ∃ edge ∈ edges, ∃ seen' r', visit edge.2 seen' = some r' ∧
      ∃ ls, (ls, p.2) ∈ r'.1 ∧ p.1 = edge.1 :: ls := by
  induction edges generalizing seen r with
  | nil =>
    obtain rfl := Option.some.inj h
    cases hp
  | cons edge edges ih =>
    simp only [collectAll, bind, Option.bind_eq_some_iff] at h
    obtain ⟨first, hfirst, rest, hrest, hr⟩ := h
    obtain rfl := Option.some.inj hr
    rcases List.mem_append.mp hp with hp | hp
    · exact ⟨edge, List.mem_cons_self, seen, first, hfirst, mem_prepend.mp hp⟩
    · obtain ⟨edge', hedge', hvisit⟩ := ih hrest hp
      exact ⟨edge', List.mem_cons_of_mem _ hedge', hvisit⟩

/-- **Soundness**: what is collected is marked, and its labels lead to it. -/
theorem route_of_mem_collect {fuel : ℕ} {v : V} {seen : List I}
    {r : List (List L × V) × List I} (h : N.collect fuel v seen = some r) {p : List L × V}
    (hp : p ∈ r.1) : N.Route v p.1 p.2 ∧ N.marked p.2 = true := by
  induction fuel generalizing v seen r p with
  | zero => cases h
  | succ fuel ih =>
    rw [collect] at h
    split at h
    · obtain rfl := Option.some.inj h
      cases hp
    · dsimp only at h
      split at h
      · next hmarked =>
        obtain rfl := Option.some.inj h
        obtain rfl := List.mem_singleton.mp hp
        exact ⟨.nil v, hmarked⟩
      · next hmarked =>
        obtain ⟨edge, hedge, seen', r', hvisit, ls, hmem, heq⟩ := mem_collectAll h hp
        obtain ⟨hroute, hlast⟩ := ih hvisit hmem
        rw [heq]
        exact ⟨.cons (Bool.eq_false_iff.mpr hmarked) hedge hroute, hlast⟩

/-! ### What is not collected -/

/-- A value that needs no visit: an object that has been seen, or nothing that is marked. -/
def Settled (N : Network V I L) (seen : List I) (v : V) : Prop :=
  (∃ i, N.ident v = some i ∧ i ∈ seen) ∨ N.ident v = none ∧ N.marked v = false

omit [DecidableEq I] in
theorem Settled.mono {seen seen' : List I} {v : V} (h : N.Settled seen v) (hsub : seen ⊆ seen') :
    N.Settled seen' v := by
  rcases h with ⟨i, hi, hmem⟩ | hnone
  · exact .inl ⟨i, hi, hsub hmem⟩
  · exact .inr hnone

/-- The objects that were seen on the way are not marked, and their edges lead to what is settled. -/
def Closed (N : Network V I L) (before after : List I) : Prop :=
  ∀ v i, N.ident v = some i → i ∈ after → i ∉ before →
    N.marked v = false ∧ ∀ edge ∈ N.edges v, N.Settled after edge.2

omit [DecidableEq I] in
theorem Closed.trans {a b c : List I} (hab : N.Closed a b) (hbc : N.Closed b c) (hsub : b ⊆ c) :
    N.Closed a c := by
  intro v i hident hafter hbefore
  by_cases hmid : i ∈ b
  · obtain ⟨hmarked, hedges⟩ := hab v i hident hmid hbefore
    exact ⟨hmarked, fun edge hedge => (hedges edge hedge).mono hsub⟩
  · exact hbc v i hident hafter hmid

omit [DecidableEq I] in
theorem closed_collectAll {visit : V → List I → Option (List (List L × V) × List I)}
    (hvisit : ∀ v seen r, visit v seen = some r → r.1 = [] →
      seen ⊆ r.2 ∧ N.Settled r.2 v ∧ N.Closed seen r.2)
    {edges : List (L × V)} {seen : List I} {r : List (List L × V) × List I}
    (h : collectAll visit edges seen = some r) (hnil : r.1 = []) :
    seen ⊆ r.2 ∧ (∀ edge ∈ edges, N.Settled r.2 edge.2) ∧ N.Closed seen r.2 := by
  induction edges generalizing seen r with
  | nil =>
    obtain rfl := Option.some.inj h
    exact ⟨List.Subset.refl _, fun edge hedge => absurd hedge List.not_mem_nil,
      fun v i _ hafter hbefore => absurd hafter hbefore⟩
  | cons edge edges ih =>
    simp only [collectAll, bind, Option.bind_eq_some_iff] at h
    obtain ⟨first, hfirst, rest, hrest, hr⟩ := h
    obtain rfl := Option.some.inj hr
    obtain ⟨hprepend, hrestNil⟩ := List.append_eq_nil_iff.mp hnil
    obtain ⟨hsub, hsettled, hclosed⟩ := hvisit _ _ _ hfirst (List.map_eq_nil_iff.mp hprepend)
    obtain ⟨hsub', hall, hclosed'⟩ := ih hrest hrestNil
    refine ⟨List.Subset.trans hsub hsub', ?_, hclosed.trans hclosed' hsub'⟩
    intro edge' hedge'
    rcases List.mem_cons.mp hedge' with rfl | hedge'
    · exact hsettled.mono hsub'
    · exact hall edge' hedge'

/-- If nothing is collected, the value is settled, and so is what the new objects lead to. -/
theorem closed_collect {fuel : ℕ} {v : V} {seen : List I} {r : List (List L × V) × List I}
    (h : N.collect fuel v seen = some r) (hnil : r.1 = []) :
    seen ⊆ r.2 ∧ N.Settled r.2 v ∧ N.Closed seen r.2 := by
  induction fuel generalizing v seen r with
  | zero => cases h
  | succ fuel ih =>
    rw [collect] at h
    split at h
    · next hseen =>
      obtain rfl := Option.some.inj h
      obtain ⟨i, hi, hmem⟩ := Option.any_eq_true _ _ |>.mp hseen
      exact ⟨List.Subset.refl _, .inl ⟨i, hi, of_decide_eq_true hmem⟩,
        fun v i _ hafter hbefore => absurd hafter hbefore⟩
    · dsimp only at h
      split at h
      · obtain rfl := Option.some.inj h
        cases hnil
      · next hmarked =>
        rw [Bool.not_eq_true] at hmarked
        obtain ⟨hsub, hedges, hclosed⟩ := closed_collectAll (fun _ _ _ => ih) h hnil
        refine ⟨List.Subset.trans (List.subset_append_right _ _) hsub, ?_, ?_⟩
        · cases hident : N.ident v with
          | none => exact .inr ⟨hident, hmarked⟩
          | some i =>
            refine .inl ⟨i, hident, hsub ?_⟩
            rw [hident]
            exact List.mem_append_left _ (List.mem_singleton_self i)
        · intro w i hident hafter hbefore
          by_cases hmem : i ∈ (N.ident v).toList ++ seen
          · have hi : N.ident v = some i := by
              rcases List.mem_append.mp hmem with hi | hi
              · exact Option.mem_toList.mp hi
              · exact absurd hi hbefore
            obtain rfl := N.ident_injective hident hi
            exact ⟨hmarked, hedges⟩
          · exact hclosed w i hident hafter hmem

/-- **Soundness and completeness**: a traversal that starts afresh collects nothing exactly if no
marked value can be reached. -/
theorem collect_eq_nil_iff {fuel : ℕ} {v : V} {r : List (List L × V) × List I}
    (h : N.collect fuel v [] = some r) :
    r.1 = [] ↔ ∀ ls u, N.Route v ls u → N.marked u = false := by
  constructor
  · intro hnil ls u hroute
    obtain ⟨-, hsettled, hclosed⟩ := closed_collect h hnil
    clear h
    induction hroute with
    | nil v =>
      rcases hsettled with ⟨i, hident, hmem⟩ | ⟨-, hmarked⟩
      · exact (hclosed v i hident hmem List.not_mem_nil).1
      · exact hmarked
    | @cons v w u l ls hv hedge hrest ih =>
      rcases hsettled with ⟨i, hident, hmem⟩ | ⟨hident, -⟩
      · exact ih ((hclosed v i hident hmem List.not_mem_nil).2 _ hedge)
      · rw [N.edges_of_ident hident] at hedge
        cases hedge
  · intro hall
    rw [List.eq_nil_iff_forall_not_mem]
    intro p hp
    obtain ⟨hroute, hmarked⟩ := route_of_mem_collect h hp
    rw [hall p.1 p.2 hroute] at hmarked
    cases hmarked

end Network

end Lopata

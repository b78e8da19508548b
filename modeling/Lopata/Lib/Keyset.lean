import Mathlib.Data.List.Sort
import Mathlib.Data.Set.Card
import Lopata.Lib.Paging

/-!
# Paging by Key

A list is read page by page in the order of a key: each page is the `n` first entries behind the
last key of the page before. The list may be another one for each page. Reading ends with the
page that has all the entries that are left.

Unlike an offset, a key is not moved by what is put in front of it or removed there: an entry
that is in all the lists is read exactly once.

## Main results

* `pairwise_keysetPages`: the entries are read in strictly ascending order.
* `count_keysetPages`: an entry that is in all the lists is read exactly once.
* `exists_keysetEnds`: reading ends if there are finitely many keys.
-/

namespace Lopata

variable {α κ : Type*} [LinearOrder κ] {key : α → κ} {n : ℕ} {c : Option κ} {l : List α}
  {ls : List (List α)}

/-- The entries behind a cursor. -/
def behind (key : α → κ) (c : Option κ) (l : List α) : List α :=
  l.filter fun a => c.all fun x => decide (x < key a)

/-- The entries behind a cursor, in the order of the key. -/
def sortedBehind (key : α → κ) (c : Option κ) (l : List α) : List α :=
  (behind key c l).insertionSort fun a b => key a ≤ key b

/-- The entries of one page. -/
def keysetPage (key : α → κ) (n : ℕ) (c : Option κ) (l : List α) : List α :=
  (sortedBehind key c l).take n

/-- The cursor of the next page. -/
def nextCursor (key : α → κ) (n : ℕ) (c : Option κ) (l : List α) : Option κ :=
  (keysetPage key n c l).getLast?.map key

/-- Nothing is left behind the page. -/
def IsLast (key : α → κ) (n : ℕ) (c : Option κ) (l : List α) : Prop :=
  (behind key c l).length ≤ n

instance : Decidable (IsLast key n c l) := inferInstanceAs (Decidable (_ ≤ _))

/-- The pages read from a sequence of lists. -/
def keysetPages (key : α → κ) (n : ℕ) : Option κ → List (List α) → List (List α)
  | _, [] => []
  | c, l :: ls => keysetPage key n c l :: keysetPages key n (nextCursor key n c l) ls

/-- Reading ends with the last of the lists. -/
def KeysetEnds (key : α → κ) (n : ℕ) : Option κ → List (List α) → Prop
  | _, [] => False
  | c, l :: ls =>
      if IsLast key n c l then ls = [] else KeysetEnds key n (nextCursor key n c l) ls

/-! ### One page -/

theorem mem_behind {a : α} : a ∈ behind key c l ↔ a ∈ l ∧ ∀ x ∈ c, x < key a := by
  rw [behind, List.mem_filter, Option.all_eq_true]
  simp only [decide_eq_true_eq, Option.mem_def]

theorem mem_sortedBehind {a : α} : a ∈ sortedBehind key c l ↔ a ∈ l ∧ ∀ x ∈ c, x < key a := by
  rw [sortedBehind, List.mem_insertionSort, mem_behind]

theorem length_sortedBehind : (sortedBehind key c l).length = (behind key c l).length :=
  List.length_insertionSort _ _

/-- The entries of a list without two of one key are in strict order. -/
theorem pairwise_sortedBehind (h : (l.map key).Nodup) :
    (sortedBehind key c l).Pairwise fun a b => key a < key b := by
  have hle : (sortedBehind key c l).Pairwise fun a b => key a ≤ key b :=
    List.pairwise_insertionSort _ _
  have hperm : (sortedBehind key c l).Perm (behind key c l) := List.perm_insertionSort _ _
  have hnd : ((sortedBehind key c l).map key).Nodup := by
    rw [(hperm.map key).nodup_iff]
    exact (List.filter_sublist.map key).nodup h
  have hne : (sortedBehind key c l).Pairwise fun a b => key a ≠ key b :=
    List.pairwise_map.mp hnd
  exact hle.imp₂ (fun a b hab hne => lt_of_le_of_ne hab hne) hne

theorem mem_of_mem_keysetPage {a : α} (h : a ∈ keysetPage key n c l) :
    a ∈ l ∧ ∀ x ∈ c, x < key a :=
  mem_sortedBehind.mp (List.mem_of_mem_take h)

/-- The entries of a page are not behind its last one. -/
theorem le_nextCursor (h : (l.map key).Nodup) {a : α} (ha : a ∈ keysetPage key n c l) :
    ∃ x ∈ nextCursor key n c l, key a ≤ x := by
  have hsorted : (keysetPage key n c l).Pairwise fun a b => key a < key b :=
    (pairwise_sortedBehind h).sublist (List.take_sublist _ _)
  obtain ⟨init, last, heq⟩ : ∃ init last, keysetPage key n c l = init ++ [last] :=
    ⟨_, _, (List.dropLast_append_getLast (List.ne_nil_of_mem ha)).symm⟩
  refine ⟨key last, by simp [nextCursor, heq], ?_⟩
  rw [heq] at ha hsorted
  rcases List.mem_append.mp ha with hinit | hlast
  · exact ((List.pairwise_append.mp hsorted).2.2 a hinit last (List.mem_singleton_self last)).le
  · rw [List.mem_singleton.mp hlast]

/-- An entry behind the cursor is on the page, or behind it. -/
theorem mem_keysetPage_or (h : (l.map key).Nodup) {a : α} (ha : a ∈ l)
    (hc : ∀ x ∈ c, x < key a) :
    a ∈ keysetPage key n c l ∨
      ¬ IsLast key n c l ∧ ∀ x ∈ nextCursor key n c l, x < key a := by
  have hmem : a ∈ sortedBehind key c l := mem_sortedBehind.mpr ⟨ha, hc⟩
  rw [← List.take_append_drop n (sortedBehind key c l)] at hmem
  rcases List.mem_append.mp hmem with htake | hdrop
  · exact .inl htake
  · refine .inr ⟨?_, ?_⟩
    · intro hlast
      rw [IsLast, ← length_sortedBehind] at hlast
      rw [List.drop_eq_nil_of_le hlast] at hdrop
      cases hdrop
    · intro x hx
      obtain ⟨last, hlast, rfl⟩ := Option.map_eq_some_iff.mp hx
      have hsorted := pairwise_sortedBehind (c := c) h
      rw [← List.take_append_drop n (sortedBehind key c l)] at hsorted
      exact (List.pairwise_append.mp hsorted).2.2 last (List.mem_of_mem_getLast? hlast) a hdrop

/-- A page that is not the last has a last entry. -/
theorem exists_nextCursor (hn : 1 ≤ n) (h : ¬ IsLast key n c l) :
    ∃ a ∈ l, nextCursor key n c l = some (key a) ∧ ∀ x ∈ c, x < key a := by
  rw [IsLast, ← length_sortedBehind, not_le] at h
  have hne : keysetPage key n c l ≠ [] := by
    rw [keysetPage, ne_eq, List.take_eq_nil_iff]
    rintro (hzero | hnil)
    · omega
    · rw [hnil] at h
      exact Nat.not_lt_zero _ h
  obtain ⟨hmem, hbehind⟩ := mem_of_mem_keysetPage (List.getLast_mem hne)
  exact ⟨_, hmem, by rw [nextCursor, List.getLast?_eq_some_getLast hne]; rfl, hbehind⟩

/-! ### All pages -/

/-- What is read is in one of the lists. -/
theorem exists_mem_of_mem_keysetPages {a : α} (h : a ∈ (keysetPages key n c ls).flatten) :
    ∃ l ∈ ls, a ∈ l := by
  induction ls generalizing c with
  | nil => cases h
  | cons l ls ih =>
    rw [keysetPages, List.flatten_cons] at h
    rcases List.mem_append.mp h with hpage | hrest
    · exact ⟨l, List.mem_cons_self, (mem_of_mem_keysetPage hpage).1⟩
    · obtain ⟨l', hl', ha⟩ := ih hrest
      exact ⟨l', List.mem_cons_of_mem l hl', ha⟩

/-- What is read is behind the cursor, on the later pages too. -/
theorem behind_of_mem_keysetPages (hnd : ∀ l ∈ ls, (l.map key).Nodup)
    (hends : KeysetEnds key n c ls) (hn : 1 ≤ n) {a : α}
    (ha : a ∈ (keysetPages key n c ls).flatten) : ∀ x ∈ c, x < key a := by
  induction ls generalizing c with
  | nil => cases ha
  | cons l ls ih =>
    rw [keysetPages, List.flatten_cons] at ha
    rcases List.mem_append.mp ha with hpage | hrest
    · exact (mem_of_mem_keysetPage hpage).2
    · rw [KeysetEnds] at hends
      split at hends
      · subst hends
        cases hrest
      · next hnot =>
          obtain ⟨b, -, hnext, hb⟩ := exists_nextCursor hn hnot
          have hlt := ih (fun l hl => hnd l (List.mem_cons_of_mem _ hl)) hends hrest
            (key b) hnext
          exact fun x hx => (hb x hx).trans hlt

/-- **Ascending order**: what is read later has a greater key. -/
theorem pairwise_keysetPages (hn : 1 ≤ n) (hnd : ∀ l ∈ ls, (l.map key).Nodup)
    (hends : KeysetEnds key n c ls) :
    (keysetPages key n c ls).flatten.Pairwise fun a b => key a < key b := by
  induction ls generalizing c with
  | nil => exact List.Pairwise.nil
  | cons l ls ih =>
    have hl := hnd l List.mem_cons_self
    have hls := fun l' hl' => hnd l' (List.mem_cons_of_mem l hl')
    rw [keysetPages, List.flatten_cons, List.pairwise_append]
    have hpage : (keysetPage key n c l).Pairwise fun a b => key a < key b :=
      (pairwise_sortedBehind hl).sublist (List.take_sublist _ _)
    rw [KeysetEnds] at hends
    split at hends
    · subst hends
      exact ⟨hpage, List.Pairwise.nil, fun a _ b hb => by cases hb⟩
    · refine ⟨hpage, ih hls hends, ?_⟩
      intro a ha b hb
      obtain ⟨x, hx, hle⟩ := le_nextCursor hl ha
      exact hle.trans_lt (behind_of_mem_keysetPages hls hends hn hb x hx)

/-- An entry of the key is read from some list that has it. -/
theorem mem_keysetPages {k : κ} (hnd : ∀ l ∈ ls, (l.map key).Nodup)
    (hends : KeysetEnds key n c ls) (hc : ∀ x ∈ c, x < k) (hall : ∀ l ∈ ls, k ∈ l.map key) :
    k ∈ (keysetPages key n c ls).flatten.map key := by
  induction ls generalizing c with
  | nil => cases hends
  | cons l ls ih =>
    obtain ⟨a, ha, rfl⟩ := List.mem_map.mp (hall l List.mem_cons_self)
    rw [keysetPages, List.flatten_cons, List.map_append, List.mem_append]
    rcases mem_keysetPage_or (hnd l List.mem_cons_self) ha hc with hpage | ⟨hnot, hnext⟩
    · exact .inl (List.mem_map_of_mem hpage)
    · rw [KeysetEnds, if_neg hnot] at hends
      exact .inr (ih (fun l' hl' => hnd l' (List.mem_cons_of_mem _ hl')) hends hnext
        fun l' hl' => hall l' (List.mem_cons_of_mem _ hl'))

/-- **Exactly once**: a key that is in all the lists is read once. -/
theorem count_keysetPages [BEq κ] [LawfulBEq κ] {k : κ} (hn : 1 ≤ n)
    (hnd : ∀ l ∈ ls, (l.map key).Nodup)
    (hends : KeysetEnds key n c ls) (hc : ∀ x ∈ c, x < k) (hall : ∀ l ∈ ls, k ∈ l.map key) :
    ((keysetPages key n c ls).flatten.map key).count k = 1 := by
  have hlt := pairwise_keysetPages hn hnd hends
  have hnodup : ((keysetPages key n c ls).flatten.map key).Nodup :=
    List.pairwise_map.mpr (hlt.imp fun h => h.ne)
  exact List.count_eq_one_of_mem hnodup (mem_keysetPages hnd hends hc hall)

variable (key) in
/-- **Reading ends** if the keys behind the cursor are among finitely many in all the lists. -/
theorem exists_keysetEnds (hn : 1 ≤ n) {K : Set κ} (hK : K.Finite) {f : ℕ → List α}
    (hkeys : ∀ i, ∀ a ∈ f i, (∀ x ∈ c, x < key a) → key a ∈ K) :
    ∃ m, KeysetEnds key n c (snapshots f m) := by
  have hcard : ∀ N, ∀ (c : Option κ) (f : ℕ → List α),
      {k ∈ K | ∀ x ∈ c, x < k}.ncard ≤ N →
      (∀ i, ∀ a ∈ f i, (∀ x ∈ c, x < key a) → key a ∈ K) →
      ∃ m, KeysetEnds key n c (snapshots f m) := by
    intro N
    induction N with
    | zero =>
      intro c f hN hf
      have hfin : {k ∈ K | ∀ x ∈ c, x < k}.Finite := hK.subset fun k hk => hk.1
      have hempty := (Set.ncard_eq_zero hfin).mp (Nat.le_zero.mp hN)
      refine ⟨0, ?_⟩
      show if IsLast key n c (f 0) then ([] : List (List α)) = [] else False
      rw [if_pos]
      have hnil : behind key c (f 0) = [] := by
        rw [List.eq_nil_iff_forall_not_mem]
        intro a ha
        obtain ⟨hmem, hbehind⟩ := mem_behind.mp ha
        exact Set.eq_empty_iff_forall_notMem.mp hempty (key a) ⟨hf 0 a hmem hbehind, hbehind⟩
      rw [IsLast, hnil]
      exact Nat.zero_le n
    | succ N ih =>
      intro c f hN hf
      by_cases hlast : IsLast key n c (f 0)
      · refine ⟨0, ?_⟩
        show if IsLast key n c (f 0) then ([] : List (List α)) = [] else False
        rw [if_pos hlast]
      · obtain ⟨a, ha, hnext, hbehind⟩ := exists_nextCursor hn hlast
        -- the last key of the page is not behind itself
        have hlt : {k ∈ K | ∀ x ∈ nextCursor key n c (f 0), x < k}.ncard <
            {k ∈ K | ∀ x ∈ c, x < k}.ncard := by
          apply Set.ncard_lt_ncard _ (hK.subset fun k hk => hk.1)
          rw [Set.ssubset_iff_of_subset]
          · refine ⟨key a, ⟨hf 0 a ha hbehind, hbehind⟩, ?_⟩
            rintro ⟨-, hself⟩
            exact lt_irrefl _ (hself (key a) hnext)
          · rintro k ⟨hk, hgt⟩
            exact ⟨hk, fun x hx => (hbehind x hx).trans (hgt (key a) hnext)⟩
        obtain ⟨m, hm⟩ := ih (nextCursor key n c (f 0)) (fun i => f (i + 1)) (by omega)
          fun i b hb hgt => hf (i + 1) b hb fun x hx => (hbehind x hx).trans (hgt _ hnext)
        refine ⟨m + 1, ?_⟩
        rw [snapshots_succ, KeysetEnds, if_neg hlast]
        exact hm
  exact hcard _ c f le_rfl hkeys

end Lopata

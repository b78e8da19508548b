import Mathlib.Data.List.Basic
import Mathlib.Order.Basic

/-!
# Sorting by a Comparator

`Array.prototype.sort` with a comparator is stable if the comparator is consistent on the elements;
if it is not, the order of the result is up to the implementation. A query that orders its rows and
limits their number leaves open how rows are ordered that compare equal.

## Main results

* `selects_take_iff`: when the first elements of a list are a result of such a query.
* `sorts_select_iff`: when the first elements of a sorted list always are, whatever order the list
  was in.
-/

namespace Lopata

variable {α : Type*} {cmp ref : α → α → Ordering} {l rows out : List α} {n : ℕ} {x y : α}

/-- The comparator is consistent on a list. -/
structure Consistent (cmp : α → α → Ordering) (l : List α) : Prop where
  swap : ∀ a ∈ l, ∀ b ∈ l, cmp b a = (cmp a b).swap
  trans : ∀ a ∈ l, ∀ b ∈ l, ∀ c ∈ l, cmp a b ≠ .gt → cmp b c ≠ .gt → cmp a c ≠ .gt

/-- What `sort` may make of a list. -/
structure Sorts (cmp : α → α → Ordering) (l out : List α) : Prop where
  perm : out.Perm l
  stable : Consistent cmp l → out = l.mergeSort fun a b => cmp a b ≠ .gt

/-- What a query may give that orders its rows by a comparator and takes the first ones. -/
def Selects (ref : α → α → Ordering) (rows : List α) (n : ℕ) (out : List α) : Prop :=
  ∃ full : List α, full.Perm rows ∧ full.Pairwise (fun a b => ref a b ≠ .gt) ∧ out = full.take n

/-- A sort may put the first row among the first ones, and before the second row. -/
def MayPrecede (cmp : α → α → Ordering) (rows : List α) (n : ℕ) (x y : α) : Prop :=
  Consistent cmp rows → rows.countP (fun z => cmp z x = .lt) < n ∧ cmp y x ≠ .lt

/-! ### Consistent comparators -/

theorem Consistent.mono {l' : List α} (h : Consistent cmp l) (hsub : ∀ a ∈ l', a ∈ l) :
    Consistent cmp l' where
  swap a ha b hb := h.swap a (hsub a ha) b (hsub b hb)
  trans a ha b hb c hc := h.trans a (hsub a ha) b (hsub b hb) c (hsub c hc)

theorem Consistent.of_perm {l' : List α} (h : Consistent cmp l) (hperm : l'.Perm l) :
    Consistent cmp l' :=
  h.mono fun _ ha => hperm.mem_iff.mp ha

theorem consistent_of_transCmp [Std.TransCmp ref] (l : List α) : Consistent ref l where
  swap _ _ _ _ := Std.OrientedCmp.eq_swap
  trans _ _ _ _ _ _ hab hbc := by
    have hle := Std.TransCmp.isLE_trans (Ordering.isLE_iff_ne_gt.mpr hab)
      (Ordering.isLE_iff_ne_gt.mpr hbc)
    exact Ordering.isLE_iff_ne_gt.mp hle

theorem Consistent.lt_iff_gt (h : Consistent cmp l) (hx : x ∈ l) (hy : y ∈ l) :
    cmp y x = .lt ↔ cmp x y = .gt := by
  rw [h.swap x hx y hy, Ordering.swap_eq_lt]

/-- The comparator on the elements of the list is total and transitive. -/
theorem Consistent.total_trans (h : Consistent cmp l) :
    (∀ a b : {a // a ∈ l}, (decide (cmp a b ≠ .gt) || decide (cmp b a ≠ .gt)) = true) ∧
      ∀ a b c : {a // a ∈ l}, decide (cmp a b ≠ .gt) = true → decide (cmp b c ≠ .gt) = true →
        decide (cmp a c ≠ .gt) = true := by
  constructor
  · rintro ⟨a, ha⟩ ⟨b, hb⟩
    have hswap := h.swap a ha b hb
    cases hab : cmp a b <;> simp_all
  · rintro ⟨a, ha⟩ ⟨b, hb⟩ ⟨c, hc⟩ hab hbc
    rw [decide_eq_true_eq] at hab hbc ⊢
    exact h.trans a ha b hb c hc hab hbc

theorem Consistent.pairwise_mergeSort (h : Consistent cmp l) :
    (l.mergeSort fun a b => cmp a b ≠ .gt).Pairwise fun a b => cmp a b ≠ .gt := by
  obtain ⟨htotal, htrans⟩ := h.total_trans
  have hsorted := List.pairwise_mergeSort htrans htotal l.attach
  have hmap := List.map_mergeSort (f := Subtype.val) (l := l.attach)
    (r := fun a b : {a // a ∈ l} => decide (cmp a b ≠ .gt)) (s := fun a b => cmp a b ≠ .gt)
    fun _ _ _ _ => rfl
  rw [List.attach_map_subtype_val] at hmap
  rw [← hmap, List.pairwise_map]
  exact hsorted.imp fun hab => of_decide_eq_true hab

/-- The first element stays behind what is smaller only. -/
theorem Consistent.mergeSort_cons (h : Consistent cmp (x :: l)) :
    ∃ l₁ l₂, (x :: l).mergeSort (fun a b => cmp a b ≠ .gt) = l₁ ++ x :: l₂ ∧
      ∀ a ∈ l₁, cmp a x = .lt := by
  obtain ⟨htotal, htrans⟩ := h.total_trans
  have hmap := List.map_mergeSort (f := Subtype.val) (l := (x :: l).attach)
    (r := fun a b : {a // a ∈ x :: l} => decide (cmp a b ≠ .gt)) (s := fun a b => cmp a b ≠ .gt)
    fun _ _ _ _ => rfl
  rw [List.attach_map_subtype_val] at hmap
  rw [List.attach_cons] at hmap
  obtain ⟨l₁, l₂, hsort, -, hbefore⟩ := List.mergeSort_cons htrans htotal
    ⟨x, List.mem_cons_self⟩
    (l.attach.map fun a : {a // a ∈ l} =>
      (⟨a.1, List.mem_cons_of_mem x a.2⟩ : {a // a ∈ x :: l}))
  refine ⟨l₁.map Subtype.val, l₂.map Subtype.val, ?_, ?_⟩
  · rw [← hmap, hsort, List.map_append, List.map_cons]
  · intro a ha
    obtain ⟨⟨b, hb⟩, hmem, rfl⟩ := List.mem_map.mp ha
    have hgt := hbefore _ hmem
    rw [h.lt_iff_gt List.mem_cons_self hb]
    simpa using hgt

/-- An element among the first ones of a sorted list has fewer smaller ones than these. -/
theorem Consistent.countP_lt (h : Consistent cmp out)
    (hsorted : out.Pairwise fun a b => cmp a b ≠ .gt) (hx : x ∈ out.take n) :
    out.countP (fun z => cmp z x = .lt) < n := by
  obtain ⟨l₁, l₂, htake⟩ := List.append_of_mem hx
  have hout : out = l₁ ++ x :: (l₂ ++ out.drop n) := by
    rw [← List.cons_append, ← List.append_assoc, ← htake, List.take_append_drop]
  have hlen : l₁.length < n := by
    have hle := List.length_take_le n out
    rw [htake, List.length_append, List.length_cons] at hle
    omega
  have hmem : ∀ z ∈ x :: (l₂ ++ out.drop n), z ∈ out := by
    intro z hz
    rw [hout]
    exact List.mem_append_right l₁ hz
  have hafter : (x :: (l₂ ++ out.drop n)).countP (fun z => cmp z x = .lt) = 0 := by
    rw [List.countP_eq_zero]
    intro z hz hlt
    have hgt := (h.lt_iff_gt (hmem x List.mem_cons_self) (hmem z hz)).mp (of_decide_eq_true hlt)
    rcases List.mem_cons.mp hz with rfl | hz
    · cases hgt.symm.trans (of_decide_eq_true hlt)
    · rw [hout] at hsorted
      exact (List.pairwise_cons.mp (List.pairwise_append.mp hsorted).2.1).1 z hz hgt
  rw [hout, List.countP_append, hafter, Nat.add_zero]
  exact Nat.lt_of_le_of_lt List.countP_le_length hlen

/-! ### The first elements -/

/-- The first elements of a list are a result of the query if they are in order, and none of the
others has to come before them. -/
theorem selects_take_iff [Std.TransCmp ref] (hout : out.Perm rows) :
    Selects ref rows n (out.take n) ↔
      (out.take n).Pairwise (fun a b => ref a b ≠ .gt) ∧
        ∀ x ∈ out.take n, ∀ y ∈ out.drop n, ref x y ≠ .gt := by
  constructor
  · rintro ⟨full, hperm, hsorted, htake⟩
    have hdrop : (full.drop n).Perm (out.drop n) := by
      refine (List.perm_append_left_iff (full.take n)).mp ?_
      rw [List.take_append_drop, ← htake, List.take_append_drop]
      exact hperm.trans hout.symm
    rw [← List.take_append_drop n full, List.pairwise_append] at hsorted
    rw [htake]
    exact ⟨hsorted.1, fun x hx y hy => hsorted.2.2 x hx y (hdrop.mem_iff.mpr hy)⟩
  · rintro ⟨hfirst, hrest⟩
    have hsort := List.mergeSort_perm (out.drop n) fun a b => ref a b ≠ .gt
    refine ⟨out.take n ++ (out.drop n).mergeSort (fun a b => ref a b ≠ .gt), ?_, ?_, ?_⟩
    · have hall := hsort.append_left (out.take n)
      rw [List.take_append_drop] at hall
      exact hall.trans hout
    · refine List.pairwise_append.mpr ⟨hfirst, ?_, fun x hx y hy => ?_⟩
      · exact (consistent_of_transCmp _).pairwise_mergeSort
      · exact hrest x hx y (hsort.mem_iff.mp hy)
    · rcases Nat.lt_or_ge out.length n with hshort | hlong
      · rw [List.drop_eq_nil_of_le (Nat.le_of_lt hshort), List.mergeSort_nil, List.append_nil,
          List.take_take, Nat.min_self]
      · rw [List.take_left' (List.length_take_of_le hlong)]

/-- What follows one of the first elements may follow it in the query. -/
theorem Selects.ne_gt [Std.TransCmp ref] (hout : out.Perm rows)
    (h : Selects ref rows n (out.take n)) {l₁ l₂ : List α} (hsplit : out = l₁ ++ x :: l₂)
    (hlen : l₁.length < n) (hy : y ∈ l₂) : ref x y ≠ .gt := by
  obtain ⟨hfirst, hrest⟩ := (selects_take_iff hout).mp h
  obtain ⟨m, rfl⟩ : ∃ m, n = l₁.length + (m + 1) := ⟨n - l₁.length - 1, by omega⟩
  rw [hsplit, List.take_length_add_append, List.take_succ_cons] at hfirst hrest
  rw [List.drop_length_add_append, List.drop_succ_cons] at hrest
  rw [← List.take_append_drop m l₂, List.mem_append] at hy
  rcases hy with hy | hy
  · exact (List.pairwise_cons.mp (List.pairwise_append.mp hfirst).2.1).1 y hy
  · exact hrest x (List.mem_append_right l₁ List.mem_cons_self) y hy

/-- **Sorting and ordering agree.** Whatever order the rows were in, the first ones after the sort
are a result of the query, exactly if none is asked for, or no row that the sort may put among the
first ones is ordered by the query behind one that the sort may put after it. -/
theorem sorts_select_iff [Std.TransCmp ref] :
    (∀ l, l.Perm rows → ∀ out, Sorts cmp l out → Selects ref rows n (out.take n)) ↔
      n = 0 ∨ ∀ x ∈ rows, ∀ y ∈ rows, MayPrecede cmp rows n x y → ref x y ≠ .gt := by
  classical
  constructor
  · intro h
    rcases Nat.eq_zero_or_pos n with hzero | hpos
    · exact .inl hzero
    refine .inr fun x hx y hy hmay => ?_
    by_cases hxy : x = y
    · have hself : ref y y = .eq := Std.ReflCmp.compare_self
      rw [hxy, hself]
      exact fun heq => by cases heq
    have hperm : (x :: y :: (rows.erase x).erase y).Perm rows := by
      have hy' : y ∈ rows.erase x := (List.mem_erase_of_ne (Ne.symm hxy)).mpr hy
      exact ((List.perm_cons_erase hy').symm.cons x).trans (List.perm_cons_erase hx).symm
    by_cases hconsistent : Consistent cmp rows
    · obtain ⟨hrank, hnlt⟩ := hmay hconsistent
      obtain ⟨l₁, l₂, hsort, hbefore⟩ := (hconsistent.of_perm hperm).mergeSort_cons
      have hout := List.mergeSort_perm (x :: y :: (rows.erase x).erase y)
        fun a b => cmp a b ≠ .gt
      have hlen : l₁.length < n := by
        have hcount : l₁.countP (fun z => cmp z x = .lt) = l₁.length :=
          List.countP_eq_length.mpr fun z hz => decide_eq_true (hbefore z hz)
        have hle : l₁.countP (fun z => cmp z x = .lt) ≤ rows.countP fun z => cmp z x = .lt := by
          rw [← (hout.trans hperm).countP_eq, hsort, List.countP_append]
          exact Nat.le_add_right _ _
        omega
      have hafter : y ∈ l₂ := by
        have hmem : y ∈ l₁ ++ x :: l₂ := by
          rw [← hsort, hout.mem_iff]
          exact List.mem_cons_of_mem x List.mem_cons_self
        rcases List.mem_append.mp hmem with hmem | hmem
        · exact absurd (hbefore y hmem) hnlt
        · exact (List.mem_cons.mp hmem).resolve_left (Ne.symm hxy)
      exact (h _ hperm _ ⟨hout, fun _ => rfl⟩).ne_gt (hout.trans hperm) hsort hlen hafter
    · have hsorts : Sorts cmp (x :: y :: (rows.erase x).erase y)
          (x :: y :: (rows.erase x).erase y) :=
        ⟨.refl _, fun hcons => absurd (hcons.of_perm hperm.symm) hconsistent⟩
      have hsplit : x :: y :: (rows.erase x).erase y = [] ++ x :: y :: (rows.erase x).erase y := rfl
      exact (h _ hperm _ hsorts).ne_gt hperm hsplit hpos List.mem_cons_self
  · rintro (rfl | hagree) l hperm out hsorts
    · rw [List.take_zero]
      exact (selects_take_iff (hsorts.perm.trans hperm)).mpr
        ⟨by simp, fun x hx => by simp at hx⟩
    have hout := hsorts.perm.trans hperm
    have hmem : ∀ {z}, z ∈ out.take n ∨ z ∈ out.drop n → z ∈ rows := by
      rintro z (hz | hz)
      · exact hout.mem_iff.mp (List.mem_of_mem_take hz)
      · exact hout.mem_iff.mp (List.mem_of_mem_drop hz)
    have hmay : ∀ {a b}, a ∈ out.take n → b ∈ rows → (Consistent cmp rows → cmp a b ≠ .gt) →
        ref a b ≠ .gt := by
      intro a b ha hb hle
      refine hagree a (hmem (.inl ha)) b hb fun hconsistent => ⟨?_, ?_⟩
      · have hsorted := (hconsistent.of_perm hperm).pairwise_mergeSort
        rw [← hsorts.stable (hconsistent.of_perm hperm)] at hsorted
        rw [← hout.countP_eq]
        exact (hconsistent.of_perm hout).countP_lt hsorted ha
      · exact fun hlt => hle hconsistent
          ((hconsistent.lt_iff_gt (hmem (.inl ha)) hb).mp hlt)
    have hsorted : Consistent cmp rows → out.Pairwise fun a b => cmp a b ≠ .gt := by
      intro hconsistent
      rw [hsorts.stable (hconsistent.of_perm hperm)]
      exact (hconsistent.of_perm hperm).pairwise_mergeSort
    refine (selects_take_iff hout).mpr ⟨?_, fun x hx y hy => ?_⟩
    · refine List.pairwise_iff_forall_sublist.mpr fun {a b} hsub => ?_
      have ha := hsub.subset List.mem_cons_self
      have hb := hsub.subset (List.mem_cons_of_mem a List.mem_cons_self)
      refine hmay ha (hmem (.inl hb)) fun hconsistent => ?_
      exact List.pairwise_iff_forall_sublist.mp (hsorted hconsistent)
        (hsub.trans (List.take_sublist n out))
    · refine hmay hx (hmem (.inr hy)) fun hconsistent => ?_
      have hpair := hsorted hconsistent
      rw [← List.take_append_drop n out] at hpair
      exact (List.pairwise_append.mp hpair).2.2 x hx y hy

end Lopata

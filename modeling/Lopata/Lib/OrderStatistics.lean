import Mathlib.Algebra.Order.Floor.Ring
import Mathlib.Data.Int.ConditionallyCompleteOrder
import Mathlib.Data.List.Forall2
import Mathlib.Data.List.Sort
import Mathlib.Data.Rat.Floor
import Mathlib.Tactic.Linarith

/-!
# Order Statistics

The element of a rank among the elements of a list, and the values between the elements of
neighbouring ranks. An element is up to a bound exactly if so many of the list are, so that an order
statistic depends on the elements alone and does not fall when they rise.

## Main results

* `getElem_le_iff`: the elements of a sorted list by how many elements there are up to a bound.
* `orderStat_perm`, `orderStat_mono`, `orderStat_le_orderStat`: what an order statistic depends on.
* `interpolate_mono`, `interpolate_le_interpolate`: interpolation keeps the order.
-/

namespace Lopata

/-! ### Ranks -/

section Rank

variable {α : Type*} [LinearOrder α] {l l' : List α}

/-- The elements in order. -/
def ordered (l : List α) : List α := l.mergeSort

theorem pairwise_ordered (l : List α) : (ordered l).Pairwise (· ≤ ·) := List.pairwise_mergeSort' _ l

theorem perm_ordered (l : List α) : (ordered l).Perm l := List.mergeSort_perm l _

theorem length_ordered (l : List α) : (ordered l).length = l.length := (perm_ordered l).length_eq

/-- In a sorted list an element is up to a bound if more elements than there are in front of it
are. -/
theorem getElem_le_iff (h : l.Pairwise (· ≤ ·)) {i : ℕ} (hi : i < l.length) (x : α) :
    l[i] ≤ x ↔ i < l.countP (· ≤ x) := by
  induction l generalizing i with
  | nil => cases hi
  | cons a l ih =>
    obtain ⟨ha, hl⟩ := List.pairwise_cons.mp h
    by_cases hax : a ≤ x
    · rw [List.countP_cons, if_pos (decide_eq_true hax)]
      cases i with
      | zero => exact iff_of_true hax (Nat.succ_pos _)
      | succ i =>
        rw [List.getElem_cons_succ, ih hl (Nat.lt_of_succ_lt_succ hi)]
        omega
    · have hnone : l.countP (· ≤ x) = 0 :=
        List.countP_eq_zero.mpr fun b hb hbx => hax ((ha b hb).trans (of_decide_eq_true hbx))
      rw [List.countP_cons, if_neg (by simpa using hax), hnone]
      refine iff_of_false (fun hle => hax ?_) (Nat.not_lt_zero _)
      cases i with
      | zero => exact hle
      | succ i => exact (ha _ (List.getElem_mem _)).trans hle

/-- The place of a rank in a list; the ranks before the first one and behind the last one are taken
for these. -/
def clampRank (l : List α) (i : ℤ) : ℕ := min (max i 0).toNat (l.length - 1)

theorem clampRank_lt (h : l ≠ []) (i : ℤ) : clampRank l i < (ordered l).length := by
  have hpos := List.length_pos_iff.mpr h
  rw [clampRank, length_ordered]
  omega

/-- The element of a rank, from 0 on. -/
def orderStat (l : List α) (h : l ≠ []) (i : ℤ) : α :=
  (ordered l).get ⟨clampRank l i, clampRank_lt h i⟩

theorem orderStat_le_iff (h : l ≠ []) (i : ℤ) (x : α) :
    orderStat l h i ≤ x ↔ clampRank l i < l.countP (· ≤ x) := by
  rw [orderStat, List.get_eq_getElem, getElem_le_iff (pairwise_ordered l),
    (perm_ordered l).countP_eq]

theorem orderStat_mem (h : l ≠ []) (i : ℤ) : orderStat l h i ∈ l :=
  (perm_ordered l).mem_iff.mp (List.getElem_mem _)

/-- A greater rank has no smaller element. -/
theorem orderStat_mono (h : l ≠ []) : Monotone (orderStat l h) := by
  intro i j hij
  rw [orderStat_le_iff]
  refine lt_of_le_of_lt ?_ ((orderStat_le_iff h j _).mp le_rfl)
  simp only [clampRank]
  omega

theorem orderStat_perm (hperm : l.Perm l') (h : l ≠ []) (h' : l' ≠ []) :
    orderStat l h = orderStat l' h' := by
  funext i
  refine eq_of_forall_ge_iff fun x => ?_
  rw [orderStat_le_iff, orderStat_le_iff, hperm.countP_eq, clampRank, clampRank, hperm.length_eq]

/-- Elements that rise do not make an order statistic fall. -/
theorem orderStat_le_orderStat (hle : List.Forall₂ (· ≤ ·) l l') (h : l ≠ []) (h' : l' ≠ [])
    (i : ℤ) : orderStat l h i ≤ orderStat l' h' i := by
  have hcount (x : α) : l'.countP (· ≤ x) ≤ l.countP (· ≤ x) := by
    clear h h'
    induction hle with
    | nil => exact le_rfl
    | @cons a b l l' hab _ ih =>
      rw [List.countP_cons, List.countP_cons]
      by_cases hbx : b ≤ x
      · rw [if_pos (decide_eq_true hbx), if_pos (decide_eq_true (hab.trans hbx))]
        omega
      · rw [if_neg (by simpa using hbx)]
        omega
  rw [orderStat_le_iff]
  refine lt_of_lt_of_le ?_ (hcount _)
  rw [clampRank, hle.length_eq]
  exact (orderStat_le_iff h' i _).mp le_rfl

/-- The first rank has the least element. -/
theorem orderStat_zero_le (h : l ≠ []) {x : α} (hx : x ∈ l) : orderStat l h 0 ≤ x := by
  rw [orderStat_le_iff]
  have hpos : 0 < l.countP (· ≤ x) := List.countP_pos_iff.mpr ⟨x, hx, decide_eq_true le_rfl⟩
  simpa [clampRank] using hpos

/-- The last rank has the greatest element. -/
theorem le_orderStat_last (h : l ≠ []) {x : α} (hx : x ∈ l) :
    x ≤ orderStat l h (l.length - 1 : ℕ) := by
  by_contra hlt
  have hpos := List.length_pos_iff.mpr h
  have hcount := (orderStat_le_iff h (l.length - 1 : ℕ) _).mp le_rfl
  have hall : l.countP (· ≤ orderStat l h (l.length - 1 : ℕ)) < l.length := by
    refine lt_of_le_of_ne List.countP_le_length fun heq => hlt ?_
    exact of_decide_eq_true (List.countP_eq_length.mp heq x hx)
  rw [clampRank] at hcount
  omega

end Rank

/-! ### Interpolation -/

section Interpolation

variable {K : Type*} [Field K] [LinearOrder K] [IsStrictOrderedRing K] [FloorRing K]

/-- The value at a place between two whole ones. -/
def interpolate (f : ℤ → K) (p : K) : K := f ⌊p⌋ + (p - ⌊p⌋) * (f ⌈p⌉ - f ⌊p⌋)

variable {f g : ℤ → K} {p q : K}

theorem interpolate_intCast (f : ℤ → K) (i : ℤ) : interpolate f i = f i := by
  rw [interpolate, Int.floor_intCast, sub_self, zero_mul, add_zero]

theorem floor_le_interpolate (hf : Monotone f) (p : K) : f ⌊p⌋ ≤ interpolate f p :=
  le_add_of_nonneg_right
    (mul_nonneg (Int.fract_nonneg p) (sub_nonneg.mpr (hf (Int.floor_le_ceil p))))

theorem interpolate_le_ceil (hf : Monotone f) (p : K) : interpolate f p ≤ f ⌈p⌉ := by
  have hslope : 0 ≤ f ⌈p⌉ - f ⌊p⌋ := sub_nonneg.mpr (hf (Int.floor_le_ceil p))
  have hpart : (p - ⌊p⌋) * (f ⌈p⌉ - f ⌊p⌋) ≤ f ⌈p⌉ - f ⌊p⌋ :=
    mul_le_of_le_one_left hslope (Int.fract_lt_one p).le
  rw [interpolate]
  linarith

/-- Interpolation keeps the order of the places. -/
theorem interpolate_mono (hf : Monotone f) : Monotone (interpolate f) := by
  intro p q hpq
  rcases hpq.eq_or_lt with rfl | hlt
  · exact le_rfl
  rcases (Int.floor_mono hpq).eq_or_lt with hsame | hnext
  · have hceil : f ⌈p⌉ ≤ f ⌈q⌉ := hf (Int.ceil_mono hpq)
    have hslope : 0 ≤ f ⌈p⌉ - f ⌊p⌋ := sub_nonneg.mpr (hf (Int.floor_le_ceil p))
    have hfract : 0 ≤ q - ⌊q⌋ := Int.fract_nonneg q
    rw [interpolate, interpolate, hsame] at *
    have hstep : (p - ⌊q⌋) * (f ⌈p⌉ - f ⌊q⌋) ≤ (q - ⌊q⌋) * (f ⌈p⌉ - f ⌊q⌋) :=
      mul_le_mul_of_nonneg_right (by linarith) hslope
    have hrise : (q - ⌊q⌋) * (f ⌈p⌉ - f ⌊q⌋) ≤ (q - ⌊q⌋) * (f ⌈q⌉ - f ⌊q⌋) :=
      mul_le_mul_of_nonneg_left (by linarith) hfract
    linarith
  · -- the places are in different segments
    calc interpolate f p ≤ f ⌈p⌉ := interpolate_le_ceil hf p
      _ ≤ f ⌊q⌋ := hf ((Int.ceil_le_floor_add_one p).trans hnext)
      _ ≤ interpolate f q := floor_le_interpolate hf q

/-- Interpolation keeps the order of the values. -/
theorem interpolate_le_interpolate (hfg : ∀ i, f i ≤ g i) (p : K) :
    interpolate f p ≤ interpolate g p := by
  have hlow : 0 ≤ p - ⌊p⌋ := Int.fract_nonneg p
  have hhigh : 0 ≤ 1 - (p - ⌊p⌋) := sub_nonneg.mpr (Int.fract_lt_one p).le
  have hfloor := mul_le_mul_of_nonneg_left (hfg ⌊p⌋) hhigh
  have hceil := mul_le_mul_of_nonneg_left (hfg ⌈p⌉) hlow
  rw [interpolate, interpolate]
  linarith

end Interpolation

end Lopata

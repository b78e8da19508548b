import Lopata.Lib.OrderStatistics
import Lopata.Analytics.Translation

/-!
# Quantiles

SQLite has no quantiles: the values of a group are collected, and `computeQuantile` takes the
element of a rank, or a value between two of them. Numbers are exact here.

## Main results

* `computeQuantile_eq`: a quantile as an order statistic.
* `quantile_laws`: what a quantile depends on and where it lies.
-/

namespace Lopata.Analytics

/-! ### Computing a quantile -/

/-- The level of a quantile. -/
def quantileLevel (name : String) (args params : List Node) : Except String Double :=
  match params with
  | [.num level] =>
      if level.value < 0 ∨ 1 < level.value then .error s!"{name} level must be between 0 and 1"
      else if args.length < 1 then .error s!"{name} requires a value argument"
      else .ok level
  | _ => .error s!"{name} requires a single numeric level, e.g. {name}(0.95)(double1)"

/-- `Math.round`: a half is rounded up. -/
def mathRound (q : ℚ) : ℤ := ⌊q + 1 / 2⌋

/-- An element of an array; none is `undefined`. -/
def element (l : List ℚ) (i : ℤ) : Option ℚ := if 0 ≤ i then l[i.toNat]? else none

def computeQuantile (values : List ℚ) (level : ℚ) (interpolate : Bool) : Option ℚ :=
  if values.length = 0 then none
  else
    let sorted := values.mergeSort fun a b => decide (a ≤ b)
    let n : ℤ := sorted.length
    if !interpolate then
      let idx := mathRound (level * (n - 1))
      element sorted (min (max idx 0) (n - 1))
    else
      let pos := level * (n - 1)
      let lo := ⌊pos⌋
      let hi := ⌈pos⌉
      if lo = hi then element sorted lo
      else do
        let a ← element sorted lo
        let b ← element sorted hi
        return a + (pos - lo) * (b - a)

/-- The levels that are taken are those from 0 to 1. -/
theorem level_of_quantileLevel {name : String} {args params : List Node} {level : Double}
    (h : quantileLevel name args params = .ok level) : 0 ≤ level.value ∧ level.value ≤ 1 := by
  simp only [quantileLevel] at h
  split at h
  · split at h
    · cases h
    · next hlevel =>
        split at h
        · cases h
        · obtain rfl := Except.ok.inj h
          exact ⟨not_lt.mp fun hlt => hlevel (.inl hlt), not_lt.mp fun hlt => hlevel (.inr hlt)⟩
  · cases h

/-! ### Quantiles as order statistics -/

section Quantile

variable {values values' : List ℚ} {level level' : ℚ} {interpolated : Bool}

/-- The place of a level among the ranks of the values. -/
def place (values : List ℚ) (level : ℚ) : ℚ := level * ((values.length : ℤ) - 1)

theorem place_mem (hne : values ≠ []) (hlevel : 0 ≤ level ∧ level ≤ 1) :
    0 ≤ place values level ∧ place values level ≤ ((values.length - 1 : ℕ) : ℤ) := by
  have hpos := List.length_pos_iff.mpr hne
  have hlast : ((values.length : ℤ) : ℚ) - 1 = ((values.length - 1 : ℕ) : ℤ) := by
    rw [Int.natCast_sub hpos]
    push_cast
    rfl
  have hnonneg : (0 : ℚ) ≤ ((values.length - 1 : ℕ) : ℤ) := by positivity
  rw [place, hlast]
  exact ⟨mul_nonneg hlevel.1 hnonneg, mul_le_of_le_one_left hnonneg hlevel.2⟩

theorem place_mono (hne : values ≠ []) (hle : level ≤ level') :
    place values level ≤ place values level' := by
  have hpos := List.length_pos_iff.mpr hne
  refine mul_le_mul_of_nonneg_right hle (sub_nonneg.mpr ?_)
  exact_mod_cast hpos

theorem element_ordered (hne : values ≠ []) {i : ℤ} (hi : 0 ≤ i ∧ i ≤ (values.length - 1 : ℕ)) :
    element (ordered values) i = some (orderStat values hne i) := by
  have hplace : clampRank values i = i.toNat := by
    rw [clampRank]
    omega
  rw [element, if_pos hi.1, orderStat, ← hplace]
  exact List.getElem?_eq_getElem _

/-- The quantile of some values. -/
def quantile (values : List ℚ) (hne : values ≠ []) (level : ℚ) (interpolated : Bool) : ℚ :=
  if interpolated then interpolate (orderStat values hne) (place values level)
  else orderStat values hne (mathRound (place values level))

theorem computeQuantile_eq (hne : values ≠ []) (hlevel : 0 ≤ level ∧ level ≤ 1)
    (interpolated : Bool) :
    computeQuantile values level interpolated = some (quantile values hne level interpolated) := by
  obtain ⟨hlow, hhigh⟩ := place_mem hne hlevel
  have hempty : values.length ≠ 0 := (List.length_pos_iff.mpr hne).ne'
  have hsorted : (values.mergeSort fun a b => decide (a ≤ b)) = ordered values := rfl
  have hlength : ((ordered values).length : ℤ) = values.length := by rw [length_ordered]
  rw [computeQuantile, if_neg hempty]
  simp only [hsorted, hlength, Int.cast_natCast]
  have hplace : level * ((values.length : ℚ) - 1) = place values level := by
    rw [place, Int.cast_natCast]
  rw [hplace]
  cases interpolated with
  | false =>
    have hround : 0 ≤ mathRound (place values level) ∧
        mathRound (place values level) ≤ (values.length - 1 : ℕ) := by
      rw [mathRound, Int.floor_nonneg, Int.floor_le_iff]
      constructor <;> linarith
    simp only [quantile, Bool.not_false, if_true, Bool.false_eq_true, if_false]
    rw [← element_ordered hne hround]
    congr 1
    omega
  | true =>
    have hfloor : 0 ≤ ⌊place values level⌋ ∧ ⌊place values level⌋ ≤ (values.length - 1 : ℕ) :=
      ⟨Int.floor_nonneg.mpr hlow, Int.floor_le_iff.mpr (by linarith)⟩
    have hceil : 0 ≤ ⌈place values level⌉ ∧ ⌈place values level⌉ ≤ (values.length - 1 : ℕ) :=
      ⟨hfloor.1.trans (Int.floor_le_ceil _), Int.ceil_le.mpr hhigh⟩
    simp only [Bool.not_true, Bool.false_eq_true, if_false, quantile, if_true, interpolate,
      element_ordered hne hfloor, element_ordered hne hceil]
    split
    · next heq => rw [← heq, sub_self, mul_zero, add_zero]
    · rfl

end Quantile

/-! ### The laws -/

/-- What holds of a quantile: it does not depend on the order of the values, lies between them, does
not fall when the level or a value rises, and is the least value at 0 and the greatest one at 1. -/
structure QuantileLaws (q : List ℚ → ℚ → Option ℚ) : Prop where
  defined : ∀ values level, values ≠ [] → 0 ≤ level → level ≤ 1 → (q values level).isSome = true
  perm : ∀ values values' level, values ≠ [] → 0 ≤ level → level ≤ 1 → values.Perm values' →
    q values level = q values' level
  between : ∀ values level v least greatest, 0 ≤ level → level ≤ 1 → q values level = some v →
    IsLeast {x | x ∈ values} least → IsGreatest {x | x ∈ values} greatest →
      least ≤ v ∧ v ≤ greatest
  level_mono : ∀ values level level' v v', 0 ≤ level → level ≤ level' → level' ≤ 1 →
    q values level = some v → q values level' = some v' → v ≤ v'
  value_mono : ∀ values values' level v v', 0 ≤ level → level ≤ 1 →
    List.Forall₂ (· ≤ ·) values values' → q values level = some v → q values' level = some v' →
      v ≤ v'
  at_zero : ∀ values least, IsLeast {x | x ∈ values} least → q values 0 = some least
  at_one : ∀ values greatest, IsGreatest {x | x ∈ values} greatest → q values 1 = some greatest

section Laws

variable {values values' : List ℚ} {level level' : ℚ} {interpolated : Bool}

theorem mathRound_mono : Monotone mathRound := fun _ _ h => Int.floor_mono (by linarith)

theorem quantile_perm (hperm : values.Perm values') (hne : values ≠ []) (hne' : values' ≠ []) :
    quantile values hne level interpolated = quantile values' hne' level interpolated := by
  rw [quantile, quantile, place, place, hperm.length_eq, orderStat_perm hperm hne hne']

theorem quantile_level_mono (hne : values ≠ []) (hle : level ≤ level') :
    quantile values hne level interpolated ≤ quantile values hne level' interpolated := by
  have hplace := place_mono hne hle
  cases interpolated with
  | false => exact orderStat_mono hne (mathRound_mono hplace)
  | true => exact interpolate_mono (orderStat_mono hne) hplace

theorem quantile_value_mono (hle : List.Forall₂ (· ≤ ·) values values') (hne : values ≠ [])
    (hne' : values' ≠ []) :
    quantile values hne level interpolated ≤ quantile values' hne' level interpolated := by
  have hplace : place values level = place values' level := by rw [place, place, hle.length_eq]
  rw [quantile, quantile, hplace]
  cases interpolated with
  | false => exact orderStat_le_orderStat hle hne hne' _
  | true => exact interpolate_le_interpolate (orderStat_le_orderStat hle hne hne') _

/-- At a level whose place is a rank the quantile is the element of the rank. -/
theorem quantile_of_place (hne : values ≠ []) {i : ℤ} (hplace : place values level = i) :
    quantile values hne level interpolated = orderStat values hne i := by
  rw [quantile, hplace]
  cases interpolated with
  | true => exact interpolate_intCast _ i
  | false =>
    have hround : mathRound (i : ℚ) = i := by
      rw [mathRound, Int.floor_intCast_add]
      norm_num
    rw [hround]
    rfl

theorem quantile_zero (hne : values ≠ []) {least : ℚ} (h : IsLeast {x | x ∈ values} least) :
    quantile values hne 0 interpolated = least := by
  have hplace : place values 0 = (0 : ℤ) := by rw [place, zero_mul, Int.cast_zero]
  rw [quantile_of_place hne hplace]
  exact le_antisymm (orderStat_zero_le hne h.1) (h.2 (orderStat_mem hne 0))

theorem quantile_one (hne : values ≠ []) {greatest : ℚ}
    (h : IsGreatest {x | x ∈ values} greatest) : quantile values hne 1 interpolated = greatest := by
  have hpos := List.length_pos_iff.mpr hne
  have hplace : place values 1 = ((values.length - 1 : ℕ) : ℤ) := by
    rw [place, one_mul, Int.natCast_sub hpos]
    push_cast
    rfl
  rw [quantile_of_place hne hplace]
  exact le_antisymm (h.2 (orderStat_mem hne _)) (le_orderStat_last hne h.1)

theorem computeQuantile_laws (interpolated : Bool) :
    QuantileLaws fun values level => computeQuantile values level interpolated := by
  have hne_of {values : List ℚ} {level v : ℚ}
      (h : computeQuantile values level interpolated = some v) : values ≠ [] := by
    rintro rfl
    cases h
  have hvalue {values : List ℚ} {level v : ℚ} (hlevel : 0 ≤ level ∧ level ≤ 1)
      (h : computeQuantile values level interpolated = some v) (hne : values ≠ []) :
      quantile values hne level interpolated = v :=
    Option.some.inj ((computeQuantile_eq hne hlevel interpolated).symm.trans h)
  refine ⟨?_, ?_, ?_, ?_, ?_, ?_, ?_⟩
  · intro values level hne hlow hhigh
    rw [computeQuantile_eq hne ⟨hlow, hhigh⟩]
    rfl
  · intro values values' level hne hlow hhigh hperm
    have hne' : values' ≠ [] := fun hnil => hne (hperm.trans (.of_eq hnil)).eq_nil
    rw [computeQuantile_eq hne ⟨hlow, hhigh⟩, computeQuantile_eq hne' ⟨hlow, hhigh⟩,
      quantile_perm hperm hne hne']
  · intro values level v least greatest hlow hhigh hv hleast hgreatest
    have hne := hne_of hv
    have hzero : quantile values hne 0 interpolated = least := quantile_zero hne hleast
    have hone : quantile values hne 1 interpolated = greatest := quantile_one hne hgreatest
    rw [← hvalue ⟨hlow, hhigh⟩ hv hne, ← hzero, ← hone]
    exact ⟨quantile_level_mono hne hlow, quantile_level_mono hne hhigh⟩
  · intro values level level' v v' hlow hle hhigh hv hv'
    have hne := hne_of hv
    rw [← hvalue ⟨hlow, hle.trans hhigh⟩ hv hne, ← hvalue ⟨hlow.trans hle, hhigh⟩ hv' hne]
    exact quantile_level_mono hne hle
  · intro values values' level v v' hlow hhigh hle hv hv'
    have hne := hne_of hv
    have hne' := hne_of hv'
    rw [← hvalue ⟨hlow, hhigh⟩ hv hne, ← hvalue ⟨hlow, hhigh⟩ hv' hne']
    exact quantile_value_mono hle hne hne'
  · intro values least hleast
    have hne : values ≠ [] := List.ne_nil_of_mem hleast.1
    rw [computeQuantile_eq hne ⟨le_rfl, zero_le_one⟩, quantile_zero hne hleast]
  · intro values greatest hgreatest
    have hne : values ≠ [] := List.ne_nil_of_mem hgreatest.1
    rw [computeQuantile_eq hne ⟨zero_le_one, le_rfl⟩, quantile_one hne hgreatest]

end Laws

/-- **Quantiles.** Both kinds meet the laws, and the exact one is one of the values. -/
theorem quantile_laws :
    (∀ interpolated, QuantileLaws fun values level => computeQuantile values level interpolated) ∧
      ∀ values level v, 0 ≤ level → level ≤ 1 → computeQuantile values level false = some v →
        v ∈ values := by
  refine ⟨computeQuantile_laws, ?_⟩
  intro values level v hlow hhigh hv
  have hne : values ≠ [] := by
    rintro rfl
    cases hv
  rw [computeQuantile_eq hne ⟨hlow, hhigh⟩] at hv
  obtain rfl := Option.some.inj hv
  exact orderStat_mem hne _

end Lopata.Analytics

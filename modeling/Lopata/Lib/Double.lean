import Mathlib.Data.Int.Log
import Mathlib.Data.Rat.Floor
import Mathlib.Data.Sign.Basic
import Mathlib.Order.WithBot
import Lopata.Lib.Text

/-!
# Double Precision Numbers

The numbers of binary64 other than `NaN`, with the two zeros taken as one: rationals of 53
significant bits and the two infinities. An operation gives the exact result rounded to the
nearest number, ties to the even one.

## Main results

* `representable_nearest`: rounding gives a representable number, if it does not overflow.
* `nearest_of_representable`: a representable number is not changed by rounding.
* `nearestPos_mono`: rounding keeps the order.
* `sub_sign`: the difference of two numbers has the sign of their comparison, however it is
  rounded; only two equal infinities have none.
-/

namespace Lopata

/-! ### Rounding to integers -/

/-- The nearest integer, of two equally near ones the even one. -/
def roundEven (q : ℚ) : ℤ :=
  if q - ⌊q⌋ < 1 / 2 then ⌊q⌋
  else if 1 / 2 < q - ⌊q⌋ then ⌊q⌋ + 1
  else if Even ⌊q⌋ then ⌊q⌋ else ⌊q⌋ + 1

theorem floor_le_roundEven (q : ℚ) : ⌊q⌋ ≤ roundEven q := by
  unfold roundEven
  split_ifs <;> omega

theorem roundEven_le_floor_add_one (q : ℚ) : roundEven q ≤ ⌊q⌋ + 1 := by
  unfold roundEven
  split_ifs <;> omega

@[simp] theorem roundEven_intCast (n : ℤ) : roundEven n = n := by
  simp [roundEven]

theorem roundEven_mono {p q : ℚ} (h : p ≤ q) : roundEven p ≤ roundEven q := by
  rcases (Int.floor_le_floor h).lt_or_eq with hlt | heq
  · have hp := roundEven_le_floor_add_one p
    have hq := floor_le_roundEven q
    omega
  · have hsub : p - ⌊p⌋ ≤ q - ⌊q⌋ := by
      rw [heq]
      exact sub_le_sub_right h _
    unfold roundEven
    rw [heq] at hsub ⊢
    split_ifs <;> first | omega | linarith

/-- A bound that is an integer is kept. -/
theorem le_roundEven {q : ℚ} {n : ℤ} (h : (n : ℚ) ≤ q) : n ≤ roundEven q := by
  have hmono := roundEven_mono h
  rwa [roundEven_intCast] at hmono

theorem roundEven_le {q : ℚ} {n : ℤ} (h : q ≤ (n : ℚ)) : roundEven q ≤ n := by
  have hmono := roundEven_mono h
  rwa [roundEven_intCast] at hmono

/-! ### Rounding to 53 bits -/

/-- The rationals that have a place in binary64. -/
def Representable (q : ℚ) : Prop :=
  ∃ m e : ℤ, |m| < 2 ^ 53 ∧ -1074 ≤ e ∧ e ≤ 971 ∧ q = m * (2 : ℚ) ^ e

/-- The exponent of the last of the 53 bits; it does not go below that of the least number. -/
def exponent (q : ℚ) : ℤ := max (Int.log 2 q - 52) (-1074)

/-- A positive rational rounded, without a largest number. -/
def nearestPos (q : ℚ) : ℚ := roundEven (q / 2 ^ exponent q) * 2 ^ exponent q

def nearest (q : ℚ) : ℚ := if q < 0 then -nearestPos (-q) else nearestPos q

theorem neg_representable {q : ℚ} (h : Representable q) : Representable (-q) := by
  obtain ⟨m, e, hm, he, he', rfl⟩ := h
  exact ⟨-m, e, by rwa [abs_neg], he, he', by push_cast; ring⟩

theorem representable_zero : Representable 0 := ⟨0, 0, by norm_num, by norm_num, by norm_num, by simp⟩

private theorem two_zpow_pos (e : ℤ) : (0 : ℚ) < 2 ^ e := zpow_pos (by norm_num) e

/-- A positive rational has at most 53 bits before the last one that is kept. -/
theorem div_exponent_lt (q : ℚ) : q / 2 ^ exponent q < 2 ^ (53 : ℤ) := by
  rw [div_lt_iff₀ (two_zpow_pos _), ← zpow_add₀ (by norm_num)]
  have hlog := Int.lt_zpow_succ_log_self (b := 2) (by norm_num) q
  have hexp : Int.log 2 q + 1 ≤ 53 + exponent q := by
    unfold exponent
    omega
  exact hlog.trans_le (zpow_le_zpow_right₀ (by norm_num) hexp)

theorem nearestPos_nonneg {q : ℚ} (h : 0 ≤ q) : 0 ≤ nearestPos q := by
  have hdiv : ((0 : ℤ) : ℚ) ≤ q / 2 ^ exponent q := by
    rw [Int.cast_zero]
    exact div_nonneg h (two_zpow_pos _).le
  exact mul_nonneg (by exact_mod_cast le_roundEven hdiv) (two_zpow_pos _).le

/-- What is at least the least number is not rounded to zero. -/
theorem nearestPos_pos {q : ℚ} (h : (2 : ℚ) ^ (-1074 : ℤ) ≤ q) : 0 < nearestPos q := by
  have hq : 0 < q := (two_zpow_pos _).trans_le h
  have hlog : -1074 ≤ Int.log 2 q := by
    rwa [← Int.zpow_le_iff_le_log (by norm_num) hq]
  have hdiv : ((1 : ℤ) : ℚ) ≤ q / 2 ^ exponent q := by
    rw [Int.cast_one, one_le_div (two_zpow_pos _)]
    have hle : exponent q ≤ Int.log 2 q := by
      unfold exponent
      omega
    exact (zpow_le_zpow_right₀ (by norm_num) hle).trans
      (Int.zpow_log_le_self (by norm_num) hq)
  have hround : (1 : ℚ) ≤ roundEven (q / 2 ^ exponent q) := by
    exact_mod_cast le_roundEven hdiv
  exact mul_pos (by linarith) (two_zpow_pos _)

theorem nearestPos_of_representable {q : ℚ} (hq : 0 ≤ q) (h : Representable q) :
    nearestPos q = q := by
  obtain ⟨m, e, hm, he, -, rfl⟩ := h
  rcases hq.eq_or_lt with hzero | hpos
  · have hround : roundEven 0 = 0 := by exact_mod_cast roundEven_intCast 0
    rw [← hzero, nearestPos, zero_div, hround, Int.cast_zero, zero_mul]
  have hexp : exponent (m * (2 : ℚ) ^ e) ≤ e := by
    have hlt : (m : ℚ) * 2 ^ e < 2 ^ (e + 53) := by
      rw [zpow_add₀ (by norm_num), mul_comm ((2 : ℚ) ^ e)]
      refine mul_lt_mul_of_pos_right ?_ (two_zpow_pos e)
      have hm' : m < 2 ^ 53 := lt_of_abs_lt hm
      exact_mod_cast hm'
    have hlog := (Int.lt_zpow_iff_log_lt (b := 2) (by norm_num) hpos).mp hlt
    unfold exponent
    omega
  obtain ⟨n, hn⟩ : ∃ n : ℕ, e = exponent (m * (2 : ℚ) ^ e) + n :=
    ⟨(e - exponent (m * (2 : ℚ) ^ e)).toNat, by omega⟩
  have hdiv : (m : ℚ) * 2 ^ e / 2 ^ exponent (m * (2 : ℚ) ^ e) = ((m * 2 ^ n : ℤ) : ℚ) := by
    rw [div_eq_iff (two_zpow_pos _).ne']
    conv_lhs => rw [hn, zpow_add₀ (by norm_num), zpow_natCast]
    push_cast
    ring
  rw [nearestPos, hdiv, roundEven_intCast, ← hdiv, div_mul_cancel₀ _ (two_zpow_pos _).ne']

/-- A representable number is not changed. -/
theorem nearest_of_representable {q : ℚ} (h : Representable q) : nearest q = q := by
  unfold nearest
  split_ifs with hneg
  · rw [nearestPos_of_representable (by linarith) (neg_representable h), neg_neg]
  · exact nearestPos_of_representable (not_lt.mp hneg) h

/-- A normal number has all its 53 bits: rounding does not go below the power of two before it. -/
theorem two_zpow_log_le_nearestPos {q : ℚ} (hq : 0 < q) (hlog : -1022 ≤ Int.log 2 q) :
    (2 : ℚ) ^ Int.log 2 q ≤ nearestPos q := by
  have hsum : Int.log 2 q = 52 + exponent q := by
    unfold exponent
    omega
  have hself := Int.zpow_log_le_self (b := 2) (by norm_num) hq
  rw [hsum, zpow_add₀ (by norm_num)] at hself
  have hfull : (2 : ℤ) ^ 52 ≤ roundEven (q / 2 ^ exponent q) := by
    apply le_roundEven
    rw [le_div_iff₀ (two_zpow_pos _)]
    exact_mod_cast hself
  have hfull' : (2 : ℚ) ^ (52 : ℤ) ≤ roundEven (q / 2 ^ exponent q) := by
    exact_mod_cast hfull
  calc (2 : ℚ) ^ Int.log 2 q = 2 ^ (52 : ℤ) * 2 ^ exponent q := by
        rw [hsum]
        exact zpow_add₀ (by norm_num) _ _
    _ ≤ nearestPos q := mul_le_mul_of_nonneg_right hfull' (two_zpow_pos _).le

theorem representable_nearestPos {q : ℚ} (hq : 0 ≤ q) (h : nearestPos q < 2 ^ (1024 : ℤ)) :
    Representable (nearestPos q) := by
  rcases hq.eq_or_lt with rfl | hpos
  · rw [nearestPos_of_representable le_rfl representable_zero]
    exact representable_zero
  have hnonneg : 0 ≤ roundEven (q / 2 ^ exponent q) :=
    le_roundEven (by rw [Int.cast_zero]; exact div_nonneg hq (two_zpow_pos _).le)
  have hle : roundEven (q / 2 ^ exponent q) ≤ 2 ^ 53 :=
    roundEven_le (by exact_mod_cast (div_exponent_lt q).le)
  have hmin : -1074 ≤ exponent q := le_max_right _ _
  have hmax : exponent q ≤ 971 := by
    by_contra hbig
    have hlog : 1024 ≤ Int.log 2 q := by
      unfold exponent at hbig
      omega
    have hpow : (2 : ℚ) ^ (1024 : ℤ) ≤ nearestPos q :=
      (zpow_le_zpow_right₀ (by norm_num) hlog).trans (two_zpow_log_le_nearestPos hpos (by omega))
    exact absurd h (not_lt.mpr hpow)
  rcases hle.lt_or_eq with hlt | heq
  · exact ⟨_, exponent q, by rwa [abs_of_nonneg hnonneg], hmin, hmax, rfl⟩
  · have hval : nearestPos q = ((2 ^ 52 : ℤ) : ℚ) * 2 ^ (exponent q + 1) := by
      rw [nearestPos, heq, zpow_add₀ (by norm_num)]
      norm_num
      ring
    have hmax' : exponent q + 1 ≤ 971 := by
      by_contra hbig
      have hpow : (2 : ℚ) ^ (1024 : ℤ) ≤ nearestPos q := by
        rw [hval]
        calc (2 : ℚ) ^ (1024 : ℤ) ≤ 2 ^ (52 + (exponent q + 1)) :=
              zpow_le_zpow_right₀ (by norm_num) (by omega)
          _ = ((2 ^ 52 : ℤ) : ℚ) * 2 ^ (exponent q + 1) := by
              rw [zpow_add₀ (by norm_num)]
              norm_num
      exact absurd h (not_lt.mpr hpow)
    exact ⟨2 ^ 52, exponent q + 1, by norm_num, by omega, hmax', hval⟩

/-- Rounding gives a representable number, unless it overflows. -/
theorem representable_nearest {q : ℚ} (h : |nearest q| < 2 ^ (1024 : ℤ)) :
    Representable (nearest q) := by
  unfold nearest at h ⊢
  split_ifs at h ⊢ with hneg
  · rw [abs_neg] at h
    exact neg_representable (representable_nearestPos (by linarith) (lt_of_abs_lt h))
  · exact representable_nearestPos (not_lt.mp hneg) (lt_of_abs_lt h)

/-! ### Rounding and the order -/

/-- Rounding does not go beyond the next power of two, or the least unit. -/
theorem nearestPos_le_two_zpow {q : ℚ} {n : ℤ} (hexp : exponent q ≤ n) (h : q ≤ 2 ^ n) :
    nearestPos q ≤ 2 ^ n := by
  obtain ⟨k, hk⟩ : ∃ k : ℕ, n = exponent q + k := ⟨(n - exponent q).toNat, by omega⟩
  have hsplit : (2 : ℚ) ^ n = ((2 ^ k : ℤ) : ℚ) * 2 ^ exponent q := by
    rw [hk, zpow_add₀ (by norm_num), zpow_natCast, mul_comm]
    push_cast
    rfl
  have hround : roundEven (q / 2 ^ exponent q) ≤ 2 ^ k := by
    apply roundEven_le
    rwa [div_le_iff₀ (two_zpow_pos _), ← hsplit]
  rw [hsplit]
  exact mul_le_mul_of_nonneg_right (by exact_mod_cast hround) (two_zpow_pos _).le

/-- Rounding keeps the order. -/
theorem nearestPos_mono {p q : ℚ} (hp : 0 ≤ p) (h : p ≤ q) : nearestPos p ≤ nearestPos q := by
  rcases hp.eq_or_lt with rfl | hpos
  · rw [nearestPos_of_representable le_rfl representable_zero]
    exact nearestPos_nonneg h
  have hqpos : 0 < q := hpos.trans_le h
  have hlog : Int.log 2 p ≤ Int.log 2 q := Int.log_mono_right hpos h
  have hle : exponent p ≤ exponent q := by
    unfold exponent
    omega
  rcases hle.lt_or_eq with hlt | heq
  · -- a power of two lies between them
    have hq : exponent q = Int.log 2 q - 52 := by
      unfold exponent at hlt ⊢
      omega
    have hn : -1022 ≤ Int.log 2 q := by
      unfold exponent at hlt
      omega
    have hp' : p ≤ 2 ^ Int.log 2 q := by
      have hself := Int.lt_zpow_succ_log_self (b := 2) (by norm_num) p
      have hstep : Int.log 2 p + 1 ≤ Int.log 2 q := by
        unfold exponent at hlt
        omega
      exact (hself.trans_le (zpow_le_zpow_right₀ (by norm_num) hstep)).le
    exact (nearestPos_le_two_zpow (by omega) hp').trans (two_zpow_log_le_nearestPos hqpos hn)
  · unfold nearestPos
    rw [heq]
    refine mul_le_mul_of_nonneg_right ?_ (two_zpow_pos _).le
    exact_mod_cast roundEven_mono (div_le_div_of_nonneg_right h (two_zpow_pos _).le)

/-- The integers of 53 bits are representable. -/
theorem representable_intCast {n : ℤ} (h : |n| ≤ 2 ^ 53) : Representable n := by
  rcases h.lt_or_eq with hlt | heq
  · exact ⟨n, 0, hlt, by norm_num, by norm_num, by simp⟩
  · have hpow : Representable ((2 : ℤ) ^ 53 : ℤ) :=
      ⟨2 ^ 52, 1, by norm_num, by norm_num, by norm_num, by norm_num⟩
    rcases abs_eq (by norm_num : (0 : ℤ) ≤ 2 ^ 53) |>.mp heq with rfl | rfl
    · exact hpow
    · rw [Int.cast_neg]
      exact neg_representable hpow

/-! ### Numbers -/

/-- A number of binary64; `-0` is `0`, and `NaN` is not among them. -/
inductive Double where
  | finite (value : ℚ) (representable : Representable value)
  | infinite (negative : Bool)

namespace Double

instance : DecidableEq Double
  | .finite p _, .finite q _ =>
      decidable_of_iff (p = q) ⟨fun h => by subst h; rfl, fun h => Double.finite.inj h⟩
  | .infinite a, .infinite b =>
      decidable_of_iff (a = b) ⟨congrArg _, fun h => Double.infinite.inj h⟩
  | .finite .., .infinite _ => isFalse fun h => Double.noConfusion h
  | .infinite _, .finite .. => isFalse fun h => Double.noConfusion h

/-- The exact value, between the infinities. -/
def value : Double → WithBot (WithTop ℚ)
  | .finite q _ => ((q : WithTop ℚ) : WithBot (WithTop ℚ))
  | .infinite true => ⊥
  | .infinite false => ((⊤ : WithTop ℚ) : WithBot (WithTop ℚ))

/-- A rational rounded; what is beyond the largest number is infinite. -/
def ofRat (q : ℚ) : Double :=
  if h : |nearest q| < 2 ^ (1024 : ℤ) then .finite (nearest q) (representable_nearest h)
  else .infinite (decide (q < 0))

/-- `a - b`; none is `NaN`. -/
def sub : Double → Double → Option Double
  | .finite p _, .finite q _ => some (ofRat (p - q))
  | .finite .., .infinite negative => some (.infinite !negative)
  | .infinite negative, .finite .. => some (.infinite negative)
  | .infinite a, .infinite b => if a = b then none else some (.infinite a)

/-- `a + b`; none is `NaN`. -/
def add : Double → Double → Option Double
  | .finite p _, .finite q _ => some (ofRat (p + q))
  | .finite .., .infinite negative => some (.infinite negative)
  | .infinite negative, .finite .. => some (.infinite negative)
  | .infinite a, .infinite b => if a = b then some (.infinite a) else none

/-- The sign of a number. -/
def sign : Double → SignType
  | .finite q _ => SignType.sign q
  | .infinite negative => if negative then -1 else 1

theorem sign_ofRat_neg {q : ℚ} (h : (2 : ℚ) ^ (-1074 : ℤ) ≤ q) : (ofRat (-q)).sign = -1 := by
  have hq : 0 < q := (two_zpow_pos _).trans_le h
  unfold ofRat
  split_ifs with hfin
  · have hneg : nearest (-q) < 0 := by
      rw [nearest, if_pos (by linarith), neg_neg]
      exact neg_neg_of_pos (nearestPos_pos h)
    exact sign_neg hneg
  · simp [sign, hq]

/-- Two different numbers are at least the least number apart. -/
theorem least_le_sub {p q : ℚ} (hp : Representable p) (hq : Representable q) (h : p < q) :
    (2 : ℚ) ^ (-1074 : ℤ) ≤ q - p := by
  have multiple : ∀ {r : ℚ}, Representable r → ∃ n : ℤ, r = n * 2 ^ (-1074 : ℤ) := by
    rintro r ⟨m, e, -, he, -, rfl⟩
    refine ⟨m * 2 ^ (e + 1074).toNat, ?_⟩
    have hsum : (2 : ℚ) ^ e = 2 ^ (e + 1074).toNat * 2 ^ (-1074 : ℤ) := by
      rw [← zpow_natCast, Int.toNat_of_nonneg (by omega), ← zpow_add₀ (by norm_num)]
      congr 1
      ring
    rw [hsum]
    push_cast
    ring
  obtain ⟨m, rfl⟩ := multiple hp
  obtain ⟨n, rfl⟩ := multiple hq
  have hlt : m < n := by
    exact_mod_cast lt_of_mul_lt_mul_right h (two_zpow_pos _).le
  have hone : (1 : ℚ) ≤ n - m := by
    have hle : m + 1 ≤ n := hlt
    have hle' : (m : ℚ) + 1 ≤ n := by exact_mod_cast hle
    linarith
  calc (2 : ℚ) ^ (-1074 : ℤ) = 1 * 2 ^ (-1074 : ℤ) := (one_mul _).symm
    _ ≤ (n - m) * 2 ^ (-1074 : ℤ) := mul_le_mul_of_nonneg_right hone (two_zpow_pos _).le
    _ = n * 2 ^ (-1074 : ℤ) - m * 2 ^ (-1074 : ℤ) := sub_mul _ _ _

/-- A difference has the sign of the comparison. -/
theorem sign_sub_of_lt {x y : Double} (h : x.value < y.value) :
    (sub x y).map sign = some (-1) := by
  cases x with
  | finite p hp =>
    cases y with
    | finite q hq =>
      have hpq : p < q := WithTop.coe_lt_coe.mp (WithBot.coe_lt_coe.mp h)
      have hsign := sign_ofRat_neg (least_le_sub hp hq hpq)
      rw [neg_sub] at hsign
      simp only [sub, Option.map_some, hsign]
    | infinite b =>
      cases b with
      | true => simp [value] at h
      | false => simp [sub, sign]
  | infinite a =>
    cases a with
    | true =>
      cases y with
      | finite q hq => simp [sub, sign]
      | infinite b =>
        cases b with
        | true => simp at h
        | false => simp [sub, sign]
    | false => simp [value] at h

/-- A number of 53 bits is below the least power of two that is none. -/
theorem abs_lt_of_representable {q : ℚ} (h : Representable q) : |q| < 2 ^ (1024 : ℤ) := by
  obtain ⟨m, e, hm, -, he, rfl⟩ := h
  rw [abs_mul, abs_of_pos (two_zpow_pos e)]
  have hm' : |(m : ℚ)| < 2 ^ (53 : ℤ) := by exact_mod_cast hm
  calc |(m : ℚ)| * 2 ^ e < 2 ^ (53 : ℤ) * 2 ^ e := mul_lt_mul_of_pos_right hm' (two_zpow_pos e)
    _ = 2 ^ (53 + e) := (zpow_add₀ (by norm_num) _ _).symm
    _ ≤ 2 ^ (1024 : ℤ) := zpow_le_zpow_right₀ (by norm_num) (by omega)

/-- What is rounded to a number is that number. -/
theorem ofRat_of_nearest {q v : ℚ} (h : Representable q) (hv : nearest v = q) :
    ofRat v = .finite q h := by
  subst hv
  exact dif_pos (abs_lt_of_representable h)

/-- A representable rational is itself. -/
theorem ofRat_of_representable {q : ℚ} (h : Representable q) : ofRat q = .finite q h :=
  ofRat_of_nearest h (nearest_of_representable h)

theorem ofRat_intCast {n : ℤ} (h : |n| ≤ 2 ^ 53) :
    ofRat n = .finite n (representable_intCast h) :=
  ofRat_of_representable _

/-- Rounding does not go below a number. -/
theorem le_value_ofRat {p q : ℚ} (hp : Representable p) (hnonneg : 0 ≤ p) (h : p ≤ q) :
    ((p : WithTop ℚ) : WithBot (WithTop ℚ)) ≤ (ofRat q).value := by
  have hround : p ≤ nearest q := by
    rw [nearest, if_neg (not_lt.mpr (hnonneg.trans h))]
    calc p = nearestPos p := (nearestPos_of_representable hnonneg hp).symm
      _ ≤ nearestPos q := nearestPos_mono hnonneg h
  unfold ofRat
  split_ifs with hfinite
  · exact WithBot.coe_le_coe.mpr (WithTop.coe_le_coe.mpr hround)
  · rw [show decide (q < 0) = false from decide_eq_false (not_lt.mpr (hnonneg.trans h))]
    exact WithBot.coe_le_coe.mpr le_top

/-! ### Adding -/

theorem value_ofRat_mono {p q : ℚ} (hp : 0 ≤ p) (h : p ≤ q) :
    (ofRat p).value ≤ (ofRat q).value := by
  have hround : nearest p ≤ nearest q := by
    rw [nearest, nearest, if_neg (not_lt.mpr hp), if_neg (not_lt.mpr (hp.trans h))]
    exact nearestPos_mono hp h
  have hnonneg : 0 ≤ nearest p := by
    rw [nearest, if_neg (not_lt.mpr hp)]
    exact nearestPos_nonneg hp
  have hnegative : decide (q < 0) = false := decide_eq_false (not_lt.mpr (hp.trans h))
  by_cases hq : |nearest q| < 2 ^ (1024 : ℤ)
  · have hlt : |nearest p| < 2 ^ (1024 : ℤ) := by
      rw [abs_of_nonneg hnonneg]
      exact hround.trans_lt (lt_of_abs_lt hq)
    rw [ofRat, dif_pos hlt, ofRat, dif_pos hq]
    exact WithBot.coe_le_coe.mpr (WithTop.coe_le_coe.mpr hround)
  · rw [ofRat.eq_1 q, dif_neg hq, hnegative]
    cases ofRat p with
    | finite r hr => exact WithBot.coe_le_coe.mpr le_top
    | infinite negative => cases negative <;> simp [value]

/-- A number that is not negative. -/
def Nonneg (x : Double) : Prop := 0 ≤ x.value

theorem nonneg_finite_iff {q : ℚ} {h : Representable q} : (finite q h).Nonneg ↔ 0 ≤ q :=
  WithBot.coe_le_coe.trans WithTop.coe_le_coe

theorem nonneg_infinite_iff {negative : Bool} : (infinite negative).Nonneg ↔ negative = false := by
  cases negative <;> simp [Nonneg, value]

theorem nonneg_ofRat {q : ℚ} (h : 0 ≤ q) : (ofRat q).Nonneg :=
  le_value_ofRat representable_zero le_rfl h

variable {x y s t : Double}

/-- Adding what is not negative does not go back. -/
theorem value_le_of_add_eq_some (hx : x.Nonneg) (hs : s.Nonneg) (h : add x s = some t) :
    x.value ≤ t.value := by
  cases x with
  | finite p hp =>
    cases s with
    | finite q hq =>
      obtain rfl := Option.some.inj h
      refine le_value_ofRat hp (nonneg_finite_iff.mp hx) ?_
      exact le_add_of_nonneg_right (nonneg_finite_iff.mp hs)
    | infinite negative =>
      obtain rfl := Option.some.inj h
      rw [nonneg_infinite_iff.mp hs]
      exact WithBot.coe_le_coe.mpr le_top
  | infinite negative =>
    cases s with
    | finite q hq =>
      obtain rfl := Option.some.inj h
      exact le_rfl
    | infinite negative' =>
      obtain ⟨-, h⟩ := Option.ite_none_right_eq_some.mp h
      obtain rfl := Option.some.inj h
      exact le_rfl

theorem exists_add_eq_some (hx : x.Nonneg) (hs : s.Nonneg) : ∃ t, add x s = some t := by
  cases x with
  | finite p hp => cases s <;> exact ⟨_, rfl⟩
  | infinite negative =>
    cases s with
    | finite q hq => exact ⟨_, rfl⟩
    | infinite negative' =>
      rw [nonneg_infinite_iff.mp hx, nonneg_infinite_iff.mp hs]
      exact ⟨_, rfl⟩

/-- Adding the same number keeps the order. -/
theorem add_mono {u : Double} (hx : x.Nonneg) (hs : s.Nonneg) (h : x.value ≤ y.value)
    (hxs : add x s = some t) (hys : add y s = some u) : t.value ≤ u.value := by
  have hy : y.Nonneg := hx.trans h
  cases y with
  | infinite negative =>
    rw [nonneg_infinite_iff.mp hy] at hys
    have hu : u = .infinite false := by
      cases s with
      | finite q hq => exact (Option.some.inj hys).symm
      | infinite negative' =>
        obtain ⟨-, hys⟩ := Option.ite_none_right_eq_some.mp hys
        exact (Option.some.inj hys).symm
    rw [hu]
    cases t with
    | finite q hq => exact WithBot.coe_le_coe.mpr le_top
    | infinite negative' => cases negative' <;> simp [value]
  | finite q hq =>
    cases x with
    | infinite negative =>
      rw [nonneg_infinite_iff.mp hx] at h
      exact absurd (WithBot.coe_le_coe.mp h) (by simp)
    | finite p hp =>
      cases s with
      | infinite negative' =>
        obtain rfl := Option.some.inj hxs
        obtain rfl := Option.some.inj hys
        exact le_rfl
      | finite r hr =>
        obtain rfl := Option.some.inj hxs
        obtain rfl := Option.some.inj hys
        have hle : p ≤ q := WithTop.coe_le_coe.mp (WithBot.coe_le_coe.mp h)
        have hsum := add_nonneg (nonneg_finite_iff.mp hx) (nonneg_finite_iff.mp hs)
        exact value_ofRat_mono hsum (by linarith)

end Double

end Lopata

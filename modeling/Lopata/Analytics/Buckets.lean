import Lopata.Analytics.Sqlite
import Mathlib.Tactic.Ring

/-!
# Buckets of Time

`toStartOfInterval` and its family round a time down to the beginning of a bucket: a multiple of a
number of seconds, the first day of a week, or that of every n-th month. They are emitted as a
division and a multiplication, or as modifiers of `strftime`, which steps back a week and on to the
next first day of a week, and adds the months of the quarters before to the beginning of the year.

## Main results

* `isGreatest_floor`: what rounding down to a bucket is.
* `evaluate_emitCall`: what the emitted expressions evaluate to.
* `bucketing_iff`: all functions round down, and `toStartOfInterval` for intervals below 2^63.
* `not_bucketing`: an interval whose number of seconds is a floating-point literal.
-/

namespace Lopata.Analytics

open Gregorian

/-! ### Rounding down -/

section RoundingDown

variable {α : Type*} [PartialOrder α] {starts : Set α} {f : α → α}

/-- Rounding down to the elements of a set does not decrease. -/
theorem monotone_of_isGreatest (h : ∀ t, IsGreatest {s | s ∈ starts ∧ s ≤ t} (f t)) :
    Monotone f := fun t u htu => (h u).2 ⟨(h t).1.1, (h t).1.2.trans htu⟩

/-- What is rounded down is not changed by rounding it down again. -/
theorem idempotent_of_isGreatest (h : ∀ t, IsGreatest {s | s ∈ starts ∧ s ≤ t} (f t)) (t : α) :
    f (f t) = f t :=
  le_antisymm (h (f t)).1.2 ((h (f t)).2 ⟨(h t).1.1, le_rfl⟩)

end RoundingDown

/-- The buckets of a number of seconds, of the weeks with a first day, of every n-th month. -/
inductive Bucket
  | seconds (n : ℤ)
  | week (first : ℤ)
  | months (n : ℤ)

namespace Bucket

/-- The times that the buckets begin at. -/
def starts : Bucket → Set ℤ
  | .seconds n => {s | n ∣ s}
  | .week first => {s | ∃ day, weekdayOf day = first ∧ s = 86400 * day}
  | .months n => {s | ∃ k, n ∣ k ∧ s = 86400 * monthStart k}

/-- The beginning of the bucket that a time is in. -/
def floor : Bucket → ℤ → ℤ
  | .seconds n, t => n * (t / n)
  | .week first, t => 86400 * (t / 86400 - (weekdayOf (t / 86400) - first) % 7)
  | .months n, t => 86400 * monthStart (n * (monthOf (t / 86400) / n))

def Valid : Bucket → Prop
  | .seconds n | .months n => 0 < n
  | .week first => 0 ≤ first ∧ first < 7

theorem isGreatest_floor {b : Bucket} (hb : b.Valid) (t : ℤ) :
    IsGreatest {s | s ∈ b.starts ∧ s ≤ t} (b.floor t) := by
  cases b with
  | seconds n =>
    have hn : 0 < n := hb
    refine ⟨⟨dvd_mul_right n _, Int.mul_ediv_self_le hn.ne'⟩, ?_⟩
    rintro _ ⟨⟨i, rfl⟩, hle⟩
    refine mul_le_mul_of_nonneg_left ?_ hn.le
    rw [Int.le_ediv_iff_mul_le hn, mul_comm]
    exact hle
  | week first =>
    obtain ⟨hlow, hhigh⟩ : 0 ≤ first ∧ first < 7 := hb
    simp only [starts, floor, weekdayOf]
    refine ⟨⟨⟨_, ?_, rfl⟩, ?_⟩, ?_⟩
    · omega
    · omega
    · rintro _ ⟨⟨day, hday, rfl⟩, hle⟩
      omega
  | months n =>
    obtain ⟨⟨hstart, hle⟩, hgreatest⟩ := isGreatest_monthStart (n := n) hb (t / 86400)
    obtain ⟨k, hk, hkstart⟩ := hstart
    refine ⟨⟨⟨k, hk, ?_⟩, ?_⟩, ?_⟩
    · rw [floor, hkstart]
    · simp only [floor]
      omega
    · rintro _ ⟨⟨k', hk', rfl⟩, hle'⟩
      have hday : monthStart k' ≤ t / 86400 := by omega
      have hstart' : monthStart k' ≤ monthStart (n * (monthOf (t / 86400) / n)) :=
        hgreatest ⟨⟨k', hk', rfl⟩, hday⟩
      simp only [floor]
      omega

/-- The time 0 is the beginning of a day, of a month and of a year. -/
theorem floor_nonneg {n t : ℤ} (hn : n ∣ 12) (hpos : 0 < n) (ht : 0 ≤ t) :
    0 ≤ (Bucket.months n).floor t := by
  refine (isGreatest_floor (b := .months n) hpos t).2 ⟨⟨12 * 1970, ?_, rfl⟩, ht⟩
  exact hn.mul_right 1970

theorem floor_le {b : Bucket} (hb : b.Valid) (t : ℤ) : b.floor t ≤ t := (isGreatest_floor hb t).1.2

end Bucket

/-- The buckets that a function stands for; the mode of `toStartOfWeek` says whether a week begins
with its Monday. -/
def bucketOf (fn : String) (rest : List Node) : Option Bucket :=
  match fn with
  | "tostartofinterval" =>
      match rest.head? with
      | some (.interval seconds) => ((toInt seconds).filter (0 < ·)).map .seconds
      | _ => none
  | "tostartofminute" => some (.seconds 60)
  | "tostartofhour" => some (.seconds 3600)
  | "tostartofday" | "todate" => some (.seconds 86400)
  | "tostartofweek" =>
      match rest.head? with
      | none | some (.str _) => some (.week 0)
      | some (.num mode) =>
          ((toInt mode).filter fun n => 0 ≤ n ∧ n ≤ 9).map fun n => .week (n % 2)
      | some _ => none
  | "tomonday" => some (.week 1)
  | "tostartofmonth" => some (.months 1)
  | "tostartofquarter" => some (.months 3)
  | "tostartofyear" => some (.months 12)
  | _ => none

/-! ### What is emitted -/

section Evaluate

variable {row : Row} {q l r : Sql} {t : ℤ}

theorem evaluate_arith {op : String} (hop : op ∉ compareOps ∧ op ≠ "||") :
    evaluate row (.binary op l r) = arith op (evaluate row l) (evaluate row r) := by
  rw [evaluate, if_neg hop.1, if_neg hop.2]

theorem evaluate_ofRat {n : ℤ} (hn : |n| < 2 ^ 53) : evaluate row (Sql.ofRat n) = .integer n := by
  rw [Sql.ofRat, evaluate, literalValue_ofRat hn]

theorem clamp_of_inRange (h : InRange t) : clamp t = t := by
  rw [InRange] at h
  rw [clamp]
  omega

/-- A time with modifiers is put as a number again. -/
theorem evaluate_truncateTo {modifiers : List Sql} {s : ℤ}
    (hq : (evaluate row q).toInteger = .integer t)
    (hmodified : modified t (evaluateAll row modifiers) = some s) (hs : InRange s) :
    evaluate row (q.truncateTo modifiers) = .integer s := by
  have hstrftime : strftime (.text "%s".toList :: .integer t :: .text "unixepoch".toList ::
      evaluateAll row modifiers) = .text (decimal s) := by
    rw [strftime, if_pos rfl, hmodified]
    rfl
  rw [Sql.truncateTo, evaluate_toInteger]
  simp only [List.cons_append, List.nil_append, evaluate, evaluateAll, evaluate_toInteger, hq,
    hstrftime]
  simp only [Value.toInteger, parseDecimal_decimal_int, Option.getD_some, clamp_of_inRange hs]

theorem ofInteger_of_lt {n : ℤ} (hlow : 0 ≤ n) (hhigh : n < 2 ^ 63) : ofInteger n = .integer n := by
  rw [ofInteger, if_pos ⟨by omega, hhigh⟩]

/-- A division and a multiplication of whole numbers. -/
theorem evaluate_floorTo {seconds : Double} {v : ℕ} (hv : 0 < v)
    (hliteral : literalValue seconds = .integer v) (ht : 0 ≤ t ∧ t < 2 ^ 63)
    (hq : (evaluate row q).toInteger = .integer t) :
    evaluate row (q.floorTo seconds) = .integer (v * (t / v)) := by
  have hquotient : 0 ≤ t / v := Int.ediv_nonneg ht.1 (by omega)
  have hsmaller : t / v ≤ t := Int.ediv_le_self _ ht.1
  have hproduct : 0 ≤ t / v * v ∧ t / v * v ≤ t :=
    ⟨mul_nonneg hquotient (by omega), Int.ediv_mul_le _ (by omega)⟩
  have hdiv : integerArith "/" t v = .integer (t / v) := by
    have hne : (v : ℤ) ≠ 0 := by omega
    simp only [integerArith, if_neg hne, Int.tdiv_eq_ediv_of_nonneg ht.1]
    exact ofInteger_of_lt hquotient (by omega)
  rw [Sql.floorTo, evaluate_arith (by decide), evaluate_arith (by decide), evaluate_toInteger, hq,
    evaluate, hliteral]
  simp only [arith, hdiv]
  simp only [integerArith]
  rw [ofInteger_of_lt hproduct.1 (by omega), mul_comm]

/-- The month of a time. -/
theorem evaluate_month (hq : (evaluate row q).toInteger = .integer t) (ht : InRange t) :
    evaluate row (q.datePart "%m") = .integer (monthOf (t / 86400) % 12 + 1) := by
  have hstrftime : strftime [.text "%m".toList, .integer t, .text "unixepoch".toList] =
      .text (padZeros 2 (monthOf (t / 86400) % 12 + 1)) := by
    rw [strftime, if_pos rfl, modified]
    simp only [List.mapM_nil, pure_bind, if_pos ht, List.foldlM_nil]
    rfl
  obtain ⟨m, hm, hlow, hhigh⟩ : ∃ m, m = monthOf (t / 86400) % 12 + 1 ∧ 1 ≤ m ∧ m ≤ 12 :=
    ⟨_, rfl, by omega, by omega⟩
  rw [Sql.datePart, evaluate_toInteger]
  simp only [evaluate, evaluateAll, evaluate_toInteger, hq, hstrftime, ← hm]
  interval_cases m <;> rfl

theorem modified_eq {modifiers : List Value} {ms : List Modifier}
    (hparse : (modifiers.mapM fun v => v.concatText.bind parseModifier) = some ms)
    (ht : InRange t) : modified t modifiers = ms.foldlM Modifier.applyIn t := by
  rw [modified, hparse]
  exact if_pos ht

theorem foldlM_applyIn {m : Modifier} {ms : List Modifier} (h : InRange (m.apply t)) :
    (m :: ms).foldlM Modifier.applyIn t = ms.foldlM Modifier.applyIn (m.apply t) := by
  rw [List.foldlM_cons, Modifier.applyIn, if_pos h]
  rfl

/-- Back a week but a day from the beginning of a day, and on to the first day of a week. -/
theorem evaluate_startOfWeek {weekday : String} {first : ℤ}
    (hparse : parseModifier weekday.toList = some (.weekday first))
    (hfirst : 0 ≤ first ∧ first < 7) (ht : -604800 ≤ t ∧ t < 253402300800)
    (hq : (evaluate row q).toInteger = .integer t) :
    evaluate row (q.truncateTo [.text "start of day", .text "-6 days", .text weekday]) =
      .integer ((Bucket.week first).floor t) := by
  have hmodifiers : (evaluateAll row [.text "start of day", .text "-6 days", .text weekday]).mapM
      (fun v => v.concatText.bind parseModifier) =
        some [.startOfDay, .days (-6), .weekday first] := by
    simp only [evaluateAll, evaluate, Value.concatText, List.mapM_cons, List.mapM_nil,
      Option.bind_some, hparse]
    rfl
  have hfloor : (Modifier.weekday first).apply ((Modifier.days (-6)).apply
      (Modifier.startOfDay.apply t)) = (Bucket.week first).floor t := by
    simp only [Modifier.apply, Bucket.floor, weekdayOf]
    omega
  have hrange : InRange ((Bucket.week first).floor t) := by
    simp only [InRange, Bucket.floor, weekdayOf]
    omega
  refine evaluate_truncateTo hq ?_ hrange
  rw [modified_eq hmodifiers ⟨by omega, by omega⟩, foldlM_applyIn ?_, foldlM_applyIn ?_,
    foldlM_applyIn ?_, hfloor]
  · rfl
  · rw [hfloor]
    exact hrange
  · simp only [InRange, Modifier.apply]
    omega
  · simp only [InRange, Modifier.apply]
    omega

/-- The beginnings of the years and of the months, from 1970 on. -/
theorem inRange_floor {n : ℤ} (hn : n ∣ 12) (hpos : 0 < n) (ht : 0 ≤ t ∧ t < 253402300800) :
    InRange ((Bucket.months n).floor t) := by
  have hlow := Bucket.floor_nonneg hn hpos ht.1
  have hhigh := Bucket.floor_le (b := .months n) hpos t
  exact ⟨by omega, by omega⟩

theorem evaluate_startOfMonth (ht : 0 ≤ t ∧ t < 253402300800)
    (hq : (evaluate row q).toInteger = .integer t) :
    evaluate row (q.truncateTo [.text "start of month"]) =
      .integer ((Bucket.months 1).floor t) := by
  have hfloor : Modifier.startOfMonth.apply t = (Bucket.months 1).floor t := by
    rw [Modifier.apply, Bucket.floor, Int.ediv_one, one_mul]
  have hrange : InRange ((Bucket.months 1).floor t) := inRange_floor (by decide) (by decide) ht
  refine evaluate_truncateTo hq ?_ hrange
  have hmodifiers : (evaluateAll row [.text "start of month"]).mapM
      (fun v => v.concatText.bind parseModifier) = some [.startOfMonth] := by
    simp only [evaluateAll, evaluate]
    rfl
  rw [modified_eq hmodifiers ⟨by omega, by omega⟩, foldlM_applyIn (hfloor ▸ hrange), hfloor]
  rfl

theorem evaluate_startOfYear (ht : 0 ≤ t ∧ t < 253402300800)
    (hq : (evaluate row q).toInteger = .integer t) :
    evaluate row (q.truncateTo [.text "start of year"]) =
      .integer ((Bucket.months 12).floor t) := by
  have hrange : InRange ((Bucket.months 12).floor t) := inRange_floor (by decide) (by decide) ht
  refine evaluate_truncateTo hq ?_ hrange
  have hmodifiers : (evaluateAll row [.text "start of year"]).mapM
      (fun v => v.concatText.bind parseModifier) = some [.startOfYear] := by
    simp only [evaluateAll, evaluate]
    rfl
  rw [modified_eq hmodifiers ⟨by omega, by omega⟩, foldlM_applyIn (m := .startOfYear) hrange]
  rfl

/-- The months of the quarters before, added to the beginning of the year. -/
theorem evaluate_startOfQuarter (ht : 0 ≤ t ∧ t < 253402300800)
    (hq : (evaluate row q).toInteger = .integer t) :
    evaluate row (q.truncateTo [.text "start of year",
      .chain "||" (.chain "||" (.text "+") (.binary "*" q.quarterOf (.ofRat 3)))
        (.text " months")]) = .integer ((Bucket.months 3).floor t) := by
  obtain ⟨month, hmonth⟩ : ∃ month, month = monthOf (t / 86400) := ⟨_, rfl⟩
  obtain ⟨quarter, hquarter, hlow, hhigh⟩ :
      ∃ quarter, quarter = month % 12 / 3 ∧ 0 ≤ quarter ∧ quarter ≤ 3 :=
    ⟨_, rfl, by omega, by omega⟩
  have hone : evaluate row (Sql.ofRat 1) = .integer 1 := by
    exact_mod_cast evaluate_ofRat (n := 1) (by decide)
  have hthree : evaluate row (Sql.ofRat 3) = .integer 3 := by
    exact_mod_cast evaluate_ofRat (n := 3) (by decide)
  have hindex : evaluate row q.quarterOf = .integer quarter := by
    have hsub : integerArith "-" (month % 12 + 1) 1 = .integer (month % 12) := by
      simp only [integerArith, add_sub_cancel_right]
      exact ofInteger_of_lt (by omega) (by omega)
    have hdiv : integerArith "/" (month % 12) 3 = .integer quarter := by
      rw [hquarter, ← Int.tdiv_eq_ediv_of_nonneg (by omega)]
      exact ofInteger_of_lt (Int.tdiv_nonneg (by omega) (by omega))
        (by rw [Int.tdiv_eq_ediv_of_nonneg (by omega)]; omega)
    rw [Sql.quarterOf, evaluate_arith (by decide), evaluate_arith (by decide),
      evaluate_month hq ⟨by omega, by omega⟩, ← hmonth, hone, hthree]
    simp only [arith, hsub, hdiv]
  have hmonths : integerArith "*" quarter 3 = .integer (quarter * 3) :=
    ofInteger_of_lt (by omega) (by omega)
  have hmodifiers : (evaluateAll row [.text "start of year", .chain "||" (.chain "||" (.text "+")
      (.binary "*" q.quarterOf (.ofRat 3))) (.text " months")]).mapM
        (fun v => v.concatText.bind parseModifier) =
          some [.startOfYear, .months (quarter * 3)] := by
    simp only [evaluateAll, evaluate, hindex, hthree, arith, hmonths]
    interval_cases quarter <;> rfl
  have hyear : (Modifier.startOfYear.apply t) / 86400 = monthStart (12 * (month / 12)) := by
    rw [Modifier.apply, ← hmonth]
    omega
  have hfloor : (Modifier.months (quarter * 3)).apply (Modifier.startOfYear.apply t) =
      (Bucket.months 3).floor t := by
    have hsum : 12 * (month / 12) + quarter * 3 = 3 * (month / 3) := by omega
    have happly (u : ℤ) : (Modifier.months (quarter * 3)).apply u = u + 86400 *
        (monthStart (monthOf (u / 86400) + quarter * 3) - monthStart (monthOf (u / 86400))) := rfl
    rw [happly, hyear, monthOf_monthStart, hsum, Modifier.apply, Bucket.floor, ← hmonth]
    ring
  have hrange : InRange ((Bucket.months 3).floor t) := inRange_floor (by decide) (by decide) ht
  have hrangeYear : InRange ((Bucket.months 12).floor t) :=
    inRange_floor (by decide) (by decide) ht
  refine evaluate_truncateTo hq ?_ hrange
  rw [modified_eq hmodifiers ⟨by omega, by omega⟩, foldlM_applyIn (m := .startOfYear) hrangeYear,
    foldlM_applyIn (hfloor ▸ hrange), hfloor]
  rfl

end Evaluate

/-! ### The functions -/

/-- The number of seconds of a bucket is a whole number of 64 bits. -/
def Bucket.Fits : Bucket → Prop
  | .seconds n => n < 2 ^ 63
  | .week _ | .months _ => True

/-- The first time that is looked at: the buckets of weeks begin before 1970. -/
def Bucket.earliest : Bucket → ℤ
  | .week _ => -604800
  | .seconds _ | .months _ => 0

/-- A first argument that is a date literal is put as its time. -/
def emitFirst (x : EmitCtx) (arg : Node) : Except String Sql :=
  match arg with
  | .str value => (parseDateTimeLiteral x.dates value).map .number
  | _ => emit x arg

section Call

variable {x : EmitCtx} {name : String} {arg : Node} {rest params : List Node} {distinct : Bool}
  {q sql : Sql} {qs : List Sql} {row : Row} {b : Bucket} {t n : ℤ}

/-- An interval of a whole number of seconds. -/
theorem eq_finite_of_toInt {seconds : Double} (h : toInt seconds = some n) (hn : 0 < n) :
    ∃ (m : ℕ) (hm : Representable m), n = m ∧ seconds = .finite m hm := by
  cases seconds with
  | infinite => cases h
  | finite p hp =>
    obtain ⟨hden, hnum⟩ := Option.ite_none_right_eq_some.mp h
    obtain rfl := Option.some.inj hnum
    obtain ⟨m, hm⟩ := Int.eq_ofNat_of_zero_le hn.le
    obtain rfl : p = m := by
      rw [← Rat.num_div_den p, hden, hm]
      simp
    exact ⟨m, hp, hm, rfl⟩

/-- The functions and their buckets. -/
theorem bucketOf_cases {fn : String} (hb : bucketOf fn rest = some b) :
    (fn = "tostartofinterval" ∧ ∃ seconds tail n, rest = .interval seconds :: tail ∧
      toInt seconds = some n ∧ 0 < n ∧ b = .seconds n) ∨
    (fn = "tostartofminute" ∧ b = .seconds 60) ∨ (fn = "tostartofhour" ∧ b = .seconds 3600) ∨
    ((fn = "tostartofday" ∨ fn = "todate") ∧ b = .seconds 86400) ∨
    (fn = "tostartofweek" ∧
      ((rest = [] ∨ ∃ zone tail, rest = .str zone :: tail) ∧ b = .week 0 ∨
        ∃ mode tail n, rest = .num mode :: tail ∧ toInt mode = some n ∧ 0 ≤ n ∧ n ≤ 9 ∧
          b = .week (n % 2))) ∨
    (fn = "tomonday" ∧ b = .week 1) ∨ (fn = "tostartofmonth" ∧ b = .months 1) ∨
    (fn = "tostartofquarter" ∧ b = .months 3) ∨ (fn = "tostartofyear" ∧ b = .months 12) := by
  simp only [bucketOf] at hb
  split at hb
  · split at hb
    · next seconds hhead =>
        obtain ⟨n, hn, rfl⟩ := Option.map_eq_some_iff.mp hb
        obtain ⟨hn, hpos⟩ := Option.filter_eq_some_iff.mp hn
        obtain ⟨tail, rfl⟩ := List.head?_eq_some_iff.mp hhead
        exact .inl ⟨rfl, seconds, tail, n, rfl, hn, of_decide_eq_true hpos, rfl⟩
    · cases hb
  · simp [Option.some.inj hb]
  · simp [Option.some.inj hb]
  · simp [Option.some.inj hb]
  · simp [Option.some.inj hb]
  · refine .inr (.inr (.inr (.inr (.inl ⟨rfl, ?_⟩))))
    split at hb
    · next hhead => exact .inl ⟨.inl (List.head?_eq_none_iff.mp hhead), (Option.some.inj hb).symm⟩
    · next zone hhead =>
        obtain ⟨tail, rfl⟩ := List.head?_eq_some_iff.mp hhead
        exact .inl ⟨.inr ⟨zone, tail, rfl⟩, (Option.some.inj hb).symm⟩
    · next mode hhead =>
        obtain ⟨n, hn, rfl⟩ := Option.map_eq_some_iff.mp hb
        obtain ⟨hn, hrange⟩ := Option.filter_eq_some_iff.mp hn
        obtain ⟨hlow, hhigh⟩ := of_decide_eq_true hrange
        obtain ⟨tail, rfl⟩ := List.head?_eq_some_iff.mp hhead
        exact .inr ⟨mode, tail, n, rfl, hn, hlow, hhigh, rfl⟩
    · cases hb
  · simp [Option.some.inj hb]
  · simp [Option.some.inj hb]
  · simp [Option.some.inj hb]
  · simp [Option.some.inj hb]
  · cases hb

theorem valid_of_bucketOf {fn : String} (hb : bucketOf fn rest = some b) : b.Valid := by
  rcases bucketOf_cases hb with ⟨-, seconds, tail, n, -, -, hpos, rfl⟩ | ⟨-, rfl⟩ | ⟨-, rfl⟩ |
    ⟨-, rfl⟩ | ⟨-, ⟨-, rfl⟩ | ⟨mode, tail, n, -, -, hlow, hhigh, rfl⟩⟩ | ⟨-, rfl⟩ | ⟨-, rfl⟩ |
    ⟨-, rfl⟩ | ⟨-, rfl⟩
  · exact hpos
  all_goals simp only [Bucket.Valid]
  all_goals omega

/-- An interval that fits is rounded down to, also if its literal is rounded. -/
theorem evaluate_interval {seconds : Double} (hn : toInt seconds = some n) (hpos : 0 < n)
    (hfits : n < 2 ^ 63) (ht : 0 ≤ t ∧ t < 253402300800)
    (hq : (evaluate row q).toInteger = .integer t) :
    evaluate row (q.floorTo seconds) = .integer ((Bucket.seconds n).floor t) := by
  obtain ⟨m, hm, rfl, rfl⟩ := eq_finite_of_toInt hn hpos
  obtain ⟨v, hliteral, hv⟩ := literalValue_whole (by omega) hm (by omega)
  rw [evaluate_floorTo (by omega) hliteral ⟨ht.1, by omega⟩ hq, Bucket.floor]
  rcases hv with rfl | ⟨hm', hv⟩
  · rfl
  · rw [Int.ediv_eq_zero_of_lt ht.1 (by omega), Int.ediv_eq_zero_of_lt ht.1 (by omega), mul_zero,
      mul_zero]

theorem evaluate_emitStartOfWeek {args : List Node} {mode : Double}
    (hmode : (modeArg name args = .ok none ∧ mode = .ofRat 0) ∨ modeArg name args = .ok (some mode))
    (hn : toInt mode = some n) (hrange : 0 ≤ n ∧ n ≤ 9)
    (hcall : emitStartOfWeek name args q = .ok sql) (ht : -604800 ≤ t ∧ t < 253402300800)
    (hq : (evaluate row q).toInteger = .integer t) :
    evaluate row sql = .integer ((Bucket.week (n % 2)).floor t) := by
  have hcall' : emitStartOfWeek name args q = .ok (q.truncateTo [.text "start of day",
      .text "-6 days", .text (if n % 2 = 1 then "weekday 1" else "weekday 0")]) := by
    obtain ⟨given, hgiven, hgetD⟩ : ∃ given, modeArg name args = .ok given ∧
        given.getD (.ofRat 0) = mode := by
      rcases hmode with ⟨hmode, rfl⟩ | hmode
      · exact ⟨_, hmode, rfl⟩
      · exact ⟨_, hmode, rfl⟩
    rw [emitStartOfWeek, hgiven]
    simp only [bind, Except.bind, hgetD, hn, if_pos hrange]
    rfl
  obtain rfl := Except.ok.inj (hcall'.symm.trans hcall)
  refine evaluate_startOfWeek ?_ ⟨by omega, by omega⟩ ht hq
  rcases Int.emod_two_eq_zero_or_one n with h | h <;> rw [h] <;> rfl

/-- The call of a function that rounds down. -/
theorem evaluate_emitCall (hb : bucketOf (lowerCase name) rest = some b) (hfits : b.Fits)
    (hcall : emitCall x name (arg :: rest) distinct (q :: qs) = .ok sql)
    (ht : b.earliest ≤ t ∧ t < 253402300800) (hq : (evaluate row q).toInteger = .integer t) :
    evaluate row sql = .integer (b.floor t) := by
  have hwhole {n : ℤ} (hn : |n| < 2 ^ 53) : toInt (.ofRat n) = some n := by
    rw [Double.ofRat_intCast hn.le]
    rfl
  rcases bucketOf_cases hb with ⟨hname, seconds, tail, n, rfl, hn, hpos, rfl⟩ | ⟨hname, rfl⟩ |
    ⟨hname, rfl⟩ | ⟨hname, rfl⟩ | ⟨hname, hweek⟩ | ⟨hname, rfl⟩ | ⟨hname, rfl⟩ | ⟨hname, rfl⟩ |
    ⟨hname, rfl⟩
  · rw [emitCall, hname] at hcall
    obtain rfl := Except.ok.inj hcall
    exact evaluate_interval hn hpos hfits ht hq
  · rw [emitCall, hname] at hcall
    obtain rfl := Except.ok.inj hcall
    refine evaluate_interval ?_ (by decide) hfits ht hq
    exact_mod_cast hwhole (n := 60) (by decide)
  · rw [emitCall, hname] at hcall
    obtain rfl := Except.ok.inj hcall
    refine evaluate_interval ?_ (by decide) hfits ht hq
    exact_mod_cast hwhole (n := 3600) (by decide)
  · have hfloor : sql = q.floorTo (.ofRat 86400) := by
      rw [emitCall] at hcall
      rcases hname with hname | hname <;> rw [hname] at hcall <;> exact (Except.ok.inj hcall).symm
    subst hfloor
    refine evaluate_interval ?_ (by decide) hfits ht hq
    exact_mod_cast hwhole (n := 86400) (by decide)
  · rw [emitCall, hname] at hcall
    rcases hweek with ⟨hnone, rfl⟩ | ⟨mode, tail, n, rfl, hn, hlow, hhigh, rfl⟩
    · refine evaluate_emitStartOfWeek (n := 0) (.inl ⟨?_, rfl⟩) ?_ ⟨by decide, by decide⟩ hcall ht
        hq
      · rcases hnone with rfl | ⟨zone, tail, rfl⟩ <;> rfl
      · exact_mod_cast hwhole (n := 0) (by decide)
    · exact evaluate_emitStartOfWeek (.inr rfl) hn ⟨hlow, hhigh⟩ hcall ht hq
  · rw [emitCall, hname] at hcall
    obtain rfl := Except.ok.inj hcall
    exact evaluate_startOfWeek rfl ⟨by decide, by decide⟩ ht hq
  · rw [emitCall, hname] at hcall
    obtain rfl := Except.ok.inj hcall
    exact evaluate_startOfMonth ht hq
  · rw [emitCall, hname] at hcall
    obtain rfl := Except.ok.inj hcall
    exact evaluate_startOfQuarter ht hq
  · rw [emitCall, hname] at hcall
    obtain rfl := Except.ok.inj hcall
    exact evaluate_startOfYear ht hq

theorem mem_dateTimeArgFns_of_bucketOf (hb : bucketOf (lowerCase name) rest = some b) :
    lowerCase name ∈ dateTimeArgFns := by
  rcases bucketOf_cases hb with ⟨h, -⟩ | ⟨h, -⟩ | ⟨h, -⟩ | ⟨h | h, -⟩ | ⟨h, -⟩ | ⟨h, -⟩ | ⟨h, -⟩ |
    ⟨h, -⟩ | ⟨h, -⟩ <;> rw [h] <;> decide

/-- What the call of a date function is emitted from. -/
theorem emitCall_of_emit (hname : lowerCase name ∈ dateTimeArgFns)
    (hemit : emit x (.func name (arg :: rest) params distinct) = .ok sql) :
    ∃ q qs, emitFirst x arg = .ok q ∧
      emitCall x name (arg :: rest) distinct (q :: qs) = .ok sql := by
  obtain ⟨-, a, a', ha, hresolve, hcall⟩ := emit_func hemit
  have hput := of_resolveDateArg hname hresolve
  cases ha with
  | @cons _ q₀ _ qs hfirst hrest =>
    cases arg with
    | str value =>
      obtain ⟨seconds, hseconds, hset⟩ := bind_eq_ok.mp hput
      obtain rfl := Except.ok.inj hset
      exact ⟨.number seconds, qs, by rw [emitFirst, hseconds]; rfl, hcall⟩
    | _ =>
      obtain rfl := Except.ok.inj hput
      exact ⟨q₀, qs, hfirst, hcall⟩

end Call

/-! ### Bucketing -/

/-- The times of the years 1970 to 9999. -/
def Dated (t : ℤ) : Prop := 0 ≤ t ∧ t < 253402300800

/-- A function with its further arguments rounds times down to the beginnings of buckets, and what
it has rounded down is not changed by doing so again. -/
structure RoundsDown (x : EmitCtx) (name : String) (rest params : List Node) (distinct : Bool)
    (b : Bucket) (f : ℤ → ℤ) : Prop where
  evaluates : ∀ arg q sql row t, Dated t ∨ (∃ u, Dated u ∧ t = f u) → emitFirst x arg = .ok q →
    emit x (.func name (arg :: rest) params distinct) = .ok sql →
      (evaluate row q).toInteger = .integer t →
        (evaluate row sql).instant = (Value.integer (f t)).instant
  latest : ∀ t, Dated t → IsGreatest {s | s ∈ b.starts ∧ s ≤ t} (f t)
  idempotent : ∀ t, Dated t → f (f t) = f t
  monotone : ∀ t u, Dated t → Dated u → t ≤ u → f t ≤ f u

section Bucketing

variable {x : EmitCtx} {name : String} {rest params : List Node} {distinct : Bool} {b : Bucket}

theorem earliest_le_floor {t : ℤ} (hb : bucketOf (lowerCase name) rest = some b) (ht : 0 ≤ t) :
    b.earliest ≤ b.floor t := by
  have hseconds {n : ℤ} (hn : 0 < n) : (Bucket.seconds n).earliest ≤ (Bucket.seconds n).floor t :=
    mul_nonneg hn.le (Int.ediv_nonneg ht hn.le)
  have hweek (first : ℤ) : (Bucket.week first).earliest ≤ (Bucket.week first).floor t := by
    simp only [Bucket.earliest, Bucket.floor, weekdayOf]
    omega
  have hmonths {n : ℤ} (hn : n ∣ 12) (hpos : 0 < n) :
      (Bucket.months n).earliest ≤ (Bucket.months n).floor t := Bucket.floor_nonneg hn hpos ht
  rcases bucketOf_cases hb with ⟨-, seconds, tail, n, -, -, hpos, rfl⟩ | ⟨-, rfl⟩ | ⟨-, rfl⟩ |
    ⟨-, rfl⟩ | ⟨-, ⟨-, rfl⟩ | ⟨mode, tail, n, -, -, -, -, rfl⟩⟩ | ⟨-, rfl⟩ | ⟨-, rfl⟩ |
    ⟨-, rfl⟩ | ⟨-, rfl⟩
  · exact hseconds hpos
  · exact hseconds (by decide)
  · exact hseconds (by decide)
  · exact hseconds (by decide)
  · exact hweek _
  · exact hweek _
  · exact hweek _
  · exact hmonths (by decide) (by decide)
  · exact hmonths (by decide) (by decide)
  · exact hmonths (by decide) (by decide)

theorem roundsDown_floor (hb : bucketOf (lowerCase name) rest = some b) (hfits : b.Fits) :
    RoundsDown x name rest params distinct b b.floor where
  evaluates arg q sql row t ht hfirst hemit hq := by
    obtain ⟨q', qs, hfirst', hcall⟩ := emitCall_of_emit (mem_dateTimeArgFns_of_bucketOf hb) hemit
    obtain rfl := Except.ok.inj (hfirst'.symm.trans hfirst)
    have hrange : b.earliest ≤ t ∧ t < 253402300800 := by
      have hearliest : b.earliest ≤ 0 := by cases b <;> simp [Bucket.earliest]
      rcases ht with ⟨hlow, hhigh⟩ | ⟨u, ⟨hlow, hhigh⟩, rfl⟩
      · exact ⟨hearliest.trans hlow, hhigh⟩
      · exact ⟨earliest_le_floor hb hlow,
          (Bucket.floor_le (valid_of_bucketOf hb) u).trans_lt hhigh⟩
    rw [evaluate_emitCall hb hfits hcall hrange hq]
  latest t _ := Bucket.isGreatest_floor (valid_of_bucketOf hb) t
  idempotent t _ := idempotent_of_isGreatest (Bucket.isGreatest_floor (valid_of_bucketOf hb)) t
  monotone t u _ _ htu :=
    monotone_of_isGreatest (Bucket.isGreatest_floor (valid_of_bucketOf hb)) htu

/-- Another first argument is taken as well. -/
theorem emit_first {arg : Node} {sql : Sql} {v : Double} {seconds : Double}
    (hname : lowerCase name = "tostartofinterval")
    (hemit : emit x (.func name (arg :: .interval seconds :: rest) params distinct) = .ok sql) :
    emit x (.func name (.num v :: .interval seconds :: rest) params distinct) =
      .ok ((Sql.number v).floorTo seconds) := by
  rw [emit] at hemit ⊢
  obtain ⟨⟨⟩, hcheck, hemit⟩ := bind_eq_ok.mp hemit
  obtain ⟨a, ha, hemit⟩ := bind_eq_ok.mp hemit
  obtain ⟨a', hresolve, -⟩ := bind_eq_ok.mp hemit
  rw [emitAll] at ha
  obtain ⟨e, -, ha⟩ := bind_eq_ok.mp ha
  obtain ⟨es, hes, -⟩ := bind_eq_ok.mp ha
  have hdate : lowerCase name ∈ dateTimeArgFns := hname ▸ by decide
  have hcheck' : checkCall name (.num v :: .interval seconds :: rest) = .ok () := by
    rw [← hcheck, checkCall, checkCall, checkArity, checkArity, hname]
    rfl
  have hzones : checkTimezoneArgs name (.num v :: .interval seconds :: rest) = .ok () := by
    rw [resolveDateArg, if_pos hdate] at hresolve
    obtain ⟨a₁, -, hresolve⟩ := bind_eq_ok.mp hresolve
    obtain ⟨⟨⟩, hzones, -⟩ := bind_eq_ok.mp hresolve
    rw [← hzones]
    rfl
  have hargs : emitAll x (.num v :: .interval seconds :: rest) = .ok (.number v :: es) := by
    rw [emitAll, emit, hes]
    rfl
  have hcall : emitCall x name (.num v :: .interval seconds :: rest) distinct (.number v :: es) =
      .ok ((Sql.number v).floorTo seconds) := by
    rw [emitCall, hname]
    rfl
  rw [hcheck', hargs]
  simp only [bind, Except.bind, resolveDateArg, if_pos hdate, putDateLiteral, hzones]
  exact hcall

/-- The quotient of 1 by a whole number is not rounded to 0. -/
theorem ofRat_one_div {m : ℕ} (hm : Representable m) (hpos : 0 < m) :
    ∃ p hp, Double.ofRat (1 / m) = .finite p hp ∧ (2 : ℚ) ^ (-1074 : ℤ) ≤ p := by
  have hleast : Representable ((2 : ℚ) ^ (-1074 : ℤ)) :=
    ⟨1, -1074, by norm_num, le_rfl, by norm_num, by simp⟩
  have hm' : (0 : ℚ) < m := by exact_mod_cast hpos
  have hle : (2 : ℚ) ^ (-1074 : ℤ) ≤ 1 / m := by
    have hbound : (m : ℚ) < 2 ^ (1024 : ℤ) := lt_of_abs_lt (Double.abs_lt_of_representable hm)
    rw [le_div_iff₀ hm']
    calc (2 : ℚ) ^ (-1074 : ℤ) * m ≤ 2 ^ (-1074 : ℤ) * 2 ^ (1024 : ℤ) :=
          mul_le_mul_of_nonneg_left hbound.le (zpow_nonneg (by norm_num) _)
      _ = 2 ^ (-50 : ℤ) := (zpow_add₀ (by norm_num) _ _).symm
      _ ≤ 1 := by norm_num
  have hlow := Double.le_value_ofRat hleast (zpow_nonneg (by norm_num) _) hle
  have hone : (1 : ℚ) / m ≤ 1 := by
    rw [div_le_one hm']
    exact_mod_cast hpos
  have hhigh := Double.value_ofRat_mono (one_div_nonneg.mpr hm'.le) hone
  cases hquotient : Double.ofRat (1 / m) with
  | finite p hp =>
    rw [hquotient] at hlow
    exact ⟨p, hp, rfl, WithTop.coe_le_coe.mp (WithBot.coe_le_coe.mp hlow)⟩
  | infinite negative =>
    have hrepOne : Representable (1 : ℚ) := by
      exact_mod_cast representable_intCast (n := 1) (by decide)
    rw [hquotient, Double.ofRat_of_representable hrepOne] at hhigh
    rw [hquotient] at hlow
    cases negative with
    | true => exact absurd hlow (not_le.mpr (WithBot.bot_lt_coe _))
    | false =>
      exact absurd (WithBot.coe_le_coe.mp hhigh) (not_le.mpr (WithTop.coe_lt_top _))

/-- A second that is divided by a floating-point number and multiplied by it does not get 0. -/
theorem evaluate_large {row : Row} {m : ℕ} (hm : Representable m) (hlarge : 2 ^ 63 ≤ m) :
    (evaluate row ((Sql.number (.ofRat (1 : ℤ))).floorTo (.finite m hm))).instant ≠
      (Value.integer 0).instant := by
  obtain ⟨p, hp, hquotient, hleast⟩ := ofRat_one_div hm (by omega)
  have hm' : (1 : ℚ) ≤ m := by exact_mod_cast (by omega : 1 ≤ m)
  have hdiv : arith "/" (.integer 1) (.real (.finite m hm)) = .real (.finite p hp) := by
    have hne : (m : ℚ) ≠ 0 := by positivity
    have hone : (Value.integer 1).number =
        some (.finite (1 : ℤ) (representable_intCast (by decide))) := by
      rw [Value.number, Double.ofRat_intCast (by decide)]
    simp only [arith, hone]
    simp only [Value.number, realArith, if_neg hne, Int.cast_one, hquotient]
  have hmul : arith "*" (.real (.finite p hp)) (.real (.finite m hm)) =
      .real (.ofRat (p * m)) := rfl
  rw [Sql.floorTo, evaluate_arith (by decide), evaluate_arith (by decide), evaluate_toInteger,
    evaluate, evaluate, literalValue_ofRat (by decide), literalValue_of_le hm hlarge,
    Value.toInteger, hdiv, hmul]
  have hlow := Double.le_value_ofRat
    ⟨1, -1074, by norm_num, le_rfl, by norm_num, by simp⟩ (zpow_nonneg (by norm_num) _)
    (hleast.trans (le_mul_of_one_le_right ((zpow_nonneg (by norm_num) _).trans hleast) hm'))
  intro heq
  have hzero : (Double.ofRat (p * m)).value = (((0 : ℤ) : ℚ) : WithTop ℚ) := Option.some.inj heq
  rw [hzero] at hlow
  have hnonpos := WithTop.coe_le_coe.mp (WithBot.coe_le_coe.mp hlow)
  exact absurd hnonpos (not_le.mpr (zpow_pos (by norm_num) _))

/-- A function that rounds down has an interval that fits. -/
theorem fits_of_roundsDown {f : ℤ → ℤ} (hb : bucketOf (lowerCase name) rest = some b)
    (haccepted : ∃ arg sql, emit x (.func name (arg :: rest) params distinct) = .ok sql)
    (hf : RoundsDown x name rest params distinct b f) : b.Fits := by
  by_contra hfits
  obtain ⟨arg, sql, hemit⟩ := haccepted
  rcases bucketOf_cases hb with ⟨hname, seconds, tail, n, rfl, hn, hpos, rfl⟩ | ⟨-, rfl⟩ |
    ⟨-, rfl⟩ | ⟨-, rfl⟩ | ⟨-, ⟨-, rfl⟩ | ⟨mode, tail, n, -, -, -, -, rfl⟩⟩ | ⟨-, rfl⟩ | ⟨-, rfl⟩ |
    ⟨-, rfl⟩ | ⟨-, rfl⟩
  · obtain ⟨m, hm, rfl, rfl⟩ := eq_finite_of_toInt hn hpos
    have hlarge : 2 ^ 63 ≤ (m : ℤ) := not_lt.mp hfits
    have hzero : f 1 = 0 := by
      obtain ⟨⟨hdvd, hle⟩, hgreatest⟩ := hf.latest 1 ⟨by decide, by decide⟩
      have hnonneg : 0 ≤ f 1 := hgreatest ⟨dvd_zero (m : ℤ), by decide⟩
      exact Int.eq_zero_of_dvd_of_nonneg_of_lt hnonneg (by omega) hdvd
    have hvalue := hf.evaluates (.num (.ofRat (1 : ℤ))) (.number (.ofRat (1 : ℤ))) _
      (fun _ => .null) 1 (.inl ⟨by decide, by decide⟩) rfl (emit_first hname hemit)
      (by rw [evaluate, literalValue_ofRat (by decide)]; rfl)
    rw [hzero] at hvalue
    exact evaluate_large hm (by exact_mod_cast hlarge) hvalue
  all_goals exact hfits (by simp [Bucket.Fits])

/-- **Buckets of time.** A function rounds all times down to the beginnings of its buckets exactly
if their number of seconds is less than 2^63. -/
theorem bucketing_iff (hb : bucketOf (lowerCase name) rest = some b)
    (haccepted : ∃ arg sql, emit x (.func name (arg :: rest) params distinct) = .ok sql) :
    (∃ f, RoundsDown x name rest params distinct b f) ↔ b.Fits :=
  ⟨fun ⟨_, hf⟩ => fits_of_roundsDown hb haccepted hf,
    fun hfits => ⟨b.floor, roundsDown_floor hb hfits⟩⟩

end Bucketing

theorem bucketing_iff_quarter :
    ∃ f, RoundsDown epochCtx "toStartOfQuarter" [] [] false (.months 3) f :=
  (bucketing_iff rfl ⟨.col "timestamp", _, rfl⟩).mpr trivial

/-- An interval of 2^63 seconds is a floating-point number to SQLite, which does not round down. -/
theorem not_bucketing : ¬ ∀ (x : EmitCtx) (name : String) (rest params : List Node)
    (distinct : Bool) (b : Bucket), bucketOf (lowerCase name) rest = some b →
      (∃ arg sql, emit x (.func name (arg :: rest) params distinct) = .ok sql) →
        ∃ f, RoundsDown x name rest params distinct b f := by
  intro h
  have hb : bucketOf (lowerCase "toStartOfInterval")
      [.interval (.finite (2 ^ 63 : ℕ) representable_two_pow_63)] = some (.seconds (2 ^ 63)) := by
    have hwhole : toInt (.finite (2 ^ 63 : ℕ) representable_two_pow_63) = some (2 ^ 63) := by
      rw [toInt, if_pos (Rat.den_natCast _)]
      rfl
    have hname : lowerCase "toStartOfInterval" = "tostartofinterval" := rfl
    simp only [hname, bucketOf, List.head?_cons, hwhole]
    rfl
  have haccepted : ∃ arg sql, emit epochCtx (.func "toStartOfInterval"
      (arg :: [.interval (.finite (2 ^ 63 : ℕ) representable_two_pow_63)]) [] false) = .ok sql :=
    ⟨.col "timestamp", _, rfl⟩
  obtain ⟨f, hf⟩ := h epochCtx _ _ _ _ _ hb haccepted
  exact absurd (fits_of_roundsDown hb haccepted hf) (by simp [Bucket.Fits])

end Lopata.Analytics

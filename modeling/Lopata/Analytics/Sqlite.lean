import Lopata.Lib.Gregorian
import Lopata.Analytics.Translation

/-!
# Dates in SQLite

The values of the expressions that dates are translated to, by what the documentation of SQLite
says of numbers, of `CAST` and of `strftime`. A value that is not needed for dates is null here:
that of a comparison of texts, a function that is not listed, a number that is put in a text.

## Main definitions

* `strftime`: a time with its modifiers, as a text.
* `evaluate`: the value of an expression in a row.
-/

namespace Lopata.Analytics

open Gregorian

/-! ### Numbers -/

/-- A time, as a number of seconds. -/
abbrev Instant := WithBot (WithTop ℚ)

def Value.isText : Value → Bool
  | .text _ => true
  | _ => false

def Value.isNull : Value → Bool
  | .null => true
  | _ => false

/-- The number that a value is, if it is one. -/
def Value.instant (v : Value) : Option Instant :=
  match v with
  | .integer _ | .real _ => some v.numeric
  | .null | .text _ => none

/-- What `String(x)` is read as: a whole number of 64 bits, or else a floating-point one. -/
def literalValue (x : Double) : Value :=
  let negative := x.text.head? = some '-'
  let digits := if negative then x.text.tail else x.text
  if digits.all Char.isDigit ∧ decimalValue digits < 2 ^ 63 then
    .integer (if negative then -decimalValue digits else decimalValue digits)
  else .real x

theorem isText_literalValue (x : Double) : (literalValue x).isText = false := by
  have hsplit (c : Prop) [Decidable c] (n : ℤ) :
      (if c then Value.integer n else Value.real x).isText = false := by
    split <;> rfl
  exact hsplit _ _

/-- A whole number of 53 bits is read as it is. -/
theorem literalValue_ofRat {n : ℤ} (hn : |n| < 2 ^ 53) : literalValue (.ofRat n) = .integer n := by
  obtain ⟨m, hm⟩ : ∃ m : ℕ, |n| = m := ⟨n.natAbs, Int.abs_eq_natAbs n⟩
  have hlt : m < 2 ^ 53 := by exact_mod_cast hm ▸ hn
  have hrep : Representable ((m : ℤ) : ℚ) :=
    representable_intCast (by rw [← hm, abs_abs]; exact hn.le)
  obtain ⟨hdigits, hvalue⟩ := toDigits_spec m
  have htext : (Double.finite ((m : ℤ) : ℚ) hrep).text = Nat.toDigits 10 m :=
    Double.text_natCast hlt hrep
  have hall : (Nat.toDigits 10 m).all Char.isDigit = true := List.all_eq_true.mpr hdigits
  rw [Double.ofRat_intCast hn.le, literalValue]
  rcases le_or_gt 0 n with hpos | hneg
  · obtain rfl : n = m := by rw [← hm, abs_of_nonneg hpos]
    have hhead : (Nat.toDigits 10 m).head? ≠ some '-' := by
      intro h
      exact absurd (hdigits _ (List.mem_of_head? h)) (by decide)
    simp only [htext, if_neg hhead, hall, hvalue]
    rw [if_pos ⟨trivial, by omega⟩]
  · obtain rfl : n = -m := by rw [← hm, abs_of_neg hneg, neg_neg]
    have hminus : (Double.finite ((-m : ℤ) : ℚ) (representable_intCast hn.le)).text =
        '-' :: Nat.toDigits 10 m := by
      have hneg' : ((-m : ℤ) : ℚ) < 0 := by exact_mod_cast hneg
      have hnonneg : ¬ ((m : ℤ) : ℚ) < 0 := by simp
      rw [Double.text, if_neg hnonneg] at htext
      rw [Double.text, if_pos hneg', ← htext, Int.cast_neg, neg_neg]
    simp only [hminus, List.head?_cons, if_true, List.tail_cons, hall, hvalue]
    rw [if_pos ⟨trivial, by omega⟩]

theorem nearest_natCast_mono {a b : ℕ} (h : a ≤ b) : nearest a ≤ nearest b := by
  have ha : ¬ (a : ℚ) < 0 := not_lt.mpr a.cast_nonneg
  have hb : ¬ (b : ℚ) < 0 := not_lt.mpr b.cast_nonneg
  rw [nearest, nearest, if_neg ha, if_neg hb]
  exact nearestPos_mono a.cast_nonneg (by exact_mod_cast h)

theorem representable_two_pow_63 : Representable (2 ^ 63 : ℕ) :=
  ⟨2 ^ 52, 11, by norm_num, by norm_num, by norm_num, by norm_num⟩

theorem le_text_two_pow_63 :
    2 ^ 63 ≤ decimalValue (Double.finite _ representable_two_pow_63).text := by
  decide +kernel

/-- A number that is not negative is read by its digits. -/
theorem literalValue_of_digits {x : Double} {v : ℕ} (htext : x.text = Nat.toDigits 10 v)
    (hv : v < 2 ^ 63) : literalValue x = .integer v := by
  obtain ⟨hdigits, hvalue⟩ := toDigits_spec v
  have hhead : (Nat.toDigits 10 v).head? ≠ some '-' := fun h =>
    absurd (hdigits _ (List.mem_of_head? h)) (by decide)
  have hall : (Nat.toDigits 10 v).all Char.isDigit = true := List.all_eq_true.mpr hdigits
  simp only [literalValue, htext, if_neg hhead, hall, hvalue]
  rw [if_pos ⟨trivial, hv⟩]

/-- **Whole numbers as literals.** Below 2^63 the literal of a whole number is one, the same or one
that is large as well. -/
theorem literalValue_whole {n : ℕ} (hpos : 0 < n) (h : Representable n) (hn : n < 2 ^ 63) :
    ∃ v : ℕ, literalValue (.finite n h) = .integer v ∧ (v = n ∨ 2 ^ 53 ≤ n ∧ 2 ^ 53 ≤ v) := by
  obtain ⟨s, m, hdigits, hplace, hread⟩ := Double.shortest_whole hpos h
  have hspos : 0 < s := by
    rcases Nat.eq_zero_or_pos s with rfl | hspos
    · rcases hread with hread | ⟨hs, -⟩
      · rw [Nat.zero_mul, Nat.cast_zero, nearest_of_representable representable_zero] at hread
        exact absurd (by exact_mod_cast hread.symm) hpos.ne'
      · omega
    · exact hspos
  have hv : s * 10 ^ m < 2 ^ 63 := by
    rcases hread with hread | ⟨-, hle, -⟩
    · by_contra hlarge
      have hmono := nearest_natCast_mono (not_lt.mp hlarge)
      rw [nearest_of_representable representable_two_pow_63, hread] at hmono
      exact absurd (by exact_mod_cast hmono) (not_le.mpr hn)
    · exact hle.trans_lt hn
  have htext : (Double.finite n h).text = Nat.toDigits 10 (s * 10 ^ m) := by
    have hnonneg : ¬ (n : ℚ) < 0 := not_lt.mpr n.cast_nonneg
    have hne : (n : ℚ) ≠ 0 := by exact_mod_cast hpos.ne'
    have hsplit := Double.toDigits_mul_pow hspos m
    have hlength : (Nat.toDigits 10 (s * 10 ^ m)).length ≤ 19 :=
      (Nat.length_toDigits_le_iff (by decide) (by decide)).mpr (by omega)
    rw [hsplit, List.length_append, List.length_replicate] at hlength
    rw [Double.text, if_neg hnonneg, Double.textNonneg, if_neg hne, hdigits, hplace,
      Double.layout, if_pos (by omega), hsplit]
    congr 2
    omega
  refine ⟨s * 10 ^ m, literalValue_of_digits htext hv, ?_⟩
  rcases Nat.lt_or_ge n (2 ^ 53) with hsmall | hlarge
  · left
    rcases hread with hread | ⟨hs, hle, -⟩
    · rcases Double.eq_nearest_or_le (s * 10 ^ m) with hsame | ⟨hlarge, -⟩
      · exact_mod_cast hsame.symm.trans hread
      · rw [hread] at hlarge
        exact absurd (by exact_mod_cast hlarge) (not_le.mpr hsmall)
    · have hmul : s ≤ s * 10 ^ m := Nat.le_mul_of_pos_right s (by positivity)
      omega
  · refine .inr ⟨hlarge, ?_⟩
    rcases hread with hread | ⟨hs, -, -⟩
    · rcases Double.eq_nearest_or_le (s * 10 ^ m) with hsame | ⟨-, hlarge'⟩
      · have : s * 10 ^ m = n := by exact_mod_cast hsame.symm.trans hread
        omega
      · exact hlarge'
    · have hmul : s ≤ s * 10 ^ m := Nat.le_mul_of_pos_right s (by positivity)
      omega

/-- The numbers from 2^63 on are 2^11 apart at least. -/
theorem dvd_of_representable {n : ℕ} (h : Representable n) (hn : 2 ^ 63 ≤ n) : 2 ^ 11 ∣ n := by
  obtain ⟨m, e, hm, -, -, heq⟩ := h
  have he : 11 ≤ e := by
    by_contra he
    have hpow : (2 : ℚ) ^ e ≤ 2 ^ (10 : ℤ) := zpow_le_zpow_right₀ (by norm_num) (by omega)
    have hm' : (m : ℚ) < 2 ^ 53 := by exact_mod_cast (le_abs_self m).trans_lt hm
    have hlt : (n : ℚ) < 2 ^ 63 := calc
      (n : ℚ) = m * 2 ^ e := heq
      _ < 2 ^ 53 * 2 ^ e := mul_lt_mul_of_pos_right hm' (zpow_pos (by norm_num) e)
      _ ≤ 2 ^ 53 * 2 ^ (10 : ℤ) := mul_le_mul_of_nonneg_left hpow (by norm_num)
      _ = 2 ^ 63 := by norm_num
    exact absurd hn (not_le.mpr (by exact_mod_cast hlt))
  obtain ⟨k, rfl⟩ : ∃ k : ℕ, e = 11 + k := ⟨(e - 11).toNat, by omega⟩
  have hint : (n : ℤ) = m * 2 ^ k * 2 ^ 11 := by
    have hq : (n : ℚ) = m * 2 ^ k * 2 ^ 11 := by
      rw [heq, zpow_add₀ (by norm_num), zpow_natCast]
      norm_num
      ring
    exact_mod_cast hq
  exact_mod_cast Dvd.intro_left _ hint.symm

theorem head?_layout {digits : List Char} {n : ℤ} (hne : digits ≠ []) (hn : 0 < n) :
    (Double.layout digits n).head? = digits.head? := by
  obtain ⟨d, ds, rfl⟩ := List.exists_cons_of_ne_nil hne
  obtain ⟨k, rfl⟩ : ∃ k : ℕ, n = k + 1 := ⟨(n - 1).toNat, by omega⟩
  have htake : (((k : ℤ) + 1).toNat) = k + 1 := by omega
  rw [Double.layout, htake]
  split_ifs <;> simp
  omega

/-- From 2^63 on the literal is a floating-point number. -/
theorem literalValue_of_le {n : ℕ} (h : Representable n) (hn : 2 ^ 63 ≤ n) :
    literalValue (.finite n h) = .real (.finite n h) := by
  have hpos : 0 < n := by omega
  obtain ⟨s, m, hdigits, hplace, hread⟩ := Double.shortest_whole hpos h
  have hnonneg : ¬ (n : ℚ) < 0 := not_lt.mpr n.cast_nonneg
  have hne : (n : ℚ) ≠ 0 := by exact_mod_cast hpos.ne'
  have htext : (Double.finite n h).text =
      Double.layout (Nat.toDigits 10 s) ((Nat.toDigits 10 s).length + m) := by
    rw [Double.text, if_neg hnonneg, Double.textNonneg, if_neg hne, hdigits, hplace]
  have hlarge : ¬ ((Double.finite n h).text.all Char.isDigit = true ∧
      decimalValue (Double.finite n h).text < 2 ^ 63) := by
    rintro ⟨hall, hvalue⟩
    have heq : n = 2 ^ 63 := by
      rw [htext] at hall hvalue
      obtain ⟨-, hlayout⟩ := Double.layout_of_digits (List.all_eq_true.mp hall)
      rw [hlayout, Double.decimalValue_replicate, (toDigits_spec s).2, add_sub_cancel_left,
        Int.toNat_natCast] at hvalue
      rcases hread with hread | ⟨hs, -, hlt⟩
      · have hmono := nearest_natCast_mono hvalue.le
        rw [nearest_of_representable representable_two_pow_63, hread] at hmono
        exact le_antisymm (by exact_mod_cast hmono) hn
      · have hm : m < 3 := by
          by_contra hm
          have hpow : 10 ^ 3 ≤ 10 ^ m := Nat.pow_le_pow_right (by decide) (not_lt.mp hm)
          have hmul : 10 ^ 16 * 10 ^ 3 ≤ s * 10 ^ m := Nat.mul_le_mul hs hpow
          omega
        obtain ⟨i, rfl⟩ := dvd_of_representable h hn
        interval_cases m <;> omega
    subst heq
    exact le_text_two_pow_63.not_gt hvalue
  have hhead : (Double.finite n h).text.head? ≠ some '-' := by
    rw [htext, head?_layout Nat.toDigits_ne_nil (by
      have := List.length_pos_of_ne_nil (Nat.toDigits_ne_nil (b := 10) (n := s))
      omega)]
    exact fun h => absurd ((toDigits_spec s).1 _ (List.mem_of_head? h)) (by decide)
  simp only [literalValue, if_neg hhead]
  rw [if_neg hlarge]

/-- The whole numbers of 64 bits; those beyond are put as the last one. -/
def clamp (n : ℤ) : ℤ := max (-2 ^ 63) (min n (2 ^ 63 - 1))

/-- `CAST(v AS INTEGER)`. -/
def Value.toInteger : Value → Value
  | .null => .null
  | .integer n => .integer n
  | .real (.finite q _) => .integer (clamp (if q < 0 then ⌈q⌉ else ⌊q⌋))
  | .real (.infinite negative) => .integer (if negative then -2 ^ 63 else 2 ^ 63 - 1)
  | .text cs => .integer (clamp ((parseDecimal cs).getD 0))

/-- A result that is not a whole number of 64 bits any more is a floating-point one. -/
def ofInteger (n : ℤ) : Value :=
  if -2 ^ 63 ≤ n ∧ n < 2 ^ 63 then .integer n else .real (.ofRat n)

/-- What an operator does to whole numbers. -/
def integerArith (op : String) (m n : ℤ) : Value :=
  match op with
  | "+" => ofInteger (m + n)
  | "-" => ofInteger (m - n)
  | "*" => ofInteger (m * n)
  | "/" => if n = 0 then .null else ofInteger (m.tdiv n)
  | "%" => if n = 0 then .null else ofInteger (m.tmod n)
  | _ => .null

/-- What an operator does to numbers of which one is a floating-point one. -/
def realArith (op : String) (p q : ℚ) : Value :=
  match op with
  | "+" => .real (.ofRat (p + q))
  | "-" => .real (.ofRat (p - q))
  | "*" => .real (.ofRat (p * q))
  | "/" => if q = 0 then .null else .real (.ofRat (p / q))
  | _ => .null

def arith (op : String) (a b : Value) : Value :=
  match a, b with
  | .integer m, .integer n => integerArith op m n
  | _, _ =>
      match a.number, b.number with
      | some (.finite p _), some (.finite q _) => realArith op p q
      | _, _ => .null

theorem isText_arith (op : String) (a b : Value) : (arith op a b).isText = false := by
  have hinteger (n : ℤ) : (ofInteger n).isText = false := by
    rw [ofInteger]
    split <;> rfl
  have hintegers (m n : ℤ) : (integerArith op m n).isText = false := by
    simp only [integerArith]
    split <;> (try split) <;> first | rfl | exact hinteger _
  have hreals (p q : ℚ) : (realArith op p q).isText = false := by
    simp only [realArith]
    split <;> (try split) <;> rfl
  simp only [arith]
  split
  · exact hintegers ..
  · split
    · exact hreals ..
    · rfl

/-- A number or a text in a text. -/
def Value.concatText : Value → Option (List Char)
  | .integer n => some (decimal n)
  | .text cs => some cs
  | .null | .real _ => none

/-- `a || b`. -/
def concat (a b : Value) : Value :=
  match a.concatText, b.concatText with
  | some cs, some ds => .text (cs ++ ds)
  | _, _ => .null

/-- A truth value; an unknown one is null. -/
def truth : Option Bool → Value
  | none => .null
  | some b => .integer (if b then 1 else 0)

/-- A comparison of two times. -/
def holds (op : String) (a b : Instant) : Bool :=
  if op = "=" then a = b
  else if op = "!=" then a ≠ b
  else if op = "<" then a < b
  else if op = "<=" then a ≤ b
  else if op = ">" then a > b
  else a ≥ b

/-! ### Times -/

inductive Modifier
  | startOfDay
  | startOfMonth
  | startOfYear
  | days (n : ℤ)
  | months (n : ℤ)
  | weekday (n : ℤ)

/-- A modifier: a number of days or months may have a sign, and the unit an `s`. -/
def parseModifier (text : List Char) : Option Modifier :=
  if text = "start of day".toList then some .startOfDay
  else if text = "start of month".toList then some .startOfMonth
  else if text = "start of year".toList then some .startOfYear
  else if "weekday ".toList.isPrefixOf text then
    match text.drop 8 with
    | [c] => if c.isDigit ∧ digitValue c ≤ 6 then some (.weekday (digitValue c)) else none
    | _ => none
  else
    let unsigned := if text.head? = some '+' ∨ text.head? = some '-' then text.tail else text
    let unit := unsigned.dropWhile Char.isDigit
    match parseDecimal text with
    | none => none
    | some n =>
        if unit = " days".toList ∨ unit = " day".toList then some (.days n)
        else if unit = " months".toList ∨ unit = " month".toList then some (.months n)
        else none

/-- What a modifier makes of a time. Months keep the day of the month: the 31st of a month of 30
days is the first of the next one. -/
def Modifier.apply (t : ℤ) : Modifier → ℤ
  | .startOfDay => t - t % 86400
  | .startOfMonth => 86400 * monthStart (monthOf (t / 86400))
  | .startOfYear => 86400 * monthStart (12 * (monthOf (t / 86400) / 12))
  | .days n => t + 86400 * n
  | .months n =>
      let month := monthOf (t / 86400)
      t + 86400 * (monthStart (month + n) - monthStart month)
  | .weekday n => t + 86400 * ((n - weekdayOf (t / 86400)) % 7)

/-- The times of the years 0 to 9999. -/
def InRange (t : ℤ) : Prop := -62167219200 ≤ t ∧ t < 253402300800

instance (t : ℤ) : Decidable (InRange t) := inferInstanceAs (Decidable (_ ∧ _))

/-- A modifier that leaves the range gives no time. -/
def Modifier.applyIn (t : ℤ) (m : Modifier) : Option ℤ :=
  if InRange (m.apply t) then some (m.apply t) else none

def padZeros (width : ℕ) (n : ℤ) : List Char :=
  let text := decimal n
  List.replicate (width - text.length) '0' ++ text

/-- The text that a format stands for. -/
def formatPart (format : List Char) (t : ℤ) : Option (List Char) :=
  let day := t / 86400
  let month := monthOf day
  let second := t % 86400
  match String.ofList format with
  | "%s" => some (decimal t)
  | "%Y" => some (padZeros 4 (month / 12))
  | "%m" => some (padZeros 2 (month % 12 + 1))
  | "%d" => some (padZeros 2 (day - monthStart month + 1))
  | "%w" => some (decimal (weekdayOf day))
  | "%j" => some (padZeros 3 (day - monthStart (12 * (month / 12)) + 1))
  | "%H" => some (padZeros 2 (second / 3600))
  | "%M" => some (padZeros 2 (second / 60 % 60))
  | "%S" => some (padZeros 2 (second % 60))
  | _ => none

/-- The time that a number of seconds with its modifiers is. -/
def modified (t : ℤ) (modifiers : List Value) : Option ℤ := do
  let modifiers ← modifiers.mapM fun v => v.concatText.bind parseModifier
  if InRange t then modifiers.foldlM Modifier.applyIn t else none

/-- `strftime` of a number of seconds. -/
def strftime : List Value → Value
  | .text format :: .integer t :: .text unixepoch :: modifiers =>
      if unixepoch = "unixepoch".toList then
        match (modified t modifiers).bind (formatPart format) with
        | some text => .text text
        | none => .null
      else .null
  | _ => .null

/-! ### Expressions -/

mutual

/-- The value of an expression in a row. -/
def evaluate (row : Row) : Sql → Value
  | .number x => literalValue x
  | .decimal n => .real (.ofRat n)
  | .text value => .text value.toList
  | .column name | .output name => row name
  | .paren e => evaluate row e
  | .cast type e => if type = "INTEGER" then (evaluate row e).toInteger else .null
  | .binary op l r | .chain op l r =>
      if op ∈ compareOps then
        truth ((evaluate row l).instant.bind fun a => (evaluate row r).instant.map (holds op a))
      else if op = "||" then concat (evaluate row l) (evaluate row r)
      else arith op (evaluate row l) (evaluate row r)
  | .isIn negate e list =>
      truth ((evaluate row e).instant.map fun a =>
        decide (a ∈ (evaluateAll row list).filterMap Value.instant) != negate)
  | .between negate e low high =>
      truth ((evaluate row e).instant.bind fun a => (evaluate row low).instant.bind fun l =>
        (evaluate row high).instant.map fun h => decide (l ≤ a ∧ a ≤ h) != negate)
  | .caseWhen c a b => if (evaluate row c).instant = some 1 then evaluate row a else evaluate row b
  | .call name args =>
      match name with
      | "strftime" => strftime (evaluateAll row args)
      | "COALESCE" => ((evaluateAll row args).find? fun v => !v.isNull).getD .null
      | "MIN" | "MAX" => (evaluateAll row args).headD .null
      | _ => .null
  | .star | .unary .. | .like .. | .isNull .. | .countDistinct _ => .null

def evaluateAll (row : Row) : List Sql → List Value
  | [] => []
  | e :: es => evaluate row e :: evaluateAll row es

end

theorem evaluate_toInteger {row : Row} {q : Sql} :
    evaluate row q.toInteger = (evaluate row q).toInteger := by
  rw [Sql.toInteger, evaluate, if_pos rfl]

theorem evaluateAll_eq (row : Row) (es : List Sql) :
    evaluateAll row es = es.map (evaluate row) := by
  induction es with
  | nil => rfl
  | cons e es ih => rw [evaluateAll, ih, List.map_cons]

/-- The beginning of 1970 is what the literals of the examples stand for. -/
def epochDates : Dates where
  parse text := if text = "1970-01-01T00:00:00Z" then some 0 else none
  utc ms := if ms = .ofRat 0 then some ⟨1970, 0, 1, 0, 0, 0⟩ else none
  bounded text ms h := by
    obtain ⟨-, h⟩ := Option.ite_none_right_eq_some.mp h
    obtain rfl := Option.some.inj h
    decide

def epochCtx : EmitCtx := { nowSeconds := .ofRat 0, dates := epochDates }

end Lopata.Analytics

import Lopata.Lib.Double

/-!
# Numbers as Texts

`Number(text)` and `String(number)`. A number is read exactly and rounded once; it is written
with the fewest digits that are read as the number again.

## Main results

* `parse_digits`: a text of digits is read as the number it is worth.
* `decimalValue_text`: what the text of a whole number is worth.
* `text_natCast`: a whole number below 2^53 is written with its decimal digits.
-/

namespace Lopata

namespace Double

/-! ### Reading -/

/-- The exponent after the digits. -/
def parseExponent : List Char → Option ℤ
  | [] => some 0
  | e :: text =>
      let negative := text.head? = some '-'
      let digits := if text.head? = some '-' ∨ text.head? = some '+' then text.tail else text
      if (e = 'e' ∨ e = 'E') ∧ digits ≠ [] ∧ digits.all Char.isDigit then
        some (if negative then -(decimalValue digits : ℤ) else decimalValue digits)
      else none

/-- Digits, with a point, with an exponent. -/
def parseUnsigned (text : List Char) : Option ℚ :=
  let whole := text.takeWhile Char.isDigit
  let after := text.dropWhile Char.isDigit
  let fraction := if after.head? = some '.' then after.tail.takeWhile Char.isDigit else []
  let rest := if after.head? = some '.' then after.tail.dropWhile Char.isDigit else after
  if whole = [] ∧ fraction = [] then none
  else (parseExponent rest).map fun e =>
    (decimalValue (whole ++ fraction) : ℚ) * 10 ^ (e - (fraction.length : ℤ))

/-- A number of another base. -/
def parseDigits (base : ℕ) (digits : List Char) : Option ℚ :=
  if digits ≠ [] ∧ digits.all (fun c => (hexDigit c).any (· < base)) then
    some (digits.foldl (fun value c => value * base + (hexDigit c).getD 0) 0 : ℕ)
  else none

/-- `Number(text)`; none is `NaN`. -/
def parse (text : List Char) : Option Double :=
  match trim text with
  | [] => some (ofRat 0)
  | '0' :: 'x' :: digits | '0' :: 'X' :: digits => (parseDigits 16 digits).map ofRat
  | '0' :: 'o' :: digits | '0' :: 'O' :: digits => (parseDigits 8 digits).map ofRat
  | '0' :: 'b' :: digits | '0' :: 'B' :: digits => (parseDigits 2 digits).map ofRat
  | '-' :: unsigned =>
      if unsigned = "Infinity".toList then some (.infinite true)
      else (parseUnsigned unsigned).map fun q => ofRat (-q)
  | '+' :: unsigned =>
      if unsigned = "Infinity".toList then some (.infinite false)
      else (parseUnsigned unsigned).map ofRat
  | unsigned =>
      if unsigned = "Infinity".toList then some (.infinite false)
      else (parseUnsigned unsigned).map ofRat

/-- A text of digits is read as the number it is worth. -/
theorem parse_digits {digits : List Char} (hne : digits ≠ [])
    (h : ∀ c ∈ digits, c.isDigit = true) :
    parse digits = some (ofRat (decimalValue digits)) := by
  have htrim : trim digits = digits := trim_eq fun c hc => (digit_not_space (h c hc)).1
  have hunsigned : parseUnsigned digits = some (decimalValue digits : ℚ) := by
    have htake : digits.takeWhile Char.isDigit = digits := List.takeWhile_eq_self_iff.mpr h
    have hdrop : digits.dropWhile Char.isDigit = [] := List.dropWhile_eq_nil_iff.mpr h
    simp [parseUnsigned, htake, hdrop, hne, parseExponent]
  obtain ⟨c, rest, rfl⟩ := List.exists_cons_of_ne_nil hne
  have hc := digit_not_space (h c List.mem_cons_self)
  have hd : ∀ d ∈ rest.head?, d.isDigit = true := fun d hd =>
    h d (List.mem_cons_of_mem _ (List.mem_of_mem_head? hd))
  have hnot : ∀ d, d.isDigit = false → rest.head? ≠ some d := by
    intro d hdigit hhead
    rw [hd d hhead] at hdigit
    cases hdigit
  unfold parse
  rw [htrim]
  split
  · next heq => cases heq
  · next heq =>
      obtain ⟨-, rfl⟩ := List.cons.inj heq
      exact absurd rfl (hnot 'x' (by decide))
  · next heq =>
      obtain ⟨-, rfl⟩ := List.cons.inj heq
      exact absurd rfl (hnot 'X' (by decide))
  · next heq =>
      obtain ⟨-, rfl⟩ := List.cons.inj heq
      exact absurd rfl (hnot 'o' (by decide))
  · next heq =>
      obtain ⟨-, rfl⟩ := List.cons.inj heq
      exact absurd rfl (hnot 'O' (by decide))
  · next heq =>
      obtain ⟨-, rfl⟩ := List.cons.inj heq
      exact absurd rfl (hnot 'b' (by decide))
  · next heq =>
      obtain ⟨-, rfl⟩ := List.cons.inj heq
      exact absurd rfl (hnot 'B' (by decide))
  · next heq => exact absurd (List.cons.inj heq).1 hc.2.1
  · next heq => exact absurd (List.cons.inj heq).1 hc.2.2
  · have hinf : c :: rest ≠ "Infinity".toList := by
      intro heq
      have hI := h c List.mem_cons_self
      rw [(List.cons.inj heq).1] at hI
      exact absurd hI (by decide)
    rw [if_neg hinf, hunsigned]
    rfl

/-! ### Writing -/

/-- The two decimals of a unit around a number, the nearer one first. -/
def around (q unit : ℚ) : List ℤ :=
  let lower := ⌊q / unit⌋
  if q / unit - lower ≤ 1 / 2 then [lower, lower + 1] else [lower + 1, lower]

/-- A decimal `s` of `k` digits before the place `n` of the point that is read as the number,
if there is one. -/
def decimalOf (q : ℚ) (n : ℤ) (k : ℕ) : Option (ℤ × ℕ) :=
  ((around q (10 ^ (n - (k : ℤ)))).find? fun s : ℤ =>
    decide (nearest (s * 10 ^ (n - (k : ℤ))) = q)).map (·, k)

/-- The fewest digits of a positive number and the place of the point; 17 are always enough. -/
def shortest (q : ℚ) : List Char × ℤ :=
  let n := Int.log 10 q + 1
  let found := ((List.range' 1 17).findSome? (decimalOf q n)).getD (⌊q * 10 ^ (17 - n)⌋, 17)
  let digits := Nat.toDigits 10 found.1.toNat
  (digits, n + (digits.length - found.2))

/-- The exponent in a text. -/
def exponentText (e : ℤ) : List Char :=
  'e' :: (if e < 0 then '-' else '+') :: Nat.toDigits 10 e.natAbs

/-- Digits with a point before, between or behind them, or with an exponent. -/
def layout (digits : List Char) (n : ℤ) : List Char :=
  if digits.length ≤ n ∧ n ≤ 21 then digits ++ List.replicate (n - digits.length).toNat '0'
  else if 0 < n ∧ n ≤ 21 then digits.take n.toNat ++ '.' :: digits.drop n.toNat
  else if -6 < n ∧ n ≤ 0 then '0' :: '.' :: (List.replicate (-n).toNat '0' ++ digits)
  else if digits.length = 1 then digits ++ exponentText (n - 1)
  else digits.take 1 ++ '.' :: digits.drop 1 ++ exponentText (n - 1)

/-- The text of a number that is not negative. -/
def textNonneg (q : ℚ) : List Char :=
  if q = 0 then ['0'] else layout (shortest q).1 (shortest q).2

/-- `String(number)`. -/
def text : Double → List Char
  | .finite q _ => if q < 0 then '-' :: textNonneg (-q) else textNonneg q
  | .infinite negative => if negative then "-Infinity".toList else "Infinity".toList

/-! ### Whole numbers as texts -/

theorem decimalValue_replicate (digits : List Char) (k : ℕ) :
    decimalValue (digits ++ List.replicate k '0') = decimalValue digits * 10 ^ k := by
  induction k with
  | zero => simp
  | succ k ih =>
    rw [List.replicate_succ', ← List.append_assoc, decimalValue_append, ih]
    have hzero : digitValue '0' = 0 := rfl
    rw [hzero, pow_succ, Nat.add_zero, Nat.mul_assoc]

/-- Only a whole number is laid out in digits. -/
theorem layout_of_digits {digits : List Char} {n : ℤ}
    (h : ∀ c ∈ layout digits n, c.isDigit = true) : (digits.length : ℤ) ≤ n ∧
      layout digits n = digits ++ List.replicate (n - digits.length).toNat '0' := by
  have hpoint : ¬ '.' ∈ layout digits n := fun hmem => absurd (h _ hmem) (by decide)
  have he : ¬ 'e' ∈ layout digits n := fun hmem => absurd (h _ hmem) (by decide)
  unfold layout at hpoint he ⊢
  split at hpoint
  · next hwhole =>
      rw [if_pos hwhole]
      exact ⟨hwhole.1, rfl⟩
  · next hwhole =>
      rw [if_neg hwhole] at he
      split_ifs at hpoint he
      · simp at hpoint
      · simp at hpoint
      · simp [exponentText] at he
      · simp at hpoint

private theorem ten_zpow_pos (e : ℤ) : (0 : ℚ) < 10 ^ e := zpow_pos (by norm_num) e

/-- Digits that are found are read as the number. -/
theorem shortest_of_found {q : ℚ} (hq : 0 < q) {found : ℤ × ℕ}
    (hfind : (List.range' 1 17).findSome? (decimalOf q (Int.log 10 q + 1)) = some found) :
    ∃ s k : ℕ, (shortest q).1 = Nat.toDigits 10 s ∧
      (shortest q).2 = Int.log 10 q + 1 - k + (shortest q).1.length ∧
        nearest (s * 10 ^ (Int.log 10 q + 1 - k)) = q := by
  obtain ⟨k, -, hk⟩ := List.exists_of_findSome?_eq_some hfind
  obtain ⟨s, hs, rfl⟩ := Option.map_eq_some_iff.mp hk
  have hread := List.find?_some hs
  rw [decide_eq_true_eq] at hread
  have hnonneg : 0 ≤ s := by
    have hfloor : 0 ≤ ⌊q / 10 ^ (Int.log 10 q + 1 - (k : ℤ))⌋ :=
      Int.floor_nonneg.mpr (div_pos hq (ten_zpow_pos _)).le
    have hmem := List.mem_of_find?_eq_some hs
    simp only [around] at hmem
    split at hmem <;> simp only [List.mem_cons, List.not_mem_nil, or_false] at hmem <;> omega
  have hcast : ((s.toNat : ℤ) : ℚ) = s := by rw [Int.toNat_of_nonneg hnonneg]
  refine ⟨s.toNat, k, ?_, ?_, ?_⟩
  · simp only [shortest, hfind, Option.getD_some]
  · simp only [shortest, hfind, Option.getD_some]
    omega
  · rw [← Int.cast_natCast (R := ℚ) s.toNat, hcast]
    exact hread

/-- The digits that are written are read as the number, or they are its first 17. -/
theorem shortest_spec {q : ℚ} (hq : 0 < q) : ∃ s k : ℕ,
    (shortest q).1 = Nat.toDigits 10 s ∧
      (shortest q).2 = Int.log 10 q + 1 - k + (shortest q).1.length ∧
        (nearest (s * 10 ^ (Int.log 10 q + 1 - k)) = q ∨
          k = 17 ∧ (s : ℤ) = ⌊q * 10 ^ (17 - (Int.log 10 q + 1))⌋) := by
  cases hfind : (List.range' 1 17).findSome? (decimalOf q (Int.log 10 q + 1)) with
  | none =>
    have hnonneg : 0 ≤ ⌊q * 10 ^ (17 - (Int.log 10 q + 1))⌋ :=
      Int.floor_nonneg.mpr (mul_pos hq (ten_zpow_pos _)).le
    refine ⟨⌊q * 10 ^ (17 - (Int.log 10 q + 1))⌋.toNat, 17, ?_, ?_,
      .inr ⟨rfl, Int.toNat_of_nonneg hnonneg⟩⟩
    · simp only [shortest, hfind, Option.getD_none]
    · simp only [shortest, hfind, Option.getD_none]
      omega
  | some found =>
    obtain ⟨s, k, hdigits, hplace, hread⟩ := shortest_of_found hq hfind
    exact ⟨s, k, hdigits, hplace, .inl hread⟩

/-- A natural number of 53 bits is not changed by rounding, and a larger one stays as large. -/
theorem eq_nearest_or_le (v : ℕ) : nearest v = v ∨ (2 : ℚ) ^ 53 ≤ nearest v ∧ 2 ^ 53 ≤ v := by
  rcases Nat.lt_or_ge v (2 ^ 53) with hlt | hge
  · refine .inl (nearest_of_representable ⟨v, 0, ?_, by norm_num, by norm_num, by simp⟩)
    rw [abs_of_nonneg (Int.natCast_nonneg v)]
    exact_mod_cast hlt
  · have hge' : (2 : ℚ) ^ (53 : ℤ) ≤ v := by exact_mod_cast hge
    have hpos : (0 : ℚ) < v := lt_of_lt_of_le (by norm_num) hge'
    have hlog : 53 ≤ Int.log 2 (v : ℚ) := (Int.zpow_le_iff_le_log (by norm_num) hpos).mp hge'
    refine .inr ⟨?_, hge⟩
    unfold nearest
    rw [if_neg (not_lt.mpr hpos.le)]
    calc (2 : ℚ) ^ 53 ≤ 2 ^ Int.log 2 (v : ℚ) := by
          exact_mod_cast zpow_le_zpow_right₀ (a := (2 : ℚ)) (by norm_num) hlog
      _ ≤ nearestPos v := two_zpow_log_le_nearestPos hpos (by omega)

/-- **Whole numbers as texts.** A text of digits is worth the number; from 2^53 on it need not be,
but it is as large. -/
theorem decimalValue_text {x : Double} (h : ∀ c ∈ x.text, c.isDigit = true) :
    ∃ (q : ℚ) (hq : Representable q), x = .finite q hq ∧
      ((decimalValue x.text : ℚ) = q ∨ (2 : ℚ) ^ 53 ≤ q ∧ 2 ^ 53 ≤ decimalValue x.text) := by
  cases x with
  | infinite negative =>
    cases negative with
    | true => exact absurd (h '-' (by decide)) (by decide)
    | false => exact absurd (h 'I' (by decide)) (by decide)
  | finite q hq =>
    refine ⟨q, hq, rfl, ?_⟩
    simp only [text] at h ⊢
    split at h
    · exact absurd (h '-' List.mem_cons_self) (by decide)
    next hneg =>
    rw [if_neg hneg]
    unfold textNonneg at h ⊢
    split at h
    · next hzero =>
        rw [if_pos hzero, hzero]
        exact .inl rfl
    next hzero =>
    rw [if_neg hzero]
    have hpos : 0 < q := lt_of_le_of_ne (not_lt.mp hneg) (Ne.symm hzero)
    obtain ⟨hle, hlayout⟩ := layout_of_digits h
    obtain ⟨s, k, hdigits, hplace, hs⟩ := shortest_spec hpos
    obtain ⟨m, hm⟩ : ∃ m : ℕ, Int.log 10 q + 1 - k = m :=
      ⟨(Int.log 10 q + 1 - k).toNat, by omega⟩
    have hzeros : ((shortest q).2 - ((shortest q).1.length : ℤ)).toNat = m := by omega
    have hvalue : decimalValue (layout (shortest q).1 (shortest q).2) = s * 10 ^ m := by
      rw [hlayout, hzeros, decimalValue_replicate, hdigits, (toDigits_spec s).2]
    rw [hvalue]
    rcases hs with hread | ⟨rfl, hfirst⟩
    · rw [hm, zpow_natCast] at hread
      have hcast : ((s * 10 ^ m : ℕ) : ℚ) = s * 10 ^ m := by push_cast; rfl
      rw [← hcast] at hread
      rcases eq_nearest_or_le (s * 10 ^ m) with hsame | hlarge
      · exact .inl (hsame.symm.trans hread)
      · exact .inr (hread ▸ hlarge)
    · have hself : (10 : ℚ) ^ Int.log 10 q ≤ q := by
        exact_mod_cast Int.zpow_log_le_self (b := 10) (by norm_num) hpos
      have hlog : 16 ≤ Int.log 10 q := by omega
      have hq : (10 : ℚ) ^ (16 : ℤ) ≤ q :=
        (zpow_le_zpow_right₀ (by norm_num) hlog).trans hself
      have hs : (10 : ℤ) ^ 16 ≤ s := by
        rw [hfirst, Int.le_floor]
        calc (((10 : ℤ) ^ 16 : ℤ) : ℚ) = 10 ^ Int.log 10 q * 10 ^ (17 - (Int.log 10 q + 1)) := by
              rw [← zpow_add₀ (by norm_num), show Int.log 10 q + (17 - (Int.log 10 q + 1)) =
                (16 : ℕ) from by omega, zpow_natCast]
              norm_cast
          _ ≤ q * 10 ^ (17 - (Int.log 10 q + 1)) :=
              mul_le_mul_of_nonneg_right hself (ten_zpow_pos _).le
      have hs' : 10 ^ 16 ≤ s := by exact_mod_cast hs
      refine .inr ⟨le_trans (by norm_num) hq, ?_⟩
      calc 2 ^ 53 ≤ 10 ^ 16 := by norm_num
        _ ≤ s := hs'
        _ ≤ s * 10 ^ m := Nat.le_mul_of_pos_right s (by positivity)

/-- Behind its leading digits the text of a number that is not negative has a point or an exponent. -/
theorem head_dropWhile_textNonneg {q : ℚ} (hq : 0 ≤ q) :
    ∀ c ∈ ((textNonneg q).dropWhile Char.isDigit).head?, c = '.' ∨ c = 'e' := by
  have hdrop : ∀ {front : List Char} {c : Char} {rest : List Char}, (∀ d ∈ front, d.isDigit = true) →
      c.isDigit = false → ((front ++ c :: rest).dropWhile Char.isDigit).head? = some c := by
    intro front c rest hfront hc
    rw [List.dropWhile_append_of_pos hfront, List.dropWhile_cons_of_neg (by simp [hc])]
    rfl
  unfold textNonneg
  split
  · intro c hc
    cases hc
  next hzero =>
  have hpos : 0 < q := lt_of_le_of_ne hq (Ne.symm hzero)
  obtain ⟨s, k, hdigits, -, -⟩ := shortest_spec hpos
  have hall : ∀ c ∈ (shortest q).1, c.isDigit = true := hdigits ▸ (toDigits_spec s).1
  have htake : ∀ m, ∀ c ∈ (shortest q).1.take m, c.isDigit = true := fun m c hc =>
    hall c (List.mem_of_mem_take hc)
  unfold layout
  split_ifs with hwhole hinner hsmall hone
  · rw [List.dropWhile_eq_nil_iff.mpr]
    · simp
    · intro c hc
      rcases List.mem_append.mp hc with hc | hc
      · exact hall c hc
      · rw [(List.mem_replicate.mp hc).2]
        decide
  · intro c hc
    rw [hdrop (htake _) (by decide)] at hc
    exact .inl (Option.some.inj hc).symm
  · intro c hc
    rw [show '0' :: '.' :: (List.replicate (-(shortest q).2).toNat '0' ++ (shortest q).1) =
      ['0'] ++ '.' :: (List.replicate (-(shortest q).2).toNat '0' ++ (shortest q).1) from rfl,
      hdrop (List.forall_mem_singleton.mpr rfl) rfl] at hc
    exact .inl (Option.some.inj hc).symm
  · intro c hc
    rw [exponentText, hdrop hall (by decide)] at hc
    exact .inr (Option.some.inj hc).symm
  · intro c hc
    rw [List.append_assoc, List.cons_append, hdrop (htake _) (by decide)] at hc
    exact .inl (Option.some.inj hc).symm

theorem toDigits_mul_pow {s : ℕ} (hs : 0 < s) (m : ℕ) :
    Nat.toDigits 10 (s * 10 ^ m) = Nat.toDigits 10 s ++ List.replicate m '0' := by
  induction m with
  | zero => simp
  | succ m ih =>
    have hpos : 0 < s * 10 ^ m := Nat.mul_pos hs (by positivity)
    rw [pow_succ, ← Nat.mul_assoc, Nat.toDigits_of_base_le (by decide) (by omega),
      Nat.mul_div_cancel _ (by decide), Nat.mul_mod_left, ih, List.replicate_succ',
      ← List.append_assoc]
    rfl

/-- The decimal of a whole number is found at its last digit at the latest. -/
theorem decimalOf_whole {n : ℕ} (hpos : 0 < n) (h : Representable n) :
    decimalOf n (Nat.log 10 n + 1 : ℕ) (Nat.log 10 n + 1) = some ((n : ℤ), Nat.log 10 n + 1) := by
  have haround : around (n : ℚ) 1 = [(n : ℤ), n + 1] := by
    simp [around]
  rw [decimalOf, sub_self, zpow_zero, haround]
  simp [nearest_of_representable h]

/-- A whole number is written as the digits of a number and zeros. That number with the zeros is
rounded to it, or has its first 17 digits. -/
theorem shortest_whole {n : ℕ} (hpos : 0 < n) (h : Representable n) : ∃ s m : ℕ,
    (shortest n).1 = Nat.toDigits 10 s ∧ (shortest n).2 = (Nat.toDigits 10 s).length + m ∧
      (nearest (s * 10 ^ m : ℕ) = n ∨ 10 ^ 16 ≤ s ∧ s * 10 ^ m ≤ n ∧ n < (s + 1) * 10 ^ m) := by
  have hpos' : (0 : ℚ) < n := by exact_mod_cast hpos
  obtain ⟨digits, hdigits⟩ : ∃ digits, digits = Nat.log 10 n + 1 := ⟨_, rfl⟩
  have hlog : Int.log 10 (n : ℚ) + 1 = digits := by
    rw [Int.log_natCast, hdigits]
    push_cast
    rfl
  have hexact := decimalOf_whole hpos h
  rw [← hdigits] at hexact
  cases hfound : (List.range' 1 17).findSome? (decimalOf n digits) with
  | none =>
    have hlong : 17 < digits := by
      by_contra hshort
      have hmem : digits ∈ List.range' 1 17 := List.mem_range'_1.mpr ⟨by omega, by omega⟩
      rw [List.findSome?_eq_none_iff.mp hfound digits hmem] at hexact
      cases hexact
    obtain ⟨m, rfl⟩ : ∃ m, digits = m + 17 := ⟨digits - 17, by omega⟩
    have hfloor : ⌊(n : ℚ) * 10 ^ (17 - ((m + 17 : ℕ) : ℤ))⌋ = (n / 10 ^ m : ℕ) := by
      have hunit : (n : ℚ) * 10 ^ (17 - ((m + 17 : ℕ) : ℤ)) = (n : ℚ) / (10 ^ m : ℕ) := by
        have hexponent : 17 - ((m + 17 : ℕ) : ℤ) = -(m : ℤ) := by omega
        rw [hexponent, zpow_neg, zpow_natCast]
        push_cast
        rfl
      rw [hunit, Rat.floor_natCast_div_natCast]
      rfl
    have hpow : 10 ^ 16 * 10 ^ m ≤ n := by
      have hexponent : 16 + m = Nat.log 10 n := by omega
      rw [← pow_add, hexponent]
      exact Nat.pow_log_le_self 10 hpos.ne'
    refine ⟨n / 10 ^ m, m, ?_, ?_, .inr ⟨?_, Nat.div_mul_le_self _ _, ?_⟩⟩
    · simp only [shortest, hlog, hfound, Option.getD_none, hfloor, Int.toNat_natCast]
    · simp only [shortest, hlog, hfound, Option.getD_none, hfloor, Int.toNat_natCast]
      omega
    · exact (Nat.le_div_iff_mul_le (by positivity)).mpr hpow
    · rw [mul_comm]
      exact Nat.lt_mul_div_succ n (by positivity)
  | some found =>
    obtain ⟨front, k, rest, hrange, hk, hfront⟩ := List.findSome?_eq_some_iff.mp hfound
    have hle : k ≤ digits := by
      rcases Nat.lt_or_ge 17 digits with hlong | hshort
      · have hmem : k ∈ List.range' 1 17 := by
          rw [hrange]
          exact List.mem_append_right _ List.mem_cons_self
        have hbound := List.mem_range'_1.mp hmem
        omega
      have hlast : digits ∈ List.range' 1 17 := List.mem_range'_1.mpr ⟨by omega, by omega⟩
      rw [hrange, List.mem_append, List.mem_cons] at hlast
      rcases hlast with hmem | rfl | hmem
      · rw [hfront digits hmem] at hexact
        cases hexact
      · exact le_rfl
      · have hsorted := List.pairwise_lt_range' (s := 1) (n := 17)
        rw [hrange, List.pairwise_append] at hsorted
        exact ((List.pairwise_cons.mp hsorted.2.1).1 digits hmem).le
    obtain ⟨m, hm⟩ : ∃ m : ℕ, (digits : ℤ) - k = m := ⟨digits - k, by omega⟩
    obtain ⟨s, hs, rfl⟩ := Option.map_eq_some_iff.mp hk
    have hread := List.find?_some hs
    rw [decide_eq_true_eq, hm, zpow_natCast] at hread
    have hnonneg : 0 ≤ s := by
      have hfloor : 0 ≤ ⌊(n : ℚ) / 10 ^ ((digits : ℤ) - k)⌋ :=
        Int.floor_nonneg.mpr (div_pos hpos' (ten_zpow_pos _)).le
      have hmem := List.mem_of_find?_eq_some hs
      simp only [around] at hmem
      split at hmem <;> simp only [List.mem_cons, List.not_mem_nil, or_false] at hmem <;> omega
    obtain ⟨s, rfl⟩ := Int.eq_ofNat_of_zero_le hnonneg
    refine ⟨s, m, ?_, ?_, .inl ?_⟩
    · simp only [shortest, hlog, hfound, Option.getD_some, Int.toNat_natCast]
    · simp only [shortest, hlog, hfound, Option.getD_some, Int.toNat_natCast]
      omega
    · have hcast : ((s * 10 ^ m : ℕ) : ℚ) = ((s : ℤ) : ℚ) * 10 ^ m := by push_cast; rfl
      rw [hcast]
      exact hread

/-- Below 2^53 the digits are exact. -/
theorem shortest_natCast {n : ℕ} (hpos : 0 < n) (hn : n < 2 ^ 53) :
    ∃ s m : ℕ, (shortest n).1 = Nat.toDigits 10 s ∧
      (shortest n).2 = (Nat.toDigits 10 s).length + m ∧ s * 10 ^ m = n := by
  have hrep : Representable (n : ℚ) := by
    refine representable_intCast (n := n) ?_
    rw [abs_of_nonneg (Int.natCast_nonneg n)]
    exact_mod_cast hn.le
  obtain ⟨s, m, hdigits, hplace, hread | ⟨hlarge, hle, -⟩⟩ := shortest_whole hpos hrep
  · refine ⟨s, m, hdigits, hplace, ?_⟩
    rcases eq_nearest_or_le (s * 10 ^ m) with hsame | ⟨hlarge, -⟩
    · exact_mod_cast hsame.symm.trans hread
    · rw [hread] at hlarge
      have : (2 : ℕ) ^ 53 ≤ n := by exact_mod_cast hlarge
      omega
  · have hmul : s ≤ s * 10 ^ m := Nat.le_mul_of_pos_right s (by positivity)
    omega

/-- **The text of a whole number** below 2^53 is its decimal digits. -/
theorem text_natCast {n : ℕ} (hn : n < 2 ^ 53) (h : Representable n) :
    (finite n h).text = Nat.toDigits 10 n := by
  have hnonneg : ¬ (n : ℚ) < 0 := not_lt.mpr (Nat.cast_nonneg n)
  rw [text, if_neg hnonneg, textNonneg]
  rcases Nat.eq_zero_or_pos n with rfl | hpos
  · rw [if_pos Nat.cast_zero, Nat.toDigits_zero]
  rw [if_neg (by exact_mod_cast hpos.ne')]
  obtain ⟨s, m, hdigits, hplace, hs⟩ := shortest_natCast hpos hn
  have hspos : 0 < s := by
    rcases Nat.eq_zero_or_pos s with rfl | hspos
    · omega
    · exact hspos
  have hsplit := toDigits_mul_pow hspos m
  rw [hs] at hsplit
  have hlength : (Nat.toDigits 10 n).length ≤ 16 :=
    (Nat.length_toDigits_le_iff (by decide) (by decide)).mpr (by omega)
  rw [hsplit, List.length_append, List.length_replicate] at hlength
  rw [hdigits, hplace, layout, if_pos (by omega), hsplit]
  congr 2
  omega

end Double

end Lopata

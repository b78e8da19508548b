import Mathlib.Data.Int.Notation
import Mathlib.Data.List.Basic
import Mathlib.Data.List.TakeWhile

/-!
# Texts

What the platform's text functions do: white space, the decoding of UTF-8 with replacement
characters, and numbers. A text is a list of characters.

## Main results

* `decodeUtf8_ascii`: ASCII at the start of a text is decoded byte by byte, whatever follows.
* `parseHex_digits`: a text of hexadecimal digits is parsed to its value.
* `parseDecimal_decimal`: a number is parsed from its decimal text.
* `decodeUtf16_encodeUtf16`: characters written as UTF-16 are read back.
-/

namespace Lopata

/-! ### White space -/

/-- White space of `trim` and of `\s`. -/
def isSpace (c : Char) : Bool :=
  c.toNat ∈ [9, 10, 11, 12, 13, 32, 160, 5760, 8232, 8233, 8239, 8287, 12288, 65279] ||
    (8192 ≤ c.toNat && c.toNat ≤ 8202)

def trim (text : List Char) : List Char :=
  ((text.dropWhile isSpace).reverse.dropWhile isSpace).reverse

/-- A text without white space is its own trim. -/
theorem trim_eq {text : List Char} (h : ∀ c ∈ text, isSpace c = false) : trim text = text := by
  have hdrop : ∀ {l : List Char}, (∀ c ∈ l, isSpace c = false) → l.dropWhile isSpace = l := by
    intro l hl
    cases l with
    | nil => rfl
    | cons c l => rw [List.dropWhile_cons_of_neg (by simp [hl c List.mem_cons_self])]
  rw [trim, hdrop h, hdrop fun c hc => h c (List.mem_reverse.mp hc), List.reverse_reverse]

theorem dropWhile_space {text rest : List Char} (hhead : ∀ c ∈ text.head?, isSpace c = false)
    (hrest : ∀ c ∈ rest, isSpace c = true) :
    (text ++ rest).dropWhile isSpace = if text = [] then [] else text ++ rest := by
  cases text with
  | nil => exact List.dropWhile_eq_nil_iff.mpr hrest
  | cons c text => exact List.dropWhile_cons_of_neg (by simp [hhead c rfl])

/-- White space at both ends is left out, up to what is no white space. -/
theorem trim_append {before text after : List Char} (hbefore : ∀ c ∈ before, isSpace c = true)
    (hafter : ∀ c ∈ after, isSpace c = true) (hhead : ∀ c ∈ text.head?, isSpace c = false)
    (hlast : ∀ c ∈ text.getLast?, isSpace c = false) : trim (before ++ text ++ after) = text := by
  rw [trim, List.append_assoc, List.dropWhile_append_of_pos hbefore, dropWhile_space hhead hafter]
  split
  · next hnil => exact hnil.symm
  · next hne =>
    have hrev : ∀ c ∈ after.reverse, isSpace c = true := by simpa using hafter
    have hend := @dropWhile_space text.reverse [] (by simpa using hlast) (by simp)
    rw [List.append_nil, if_neg (by simpa using hne)] at hend
    rw [List.reverse_append, List.dropWhile_append_of_pos hrev, hend, List.reverse_reverse]

/-! ### UTF-8 -/

/-- The decoder's state inside a character. -/
structure Utf8Pending where
  codePoint : ℕ
  bytesNeeded : ℕ
  lowerBoundary : ℕ := 0x80
  upperBoundary : ℕ := 0xBF

/-- U+FFFD. -/
def replacement : Char := Char.ofNat 0xFFFD

/-- The first byte of a character. -/
def utf8First (b : UInt8) : List Char × Option Utf8Pending :=
  let n := b.toNat
  if n ≤ 0x7F then ([Char.ofNat n], none)
  else if 0xC2 ≤ n ∧ n ≤ 0xDF then ([], some { codePoint := n % 0x20, bytesNeeded := 1 })
  else if 0xE0 ≤ n ∧ n ≤ 0xEF then
    ([], some {
      codePoint := n % 0x10
      bytesNeeded := 2
      lowerBoundary := if n = 0xE0 then 0xA0 else 0x80
      upperBoundary := if n = 0xED then 0x9F else 0xBF })
  else if 0xF0 ≤ n ∧ n ≤ 0xF4 then
    ([], some {
      codePoint := n % 0x8
      bytesNeeded := 3
      lowerBoundary := if n = 0xF0 then 0x90 else 0x80
      upperBoundary := if n = 0xF4 then 0x8F else 0xBF })
  else ([replacement], none)

/-- A byte: one that does not continue a character ends it and is read again. -/
def utf8Byte (state : Option Utf8Pending) (b : UInt8) : List Char × Option Utf8Pending :=
  match state with
  | none => utf8First b
  | some p =>
      if p.lowerBoundary ≤ b.toNat ∧ b.toNat ≤ p.upperBoundary then
        let codePoint := p.codePoint * 0x40 + b.toNat % 0x40
        if p.bytesNeeded = 1 then ([Char.ofNat codePoint], none)
        else ([], some { codePoint := codePoint, bytesNeeded := p.bytesNeeded - 1 })
      else (replacement :: (utf8First b).1, (utf8First b).2)

def utf8Decode : Option Utf8Pending → List UInt8 → List Char
  | none, [] => []
  | some _, [] => [replacement]
  | state, b :: bytes => (utf8Byte state b).1 ++ utf8Decode (utf8Byte state b).2 bytes

/-- `TextDecoder.decode`: a byte order mark at the start is left out. -/
def decodeUtf8 (bytes : List UInt8) : List Char :=
  match utf8Decode none bytes with
  | [] => []
  | c :: text => if c.toNat = 0xFEFF then text else c :: text

/-- The byte of a character of ASCII. -/
def asciiByte (c : Char) : UInt8 := UInt8.ofNat c.toNat

theorem asciiByte_toNat {c : Char} (h : c.toNat < 0x80) : (asciiByte c).toNat = c.toNat := by
  rw [asciiByte, UInt8.toNat_ofNat']
  exact Nat.mod_eq_of_lt (by omega)

theorem utf8Decode_ascii {text : List Char} (h : ∀ c ∈ text, c.toNat < 0x80)
    (bytes : List UInt8) :
    utf8Decode none (text.map asciiByte ++ bytes) = text ++ utf8Decode none bytes := by
  induction text with
  | nil => rfl
  | cons c text ih =>
    have hc := h c List.mem_cons_self
    have hfirst : utf8First (asciiByte c) = ([c], none) := by
      rw [utf8First, asciiByte_toNat hc, if_pos (by omega), Char.ofNat_toNat]
    rw [List.map_cons, List.cons_append, utf8Decode, utf8Byte, hfirst,
      ih fun d hd => h d (List.mem_cons_of_mem _ hd)]
    rfl

/-- ASCII at the start is decoded byte by byte. -/
theorem decodeUtf8_ascii {text : List Char} (hne : text ≠ []) (h : ∀ c ∈ text, c.toNat < 0x80)
    (bytes : List UInt8) :
    decodeUtf8 (text.map asciiByte ++ bytes) = text ++ utf8Decode none bytes := by
  rw [decodeUtf8, utf8Decode_ascii h]
  cases text with
  | nil => exact absurd rfl hne
  | cons c text =>
    have hc := h c List.mem_cons_self
    exact if_neg (by omega)

/-! ### Hexadecimal numbers -/

/-- The value of a hexadecimal digit. -/
def hexDigit (c : Char) : Option ℕ :=
  let n := c.toNat
  if 48 ≤ n ∧ n ≤ 57 then some (n - 48)
  else if 97 ≤ n ∧ n ≤ 102 then some (n - 87)
  else if 65 ≤ n ∧ n ≤ 70 then some (n - 55)
  else none

def isHex (c : Char) : Bool := (hexDigit c).isSome

def hexValue (digits : List Char) : ℕ :=
  digits.foldl (fun value c => value * 16 + (hexDigit c).getD 0) 0

/-- `parseInt(text, 16)`; none is `NaN`. From 2^53 on, which no length is, it would round. -/
def parseHex (text : List Char) : Option ℤ :=
  let text := text.dropWhile isSpace
  let negative := text.head? = some '-'
  let text := if text.head? = some '-' ∨ text.head? = some '+' then text.tail else text
  let text := if text.take 2 = ['0', 'x'] ∨ text.take 2 = ['0', 'X'] then text.drop 2 else text
  let digits := text.takeWhile isHex
  if digits = [] then none
  else some (if negative then -(hexValue digits : ℤ) else hexValue digits)

theorem toNat_of_isHex {c : Char} (h : isHex c = true) :
    48 ≤ c.toNat ∧ c.toNat ≤ 57 ∨ 97 ≤ c.toNat ∧ c.toNat ≤ 102 ∨
      65 ≤ c.toNat ∧ c.toNat ≤ 70 := by
  unfold isHex hexDigit at h
  dsimp only at h
  split at h
  · next hdigit => exact .inl hdigit
  · split at h
    · next hlower => exact .inr (.inl hlower)
    · split at h
      · next hupper => exact .inr (.inr hupper)
      · cases h

theorem isSpace_of_isHex {c : Char} (h : isHex c = true) : isSpace c = false := by
  have hn := toNat_of_isHex h
  simp only [isSpace, List.mem_cons, List.not_mem_nil, or_false, Bool.or_eq_false_iff,
    decide_eq_false_iff_not, Bool.and_eq_false_iff]
  omega

theorem ascii_of_isHex {c : Char} (h : isHex c = true) : c.toNat < 0x80 := by
  have hn := toNat_of_isHex h
  omega

/-- A text of digits is parsed to its value. -/
theorem parseHex_digits {digits : List Char} (hne : digits ≠ [])
    (h : ∀ c ∈ digits, isHex c = true) : parseHex digits = some (hexValue digits : ℤ) := by
  obtain ⟨c, rest, rfl⟩ := List.exists_cons_of_ne_nil hne
  have hc := h c List.mem_cons_self
  have hsign : ∀ d, isHex d = false → c ≠ d := by
    rintro d hd rfl
    cases hc.symm.trans hd
  have hx : ∀ d, isHex d = false → (c :: rest).take 2 ≠ ['0', d] := by
    intro d hd heq
    have hmem : d ∈ (c :: rest).take 2 := heq ▸ List.mem_cons_of_mem _ List.mem_cons_self
    cases (h d (List.mem_of_mem_take hmem)).symm.trans hd
  have htake : (c :: rest).takeWhile isHex = c :: rest := List.takeWhile_eq_self_iff.mpr h
  have hdrop : (c :: rest).dropWhile isSpace = c :: rest :=
    List.dropWhile_cons_of_neg (by simp [isSpace_of_isHex hc])
  have hminus := hsign '-' (by decide)
  have hplus := hsign '+' (by decide)
  have hlower := hx 'x' (by decide)
  have hupper := hx 'X' (by decide)
  simp only [parseHex, hdrop, List.head?_cons, Option.some.injEq, hminus, hplus, or_self, if_false,
    hlower, hupper, htake, reduceCtorEq]

/-! ### Decimal numbers -/

def digitValue (c : Char) : ℕ := c.toNat - 48

def decimalValue (digits : List Char) : ℕ :=
  digits.foldl (fun value c => value * 10 + digitValue c) 0

/-- `parseInt(text, 10)`; none is `NaN`. From 2^53 on it would round. -/
def parseDecimal (text : List Char) : Option ℤ :=
  let text := text.dropWhile isSpace
  let negative := text.head? = some '-'
  let text := if text.head? = some '-' ∨ text.head? = some '+' then text.tail else text
  let digits := text.takeWhile Char.isDigit
  if digits = [] then none
  else some (if negative then -(decimalValue digits : ℤ) else decimalValue digits)

/-- `String(i)`. -/
def decimal : ℤ → List Char
  | .ofNat n => Nat.toDigits 10 n
  | .negSucc n => '-' :: Nat.toDigits 10 (n + 1)

theorem decimalValue_append (digits : List Char) (c : Char) :
    decimalValue (digits ++ [c]) = decimalValue digits * 10 + digitValue c := by
  rw [decimalValue, List.foldl_append]
  rfl

theorem digitChar_spec {n : ℕ} (h : n < 10) :
    digitValue (Nat.digitChar n) = n ∧ (Nat.digitChar n).isDigit = true := by
  have hall : ∀ n < 10, digitValue (Nat.digitChar n) = n ∧ (Nat.digitChar n).isDigit = true := by
    decide
  exact hall n h

/-- The digits of a number, and what they are worth. -/
theorem toDigits_spec (n : ℕ) :
    (∀ c ∈ Nat.toDigits 10 n, c.isDigit = true) ∧ decimalValue (Nat.toDigits 10 n) = n := by
  induction n using Nat.strongRecOn with
  | ind n ih =>
    by_cases hlt : n < 10
    · obtain ⟨hvalue, hdigit⟩ := digitChar_spec hlt
      rw [Nat.toDigits_of_lt_base hlt]
      refine ⟨fun c hc => List.mem_singleton.mp hc ▸ hdigit, ?_⟩
      rw [decimalValue, List.foldl_cons, List.foldl_nil, hvalue]
      omega
    · obtain ⟨hdigits, hvalue⟩ := ih (n / 10) (by omega)
      obtain ⟨hlast, hdigit⟩ := digitChar_spec (n := n % 10) (Nat.mod_lt _ (by decide))
      rw [Nat.toDigits_of_base_le (by decide) (by omega)]
      refine ⟨?_, ?_⟩
      · intro c hc
        rcases List.mem_append.mp hc with hc | hc
        · exact hdigits c hc
        · exact List.mem_singleton.mp hc ▸ hdigit
      · rw [decimalValue_append, hvalue, hlast]
        omega

theorem digit_not_space {c : Char} (h : c.isDigit = true) :
    isSpace c = false ∧ c ≠ '-' ∧ c ≠ '+' := by
  have hn : 48 ≤ c.toNat ∧ c.toNat ≤ 57 := by
    simpa [Char.isDigit, UInt32.le_iff_toNat_le] using h
  refine ⟨?_, ?_, ?_⟩
  · simp only [isSpace, List.mem_cons, List.not_mem_nil, or_false, Bool.or_eq_false_iff,
      decide_eq_false_iff_not, Bool.and_eq_false_iff]
    omega
  · rintro rfl
    cases h
  · rintro rfl
    cases h

/-- A number is parsed from its decimal text. -/
theorem parseDecimal_decimal (n : ℕ) : parseDecimal (decimal n) = some (n : ℤ) := by
  obtain ⟨hdigits, hvalue⟩ := toDigits_spec n
  obtain ⟨c, rest, hcons⟩ := List.exists_cons_of_ne_nil (Nat.toDigits_ne_nil (n := n) (b := 10))
  have hdecimal : decimal (n : ℤ) = Nat.toDigits 10 n := rfl
  rw [hdecimal]
  have hc := hdigits c (hcons ▸ List.mem_cons_self)
  obtain ⟨hspace, hminus, hplus⟩ := digit_not_space hc
  have htake : (Nat.toDigits 10 n).takeWhile Char.isDigit = Nat.toDigits 10 n :=
    List.takeWhile_eq_self_iff.mpr hdigits
  rw [hcons] at htake hvalue ⊢
  have hdrop : (c :: rest).dropWhile isSpace = c :: rest :=
    List.dropWhile_cons_of_neg (by simp [hspace])
  simp only [parseDecimal, hdrop, List.head?_cons, Option.some.injEq, hminus, hplus, or_self,
    if_false, htake, reduceCtorEq, hvalue]

/-- An integer is parsed from its decimal text. -/
theorem parseDecimal_decimal_int (i : ℤ) : parseDecimal (decimal i) = some i := by
  cases i with
  | ofNat n => exact parseDecimal_decimal n
  | negSucc n =>
    obtain ⟨hdigits, hvalue⟩ := toDigits_spec (n + 1)
    have hdecimal : decimal (.negSucc n) = '-' :: Nat.toDigits 10 (n + 1) := rfl
    have htake : (Nat.toDigits 10 (n + 1)).takeWhile Char.isDigit = Nat.toDigits 10 (n + 1) :=
      List.takeWhile_eq_self_iff.mpr hdigits
    have hdrop : ('-' :: Nat.toDigits 10 (n + 1)).dropWhile isSpace =
        '-' :: Nat.toDigits 10 (n + 1) := List.dropWhile_cons_of_neg (by decide)
    rw [hdecimal, parseDecimal]
    simp only [hdrop, List.head?_cons, if_true, true_or, List.tail_cons, htake,
      Nat.toDigits_ne_nil, if_false, hvalue]
    exact congrArg some (Int.negSucc_eq n).symm

theorem decimal_ne_nil (i : ℤ) : decimal i ≠ [] := by
  cases i with
  | ofNat n => exact Nat.toDigits_ne_nil
  | negSucc n => exact List.cons_ne_nil _ _

/-! ### UTF-16 -/

/-- The first half of a pair. -/
def isHighSurrogate (u : UInt16) : Bool := 0xD800 ≤ u.toNat && u.toNat < 0xDC00

/-- The second half of a pair. -/
def isLowSurrogate (u : UInt16) : Bool := 0xDC00 ≤ u.toNat && u.toNat < 0xE000

/-- The character of a code unit that is in no pair. -/
def singleUnit (u : UInt16) : Char :=
  if isHighSurrogate u || isLowSurrogate u then replacement else Char.ofNat u.toNat

/-- The characters of a string of code units; a surrogate without its other half is read as
U+FFFD. -/
def decodeUtf16 : List UInt16 → List Char
  | [] => []
  | [u] => [singleUnit u]
  | u :: v :: rest =>
      if isHighSurrogate u && isLowSurrogate v then
        Char.ofNat (0x10000 + (u.toNat - 0xD800) * 0x400 + (v.toNat - 0xDC00)) :: decodeUtf16 rest
      else singleUnit u :: decodeUtf16 (v :: rest)

/-- The code units of a character. -/
def charUnits (c : Char) : List UInt16 :=
  if c.toNat < 0x10000 then [UInt16.ofNat c.toNat]
  else
    [UInt16.ofNat (0xD800 + (c.toNat - 0x10000) / 0x400),
      UInt16.ofNat (0xDC00 + (c.toNat - 0x10000) % 0x400)]

def encodeUtf16 (text : List Char) : List UInt16 := text.flatMap charUnits

theorem decodeUtf16_single {u : UInt16} (h : isHighSurrogate u = false) (rest : List UInt16) :
    decodeUtf16 (u :: rest) = singleUnit u :: decodeUtf16 rest := by
  cases rest with
  | nil => rfl
  | cons v rest => rw [decodeUtf16, h, Bool.false_and, if_neg Bool.false_ne_true]

theorem decodeUtf16_charUnits (c : Char) (rest : List UInt16) :
    decodeUtf16 (charUnits c ++ rest) = c :: decodeUtf16 rest := by
  have hvalid : c.toNat < 0xD800 ∨ 0xDFFF < c.toNat ∧ c.toNat < 0x110000 := c.valid
  by_cases hbmp : c.toNat < 0x10000
  · have hunit : (UInt16.ofNat c.toNat).toNat = c.toNat := by
      rw [UInt16.toNat_ofNat']
      exact Nat.mod_eq_of_lt hbmp
    have hhigh : isHighSurrogate (UInt16.ofNat c.toNat) = false := by
      rw [isHighSurrogate, hunit]
      simp
      omega
    have hlow : isLowSurrogate (UInt16.ofNat c.toNat) = false := by
      rw [isLowSurrogate, hunit]
      simp
      omega
    rw [charUnits, if_pos hbmp, List.cons_append, List.nil_append, decodeUtf16_single hhigh,
      singleUnit, hhigh, hlow, Bool.or_self, if_neg Bool.false_ne_true, hunit, Char.ofNat_toNat]
  · have hlt : c.toNat < 0x110000 := by omega
    have hfirst : (UInt16.ofNat (0xD800 + (c.toNat - 0x10000) / 0x400)).toNat =
        0xD800 + (c.toNat - 0x10000) / 0x400 := by
      rw [UInt16.toNat_ofNat']
      exact Nat.mod_eq_of_lt (by omega)
    have hsecond : (UInt16.ofNat (0xDC00 + (c.toNat - 0x10000) % 0x400)).toNat =
        0xDC00 + (c.toNat - 0x10000) % 0x400 := by
      rw [UInt16.toNat_ofNat']
      exact Nat.mod_eq_of_lt (by omega)
    have hhigh : isHighSurrogate (UInt16.ofNat (0xD800 + (c.toNat - 0x10000) / 0x400)) = true := by
      rw [isHighSurrogate, hfirst]
      simp
      omega
    have hlow : isLowSurrogate (UInt16.ofNat (0xDC00 + (c.toNat - 0x10000) % 0x400)) = true := by
      rw [isLowSurrogate, hsecond]
      simp
      omega
    have hchar : 0x10000 + (0xD800 + (c.toNat - 0x10000) / 0x400 - 0xD800) * 0x400 +
        (0xDC00 + (c.toNat - 0x10000) % 0x400 - 0xDC00) = c.toNat := by omega
    rw [charUnits, if_neg hbmp, List.cons_append, List.cons_append, List.nil_append, decodeUtf16,
      hhigh, hlow, Bool.and_self, if_pos rfl, hfirst, hsecond, hchar, Char.ofNat_toNat]

/-- Characters written as UTF-16 are read back. -/
theorem decodeUtf16_encodeUtf16 (text : List Char) : decodeUtf16 (encodeUtf16 text) = text := by
  induction text with
  | nil => rfl
  | cons c text ih =>
    rw [encodeUtf16, List.flatMap_cons, decodeUtf16_charUnits]
    exact congrArg (c :: ·) ih

theorem encodeUtf16_injective : Function.Injective encodeUtf16 :=
  Function.LeftInverse.injective decodeUtf16_encodeUtf16

/-- Texts are prefixes if their strings are. -/
theorem encodeUtf16_prefix {cs ds : List Char} : encodeUtf16 cs <+: encodeUtf16 ds ↔ cs <+: ds := by
  constructor
  · rintro ⟨rest, heq⟩
    refine ⟨decodeUtf16 rest, ?_⟩
    have hdecode : decodeUtf16 (encodeUtf16 cs ++ rest) = cs ++ decodeUtf16 rest := by
      clear heq
      induction cs with
      | nil => rfl
      | cons c cs ih =>
        rw [encodeUtf16, List.flatMap_cons, List.append_assoc, decodeUtf16_charUnits]
        exact congrArg (c :: ·) ih
    rw [← hdecode, heq, decodeUtf16_encodeUtf16]
  · rintro ⟨rest, rfl⟩
    exact ⟨encodeUtf16 rest, List.flatMap_append.symm⟩

/-- The bytes of a text in UTF-8. -/
def encodeUtf8 (text : List Char) : List UInt8 := text.flatMap String.utf8EncodeChar

theorem length_le_length_encodeUtf8 (text : List Char) :
    text.length ≤ (encodeUtf8 text).length := by
  induction text with
  | nil => exact Nat.zero_le _
  | cons c text ih =>
    have hc := c.utf8Size_pos
    rw [encodeUtf8, List.flatMap_cons, List.length_append, String.length_utf8EncodeChar,
      List.length_cons]
    rw [encodeUtf8] at ih
    omega

end Lopata

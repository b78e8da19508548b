import Lopata.S3.Chunked
import Lopata.Lib.Numeral

/-!
# Range Requests

`parseRange` reads the header with a regular expression and `Number`, `get` of the bucket turns the
range into an offset and a length, and `handleGetObject` writes them into the headers of a 206. No
step compares the range with the size of the object but for the end, which is clamped. There is no
416.

Numbers are those of the program, rounded to binary64; `NaN` comes from two infinite bounds.

## Main definitions

* `parseRange`, `resolveRange`, `bodyOf`, `handleGetObject`: the code, for the time between two calls
  that change the object.
* `Answers`: the response is the whole object, a 416, or a 206 that is right.

## Main results

* `answers_iff`: it is exactly when there is no range, or the range starts within the object and does
  not end before it starts; a suffix must not be empty, nor the object.
* `not_answers`: a range behind the end.
-/

namespace Lopata.S3

/-! ### Numbers -/

/-- A number of the program; none is `NaN`. -/
abbrev Number := Option Double

namespace Number

def ofNat (n : ℕ) : Number := some (Double.ofRat n)

def add (x y : Number) : Number := x.bind fun a => y.bind fun b => a.add b

def sub (x y : Number) : Number := x.bind fun a => y.bind fun b => a.sub b

/-- `x < y`; nothing is below or above `NaN`. -/
def lt : Number → Number → Bool
  | some a, some b => a.value < b.value
  | _, _ => false

/-- `Math.max`. -/
def max : Number → Number → Number
  | some a, some b => some (if a.value < b.value then b else a)
  | _, _ => none

/-- `String(x)`. -/
def text : Number → List Char
  | some a => a.text
  | none => "NaN".toList

/-- An index of `slice`: an integer of 64 bits. -/
def index : Number → ℤ
  | some (.finite q _) => Max.max (-2 ^ 63) (min (2 ^ 63 - 1) (roundEven q))
  | some (.infinite negative) => if negative then -2 ^ 63 else 2 ^ 63 - 1
  | none => 0

end Number

/-! ### The code -/

/-- An object, without its metadata. No file has 2^53 bytes. -/
structure StoredObject where
  bytes : Bytes
  safe : bytes.length < 2 ^ 53

/-- `R2Range`. -/
structure R2Range where
  offset : Option Number := none
  length : Option Number := none
  suffix : Option Number := none

/-- The groups of `/^bytes=(\d*)-(\d*)$/`. -/
def rangeMatch (header : List Char) : Option (List Char × List Char) :=
  if "bytes=".toList <+: header then
    match (header.drop 6).dropWhile Char.isDigit with
    | '-' :: last =>
        if last.all Char.isDigit then some ((header.drop 6).takeWhile Char.isDigit, last) else none
    | _ => none
  else none

/-- `parseRange`. -/
def parseRange (header : Option (List Char)) : Option R2Range :=
  match header.bind rangeMatch with
  | none => none
  | some (startStr, endStr) =>
      if startStr = [] ∧ endStr = [] then none
      else if startStr = [] then some { suffix := some (Double.parse endStr) }
      else if endStr = [] then some { offset := some (Double.parse startStr) }
      else some {
        offset := some (Double.parse startStr)
        length := some
          ((Number.sub (Double.parse endStr) (Double.parse startStr)).add (Number.ofNat 1)) }

/-- The offset and the length of a range, in `get`. -/
def resolveRange (totalSize : Number) (range : R2Range) : Number × Number :=
  match range.suffix with
  | some suffix =>
      let offset := Number.max (Number.ofNat 0) (totalSize.sub suffix)
      (offset, totalSize.sub offset)
  | none =>
      let offset := range.offset.getD (Number.ofNat 0)
      let length := range.length.getD (totalSize.sub offset)
      if totalSize.lt (offset.add length) then (offset, totalSize.sub offset) else (offset, length)

/-- `slice` of a blob: negative indices count from its end. -/
def slice (bytes : Bytes) (start stop : Number) : Bytes :=
  let size : ℤ := bytes.length
  let clamp (i : ℤ) : ℤ := if i < 0 then max (size + i) 0 else min i size
  (bytes.drop (clamp start.index).toNat).take (clamp stop.index - clamp start.index).toNat

/-- `R2ObjectBody.body`. -/
def bodyOf (bytes : Bytes) (offset length : Number) : Bytes :=
  if offset = Number.ofNat 0 ∧ length = Number.ofNat bytes.length then bytes
  else slice bytes offset (offset.add length)

/-- What a client gets, but for the headers of the metadata. -/
structure Response where
  status : ℕ
  contentLength : List Char
  contentRange : Option (List Char)
  body : Bytes
  deriving DecidableEq

/-- The results of `evaluateConditional`. -/
inductive ConditionalResult
  | pass
  | notModified
  | preconditionFailed
  deriving DecidableEq

inductive GetResponse
  | noSuchKey
  | preconditionFailed
  | notModified
  | found (response : Response)
  deriving DecidableEq

/-- The response with the body. -/
def respond (header : Option (List Char)) (object : StoredObject) : Response :=
  let size := Number.ofNat object.bytes.length
  match parseRange header with
  | none => ⟨200, size.text, none, bodyOf object.bytes (Number.ofNat 0) size⟩
  | some range =>
      let (offset, length) := resolveRange size range
      ⟨206, length.text,
        some ("bytes ".toList ++ offset.text ++ '-' ::
          ((offset.add length).sub (Number.ofNat 1)).text ++ '/' :: size.text),
        bodyOf object.bytes offset length⟩

/-- `handleGetObject`. -/
def handleGetObject (header : Option (List Char)) (cond : StoredObject → ConditionalResult)
    (object : Option StoredObject) : GetResponse :=
  match object with
  | none => .noSuchKey
  | some object =>
      match cond object with
      | .preconditionFailed => .preconditionFailed
      | .notModified => .notModified
      | .pass => .found (respond header object)

/-! ### What an answer should be -/

/-- The object with 200, or 416, or a part of the object with 206 that its headers name. -/
def Answers (object : StoredObject) (r : Response) : Prop :=
  (r.status = 200 ∧ r.contentRange = none ∧ r.body = object.bytes ∧
      r.contentLength = decimal object.bytes.length) ∨
    r.status = 416 ∨
      r.status = 206 ∧ ∃ a b : ℕ, a ≤ b ∧ b < object.bytes.length ∧
        r.contentRange = some ("bytes ".toList ++ decimal a ++ '-' :: decimal b ++ '/' ::
          decimal object.bytes.length) ∧
        r.contentLength = decimal ((b - a + 1 : ℕ) : ℤ) ∧
        r.body = (object.bytes.drop a).take (b - a + 1)

/-- There is no range, or it can be had of an object of this size. -/
def Satisfiable (size : ℕ) (header : Option (List Char)) : Prop :=
  match header.bind rangeMatch with
  | none => True
  | some ([], []) => True
  | some ([], suffix) => 0 < decimalValue suffix ∧ 0 < size
  | some (first, []) => decimalValue first < size
  | some (first, last) => decimalValue first ≤ decimalValue last ∧ decimalValue first < size

/-! ### Whole numbers -/

namespace Number

/-- A whole number that may be negative. -/
def ofInt (n : ℤ) : Number := some (Double.ofRat n)

theorem ofNat_eq_ofInt (n : ℕ) : ofNat n = ofInt n := by
  rw [ofNat, ofInt, Int.cast_natCast]

theorem add_ofInt {x y : ℤ} (hx : |x| ≤ 2 ^ 53) (hy : |y| ≤ 2 ^ 53) :
    add (ofInt x) (ofInt y) = ofInt (x + y) := by
  rw [ofInt, ofInt, Double.ofRat_intCast hx, Double.ofRat_intCast hy, ofInt, Int.cast_add]
  rfl

theorem sub_ofInt {x y : ℤ} (hx : |x| ≤ 2 ^ 53) (hy : |y| ≤ 2 ^ 53) :
    sub (ofInt x) (ofInt y) = ofInt (x - y) := by
  rw [ofInt, ofInt, Double.ofRat_intCast hx, Double.ofRat_intCast hy, ofInt, Int.cast_sub]
  rfl

theorem lt_ofInt {x y : ℤ} (hx : |x| ≤ 2 ^ 53) (hy : |y| ≤ 2 ^ 53) :
    lt (ofInt x) (ofInt y) = decide (x < y) := by
  rw [ofInt, ofInt, Double.ofRat_intCast hx, Double.ofRat_intCast hy, lt]
  refine decide_eq_decide.mpr ?_
  rw [Double.value, Double.value, WithBot.coe_lt_coe, WithTop.coe_lt_coe, Int.cast_lt]

theorem ofInt_injective {x y : ℤ} (hx : |x| ≤ 2 ^ 53) (hy : |y| ≤ 2 ^ 53)
    (h : ofInt x = ofInt y) : x = y := by
  rw [ofInt, ofInt, Double.ofRat_intCast hx, Double.ofRat_intCast hy] at h
  exact_mod_cast Double.finite.inj (Option.some.inj h)

/-- `String(n)`. -/
theorem text_ofNat {n : ℕ} (hn : n < 2 ^ 53) : (ofNat n).text = decimal n := by
  have hrep : Representable (n : ℚ) := by
    rw [← Int.cast_natCast]
    refine representable_intCast ?_
    rw [abs_of_nonneg (Int.natCast_nonneg n)]
    exact_mod_cast hn.le
  rw [ofNat, Double.ofRat_of_representable hrep]
  exact Double.text_natCast hn hrep

/-- Only the number itself is written with its digits. -/
theorem eq_of_text_ofNat {v a : ℕ} (ha : a < 2 ^ 53) (h : (ofNat v).text = decimal a) : v = a := by
  have htext : (Double.ofRat v).text = Nat.toDigits 10 a := h
  obtain ⟨hdigits, hvalue⟩ := toDigits_spec a
  obtain ⟨q, hq, hfinite, hworth⟩ := Double.decimalValue_text (x := Double.ofRat v)
    (htext ▸ hdigits)
  rw [htext, hvalue] at hworth
  have hqa : (a : ℚ) = q := hworth.resolve_right fun hlarge => by omega
  have hround : nearest (v : ℚ) = q := by
    unfold Double.ofRat at hfinite
    split at hfinite
    · exact Double.finite.inj hfinite
    · cases hfinite
  rcases Double.eq_nearest_or_le v with hsame | ⟨hlarge, -⟩
  · exact_mod_cast (hqa.trans (hround.symm.trans hsame)).symm
  · rw [hround, ← hqa] at hlarge
    have : 2 ^ 53 ≤ a := by exact_mod_cast hlarge
    omega

/-- A number that is not negative is at least zero when it is rounded. -/
theorem dropWhile_text_ofNat (v : ℕ) :
    ∀ c ∈ ((ofNat v).text.dropWhile Char.isDigit).head?, c ≠ '-' := by
  have hnonneg := Double.le_value_ofRat representable_zero le_rfl (Nat.cast_nonneg v)
  rw [ofNat, text]
  cases hx : Double.ofRat v with
  | finite q hq =>
    rw [hx] at hnonneg
    have hq0 : 0 ≤ q := WithTop.coe_le_coe.mp (WithBot.coe_le_coe.mp hnonneg)
    rw [Double.text, if_neg (not_lt.mpr hq0)]
    intro c hc
    rcases Double.head_dropWhile_textNonneg hq0 c hc with rfl | rfl <;> decide
  | infinite negative =>
    cases negative with
    | true =>
      rw [hx] at hnonneg
      exact absurd hnonneg (not_le.mpr (WithBot.bot_lt_coe _))
    | false =>
      intro c hc
      obtain rfl := Option.some.inj hc
      decide

end Number

/-- Digits before a hyphen. -/
theorem digits_append_inj {s ds rest rest' : List Char}
    (hs : ∀ c ∈ (s.dropWhile Char.isDigit).head?, c ≠ '-') (hds : ∀ c ∈ ds, c.isDigit = true)
    (h : s ++ '-' :: rest = ds ++ '-' :: rest') : s = ds ∧ rest = rest' := by
  have hright : (ds ++ '-' :: rest').takeWhile Char.isDigit = ds := by
    rw [List.takeWhile_append_of_pos hds, List.takeWhile_cons_of_neg (by decide), List.append_nil]
  have hsplit := List.takeWhile_append_dropWhile (p := Char.isDigit) (l := s)
  have hfront : ∀ c ∈ s.takeWhile Char.isDigit, c.isDigit = true := fun c hc =>
    List.mem_takeWhile_imp hc
  cases hdrop : s.dropWhile Char.isDigit with
  | nil =>
    rw [hdrop, List.append_nil] at hsplit
    rw [hsplit] at hfront
    rw [← h, List.takeWhile_append_of_pos hfront, List.takeWhile_cons_of_neg (by decide),
      List.append_nil] at hright
    subst hright
    exact ⟨rfl, (List.cons.inj (List.append_cancel_left h)).2⟩
  | cons c after =>
    have hc : c.isDigit = false := by
      have := List.head?_dropWhile_not Char.isDigit s
      rw [hdrop] at this
      simpa using this
    rw [hdrop] at hsplit hs
    rw [← hsplit, List.append_assoc, List.cons_append] at h
    rw [← h, List.takeWhile_append_of_pos hfront, List.takeWhile_cons_of_neg (by simp [hc]),
      List.append_nil] at hright
    rw [hright] at h
    exact absurd (List.cons.inj (List.append_cancel_left h)).1 (hs c rfl)

/-! ### Large numbers -/

namespace Number

/-- A number that is at least a whole number, or infinite. -/
def AtLeast (x : Number) (n : ℕ) : Prop :=
  ∃ d : Double, x = some d ∧ (((n : ℚ) : WithTop ℚ) : WithBot (WithTop ℚ)) ≤ d.value

theorem representable_natCast {n : ℕ} (h : n ≤ 2 ^ 53) : Representable (n : ℚ) := by
  rw [← Int.cast_natCast]
  refine representable_intCast ?_
  rw [abs_of_nonneg (Int.natCast_nonneg n)]
  exact_mod_cast h

theorem atLeast_ofNat {n v : ℕ} (hn : n ≤ 2 ^ 53) (h : n ≤ v) : AtLeast (ofNat v) n :=
  ⟨_, rfl, Double.le_value_ofRat (representable_natCast hn) (Nat.cast_nonneg n)
    (Nat.cast_le.mpr h)⟩

/-- A sum is not rounded below a whole number of 53 bits. -/
theorem AtLeast.add {x : Number} {n m : ℕ} {z : ℤ} (hx : AtLeast x n) (hz : |z| ≤ 2 ^ 53)
    (hm : m ≤ 2 ^ 53) (h : (m : ℤ) ≤ n + z) : AtLeast (Number.add x (ofInt z)) m := by
  obtain ⟨d, rfl, hd⟩ := hx
  rw [ofInt, Double.ofRat_intCast hz]
  cases d with
  | finite q hq =>
    refine ⟨Double.ofRat (q + z), rfl, Double.le_value_ofRat (representable_natCast hm)
      (Nat.cast_nonneg m) ?_⟩
    have hnq : (n : ℚ) ≤ q := WithTop.coe_le_coe.mp (WithBot.coe_le_coe.mp hd)
    have h' : (m : ℚ) ≤ n + z := by exact_mod_cast h
    linarith
  | infinite negative =>
    cases negative with
    | true => exact absurd hd (not_le.mpr (WithBot.bot_lt_coe _))
    | false => exact ⟨.infinite false, rfl, WithBot.coe_le_coe.mpr le_top⟩

theorem add_swap (x y : Number) : add x y = add y x := by
  cases x with
  | none => cases y <;> rfl
  | some a =>
    cases y with
    | none => rfl
    | some b =>
      show Double.add a b = Double.add b a
      cases a <;> cases b
      · rw [Double.add, Double.add, add_comm]
      · rfl
      · rfl
      · next s t => cases s <;> cases t <;> rfl

theorem sub_ofInt_eq_add {x : Number} {z : ℤ} (hz : |z| ≤ 2 ^ 53) :
    sub x (ofInt z) = add x (ofInt (-z)) := by
  rw [ofInt, ofInt, Double.ofRat_intCast hz, Double.ofRat_intCast (by rwa [abs_neg])]
  cases x with
  | none => rfl
  | some a =>
    show Double.sub a _ = Double.add a _
    cases a with
    | finite q hq => rw [Double.sub, Double.add, Int.cast_neg, sub_eq_add_neg]
    | infinite negative => rfl

/-- A whole number of 53 bits is below what is at least 2^53. -/
theorem AtLeast.lt {x : Number} {n : ℕ} (hn : n < 2 ^ 53) (hx : AtLeast x (2 ^ 53)) :
    Number.lt (ofNat n) x = true := by
  obtain ⟨d, rfl, hd⟩ := hx
  rw [ofNat, Double.ofRat_of_representable (representable_natCast hn.le)]
  refine decide_eq_true (lt_of_lt_of_le ?_ hd)
  exact WithBot.coe_lt_coe.mpr (WithTop.coe_lt_coe.mpr (Nat.cast_lt.mpr hn))

/-- Whole numbers of 53 bits are compared exactly with all whole numbers. -/
theorem lt_ofNat {n v : ℕ} (hn : n < 2 ^ 53) : lt (ofNat n) (ofNat v) = decide (n < v) := by
  have habs : ∀ {m : ℕ}, m ≤ 2 ^ 53 → |(m : ℤ)| ≤ 2 ^ 53 := by
    intro m hm
    rw [abs_of_nonneg (Int.natCast_nonneg m)]
    exact_mod_cast hm
  by_cases hv : v ≤ 2 ^ 53
  · rw [ofNat_eq_ofInt, ofNat_eq_ofInt, lt_ofInt (habs hn.le) (habs hv)]
    exact decide_eq_decide.mpr Int.ofNat_lt
  · rw [decide_eq_true (by omega : n < v)]
    exact AtLeast.lt hn (atLeast_ofNat le_rfl (by omega))

end Number

/-! ### Resolved ranges -/

open Number

section Resolve

variable {size a v : ℕ}

theorem abs_natCast_le (h : a < 2 ^ 53) : |(a : ℤ)| ≤ 2 ^ 53 := by
  rw [abs_of_nonneg (Int.natCast_nonneg a)]
  exact_mod_cast h.le

theorem sub_ofNat (hsize : size < 2 ^ 53) (h : a ≤ size) :
    sub (ofNat size) (ofNat a) = ofNat (size - a) := by
  rw [ofNat_eq_ofInt, ofNat_eq_ofInt, ofNat_eq_ofInt, sub_ofInt (abs_natCast_le hsize)
    (abs_natCast_le (by omega)), Nat.cast_sub h]

theorem add_ofNat (ha : a < 2 ^ 53) (hv : v < 2 ^ 53) :
    add (ofNat a) (ofNat v) = ofNat (a + v) := by
  rw [ofNat_eq_ofInt, ofNat_eq_ofInt, ofNat_eq_ofInt, add_ofInt (abs_natCast_le ha)
    (abs_natCast_le hv), Nat.cast_add]

/-- The length of a range with two bounds. -/
theorem length_eq (ha : a < 2 ^ 53) (hv : v < 2 ^ 53) :
    add (sub (ofNat v) (ofNat a)) (ofNat 1) = ofInt (v - a + 1) := by
  have hsub : |(v : ℤ) - a| ≤ 2 ^ 53 := by
    rw [abs_le]
    omega
  rw [ofNat_eq_ofInt, ofNat_eq_ofInt, ofNat_eq_ofInt, sub_ofInt (abs_natCast_le hv)
    (abs_natCast_le ha), add_ofInt hsub (by decide), Nat.cast_one]

/-- A range with two bounds is cut at the end of the object. -/
theorem resolveRange_closed (hsize : size < 2 ^ 53) (ha : a < size) (hav : a ≤ v) :
    resolveRange (ofNat size)
        { offset := some (ofNat a),
          length := some (add (sub (ofNat v) (ofNat a)) (ofNat 1)) } =
      (ofNat a, ofNat (min (v + 1) size - a)) := by
  have hsub := sub_ofNat hsize ha.le
  simp only [resolveRange, Option.getD_some, hsub]
  by_cases hv : v < 2 ^ 53
  · have hlen : ofInt (v - a + 1) = ofNat (v + 1 - a) := by
      rw [ofNat_eq_ofInt, Nat.cast_sub (by omega)]
      congr 1
      push_cast
      ring
    have hadd : add (ofNat a) (ofNat (v + 1 - a)) = ofNat (v + 1) := by
      rw [ofNat_eq_ofInt, ofNat_eq_ofInt, ofNat_eq_ofInt, add_ofInt (abs_natCast_le (by omega))]
      · congr 1
        omega
      · rw [abs_of_nonneg (Int.natCast_nonneg _)]
        omega
    rw [length_eq (by omega) hv, hlen, hadd, lt_ofNat hsize]
    by_cases hlt : size < v + 1
    · rw [if_pos (decide_eq_true hlt), min_eq_right hlt.le]
    · rw [if_neg (by simpa using hlt), min_eq_left (not_lt.mp hlt)]
  · -- the end is not rounded below 2^53, and the object is smaller
    have hv : 2 ^ 53 ≤ v := not_lt.mp hv
    have ha' : |(a : ℤ)| ≤ 2 ^ 53 := abs_natCast_le (by omega)
    have hlen : AtLeast (add (sub (ofNat v) (ofNat a)) (ofNat 1)) (2 ^ 53 - a) := by
      rw [ofNat_eq_ofInt a, ofNat_eq_ofInt 1, sub_ofInt_eq_add ha']
      exact ((atLeast_ofNat le_rfl hv).add (m := 2 ^ 53 - a) (by rwa [abs_neg]) (by omega)
        (by omega)).add (by decide) (by omega) (by omega)
    have hend : AtLeast (add (ofNat a) (add (sub (ofNat v) (ofNat a)) (ofNat 1))) (2 ^ 53) := by
      rw [add_swap, ofNat_eq_ofInt a]
      rw [ofNat_eq_ofInt a] at hlen
      exact hlen.add ha' le_rfl (by omega)
    rw [if_pos (hend.lt hsize), min_eq_right (by omega)]

theorem resolveRange_open (hsize : size < 2 ^ 53) (ha : a < size) :
    resolveRange (ofNat size) { offset := some (ofNat a) } = (ofNat a, ofNat (size - a)) := by
  have hadd : add (ofNat a) (ofNat (size - a)) = ofNat size := by
    rw [add_ofNat (by omega) (by omega)]
    congr 1
    omega
  simp only [resolveRange, Option.getD_some, Option.getD_none, sub_ofNat hsize ha.le, hadd,
    lt_ofNat hsize, lt_irrefl, decide_false, Bool.false_eq_true, if_false]

/-- A suffix that is longer than the object is the whole object. -/
theorem resolveRange_suffix (hsize : size < 2 ^ 53) :
    resolveRange (ofNat size) { suffix := some (ofNat v) } =
      (ofNat (size - v), ofNat (size - (size - v))) := by
  have hoffset : Number.max (ofNat 0) (sub (ofNat size) (ofNat v)) = ofNat (size - v) := by
    by_cases hv : v ≤ size
    · rw [sub_ofNat hsize hv]
      have hlt := lt_ofNat (n := 0) (v := size - v) (by decide)
      simp only [ofNat, lt] at hlt
      simp only [ofNat, Number.max]
      rw [decide_eq_decide] at hlt
      by_cases hpos : 0 < size - v
      · rw [if_pos (hlt.mpr hpos)]
      · rw [if_neg (mt hlt.mp hpos), show size - v = 0 by omega]
    · have hlt := lt_ofNat (v := v) hsize
      rw [decide_eq_true (by omega : size < v)] at hlt
      simp only [ofNat, lt, decide_eq_true_eq] at hlt
      have hsign := Double.sign_sub_of_lt hlt
      obtain ⟨d, hd, hneg⟩ := Option.map_eq_some_iff.mp hsign
      have hsub : sub (ofNat size) (ofNat v) = some d := hd
      have hzero : Double.ofRat ((0 : ℕ) : ℚ) =
          .finite ((0 : ℕ) : ℚ) (representable_natCast (by decide)) :=
        Double.ofRat_of_representable _
      rw [hsub, ofNat, hzero, Number.max, if_neg, show size - v = 0 by omega, ofNat, hzero]
      rw [not_lt]
      cases d with
      | finite q hq =>
        have hq0 : q < 0 := sign_eq_neg_one_iff.mp hneg
        rw [Double.value, Double.value, WithBot.coe_le_coe, WithTop.coe_le_coe, Nat.cast_zero]
        exact hq0.le
      | infinite negative =>
        cases negative with
        | true => exact bot_le
        | false => cases hneg
  simp only [resolveRange, hoffset, sub_ofNat hsize (Nat.sub_le _ _)]

end Resolve

/-! ### The answers -/

section Answers

variable {object : StoredObject} {header : Option (List Char)} {range : R2Range}
  {first last : List Char} {a n : ℕ}

/-- The part of an object that `bodyOf` reads. -/
theorem bodyOf_ofNat (h : a + n ≤ object.bytes.length) :
    bodyOf object.bytes (ofNat a) (ofNat n) = (object.bytes.drop a).take n := by
  have hsafe := object.safe
  unfold bodyOf
  split
  · next hfull =>
      rw [ofNat_eq_ofInt, ofNat_eq_ofInt, ofNat_eq_ofInt, ofNat_eq_ofInt] at hfull
      have ha := ofInt_injective (abs_natCast_le (by omega)) (abs_natCast_le (by decide)) hfull.1
      have hn := ofInt_injective (abs_natCast_le (by omega)) (abs_natCast_le hsafe) hfull.2
      rw [Int.natCast_inj.mp ha, Int.natCast_inj.mp hn, List.drop_zero, List.take_length]
  · have hindex : ∀ {m : ℕ}, m < 2 ^ 53 → (ofNat m).index = m := by
      intro m hm
      rw [ofNat_eq_ofInt, ofInt, Double.ofRat_intCast (abs_natCast_le hm), index,
        roundEven_intCast]
      omega
    rw [add_ofNat (by omega) (by omega), slice, hindex (by omega), hindex (by omega)]
    dsimp only
    have hclamp : ∀ {m : ℕ}, m ≤ object.bytes.length →
        (if (m : ℤ) < 0 then Max.max ((object.bytes.length : ℤ) + m) 0
          else min (m : ℤ) object.bytes.length) = m := by
      intro m hm
      rw [if_neg (by omega), min_eq_left (by exact_mod_cast hm)]
    rw [hclamp h, hclamp (show a ≤ object.bytes.length by omega), Int.toNat_natCast]
    congr 1
    omega

/-- A range that was resolved within the object is answered. -/
theorem answers_of_resolveRange (hrange : parseRange header = some range)
    (h : resolveRange (ofNat object.bytes.length) range = (ofNat a, ofNat n)) (hn : 0 < n)
    (hle : a + n ≤ object.bytes.length) : Answers object (respond header object) := by
  have hsafe := object.safe
  have hend : sub (ofNat (a + n)) (ofNat 1) = ofNat (a + n - 1) := sub_ofNat (by omega) (by omega)
  refine .inr (.inr ⟨?_, a, a + n - 1, by omega, by omega, ?_⟩)
  · simp only [respond, hrange]
  · rw [show a + n - 1 - a + 1 = n by omega]
    simp only [respond, hrange, h, add_ofNat (show a < 2 ^ 53 by omega) (show n < 2 ^ 53 by omega),
      hend, text_ofNat (show a < 2 ^ 53 by omega), text_ofNat (show n < 2 ^ 53 by omega),
      text_ofNat (show a + n - 1 < 2 ^ 53 by omega), text_ofNat hsafe, bodyOf_ofNat hle, and_self]

/-- The headers of a range that is answered: its bounds are numbers in order, within the object. -/
theorem bounds_of_answers {offset length : Number} (hrange : parseRange header = some range)
    (h : resolveRange (ofNat object.bytes.length) range = (offset, length))
    (hoffset : ∀ c ∈ (offset.text.dropWhile Char.isDigit).head?, c ≠ '-')
    (hanswers : Answers object (respond header object)) :
    ∃ a b : ℕ, a ≤ b ∧ b < object.bytes.length ∧ offset.text = decimal a ∧
      ((offset.add length).sub (ofNat 1)).text = decimal b := by
  simp only [Answers, respond, hrange, h] at hanswers
  rcases hanswers with ⟨hstatus, -⟩ | hstatus | ⟨-, a, b, hab, hb, hcontent, -⟩
  · cases hstatus
  · cases hstatus
  · rw [text_ofNat object.safe] at hcontent
    have htext := List.append_cancel_right (Option.some.inj hcontent)
    rw [List.append_assoc, List.append_assoc] at htext
    obtain ⟨hfirst, hlast⟩ := digits_append_inj hoffset (toDigits_spec a).1
      (List.append_cancel_left htext)
    exact ⟨a, b, hab, hb, hfirst, hlast⟩

/-- Digits are read as the number they are worth. -/
theorem parse_eq_ofNat (hne : first ≠ []) (h : ∀ c ∈ first, c.isDigit = true) :
    (Double.parse first : Number) = ofNat (decimalValue first) :=
  Double.parse_digits hne h

/-- The groups of the regular expression are digits. -/
theorem digits_of_rangeMatch {text : List Char} (h : rangeMatch text = some (first, last)) :
    (∀ c ∈ first, c.isDigit = true) ∧ ∀ c ∈ last, c.isDigit = true := by
  unfold rangeMatch at h
  split at h
  · split at h
    · next rest hrest =>
        split at h
        · next hall =>
            obtain ⟨rfl, rfl⟩ := Prod.mk.inj (Option.some.inj h)
            exact ⟨fun c hc => List.mem_takeWhile_imp hc, List.all_eq_true.mp hall⟩
        · cases h
    · cases h
  · cases h

/-- A response to a range never starts behind the end of the object. -/
theorem lt_of_answers {v : ℕ} {length : Number} (hrange : parseRange header = some range)
    (h : resolveRange (ofNat object.bytes.length) range = (ofNat v, length))
    (hanswers : Answers object (respond header object)) : v < object.bytes.length := by
  have hsafe := object.safe
  obtain ⟨a, b, hab, hb, ha, -⟩ := bounds_of_answers hrange h (dropWhile_text_ofNat v) hanswers
  have hva := eq_of_text_ofNat (by omega) ha
  omega

theorem answers_suffix_iff {v : ℕ}
    (hrange : parseRange header = some { suffix := some (ofNat v) }) :
    Answers object (respond header object) ↔ 0 < v ∧ 0 < object.bytes.length := by
  have hresolve := resolveRange_suffix (v := v) object.safe
  constructor
  · intro hanswers
    have hlt := lt_of_answers hrange hresolve hanswers
    omega
  · rintro ⟨hv, hpos⟩
    exact answers_of_resolveRange hrange hresolve (by omega) (by omega)

/-- What a range with a first position resolves to has this position as its offset. -/
theorem resolveRange_fst (totalSize offset : Number) (length : Option Number) :
    (resolveRange totalSize { offset := some offset, length := length }).1 = offset := by
  simp only [resolveRange, Option.getD_some]
  split <;> rfl

theorem answers_open_iff {v : ℕ}
    (hrange : parseRange header = some { offset := some (ofNat v) }) :
    Answers object (respond header object) ↔ v < object.bytes.length := by
  constructor
  · exact lt_of_answers hrange (Prod.ext (resolveRange_fst _ _ _) rfl)
  · intro hv
    exact answers_of_resolveRange hrange (resolveRange_open object.safe hv) (by omega) (by omega)

theorem answers_closed_iff {v : ℕ} (hrange : parseRange header = some {
    offset := some (ofNat a)
    length := some (add (sub (ofNat v) (ofNat a)) (ofNat 1)) }) :
    Answers object (respond header object) ↔ a ≤ v ∧ a < object.bytes.length := by
  have hsafe := object.safe
  constructor
  · intro hanswers
    have hlt := lt_of_answers hrange (Prod.ext (resolveRange_fst _ _ _) rfl) hanswers
    refine ⟨?_, hlt⟩
    by_contra hva
    -- the length is not positive, so nothing is clamped and the last position is `v`
    have hlen := length_eq (a := a) (v := v) (by omega) (by omega)
    have habs : |(v : ℤ) - a + 1| ≤ 2 ^ 53 := by
      rw [abs_le]
      omega
    have hend : add (ofNat a) (ofInt (v - a + 1)) = ofNat (v + 1) := by
      rw [ofNat_eq_ofInt, ofNat_eq_ofInt, add_ofInt (abs_natCast_le (by omega)) habs]
      congr 1
      push_cast
      ring
    have hresolve : resolveRange (ofNat object.bytes.length)
        { offset := some (ofNat a),
          length := some (add (sub (ofNat v) (ofNat a)) (ofNat 1)) } =
        (ofNat a, ofInt (v - a + 1)) := by
      simp only [resolveRange, Option.getD_some, hlen, hend, lt_ofNat hsafe]
      rw [if_neg (by simp; omega)]
    obtain ⟨first, last, hle, hend', hfirst, hlast⟩ :=
      bounds_of_answers hrange hresolve (dropWhile_text_ofNat a) hanswers
    rw [hend, sub_ofNat (by omega) (by omega), Nat.add_sub_cancel] at hlast
    have ha := eq_of_text_ofNat (by omega) hfirst
    have hv := eq_of_text_ofNat (by omega) hlast
    omega
  · rintro ⟨hav, ha⟩
    exact answers_of_resolveRange hrange (resolveRange_closed hsafe ha hav) (by omega) (by omega)

end Answers

/-- The response to a range, by the shape of the header. -/
theorem answers_respond_iff (object : StoredObject) (header : Option (List Char)) :
    Answers object (respond header object) ↔ Satisfiable object.bytes.length header := by
  have hsafe := object.safe
  have hbody : bodyOf object.bytes (ofNat 0) (ofNat object.bytes.length) =
      (object.bytes.drop 0).take object.bytes.length := bodyOf_ofNat (by omega)
  rw [List.drop_zero, List.take_length] at hbody
  -- without a range the response is the whole object
  have hwhole : parseRange header = none → Answers object (respond header object) := by
    intro hrange
    refine .inl ?_
    simp only [respond, hrange, hbody, text_ofNat hsafe, and_self]
  unfold Satisfiable
  cases hmatch : header.bind rangeMatch with
  | none => exact iff_true_intro (hwhole (by rw [parseRange, hmatch]))
  | some groups =>
    obtain ⟨first, last⟩ := groups
    obtain ⟨text, -, htext⟩ := Option.bind_eq_some_iff.mp hmatch
    obtain ⟨hfirst, hlast⟩ := digits_of_rangeMatch htext
    cases first with
    | nil =>
      cases last with
      | nil => exact iff_true_intro (hwhole (by simp [parseRange, hmatch]))
      | cons c last =>
        refine answers_suffix_iff ?_
        simp [parseRange, hmatch, parse_eq_ofNat (List.cons_ne_nil c last) hlast]
    | cons d first =>
      have hparse := parse_eq_ofNat (List.cons_ne_nil d first) hfirst
      cases last with
      | nil =>
        refine answers_open_iff ?_
        simp [parseRange, hmatch, hparse]
      | cons c last =>
        refine answers_closed_iff ?_
        simp [parseRange, hmatch, hparse, parse_eq_ofNat (List.cons_ne_nil c last) hlast]

/-- **When a range is answered right.** For every object and every header, a request without conditions
is answered with the whole object, a 416 or the right part of the object exactly when there is no
range, or the range starts within the object and does not end before it starts. -/
theorem answers_iff (object : StoredObject) (header : Option (List Char)) :
    ∃ r, handleGetObject header (fun _ => .pass) (some object) = .found r ∧
      (Answers object r ↔ Satisfiable object.bytes.length header) :=
  ⟨_, rfl, answers_respond_iff object header⟩

/-- An object of ten bytes. -/
def tenBytes : StoredObject := ⟨"abcdefghij".toList.map fun c => UInt8.ofNat c.toNat, by decide⟩

/-- `bytes=12-` of it is answered with the header `bytes 12-9/10`. -/
theorem not_answers : ∃ r,
    handleGetObject (some "bytes=12-".toList) (fun _ => .pass) (some tenBytes) = .found r ∧
      ¬ Answers tenBytes r := by
  refine ⟨_, rfl, fun hanswers => ?_⟩
  have hrange : parseRange (some "bytes=12-".toList) = some { offset := some (ofNat 12) } := by
    have hparse : (Double.parse "12".toList : Number) = ofNat (decimalValue "12".toList) :=
      parse_eq_ofNat (by decide) (List.all_eq_true.mp rfl)
    rw [show decimalValue "12".toList = 12 from rfl] at hparse
    rw [parseRange, show (some "bytes=12-".toList).bind rangeMatch = some ("12".toList, []) by decide]
    simp [← hparse]
  have hlt := lt_of_answers hrange (Prod.ext (resolveRange_fst _ _ _) rfl) hanswers
  exact absurd hlt (by decide)

end Lopata.S3

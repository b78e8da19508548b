import Lopata.Cron.Expression
import Lopata.Lib.Ranking
import Mathlib.Data.Int.ConditionallyCompleteOrder
import Mathlib.Data.Int.Interval
import Mathlib.Tactic.IntervalCases

/-!
# The Days That the Forms Pick

The forms of a cron expression that look at the month of a date pick one day of it: the last day,
the last weekday, the weekday nearest to a day, the n-th or the last of a day of the week.

## Main results

* `nearestWeekday_eq_iff`, `nthWeekdayOfMonth_eq_some_iff`, `lastWeekdayOfMonth_eq_iff`: what the
  helpers find.
* `parseField_of_isForm`: each form matches the dates on the day that it picks, at most one in a
  month.
-/

namespace Lopata.Cron

/-! ### Months -/

section Month

variable (year month : ℤ)

/-- The day of the week, from Sunday on. -/
def weekdayOf (d : ℤ) : ℤ := (daysBeforeYear year + daysBeforeMonth year month + d) % 7

def InMonth (d : ℤ) : Prop := 1 ≤ d ∧ d ≤ daysInMonth year month

/-- A day from Monday to Friday. -/
def IsWorkday (d : ℤ) : Prop :=
  InMonth year month d ∧ 1 ≤ weekdayOf year month d ∧ weekdayOf year month d ≤ 5

/-- A day of the month on a day of the week. -/
def IsOn (weekday d : ℤ) : Prop := InMonth year month d ∧ weekdayOf year month d = weekday

/-- The day from Monday to Friday that is nearer to another day than each other one. -/
structure IsNearest (target d : ℤ) : Prop where
  workday : IsWorkday year month d
  nearer : ∀ d', IsWorkday year month d' → d' ≠ d → |d - target| < |d' - target|

/-- The day of the month on a day of the week that is the n-th such day. -/
structure IsNth (weekday : ℤ) (n : ℕ) (d : ℤ) : Prop where
  isOn : IsOn year month weekday d
  count : ((Finset.Icc 1 d).filter fun d' => weekdayOf year month d' = weekday).card = n

end Month

variable {year month : ℤ}

theorem daysInMonth_bounds (year month : ℤ) :
    28 ≤ daysInMonth year month ∧ daysInMonth year month ≤ 31 := by
  rw [daysInMonth]
  split
  · split <;> decide
  · split <;> decide

theorem lastDayOfMonth_eq (hyear : 100 ≤ year) :
    lastDayOfMonth year month = daysInMonth year month := by
  rw [lastDayOfMonth, constructedYear, if_neg (by omega)]

theorem dayOfWeekFor_eq (hyear : 100 ≤ year) (d : ℤ) :
    dayOfWeekFor year month d = weekdayOf year month d := by
  rw [dayOfWeekFor, constructedYear, if_neg (by omega), weekdayOf]

/-! ### What the helpers find -/

theorem IsNearest.unique {target d d' : ℤ} (h : IsNearest year month target d)
    (h' : IsNearest year month target d') : d = d' := by
  by_contra hne
  exact lt_asymm (h.nearer d' h'.workday (Ne.symm hne)) (h'.nearer d h.workday hne)

/-- The day that is found is at most two days away, and on the other side of a weekend only at an
end of the month. -/
theorem isNearest_nearestWeekday (hyear : 100 ≤ year) {target : ℤ} (htarget : 1 ≤ target) :
    IsNearest year month (min target (daysInMonth year month))
      (nearestWeekday year month target) := by
  obtain ⟨hlow, -⟩ := daysInMonth_bounds year month
  rw [nearestWeekday, lastDayOfMonth_eq hyear, dayOfWeekFor_eq hyear]
  have hday : 1 ≤ min target (daysInMonth year month) := le_min htarget (by omega)
  have hlast : min target (daysInMonth year month) ≤ daysInMonth year month := min_le_right _ _
  generalize min target (daysInMonth year month) = day at hday hlast
  constructor
  · simp only [IsWorkday, InMonth, weekdayOf]
    split_ifs <;> omega
  · simp only [IsWorkday, InMonth, weekdayOf, Int.abs_eq_natAbs]
    intro d'
    split_ifs <;> omega

theorem nearestWeekday_eq_iff (hyear : 100 ≤ year) {target : ℤ} (htarget : 1 ≤ target) (d : ℤ) :
    d = nearestWeekday year month target ↔
      IsNearest year month (min target (daysInMonth year month)) d := by
  have hfound : IsNearest year month (min target (daysInMonth year month))
      (nearestWeekday year month target) := isNearest_nearestWeekday hyear htarget
  constructor
  · rintro rfl
    exact hfound
  · intro h
    exact h.unique hfound

/-- The last weekday is the last day, or a day or two in front of it. -/
theorem lastWorkday_iff (d : ℤ) :
    d = (if weekdayOf year month (daysInMonth year month) = 0 then daysInMonth year month - 2
      else if weekdayOf year month (daysInMonth year month) = 6 then daysInMonth year month - 1
      else daysInMonth year month) ↔
      IsGreatest {d | IsWorkday year month d} d := by
  obtain ⟨hlow, -⟩ := daysInMonth_bounds year month
  have hfound : IsGreatest {d | IsWorkday year month d}
      (if weekdayOf year month (daysInMonth year month) = 0 then daysInMonth year month - 2
        else if weekdayOf year month (daysInMonth year month) = 6 then daysInMonth year month - 1
        else daysInMonth year month) := by
    constructor
    · simp only [Set.mem_ofPred_eq, IsWorkday, InMonth, weekdayOf]
      split_ifs <;> omega
    · intro d' hd'
      simp only [Set.mem_ofPred_eq, IsWorkday, InMonth, weekdayOf] at hd' ⊢
      split_ifs <;> omega
  constructor
  · rintro rfl
    exact hfound
  · intro h
    exact h.unique hfound

theorem lastDay_iff (d : ℤ) :
    d = daysInMonth year month ↔ IsGreatest {d | InMonth year month d} d := by
  obtain ⟨hlow, -⟩ := daysInMonth_bounds year month
  have hfound : IsGreatest {d | InMonth year month d} (daysInMonth year month) :=
    ⟨⟨by omega, le_rfl⟩, fun d' h => h.2⟩
  constructor
  · rintro rfl
    exact hfound
  · intro h
    exact h.unique hfound

theorem daysOf_eq (year month : ℤ) :
    daysOf year month =
      (List.range (lastDayOfMonth year month).toNat).map fun n : ℕ => (n : ℤ) + 1 := by
  rw [daysOf, List.bind_eq_flatMap, List.flatMap_def, List.map_flatten, List.map_map]
  induction List.range (lastDayOfMonth year month).toNat with
  | nil => rfl
  | cons n l ih => exact congrArg _ ih

theorem mem_daysOf_iff (hyear : 100 ≤ year) (d : ℤ) :
    d ∈ daysOf year month ↔ InMonth year month d := by
  rw [daysOf_eq, lastDayOfMonth_eq hyear, InMonth, List.mem_map]
  constructor
  · rintro ⟨n, hn, rfl⟩
    rw [List.mem_range] at hn
    omega
  · rintro ⟨hlow, hhigh⟩
    exact ⟨(d - 1).toNat, List.mem_range.mpr (by omega), by omega⟩

theorem mem_weekdaysOf_iff (hyear : 100 ≤ year) (weekday d : ℤ) :
    d ∈ weekdaysOf year month (some weekday) ↔ IsOn year month weekday d := by
  rw [weekdaysOf, List.mem_filter, mem_daysOf_iff hyear, decide_eq_true_iff, Option.some.injEq,
    dayOfWeekFor_eq hyear, IsOn, eq_comm (a := weekday)]

theorem pairwise_weekdaysOf (year month : ℤ) (weekday : Option ℤ) :
    (weekdaysOf year month weekday).Pairwise (· < ·) := by
  rw [weekdaysOf, daysOf_eq]
  refine List.Pairwise.filter _ (List.pairwise_map.mpr ?_)
  exact List.pairwise_lt_range.imp fun h => by omega

/-- As many days on the day of the week are in front of one of them as are counted with it, but
for itself. -/
theorem countP_weekdaysOf (hyear : 100 ≤ year) {weekday d : ℤ} (h : IsOn year month weekday d) :
    (weekdaysOf year month (some weekday)).countP (· < d) + 1 =
      ((Finset.Icc 1 d).filter fun d' => weekdayOf year month d' = weekday).card := by
  have hnodup : ((weekdaysOf year month (some weekday)).filter (· < d)).Nodup :=
    ((pairwise_weekdaysOf year month _).imp fun h => h.ne).filter _
  have hnot : d ∉ ((weekdaysOf year month (some weekday)).filter (· < d)).toFinset := by
    rw [List.mem_toFinset, List.mem_filter, decide_eq_true_iff]
    exact fun h => lt_irrefl d h.2
  rw [List.countP_eq_length_filter, ← List.toFinset_card_of_nodup hnodup,
    ← Finset.card_insert_of_notMem hnot]
  congr 1
  ext d'
  rw [Finset.mem_insert, List.mem_toFinset, List.mem_filter, decide_eq_true_iff,
    mem_weekdaysOf_iff hyear, Finset.mem_filter, Finset.mem_Icc]
  obtain ⟨⟨hlow, hhigh⟩, hweekday⟩ := h
  constructor
  · rintro (rfl | ⟨⟨⟨hlow', -⟩, hweekday'⟩, hlt⟩)
    · exact ⟨⟨hlow, le_rfl⟩, hweekday⟩
    · exact ⟨⟨hlow', hlt.le⟩, hweekday'⟩
  · rintro ⟨⟨hlow', hle⟩, hweekday'⟩
    rcases hle.eq_or_lt with rfl | hlt
    · exact .inl rfl
    · exact .inr ⟨⟨⟨hlow', hle.trans hhigh⟩, hweekday'⟩, hlt⟩

theorem nthWeekdayOfMonth_eq_some_iff (hyear : 100 ≤ year) (weekday : ℤ) (n : ℕ) (d : ℤ) :
    nthWeekdayOfMonth year month (some weekday) n = some d ↔ IsNth year month weekday n d := by
  rw [nthWeekdayOfMonth]
  split
  · next hn =>
    refine iff_of_false (by simp) fun h => ?_
    have hcount := countP_weekdaysOf hyear h.isOn
    rw [h.count] at hcount
    omega
  · next hn =>
    rw [getElem?_eq_some_iff_of_pairwise_lt (pairwise_weekdaysOf year month _),
      mem_weekdaysOf_iff hyear]
    constructor
    · rintro ⟨hon, hcount⟩
      refine ⟨hon, ?_⟩
      rw [← countP_weekdaysOf hyear hon]
      omega
    · intro h
      refine ⟨h.isOn, ?_⟩
      have hcount := countP_weekdaysOf hyear h.isOn
      rw [h.count] at hcount
      omega

/-- Each day of the week comes in the first seven days. -/
theorem exists_isOn {weekday : ℤ} (hlow : 0 ≤ weekday) (hhigh : weekday ≤ 6) :
    ∃ d, IsOn year month weekday d := by
  obtain ⟨hmonth, -⟩ := daysInMonth_bounds year month
  refine ⟨1 + (weekday - weekdayOf year month 1) % 7, ?_⟩
  simp only [IsOn, InMonth, weekdayOf]
  omega

theorem lastWeekdayOfMonth_eq_iff (hyear : 100 ≤ year) {weekday : ℤ} (hlow : 0 ≤ weekday)
    (hhigh : weekday ≤ 6) (d : ℤ) :
    d = lastWeekdayOfMonth year month (some weekday) ↔
      IsGreatest {d | IsOn year month weekday d} d := by
  obtain ⟨first, hfirst⟩ : ∃ d, IsOn year month weekday d := exists_isOn hlow hhigh
  have hmem := (mem_weekdaysOf_iff hyear weekday first).mpr hfirst
  have hlast := List.getLast?_eq_some_getLast (List.ne_nil_of_mem hmem)
  have hset : {d | d ∈ weekdaysOf year month (some weekday)} =
      {d | IsOn year month weekday d} := Set.ext fun d => mem_weekdaysOf_iff hyear weekday d
  have hfound := isGreatest_of_getLast?_eq_some (pairwise_weekdaysOf year month _) hlast
  rw [hset] at hfound
  rw [lastWeekdayOfMonth, hlast, Option.getD_some]
  constructor
  · rintro rfl
    exact hfound
  · intro h
    exact h.unique hfound

/-! ### The forms -/

/-- A day of the week as it is written: its number, or its name in any case. -/
def IsDay (token : Text) (weekday : ℤ) : Prop :=
  isWord token = true ∧
    (token = decimal weekday ∧ 0 ≤ weekday ∧ weekday ≤ 6 ∨
      (token.map upperCase, weekday) ∈ dayNames)

/-- The forms that pick a day of a month, as the field and its names have them. -/
inductive IsForm : FieldType → List (Text × ℤ) → Text → (ℤ → ℤ → ℤ → Prop) → Prop
  | nearest (digits : Text) (hdigits : isNumber digits = true) (hpos : 1 ≤ decimalValue digits) :
      IsForm .dayOfMonth [] (digits ++ ['W']) fun year month =>
        IsNearest year month (min (decimalValue digits) (daysInMonth year month))
  | lastWorkday :
      IsForm .dayOfMonth [] "LW".toList fun year month => IsGreatest {d | IsWorkday year month d}
  | lastDay :
      IsForm .dayOfMonth [] "L".toList fun year month => IsGreatest {d | InMonth year month d}
  | nth (token digits : Text) (weekday : ℤ) (hday : IsDay token weekday)
      (hdigits : isNumber digits = true) :
      IsForm .dayOfWeek dayNames (token ++ '#' :: digits) fun year month =>
        IsNth year month weekday (decimalValue digits)
  | last (token : Text) (weekday : ℤ) (hday : IsDay token weekday) :
      IsForm .dayOfWeek dayNames (token ++ ['L']) fun year month =>
        IsGreatest {d | IsOn year month weekday d}

theorem upperCase_of_isDigit {c : Char} (h : c.isDigit = true) : upperCase c = c := by
  have hrange : 48 ≤ c.toNat ∧ c.toNat ≤ 57 := by
    simpa [Char.isDigit, UInt32.le_iff_toNat_le] using h
  have hlower : ¬ (97 ≤ c.val.toNat ∧ c.val.toNat ≤ 122) := fun h => by
    have hval : c.val.toNat = c.toNat := rfl
    omega
  have hupper : c.toUpper = c := dif_neg (by simpa [UInt32.le_iff_toNat_le] using hlower)
  rw [upperCase, if_neg (by omega), if_neg (by omega), hupper]

theorem notMem_of_all {p : Char → Bool} {text : Text} (h : text.all p = true) {c : Char}
    (hc : p c = false) : c ∉ text := by
  intro hmem
  cases hc.symm.trans (List.all_eq_true.mp h c hmem)

theorem all_of_isNumber {text : Text} (h : isNumber text = true) :
    text ≠ [] ∧ text.all Char.isDigit = true := by
  simpa [isNumber] using h

theorem all_of_isWord {text : Text} (h : isWord text = true) :
    text ≠ [] ∧ text.all Char.isAlphanum = true := by
  simpa [isWord] using h

theorem resolveToken_of_isDay {token : Text} {weekday : ℤ} (h : IsDay token weekday) :
    resolveToken token dayNames = some weekday := by
  rcases h.2 with ⟨rfl, hlow, hhigh⟩ | hname
  · have hnone : dayNames.lookup ((decimal weekday).map upperCase) = none := by
      interval_cases weekday <;> decide
    rw [resolveToken, hnone, parseDecimal_decimal_int]
  · have hlookup : dayNames.lookup (token.map upperCase) = some weekday := by
      generalize token.map upperCase = name at hname
      simp only [dayNames, List.mem_cons, Prod.mk.injEq, List.not_mem_nil, or_false] at hname
      rcases hname with ⟨rfl, rfl⟩ | ⟨rfl, rfl⟩ | ⟨rfl, rfl⟩ | ⟨rfl, rfl⟩ | ⟨rfl, rfl⟩ |
        ⟨rfl, rfl⟩ | ⟨rfl, rfl⟩ <;> decide
    rw [resolveToken, hlookup]

theorem IsDay.bounds {token : Text} {weekday : ℤ} (h : IsDay token weekday) :
    0 ≤ weekday ∧ weekday ≤ 6 := by
  rcases h.2 with ⟨-, hbounds⟩ | hname
  · exact hbounds
  · have hall : ∀ p ∈ dayNames, 0 ≤ p.2 ∧ p.2 ≤ 6 := by decide
    exact hall _ hname

theorem parseDayOfMonth_nearest {digits : Text} (h : isNumber digits = true) :
    parseDayOfMonth (digits ++ ['W']) = some (.nearest (decimalValue digits)) := by
  obtain ⟨hne, hall⟩ := all_of_isNumber h
  obtain ⟨c, rest, rfl⟩ := List.exists_cons_of_ne_nil hne
  have hdigit : c.isDigit = true := List.all_eq_true.mp hall c List.mem_cons_self
  have hfirst : ∀ text, ((c :: rest) ++ ['W']).map upperCase ≠ 'L' :: text := by
    intro text heq
    rw [List.cons_append, List.map_cons, upperCase_of_isDigit hdigit] at heq
    obtain ⟨rfl, -⟩ := List.cons.inj heq
    revert hdigit
    decide
  have hlw : ((c :: rest) ++ ['W']).map upperCase ≠ "LW".toList := hfirst ['W']
  have hl : ((c :: rest) ++ ['W']).map upperCase ≠ "L".toList := hfirst []
  rw [parseDayOfMonth, if_neg hlw, if_neg hl, List.getLast?_concat, List.dropLast_concat,
    if_pos ⟨.inl rfl, h⟩]

theorem parseDayOfWeek_nth {token digits : Text} {names : List (Text × ℤ)}
    (htoken : isWord token = true) (hdigits : isNumber digits = true) :
    parseDayOfWeek names (token ++ '#' :: digits) =
      some (.nth (resolveToken token names) (decimalValue digits)) := by
  have hleft : '#' ∉ token := notMem_of_all (all_of_isWord htoken).2 (by decide)
  have hright : '#' ∉ digits := notMem_of_all (all_of_isNumber hdigits).2 (by decide)
  have hhalves : halves '#' (token ++ '#' :: digits) = some (token, digits) := by
    rw [halves, List.splitOn_append_cons_self_of_not_mem hleft, List.splitOn_eq_singleton hright]
  rw [parseDayOfWeek, hhalves, Option.filter_some, if_pos (by simp [htoken, hdigits])]

theorem parseDayOfWeek_last {token : Text} {names : List (Text × ℤ)}
    (htoken : isWord token = true) :
    parseDayOfWeek names (token ++ ['L']) = some (.last (resolveToken token names)) := by
  have hnone : '#' ∉ token ++ ['L'] := by
    rw [List.mem_append, not_or]
    exact ⟨notMem_of_all (all_of_isWord htoken).2 (by decide), by decide⟩
  have hhalves : halves '#' (token ++ ['L']) = none := by
    rw [halves, List.splitOn_eq_singleton hnone]
  rw [parseDayOfWeek, hhalves, Option.filter_none]
  dsimp only
  rw [List.getLast?_concat, List.dropLast_concat, if_pos ⟨.inl rfl, htoken⟩]

/-! ### What the forms pick -/

/-- A field that is one of the forms has its matcher. -/
theorem parseField_of_special {fieldType : FieldType} {part : Text} {m : Matcher}
    (names : List (Text × ℤ)) (lowest highest : ℤ)
    (hspecial : fieldType = .dayOfMonth ∧ parseDayOfMonth part = some m ∨
      fieldType = .dayOfWeek ∧ parseDayOfWeek names part = some m)
    (hcomma : ',' ∉ part) (hstar : '*' ∉ part) :
    parseField part lowest highest fieldType names = .ok [m] := by
  have hpart : parsePart fieldType lowest highest names part = .ok m := by
    rcases hspecial with ⟨rfl, h⟩ | ⟨rfl, h⟩
    · rw [parsePart, h]
    · rw [parsePart, h]
  have hne : part ≠ ['*'] := by
    rintro rfl
    exact hstar (List.mem_singleton_self _)
  rw [parseField, if_neg hne, List.splitOn_eq_singleton hcomma, List.mapM_cons, hpart]
  rfl

/-- The n-th day is one: a later one counts it too. -/
theorem IsNth.unique {weekday d d' : ℤ} {n : ℕ} (h : IsNth year month weekday n d)
    (h' : IsNth year month weekday n d') : d = d' := by
  have hle : ∀ {d d' : ℤ}, IsNth year month weekday n d → IsNth year month weekday n d' →
      d' ≤ d := by
    intro d d' h h'
    by_contra hlt
    refine absurd (h.count.trans h'.count.symm) (Nat.ne_of_lt (Finset.card_lt_card ?_))
    refine Finset.ssubset_iff_subset_ne.mpr ⟨?_, fun heq => hlt ?_⟩
    · exact Finset.filter_subset_filter _ (Finset.Icc_subset_Icc le_rfl (not_le.mp hlt).le)
    · have hmem : d' ∈ (Finset.Icc 1 d').filter fun k => weekdayOf year month k = weekday :=
        Finset.mem_filter.mpr ⟨Finset.mem_Icc.mpr ⟨h'.isOn.1.1, le_rfl⟩, h'.isOn.2⟩
      rw [← heq] at hmem
      exact (Finset.mem_Icc.mp (Finset.mem_filter.mp hmem).1).2
  exact le_antisymm (hle h' h) (hle h h')

theorem IsForm.atMostOne {fieldType : FieldType} {names : List (Text × ℤ)} {part : Text}
    {picks : ℤ → ℤ → ℤ → Prop} (h : IsForm fieldType names part picks) {d d' : ℤ}
    (hd : picks year month d) (hd' : picks year month d') : d = d' := by
  cases h with
  | nearest => exact IsNearest.unique hd hd'
  | nth => exact IsNth.unique hd hd'
  | lastWorkday | lastDay | last => exact IsGreatest.unique hd hd'

/-- No form has a comma or a star. -/
theorem IsForm.notMem {fieldType : FieldType} {names : List (Text × ℤ)} {part : Text}
    {picks : ℤ → ℤ → ℤ → Prop} (h : IsForm fieldType names part picks) :
    ',' ∉ part ∧ '*' ∉ part := by
  cases h with
  | nearest digits hdigits =>
    have hall := (all_of_isNumber hdigits).2
    constructor <;> rw [List.mem_append, not_or] <;>
      exact ⟨notMem_of_all hall (by decide), by decide⟩
  | lastWorkday | lastDay => decide
  | nth token digits weekday hday hdigits =>
    have hleft := (all_of_isWord hday.1).2
    have hright := (all_of_isNumber hdigits).2
    constructor <;> rw [List.mem_append, List.mem_cons, not_or, not_or] <;>
      exact ⟨notMem_of_all hleft (by decide), by decide, notMem_of_all hright (by decide)⟩
  | last token weekday hday =>
    have hall := (all_of_isWord hday.1).2
    constructor <;> rw [List.mem_append, not_or] <;>
      exact ⟨notMem_of_all hall (by decide), by decide⟩

/-- **The forms.** A form is parsed, and matches the dates on the day of their month that it picks;
in each month that is one day at most. -/
theorem parseField_of_isForm {fieldType : FieldType} {names : List (Text × ℤ)} {part : Text}
    {picks : ℤ → ℤ → ℤ → Prop} (h : IsForm fieldType names part picks) (lowest highest : ℤ) :
    ∃ field, parseField part lowest highest fieldType names = .ok field ∧
      (∀ value date, 100 ≤ date.fullYear →
        (field.test value date = true ↔ picks date.fullYear (date.month + 1) date.date)) ∧
      ∀ year month d d', picks year month d → picks year month d' → d = d' := by
  obtain ⟨hcomma, hstar⟩ := h.notMem
  have hone : ∀ year month d d', picks year month d → picks year month d' → d = d' :=
    fun _ _ _ _ => h.atMostOne
  have hfield : ∀ m : Matcher, ∀ value date, Field.test [m] value date = m.test value date :=
    fun m value date => by rw [Field.test, List.any_cons, List.any_nil, Bool.or_false]
  cases h with
  | nearest digits hdigits hpos =>
      have hparse := parseField_of_special [] lowest highest
        (.inl ⟨rfl, parseDayOfMonth_nearest hdigits⟩) hcomma hstar
      refine ⟨_, hparse, fun value date hyear => ?_, hone⟩
      rw [hfield, Matcher.test, decide_eq_true_iff]
      exact nearestWeekday_eq_iff hyear (by exact_mod_cast hpos) date.date
  | lastWorkday =>
      have hparse := parseField_of_special [] lowest highest
        (.inl ⟨rfl, rfl⟩) hcomma hstar
      refine ⟨_, hparse, fun value date hyear => ?_, hone⟩
      rw [hfield, Matcher.test]
      dsimp only
      rw [decide_eq_true_iff, lastDayOfMonth_eq hyear, dayOfWeekFor_eq hyear]
      exact lastWorkday_iff date.date
  | lastDay =>
      have hparse := parseField_of_special [] lowest highest
        (.inl ⟨rfl, rfl⟩) hcomma hstar
      refine ⟨_, hparse, fun value date hyear => ?_, hone⟩
      rw [hfield, Matcher.test, decide_eq_true_iff, lastDayOfMonth_eq hyear]
      exact lastDay_iff date.date
  | nth token digits weekday hday hdigits =>
      have hparse := parseField_of_special dayNames lowest highest
        (.inr ⟨rfl, parseDayOfWeek_nth hday.1 hdigits⟩) hcomma hstar
      refine ⟨_, hparse, fun value date hyear => ?_, hone⟩
      rw [hfield, Matcher.test, decide_eq_true_iff, resolveToken_of_isDay hday]
      exact nthWeekdayOfMonth_eq_some_iff hyear weekday _ date.date
  | last token weekday hday =>
      have hparse := parseField_of_special dayNames lowest highest
        (.inr ⟨rfl, parseDayOfWeek_last hday.1⟩) hcomma hstar
      obtain ⟨hlow, hhigh⟩ := hday.bounds
      refine ⟨_, hparse, fun value date hyear => ?_, hone⟩
      rw [hfield, Matcher.test, decide_eq_true_iff, resolveToken_of_isDay hday]
      exact lastWeekdayOfMonth_eq_iff hyear hlow hhigh date.date

/-- The weekday nearest to the fifteenth. -/
theorem parseField_of_isForm_nearest : ∃ field,
    parseField "15W".toList 1 31 .dayOfMonth [] = .ok field ∧
      (∀ value date, 100 ≤ date.fullYear → (field.test value date = true ↔
        IsNearest date.fullYear (date.month + 1)
          (min (decimalValue "15".toList) (daysInMonth date.fullYear (date.month + 1)))
          date.date)) ∧
      ∀ year month d d',
        IsNearest year month (min (decimalValue "15".toList) (daysInMonth year month)) d →
        IsNearest year month (min (decimalValue "15".toList) (daysInMonth year month)) d' → d = d' :=
  parseField_of_isForm (.nearest "15".toList (by decide) (by decide)) 1 31

end Lopata.Cron

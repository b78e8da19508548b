import Lopata.Lib.Text

/-!
# Cron Expressions

A cron expression has five fields, each a list of parts; a part is a value, a range, a range with a
step, or one of the forms that look at the month of a date: the last day, the last weekday, the
weekday nearest to a day, the n-th or the last of a day of the week. A date is looked at through
its fields in the local time zone.
-/

namespace Lopata.Cron

abbrev Text := List Char

/-- The fields of a `Date` in local time, as `getMonth` and `getDay` number them. -/
structure DateFields where
  fullYear : ℤ
  month : ℤ
  date : ℤ
  day : ℤ
  hours : ℤ
  minutes : ℤ

/-! ### The calendar -/

def isLeap (year : ℤ) : Bool := year % 4 = 0 && (year % 100 ≠ 0 || year % 400 = 0)

/-- The days of a month, from 1 on. -/
def daysInMonth (year month : ℤ) : ℤ :=
  if month = 2 then if isLeap year then 29 else 28
  else if month ∈ [4, 6, 9, 11] then 30
  else 31

/-- The days from the first of January of the year 1 to that of a year. -/
def daysBeforeYear (year : ℤ) : ℤ :=
  365 * (year - 1) + (year - 1) / 4 - (year - 1) / 100 + (year - 1) / 400

/-- The days of a year before a month. -/
def daysBeforeMonth (year month : ℤ) : ℤ :=
  (((List.range 12).map fun n => (n : ℤ) + 1).filter (· < month)).foldl
    (fun days m => days + daysInMonth year m) 0

/-- The year that the constructor of `Date` takes a number for. -/
def constructedYear (year : ℤ) : ℤ := if 0 ≤ year ∧ year ≤ 99 then 1900 + year else year

def lastDayOfMonth (year month : ℤ) : ℤ := daysInMonth (constructedYear year) month

def dayOfWeekFor (year month day : ℤ) : ℤ :=
  let year := constructedYear year
  (daysBeforeYear year + daysBeforeMonth year month + day) % 7

example : dayOfWeekFor 2024 2 29 = 4 := by decide

def nearestWeekday (year month day : ℤ) : ℤ :=
  let lastDay := lastDayOfMonth year month
  let day := min day lastDay
  let dow := dayOfWeekFor year month day
  if 1 ≤ dow ∧ dow ≤ 5 then day
  else if dow = 6 then if 1 < day then day - 1 else day + 2
  else if day < lastDay then day + 1 else day - 2

/-- The days of a month. -/
def daysOf (year month : ℤ) : List ℤ :=
  (List.range (lastDayOfMonth year month).toNat).map fun n => (n : ℤ) + 1

/-- The days of a month on a day of the week; `NaN` is none. -/
def weekdaysOf (year month : ℤ) (weekday : Option ℤ) : List ℤ :=
  (daysOf year month).filter fun d => weekday = some (dayOfWeekFor year month d)

def nthWeekdayOfMonth (year month : ℤ) (weekday : Option ℤ) (n : ℤ) : Option ℤ :=
  if n < 1 then none else (weekdaysOf year month weekday)[(n - 1).toNat]?

def lastWeekdayOfMonth (year month : ℤ) (weekday : Option ℤ) : ℤ :=
  (weekdaysOf year month weekday).getLast?.getD (lastDayOfMonth year month)

/-! ### Matchers -/

/-- The matcher of a part; a number is none if it is `NaN`. -/
inductive Matcher where
  | any
  | lastWeekday
  | lastDay
  | nearest (targetDay : ℤ)
  | nth (weekday : Option ℤ) (n : ℤ)
  | last (weekday : Option ℤ)
  /-- The values from a start to an end, by steps. -/
  | range (start stop : Option ℤ) (step : ℤ)
  | value (val : Option ℤ)

/-- Whether a number is among the values of a range. -/
def inRange (start stop : Option ℤ) (step value : ℤ) : Bool :=
  match start, stop with
  | some start, some stop => start ≤ value && value ≤ stop && (value - start) % step = 0
  | _, _ => false

def Matcher.test (value : ℤ) (date : DateFields) : Matcher → Bool
  | .any => true
  | .lastWeekday =>
      let last := lastDayOfMonth date.fullYear (date.month + 1)
      let dow := dayOfWeekFor date.fullYear (date.month + 1) last
      date.date = if dow = 0 then last - 2 else if dow = 6 then last - 1 else last
  | .lastDay => date.date = lastDayOfMonth date.fullYear (date.month + 1)
  | .nearest targetDay =>
      date.date = nearestWeekday date.fullYear (date.month + 1) targetDay
  | .nth weekday n => nthWeekdayOfMonth date.fullYear (date.month + 1) weekday n = some date.date
  | .last weekday => date.date = lastWeekdayOfMonth date.fullYear (date.month + 1) weekday
  | .range start stop step => inRange start stop step value
  | .value val => val = some value

/-- A field: some part of it matches. -/
abbrev Field := List Matcher

def Field.test (field : Field) (value : ℤ) (date : DateFields) : Bool :=
  field.any fun m => m.test value date

/-! ### Parsing -/

inductive FieldType where
  | minute
  | hour
  | dayOfMonth
  | month
  | dayOfWeek
  deriving DecidableEq

/-- Why an expression has no parse. -/
inductive Failure where
  /-- `Invalid cron expression: "..." (expected 5 fields)`. -/
  | invalid (expression : Text)
  /-- The expression names a property of every object. -/
  | typeError
  /-- A step of zero: the loop over the values does not end. -/
  | endless
  deriving DecidableEq

/-- `toUpperCase` of the characters whose upper case is in ASCII. -/
def upperCase (c : Char) : Char :=
  if c.toNat = 0x17F then 'S' else if c.toNat = 0x131 then 'I' else c.toUpper

/-- `toLowerCase` of the characters whose lower case is in ASCII. -/
def lowerCase (c : Char) : Char := if c.toNat = 0x212A then 'k' else c.toLower

def dayNames : List (Text × ℤ) :=
  [("SUN".toList, 0), ("MON".toList, 1), ("TUE".toList, 2), ("WED".toList, 3), ("THU".toList, 4),
    ("FRI".toList, 5), ("SAT".toList, 6)]

def monthNames : List (Text × ℤ) :=
  [("JAN".toList, 1), ("FEB".toList, 2), ("MAR".toList, 3), ("APR".toList, 4), ("MAY".toList, 5),
    ("JUN".toList, 6), ("JUL".toList, 7), ("AUG".toList, 8), ("SEP".toList, 9), ("OCT".toList, 10),
    ("NOV".toList, 11), ("DEC".toList, 12)]

def specialCrons : List (Text × Text) :=
  [("@daily".toList, "0 0 * * *".toList), ("@midnight".toList, "0 0 * * *".toList),
    ("@hourly".toList, "0 * * * *".toList), ("@weekly".toList, "0 0 * * 0".toList),
    ("@monthly".toList, "0 0 1 * *".toList), ("@yearly".toList, "0 0 1 1 *".toList),
    ("@annually".toList, "0 0 1 1 *".toList)]

def resolveToken (token : Text) (names : List (Text × ℤ)) : Option ℤ :=
  match names.lookup (token.map upperCase) with
  | some n => some n
  | none => parseDecimal token

/-- A match of `[a-zA-Z0-9]+`. -/
def isWord (text : Text) : Bool := text ≠ [] && text.all Char.isAlphanum

/-- A match of `\d+`. -/
def isNumber (text : Text) : Bool := text ≠ [] && text.all Char.isDigit

/-- The two sides of the only separator. -/
def halves (separator : Char) (text : Text) : Option (Text × Text) :=
  match text.splitOn separator with
  | [left, right] => some (left, right)
  | _ => none

/-- `^([a-zA-Z0-9]+)-([a-zA-Z0-9]+)$`. -/
def wordRange (text : Text) : Option (Text × Text) :=
  (halves '-' text).filter fun p => isWord p.1 && isWord p.2

section Part

variable (fieldType : FieldType) (lowest highest : ℤ) (names : List (Text × ℤ)) (part : Text)

/-- The forms that only the day of the month has. -/
def parseDayOfMonth : Option Matcher :=
  if part.map upperCase = "LW".toList then some .lastWeekday
  else if part.map upperCase = "L".toList then some .lastDay
  else if (part.getLast? = some 'W' ∨ part.getLast? = some 'w') ∧ isNumber part.dropLast then
    some (.nearest (decimalValue part.dropLast))
  else none

/-- The forms that only the day of the week has. -/
def parseDayOfWeek : Option Matcher :=
  match (halves '#' part).filter fun p => isWord p.1 && isNumber p.2 with
  | some (token, n) => some (.nth (resolveToken token names) (decimalValue n))
  | none =>
      if (part.getLast? = some 'L' ∨ part.getLast? = some 'l') ∧ isWord part.dropLast then
        some (.last (resolveToken part.dropLast names))
      else none

/-- A range with a step: the first and the last value, and the step. -/
def parseStep : Option (Option ℤ × Option ℤ × ℤ) :=
  match (halves '/' part).filter fun p => isNumber p.2 with
  | none => none
  | some (range, step) =>
      if range = ['*'] then some (some lowest, some highest, (decimalValue step : ℤ))
      else (wordRange range).map fun p =>
        (resolveToken p.1 names, resolveToken p.2 names, (decimalValue step : ℤ))

/-- Whether a loop over the values of a range has a first value. -/
def nonempty (first last : Option ℤ) : Bool :=
  match first, last with
  | some first, some last => first ≤ last
  | _, _ => false

def parsePart : Except Failure Matcher :=
  let special :=
    match fieldType with
    | .dayOfMonth => parseDayOfMonth part
    | .dayOfWeek => parseDayOfWeek names part
    | _ => none
  match special with
  | some m => .ok m
  | none =>
      match parseStep lowest highest names part with
      | some (first, last, step) =>
          if step = 0 ∧ nonempty first last = true then .error .endless
          else .ok (.range first last step)
      | none =>
          match wordRange part with
          | some (first, last) =>
              .ok (.range (resolveToken first names) (resolveToken last names) 1)
          | none => .ok (.value (resolveToken part names))

end Part

def parseField (field : Text) (lowest highest : ℤ) (fieldType : FieldType)
    (names : List (Text × ℤ)) : Except Failure Field :=
  if field = ['*'] then .ok [.any]
  else (field.splitOn ',').mapM (parsePart fieldType lowest highest names)

structure ParsedCron where
  expression : Text
  minute : Field
  hour : Field
  dayOfMonth : Field
  month : Field
  dayOfWeek : Field

/-- `parseCron` of an expression that is not a special one, without the white space around it. -/
def parseFields (expression trimmed : Text) : Except Failure ParsedCron :=
  match (trimmed.splitOnP isSpace).filter (· ≠ []) with
  | [minute, hour, dayOfMonth, month, dayOfWeek] => do
      return {
        expression := trimmed
        minute := ← parseField minute 0 59 .minute []
        hour := ← parseField hour 0 23 .hour []
        dayOfMonth := ← parseField dayOfMonth 1 31 .dayOfMonth []
        month := ← parseField month 1 12 .month monthNames
        dayOfWeek := ← parseField dayOfWeek 0 6 .dayOfWeek dayNames }
  | _ => .error (.invalid expression)

def parseCron (expression : Text) : Except Failure ParsedCron :=
  let trimmed := trim expression
  let key := trimmed.map lowerCase
  if key = "constructor".toList ∨ key = "__proto__".toList then .error .typeError
  else
    match specialCrons.lookup key with
    | some special => (parseFields special special).map fun parsed =>
        { parsed with expression := trimmed }
    | none => parseFields expression trimmed

def cronMatchesDate (cron : ParsedCron) (date : DateFields) : Bool :=
  cron.minute.test date.minutes date && cron.hour.test date.hours date &&
    cron.dayOfMonth.test date.date date && cron.month.test (date.month + 1) date &&
    cron.dayOfWeek.test date.day date

end Lopata.Cron

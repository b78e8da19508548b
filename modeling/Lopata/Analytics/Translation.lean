import Mathlib.Data.List.Forall2
import Lopata.Analytics.Ordering

/-!
# Translating Analytics Engine Queries

The emitter of `analytics-engine-sql.ts`: an expression of ClickHouse becomes one of SQLite, which
is kept as a tree here, and `inferType` says what type its column has. A `DateTime` is a number of
seconds in SQLite. It is put as a text twice: a date literal that faces one in a comparison is a
number already, and a result column of such a type is rendered.

## Main definitions

* `Node`, `Sql`: expressions of a query and of SQLite.
* `inferType`, `emit`: the type and the translation of an expression.
* `formatDateTimeColumns`: the rendering of the rows.
-/

namespace Lopata.Analytics

/-! ### Expressions -/

/-- An expression of a query; functions without parameters have an empty list of them. -/
inductive Node
  | num (value : Double)
  | str (value : String)
  | col (name : String)
  | star
  | func (name : String) (args : List Node) (params : List Node) (distinct : Bool)
  | interval (seconds : Double)
  | binary (op : String) (left right : Node)
  | unary (op : String) (operand : Node)
  | isIn (expr : Node) (list : List Node) (negate : Bool)
  | like (expr pattern : Node) (negate : Bool)
  | between (expr low high : Node) (negate : Bool)
  | isnull (expr : Node) (negate : Bool)

/-- An expression of SQLite. -/
inductive Sql
  | number (x : Double)
  /-- A whole number with a point. -/
  | decimal (n : ℕ)
  | text (value : String)
  | star
  | column (name : String)
  /-- A reference to an output column. -/
  | output (name : String)
  | paren (e : Sql)
  | unary (op : String) (e : Sql)
  | binary (op : String) (left right : Sql)
  /-- An operator without parentheses around it. -/
  | chain (op : String) (left right : Sql)
  | isIn (negate : Bool) (e : Sql) (list : List Sql)
  | like (negate : Bool) (e pattern : Sql)
  | between (negate : Bool) (e low high : Sql)
  | isNull (negate : Bool) (e : Sql)
  | call (name : String) (args : List Sql)
  | countDistinct (e : Sql)
  | cast (type : String) (e : Sql)
  | caseWhen (c a b : Sql)

/-- The type of a column. -/
inductive ColumnType
  | dateTime
  | date
  | float64
  | uint64
  | uint32
  | uint16
  | uint8
  | string
  deriving DecidableEq, Repr

/-- `DateTime` or `Date`. -/
def ColumnType.isDate (type : ColumnType) : Bool := type = .dateTime || type = .date

/-- `toLowerCase` of a name, as far as it is in ASCII then. -/
def lowerCase (name : String) : String :=
  String.ofList (name.toList.map fun c => if c.toNat = 8490 then 'k' else c.toLower)

def isInteger : Double → Bool
  | .finite q _ => q.den = 1
  | .infinite _ => false

/-! ### Types -/

def colType (name : String) : ColumnType :=
  if name = "timestamp" then .dateTime
  else if "double".toList.isPrefixOf name.toList then .float64
  else if name = "_sample_interval" then .uint32
  else .string

/-- `DATE_FN_TYPES`. -/
def dateFnTypes : List (String × ColumnType) :=
  [("todate", .date), ("tomonday", .date), ("tostartofweek", .date), ("tostartofmonth", .date),
    ("tostartofquarter", .date), ("tostartofyear", .date), ("toyear", .uint16),
    ("todayofyear", .uint16), ("toquarter", .uint8), ("tomonth", .uint8),
    ("todayofmonth", .uint8), ("todayofweek", .uint8), ("tohour", .uint8), ("tominute", .uint8),
    ("tosecond", .uint8), ("tounixtimestamp", .uint32)]

/-- The type of a call, from the types of its arguments. -/
def callType (fn : String) (types : List ColumnType) : ColumnType :=
  if fn = "count" then .uint64
  else if fn ∈ ["sum", "avg", "tofloat64", "tofloat32", "abs", "round"] then .float64
  else if fn = "if" then types.getD 1 .string
  else if fn ∈ ["min", "max", "coalesce"] then types.getD 0 .string
  else if fn ∈ ["touint32", "touint64", "toint32", "toint64", "intdiv", "floor", "length"] then
    .uint64
  else
    match dateFnTypes.lookup fn with
    | some type => type
    | none =>
        if "tostartof".toList.isPrefixOf fn.toList || fn = "todatetime" || fn = "now" then
          .dateTime
        else if fn ∈ ["lower", "upper", "tostring"] then .string
        else .float64

mutual

def inferType : Node → ColumnType
  | .num value => if isInteger value then .uint64 else .float64
  | .str _ => .string
  | .col name => colType name
  | .binary op _ _ =>
      if op ∈ ["=", "!=", "<>", "<", "<=", ">", ">=", "AND", "OR"] then .uint8 else .float64
  | .unary op operand => if op = "NOT" then .uint8 else inferType operand
  | .isIn .. | .like .. | .between .. | .isnull .. => .uint8
  | .func name args _ _ => callType (lowerCase name) (inferTypes args)
  | .star | .interval _ => .string

def inferTypes : List Node → List ColumnType
  | [] => []
  | node :: nodes => inferType node :: inferTypes nodes

end

/-! ### Date literals -/

/-- The fields of a date in UTC. -/
structure UtcFields where
  fullYear : ℤ
  month : ℤ
  date : ℤ
  hours : ℤ
  minutes : ℤ
  seconds : ℤ

/-- What dates do: `Date.parse`, whose times are within 10^8 days of 1970, and the fields of
`new Date(ms)`; none is invalid. -/
structure Dates where
  parse : String → Option ℤ
  utc : Double → Option UtcFields
  bounded : ∀ text ms, parse text = some ms → |ms| ≤ 8640000000000000

/-- A text has the shape of another one, with digits for its `d`. -/
def shaped : List Char → List Char → Bool
  | [], [] => true
  | s :: shape, c :: cs => (if s = 'd' then c.isDigit else c = s) && shaped shape cs
  | _, _ => false

/-- The end of a date literal: the fraction of a second is dropped. -/
def endsDate : List Char → Bool
  | '.' :: cs =>
      let rest := cs.dropWhile Char.isDigit
      rest.length < cs.length && (rest = [] || rest = ['Z'])
  | cs => cs = [] || cs = ['Z']

/-- The day and the time of a date literal. -/
def matchDate (text : List Char) : Option (List Char × List Char) :=
  let (day, rest) := text.splitAt 10
  let (time, end_) := (rest.drop 1).splitAt 8
  if !shaped "dddd-dd-dd".toList day then none
  else if rest = [] || rest = ['Z'] then some (day, "00:00:00".toList)
  else if rest.head?.any (· ∈ [' ', 'T']) && shaped "dd:dd:dd".toList time && endsDate end_ then
    some (day, time)
  else none

def parseDateTimeLiteral (dates : Dates) (value : String) : Except String Double :=
  let parsed := (matchDate (trim value.toList)).bind fun (day, time) =>
    dates.parse (String.ofList (day ++ 'T' :: time ++ ['Z']))
  match parsed with
  | some ms => .ok (.ofRat (ms / 1000 : ℤ))
  | none =>
      .error (s!"Cannot parse '{value}' as a DateTime — " ++
        "expected 'YYYY-MM-DD' or 'YYYY-MM-DD HH:MM:SS'")

/-! ### Checks -/

def quantileFns : List String :=
  ["quantile", "quantileexact", "quantileweighted", "quantileexactweighted"]

def plainAggregateFns : List String := ["count", "sum", "avg", "min", "max"]

mutual

def containsPlainAggregate : Node → Bool
  | .func name args params _ =>
      lowerCase name ∈ plainAggregateFns || anyPlainAggregate args || anyPlainAggregate params
  | .binary _ left right => containsPlainAggregate left || containsPlainAggregate right
  | .unary _ operand => containsPlainAggregate operand
  | .isIn expr list _ => containsPlainAggregate expr || anyPlainAggregate list
  | .like expr pattern _ => containsPlainAggregate expr || containsPlainAggregate pattern
  | .between expr low high _ =>
      containsPlainAggregate expr || containsPlainAggregate low || containsPlainAggregate high
  | .isnull expr _ => containsPlainAggregate expr
  | .num _ | .str _ | .col _ | .star | .interval _ => false

def anyPlainAggregate : List Node → Bool
  | [] => false
  | node :: nodes => containsPlainAggregate node || anyPlainAggregate nodes

end

/-- `FN_ARITY`; none is no bound. -/
def fnArity : List (String × ℕ × Option ℕ) :=
  [("count", 0, some 1), ("sum", 1, some 1), ("avg", 1, some 1), ("min", 1, some 1),
    ("max", 1, some 1), ("touint32", 1, some 1), ("touint64", 1, some 1), ("toint32", 1, some 1),
    ("toint64", 1, some 1), ("tofloat64", 1, some 1), ("tofloat32", 1, some 1),
    ("tostring", 1, some 1), ("todatetime", 1, some 2), ("intdiv", 2, some 2),
    ("tostartofinterval", 2, some 3), ("tostartofminute", 1, some 2), ("tostartofhour", 1, some 2),
    ("tostartofday", 1, some 2), ("tostartofweek", 1, some 3), ("tostartofmonth", 1, some 2),
    ("tostartofquarter", 1, some 2), ("tostartofyear", 1, some 2), ("tomonday", 1, some 2),
    ("todate", 1, some 2), ("toyear", 1, some 2), ("toquarter", 1, some 2), ("tomonth", 1, some 2),
    ("todayofmonth", 1, some 2), ("todayofweek", 1, some 3), ("todayofyear", 1, some 2),
    ("tohour", 1, some 2), ("tominute", 1, some 2), ("tosecond", 1, some 2),
    ("tounixtimestamp", 1, some 2), ("abs", 1, some 1), ("round", 1, some 2), ("min2", 2, some 2),
    ("max2", 2, some 2), ("coalesce", 1, none), ("length", 1, some 1), ("lower", 1, some 1),
    ("upper", 1, some 1), ("floor", 1, some 1), ("if", 3, some 3), ("now", 0, some 0)]

/-- The count of arguments in a message. -/
def expectedArguments (min : ℕ) (max : Option ℕ) : String :=
  let noun := if min = 1 then "argument" else "arguments"
  match max with
  | none => s!"at least {min} {noun}"
  | some max => if min = max then s!"exactly {min} {noun}" else s!"{min} to {max} arguments"

def checkArity (name : String) (got : ℕ) : Except String Unit :=
  match fnArity.lookup (lowerCase name) with
  | none => .ok ()
  | some (min, max) =>
      if min ≤ got ∧ max.all (got ≤ ·) then .ok ()
      else
        let expected := expectedArguments min max
        .error s!"Function '{name}' expects {expected}, got {got}"

/-- `DATETIME_ARG_FNS`. -/
def dateTimeArgFns : List String :=
  ["todatetime", "todate", "tostartofinterval", "tostartofminute", "tostartofhour",
    "tostartofday", "tostartofweek", "tostartofmonth", "tostartofquarter", "tostartofyear",
    "tomonday", "toyear", "toquarter", "tomonth", "todayofmonth", "todayofweek", "todayofyear",
    "tohour", "tominute", "tosecond", "tounixtimestamp"]

def utcZones : List String := ["utc", "etc/utc", "etc/gmt", "gmt", "z"]

def secondArgFns : List String := ["tostartofinterval", "tostartofweek", "todayofweek"]

/-- An argument that is not the first one nor in the reserved slot is a time zone. -/
def checkTimezoneArg (name : String) (i : ℕ) (arg : Node) : Except String Unit :=
  if i = 0 ∨ i = 1 ∧ lowerCase name ∈ secondArgFns then .ok ()
  else
    match arg with
    | .str value =>
        if lowerCase (String.ofList (trim value.toList)) ∈ utcZones then .ok ()
        else
          .error (s!"Function '{name}' only supports the UTC timezone in the local " ++
            s!"Analytics Engine emulation, got '{value}'")
    | _ =>
        let argument := i + 1
        .error s!"Function '{name}' expects a timezone string as argument {argument}"

def checkTimezoneArgs (name : String) (args : List Node) : Except String Unit :=
  args.zipIdx.forM fun (arg, i) => checkTimezoneArg name i arg

/-- The mode is the second argument, unless that is a text. -/
def modeArg (name : String) (args : List Node) : Except String (Option Double) :=
  match args.tail.head? with
  | none | some (.str _) => .ok none
  | some (.num value) => .ok (some value)
  | some _ => .error s!"Function '{name}' requires a numeric mode literal as argument 2"

/-- The integer that a number is. -/
def toInt : Double → Option ℤ
  | .finite q _ => if q.den = 1 then some q.num else none
  | .infinite _ => none

/-! ### The translation -/

/-- What an expression is emitted with; whether it has a LIKE is seen in what is emitted. -/
structure EmitCtx where
  nowSeconds : Double
  aliases : List String := []
  dates : Dates

/-- The columns of the table, by `COL_RE`. -/
def tableColumns : List String :=
  ["index1", "_sample_interval", "timestamp", "dataset"] ++
    (List.range 20).flatMap fun i => [s!"blob{i + 1}", s!"double{i + 1}"]

namespace Sql

def ofRat (q : ℚ) : Sql := .number (.ofRat q)

def toInteger (e : Sql) : Sql := .cast "INTEGER" e

def datePart (format : String) (e : Sql) : Sql :=
  (call "strftime" [.text format, e.toInteger, .text "unixepoch"]).toInteger

def truncateTo (e : Sql) (modifiers : List Sql) : Sql :=
  (call "strftime" ([.text "%s", e.toInteger, .text "unixepoch"] ++ modifiers)).toInteger

/-- The last multiple of a number of seconds. -/
def floorTo (e : Sql) (seconds : Double) : Sql :=
  .binary "*" (.binary "/" e.toInteger (.number seconds)) (.number seconds)

/-- `((part - 1) / 3)`. -/
def quarterOf (e : Sql) : Sql :=
  .binary "/" (.binary "-" (e.datePart "%m") (.ofRat 1)) (.ofRat 3)

end Sql

/-- `toStartOfWeek`: back a week and on to the first day. -/
def emitStartOfWeek (name : String) (args : List Node) (e : Sql) : Except String Sql := do
  let mode := (← modeArg name args).getD (.ofRat 0)
  match toInt mode with
  | some n =>
      if 0 ≤ n ∧ n ≤ 9 then
        let weekday := if n % 2 = 1 then "weekday 1" else "weekday 0"
        return e.truncateTo [.text "start of day", .text "-6 days", .text weekday]
      else
        throw s!"toStartOfWeek mode must be an integer between 0 and 9, got {n}"
  | none =>
      let text := String.ofList mode.text
      throw s!"toStartOfWeek mode must be an integer between 0 and 9, got {text}"

def emitDayOfWeek (name : String) (args : List Node) (e : Sql) : Except String Sql := do
  let w := e.datePart "%w"
  match toInt ((← modeArg name args).getD (.ofRat 0)) with
  | some 0 => return .binary "+" (.chain "%" (.binary "+" w (.ofRat 6)) (.ofRat 7)) (.ofRat 1)
  | some 1 => return .binary "%" (.binary "+" w (.ofRat 6)) (.ofRat 7)
  | some 2 => return .paren w
  | some 3 => return .binary "+" w (.ofRat 1)
  | _ => throw "toDayOfWeek mode must be 0, 1, 2 or 3"

/-- The switch of `emitFunc`; an argument that is missing is put as `undefined`. -/
def emitCall (x : EmitCtx) (name : String) (args : List Node) (distinct : Bool) (a : List Sql) :
    Except String Sql :=
  let arg (i : ℕ) : Sql := a.getD i (.column "undefined")
  match lowerCase name with
  | "count" =>
      .ok (if distinct ∧ a.length = 1 then .countDistinct (arg 0) else .call "COUNT" [.star])
  | "sum" => .ok (.call "COALESCE" [.call "SUM" [arg 0], .ofRat 0])
  | "avg" => .ok (.call "AVG" [arg 0])
  | "min" => .ok (.call "MIN" [arg 0])
  | "max" => .ok (.call "MAX" [arg 0])
  | "touint32" | "touint64" | "toint32" | "toint64" => .ok (arg 0).toInteger
  | "tofloat64" | "tofloat32" => .ok (.cast "REAL" (arg 0))
  | "tostring" => .ok (.cast "TEXT" (arg 0))
  | "todatetime" => .ok (.paren (arg 0))
  | "intdiv" => .ok (.binary "/" (arg 0).toInteger (arg 1).toInteger)
  | "tostartofinterval" =>
      match args.tail.head? with
      | some (.interval seconds) => .ok ((arg 0).floorTo seconds)
      | _ => .error "toStartOfInterval requires an INTERVAL literal as its 2nd argument"
  | "tostartofminute" => .ok ((arg 0).floorTo (.ofRat 60))
  | "tostartofhour" => .ok ((arg 0).floorTo (.ofRat 3600))
  | "tostartofday" | "todate" => .ok ((arg 0).floorTo (.ofRat 86400))
  | "tostartofweek" => emitStartOfWeek name args (arg 0)
  | "tomonday" =>
      .ok ((arg 0).truncateTo [.text "start of day", .text "-6 days", .text "weekday 1"])
  | "tostartofmonth" => .ok ((arg 0).truncateTo [.text "start of month"])
  | "tostartofquarter" =>
      .ok ((arg 0).truncateTo [.text "start of year",
        .chain "||" (.chain "||" (.text "+") (.binary "*" (arg 0).quarterOf (.ofRat 3)))
          (.text " months")])
  | "tostartofyear" => .ok ((arg 0).truncateTo [.text "start of year"])
  | "toyear" => .ok ((arg 0).datePart "%Y")
  | "toquarter" =>
      .ok (.binary "+" (.chain "/" (.binary "-" ((arg 0).datePart "%m") (.ofRat 1)) (.ofRat 3))
        (.ofRat 1))
  | "tomonth" => .ok ((arg 0).datePart "%m")
  | "todayofmonth" => .ok ((arg 0).datePart "%d")
  | "todayofweek" => emitDayOfWeek name args (arg 0)
  | "todayofyear" => .ok ((arg 0).datePart "%j")
  | "tohour" => .ok ((arg 0).datePart "%H")
  | "tominute" => .ok ((arg 0).datePart "%M")
  | "tosecond" => .ok ((arg 0).datePart "%S")
  | "tounixtimestamp" => .ok (arg 0).toInteger
  | "abs" => .ok (.call "ABS" a)
  | "round" => .ok (.call "ROUND" a)
  | "min2" => .ok (.call "MIN2" a)
  | "max2" => .ok (.call "MAX2" a)
  | "coalesce" => .ok (.call "COALESCE" a)
  | "length" => .ok (.call "LENGTH" a)
  | "lower" => .ok (.call "LOWER" a)
  | "upper" => .ok (.call "UPPER" a)
  | "floor" => .ok (arg 0).toInteger
  | "if" => .ok (.caseWhen (arg 0) (arg 1) (arg 2))
  | "now" => .ok (.number x.nowSeconds)
  | _ =>
      .error s!"Function '{name}' is not supported by the local Analytics Engine emulation yet"

/-- What is refused before the arguments are emitted. -/
def checkCall (name : String) (args : List Node) : Except String Unit :=
  if lowerCase name ∈ quantileFns then
    .error (s!"Function '{name}' is only supported in the SELECT list, " ++
      "not inside other expressions")
  else if lowerCase name ∈ plainAggregateFns ∧ anyPlainAggregate args then
    .error s!"Aggregate function '{name}' cannot be nested inside another aggregate"
  else checkArity name args.length

/-- A date literal in front of the arguments is put as its instant. -/
def putDateLiteral (x : EmitCtx) (args : List Node) (a : List Sql) : Except String (List Sql) :=
  match args with
  | .str value :: _ => do
      let seconds ← parseDateTimeLiteral x.dates value
      return a.set 0 (.number seconds)
  | _ => .ok a

/-- The arguments of a date function. -/
def resolveDateArg (x : EmitCtx) (name : String) (args : List Node) (a : List Sql) :
    Except String (List Sql) :=
  if lowerCase name ∈ dateTimeArgFns then do
    let a ← putDateLiteral x args a
    checkTimezoneArgs name args
    return a
  else .ok a

def compareOps : List String := ["=", "!=", "<", "<=", ">", ">="]

/-- One side of a comparison: a text that faces a date is a date literal. -/
def emitOperand (x : EmitCtx) (node against : Node) (emitted : Except String Sql) :
    Except String Sql :=
  match node with
  | .str value =>
      if (inferType against).isDate then (parseDateTimeLiteral x.dates value).map .number
      else emitted
  | _ => emitted

mutual

def emit (x : EmitCtx) : Node → Except String Sql
  | .num value => .ok (.number value)
  | .str value => .ok (.text value)
  | .star => .ok .star
  | .interval seconds => .ok (.number seconds)
  | .col name =>
      if name = "timestamp" then .ok (.binary "/" (.column "timestamp") (.decimal 1000))
      else if name ∈ tableColumns then .ok (.column name)
      else if name ∈ x.aliases then .ok (.output name)
      else .error s!"Unknown column '{name}'"
  | .unary op operand => do
      let e ← emit x operand
      return .unary (if op = "NOT" then "NOT" else "-") e
  | .binary op left right =>
      if op = "/" then do
        let l ← emit x left
        let r ← emit x right
        return .binary "/" (.chain "*" l (.decimal 1)) r
      else
        let op := if op = "<>" then "!=" else op
        if op ∈ compareOps then do
          let l ← emitOperand x left right (emit x left)
          let r ← emitOperand x right left (emit x right)
          return .binary op l r
        else do
          let l ← emit x left
          let r ← emit x right
          return .binary op l r
  | .isIn expr list negate => do
      let list ← emitOperands x expr list
      let e ← emit x expr
      return .isIn negate e list
  | .like expr pattern negate => do
      let e ← emit x expr
      let pattern ← emit x pattern
      return .like negate e pattern
  | .between expr low high negate => do
      let e ← emit x expr
      let low ← emitOperand x low expr (emit x low)
      let high ← emitOperand x high expr (emit x high)
      return .between negate e low high
  | .isnull expr negate => do
      let e ← emit x expr
      return .isNull negate e
  | .func name args _ distinct => do
      checkCall name args
      let a ← emitAll x args
      let a ← resolveDateArg x name args a
      emitCall x name args distinct a

def emitAll (x : EmitCtx) : List Node → Except String (List Sql)
  | [] => .ok []
  | node :: nodes => do
      let e ← emit x node
      let es ← emitAll x nodes
      return e :: es

def emitOperands (x : EmitCtx) (against : Node) : List Node → Except String (List Sql)
  | [] => .ok []
  | node :: nodes => do
      let e ← emitOperand x node against (emit x node)
      let es ← emitOperands x against nodes
      return e :: es

end

/-! ### What is emitted -/

section Emit

variable {x : EmitCtx} {name : String} {args params : List Node} {distinct : Bool} {e : Node}
  {sql : Sql}

theorem bind_eq_ok {α β : Type} {m : Except String α} {f : α → Except String β} {b : β} :
    m >>= f = .ok b ↔ ∃ a, m = .ok a ∧ f a = .ok b := by
  cases m with
  | error => exact ⟨fun h => (nomatch h), fun ⟨_, h, _⟩ => (nomatch h)⟩
  | ok a => exact ⟨fun h => ⟨a, rfl, h⟩, fun ⟨_, ha, h⟩ => Except.ok.inj ha ▸ h⟩

theorem exists_mem_of_forall₂ {α β : Type} {r : α → β → Prop} {l : List α} {l' : List β}
    (h : List.Forall₂ r l l') {b : β} (hb : b ∈ l') : ∃ a ∈ l, r a b := by
  induction h with
  | nil => cases hb
  | cons hr _ ih =>
    rcases List.mem_cons.mp hb with rfl | hb
    · exact ⟨_, List.mem_cons_self, hr⟩
    · obtain ⟨a, ha, hr⟩ := ih hb
      exact ⟨a, List.mem_cons_of_mem _ ha, hr⟩

theorem forall₂_of_emitAll {nodes : List Node} {es : List Sql} (h : emitAll x nodes = .ok es) :
    List.Forall₂ (fun node e => emit x node = .ok e) nodes es := by
  induction nodes generalizing es with
  | nil =>
    obtain rfl := Except.ok.inj h
    exact .nil
  | cons node nodes ih =>
    rw [emitAll] at h
    obtain ⟨e, he, h⟩ := bind_eq_ok.mp h
    obtain ⟨es', hes, h⟩ := bind_eq_ok.mp h
    obtain rfl := Except.ok.inj h
    exact .cons he (ih hes)

/-- What a call is emitted from. -/
theorem emit_func (h : emit x (.func name args params distinct) = .ok sql) :
    checkCall name args = .ok () ∧ ∃ a a', List.Forall₂ (fun arg e => emit x arg = .ok e) args a ∧
      resolveDateArg x name args a = .ok a' ∧ emitCall x name args distinct a' = .ok sql := by
  rw [emit] at h
  obtain ⟨⟨⟩, hcheck, h⟩ := bind_eq_ok.mp h
  obtain ⟨a, ha, h⟩ := bind_eq_ok.mp h
  obtain ⟨a', ha', h⟩ := bind_eq_ok.mp h
  exact ⟨hcheck, a, a', forall₂_of_emitAll ha, ha', h⟩

/-- Other functions than those of dates take their arguments as they are. -/
theorem emit_func_of_notMem (hname : lowerCase name ∉ dateTimeArgFns)
    (h : emit x (.func name args params distinct) = .ok sql) :
    ∃ a, List.Forall₂ (fun arg e => emit x arg = .ok e) args a ∧
      emitCall x name args distinct a = .ok sql := by
  obtain ⟨-, a, a', ha, hresolve, hcall⟩ := emit_func h
  obtain rfl := Except.ok.inj ((if_neg hname).symm.trans hresolve)
  exact ⟨a, ha, hcall⟩

theorem of_resolveDateArg {a a' : List Sql} (hname : lowerCase name ∈ dateTimeArgFns)
    (h : resolveDateArg x name args a = .ok a') : putDateLiteral x args a = .ok a' := by
  rw [resolveDateArg, if_pos hname] at h
  obtain ⟨a₁, ha₁, h⟩ := bind_eq_ok.mp h
  obtain ⟨⟨⟩, -, h⟩ := bind_eq_ok.mp h
  rwa [← Except.ok.inj h]

/-- A date literal is put as a number, and another argument is taken as it is. -/
theorem putDateLiteral_cases {arg : Node} {a a' : List Sql}
    (h : putDateLiteral x (arg :: args) a = .ok a') :
    a' = a ∨ ∃ n, a' = a.set 0 (.number n) := by
  cases arg with
  | str value =>
    obtain ⟨n, -, h⟩ := bind_eq_ok.mp h
    exact .inr ⟨n, (Except.ok.inj h).symm⟩
  | _ => exact .inl (Except.ok.inj h).symm

/-- `toDateTime` has an argument. -/
theorem exists_cons_of_checkCall (hname : lowerCase name = "todatetime")
    (h : checkCall name args = .ok ()) : ∃ arg rest, args = arg :: rest := by
  cases args with
  | cons arg rest => exact ⟨arg, rest, rfl⟩
  | nil =>
    rw [checkCall, checkArity, hname] at h
    cases h

/-- A sum or a difference is emitted as one. -/
theorem binary_of_emit {op : String} {left right : Node} (hop : op = "+" ∨ op = "-")
    (h : emit x (.binary op left right) = .ok sql) : ∃ l r, sql = .binary op l r := by
  have hne : op ≠ "/" ∧ op ≠ "<>" ∧ op ∉ compareOps := by rcases hop with rfl | rfl <;> decide
  rw [emit, if_neg hne.1] at h
  simp only [if_neg hne.2.1, if_neg hne.2.2] at h
  obtain ⟨l, -, h⟩ := bind_eq_ok.mp h
  obtain ⟨r, -, h⟩ := bind_eq_ok.mp h
  exact ⟨l, r, (Except.ok.inj h).symm⟩

end Emit

/-! ### The columns of a result -/

structure SelectItem where
  expr : Node
  name : String

/-- `TranslatedQuery`, as far as the rows are rendered by it. -/
structure TranslatedQuery where
  columns : List (String × ColumnType)
  hasStar : Bool

def isQuantile : Node → Bool
  | .func name .. => lowerCase name ∈ quantileFns
  | _ => false

def isStar : Node → Bool
  | .star => true
  | _ => false

def translatedColumns (select : List SelectItem) : TranslatedQuery where
  columns := (select.filter fun item => !isStar item.expr).map fun item =>
    (item.name, if isQuantile item.expr then .float64 else inferType item.expr)
  hasStar := select.any fun item => isStar item.expr

/-- `Math.floor(seconds) * 1000`. -/
def floorMs : Double → Double
  | .finite q _ => .ofRat (⌊q⌋ * 1000)
  | .infinite negative => .infinite negative

/-- `padStart(2, '0')`. -/
def pad (n : ℤ) : String :=
  let text := toString n
  if text.length < 2 then "0" ++ text else text

def formatDateTime (dates : Dates) (epochSeconds : Double) : String :=
  match dates.utc (floorMs epochSeconds) with
  | none => "NaN-NaN-NaN NaN:NaN:NaN"
  | some d =>
      toString d.fullYear ++ "-" ++ pad (d.month + 1) ++ "-" ++ pad d.date ++ " " ++
        pad d.hours ++ ":" ++ pad d.minutes ++ ":" ++ pad d.seconds

def formatDate (dates : Dates) (epochSeconds : Double) : String :=
  String.ofList ((formatDateTime dates epochSeconds).toList.take 10)

/-- How the numbers of a column of a type are rendered, if they are. -/
def formatOf (dates : Dates) : ColumnType → Option (Double → String)
  | .dateTime => some (formatDateTime dates)
  | .date => some (formatDate dates)
  | _ => none

/-- A row of the result as an object. -/
abbrev ResultRow := String → Option Value

/-- The numbers of a column are rendered. -/
def renderColumn (name : String) (format : Double → String) (row : ResultRow) : ResultRow :=
  match (row name).bind Value.number with
  | some v => Function.update row name (some (.text (format v).toList))
  | none => row

/-- A number of milliseconds in seconds. -/
def msToSeconds : Double → Double
  | .finite q _ => .ofRat (q / 1000)
  | .infinite negative => .infinite negative

def formatRow (dates : Dates) (t : TranslatedQuery) (row : ResultRow) : ResultRow :=
  let rawTimestamp := t.hasStar && !t.columns.any fun column => column.1 = "timestamp"
  let row :=
    if rawTimestamp then
      renderColumn "timestamp" (fun ms => formatDateTime dates (msToSeconds ms)) row
    else row
  t.columns.foldl (fun row column =>
    match formatOf dates column.2 with
    | some format => renderColumn column.1 format row
    | none => row) row

def formatDateTimeColumns (dates : Dates) (data : List ResultRow) (t : TranslatedQuery) :
    List ResultRow :=
  data.map (formatRow dates t)

end Lopata.Analytics

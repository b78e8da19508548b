import Lopata.Analytics.Sqlite

/-!
# The Types of Dates

An expression of a query that is a date has a number of seconds as its value in SQLite. That a date
literal it is compared with is such a number as well, and that it is rendered when it is selected,
both depend on the type that `inferType` gives it. This is the type of the first argument of `min`,
`max` and `coalesce` and of the second one of `if`; a sum or a difference is a `Float64`, one with
an interval like all others.

## Main results

* `isDate_inferType_iff`: which dates have the type of a date.
* `text_origin`: only an argument of `toDateTime` can make the value of a date a text.
* `formatRow_eq`: what is rendered.
* `dateTyped_iff`: when a date is compared and rendered as one.
* `not_dateTyped`: a day after the time stamp.
-/

namespace Lopata.Analytics

/-! ### Dates -/

/-- The family of `toStartOfInterval`. -/
def startOfFns : List String :=
  ["tostartofinterval", "tostartofminute", "tostartofhour", "tostartofday", "tostartofweek",
    "tostartofmonth", "tostartofquarter", "tostartofyear"]

/-- The expressions that are dates. -/
inductive DateTimeValued : Node → Prop
  | timestamp : DateTimeValued (.col "timestamp")
  | now {name : String} {args params : List Node} {distinct : Bool}
      (hname : lowerCase name = "now") : DateTimeValued (.func name args params distinct)
  | toDateTime {name : String} {args params : List Node} {distinct : Bool}
      (hname : lowerCase name = "todatetime") : DateTimeValued (.func name args params distinct)
  | startOf {name : String} {args params : List Node} {distinct : Bool}
      (hname : lowerCase name ∈ startOfFns) : DateTimeValued (.func name args params distinct)
  | shift {op : String} {e : Node} (seconds : Double) (hop : op = "+" ∨ op = "-")
      (he : DateTimeValued e) : DateTimeValued (.binary op e (.interval seconds))
  | shiftLeft {e : Node} (seconds : Double) (he : DateTimeValued e) :
      DateTimeValued (.binary "+" (.interval seconds) e)
  | extremum {name : String} {e : Node} {params : List Node} {distinct : Bool}
      (hname : lowerCase name = "min" ∨ lowerCase name = "max") (he : DateTimeValued e) :
      DateTimeValued (.func name [e] params distinct)
  | ite {name : String} {c a b : Node} {params : List Node} {distinct : Bool}
      (hname : lowerCase name = "if") (ha : DateTimeValued a) (hb : DateTimeValued b) :
      DateTimeValued (.func name [c, a, b] params distinct)
  | coalesce {name : String} {e : Node} {args params : List Node} {distinct : Bool}
      (hname : lowerCase name = "coalesce") (he : DateTimeValued e)
      (hargs : ∀ arg ∈ args, DateTimeValued arg) :
      DateTimeValued (.func name (e :: args) params distinct)

mutual

/-- The type of an expression is that of a sum or a difference. -/
def shifted : Node → Bool
  | .binary .. => true
  | .func name args _ _ =>
      if lowerCase name = "if" then (shiftedAll args).getD 1 false
      else if lowerCase name ∈ ["min", "max", "coalesce"] then (shiftedAll args).getD 0 false
      else false
  | _ => false

def shiftedAll : List Node → List Bool
  | [] => []
  | node :: nodes => shifted node :: shiftedAll nodes

end

/-- An argument of `toDateTime` whose value is that of an expression. -/
inductive ToDateTimeArg : Node → Node → Prop
  | here {name : String} {arg : Node} {args params : List Node} {distinct : Bool}
      (hname : lowerCase name = "todatetime") :
      ToDateTimeArg (.func name (arg :: args) params distinct) arg
  | extremum {name : String} {e arg : Node} {params : List Node} {distinct : Bool}
      (hname : lowerCase name = "min" ∨ lowerCase name = "max") (h : ToDateTimeArg e arg) :
      ToDateTimeArg (.func name [e] params distinct) arg
  | ite {name : String} {c a b e arg : Node} {params : List Node} {distinct : Bool}
      (hname : lowerCase name = "if") (hbranch : e = a ∨ e = b) (h : ToDateTimeArg e arg) :
      ToDateTimeArg (.func name [c, a, b] params distinct) arg
  | coalesce {name : String} {e arg : Node} {args params : List Node} {distinct : Bool}
      (hname : lowerCase name = "coalesce") (hmem : e ∈ args) (h : ToDateTimeArg e arg) :
      ToDateTimeArg (.func name args params distinct) arg

/-! ### SQLite -/

/-- What is used of SQLite: the values of expressions, in a row or a group of rows. Numbers are
compared by their values, arithmetic and casts to a number give no text, and the other forms give
the value of one of their parts. The text of a whole number of 53 bits is exact. -/
structure Sqlite where
  Context : Type
  value : Context → Sql → Value
  number : ∀ cx x, (value cx (.number x)).isText = false
  whole : ∀ cx (n : ℤ), |n| < 2 ^ 53 →
    (value cx (.number (.ofRat n))).instant = some (Double.ofRat n).value
  paren : ∀ cx e, value cx (.paren e) = value cx e
  arith : ∀ cx op l r, op ∈ ["+", "-", "*", "/", "%"] →
    (value cx (.binary op l r)).isText = false
  toInteger : ∀ cx e, (value cx (.cast "INTEGER" e)).isText = false
  caseWhen : ∀ cx c a b,
    value cx (.caseWhen c a b) = value cx a ∨ value cx (.caseWhen c a b) = value cx b
  coalesce : ∀ cx es, value cx (.call "COALESCE" es) = .null ∨
    ∃ e ∈ es, value cx (.call "COALESCE" es) = value cx e
  extremum : ∀ cx name e, name ∈ ["MIN", "MAX"] → value cx (.call name [e]) = .null ∨
    ∃ cx', value cx (.call name [e]) = value cx' e
  compare : ∀ cx op l r, op ∈ compareOps → (value cx l).isText = false →
    (value cx r).isText = false → value cx (.binary op l r) =
      truth ((value cx l).instant.bind fun a => (value cx r).instant.map (holds op a))
  isIn : ∀ cx negate e list (instants : List Instant), list ≠ [] → (value cx e).isText = false →
    list.map (fun q => (value cx q).instant) = instants.map some →
      value cx (.isIn negate e list) =
        truth ((value cx e).instant.map fun a => decide (a ∈ instants) != negate)
  between : ∀ cx negate e low high l h, (value cx e).isText = false →
    (value cx low).instant = some l → (value cx high).instant = some h →
      value cx (.between negate e low high) =
        truth ((value cx e).instant.map fun a => (decide (l ≤ a ∧ a ≤ h)) != negate)

/-- The operator that `<>` is put as. -/
def comparison (op : String) : String := if op = "<>" then "!=" else op

/-- An expression is taken for a date: its value is a time, a date literal it is compared with is a
time as well, and it is rendered if it is selected. -/
structure DateTyped (s : Sqlite) (x : EmitCtx) (cx : s.Context) (e : Node) (sql : Sql) : Prop where
  typed : (inferType e).isDate = true
  value : (s.value cx sql).isText = false
  compares : ∀ op literal n, comparison op ∈ compareOps →
    parseDateTimeLiteral x.dates literal = .ok n →
      ∃ q q', emit x (.binary op e (.str literal)) = .ok q ∧
        s.value cx q = truth ((s.value cx sql).instant.map (holds (comparison op) · n.value)) ∧
        emit x (.binary op (.str literal) e) = .ok q' ∧
        s.value cx q' = truth ((s.value cx sql).instant.map (holds (comparison op) n.value))
  isIn : ∀ literals ns negate, literals ≠ [] →
    List.Forall₂ (fun literal n => parseDateTimeLiteral x.dates literal = .ok n) literals ns →
      ∃ q, emit x (.isIn e (literals.map .str) negate) = .ok q ∧
        s.value cx q = truth ((s.value cx sql).instant.map fun a =>
          decide (a ∈ ns.map Double.value) != negate)
  between : ∀ low high l h negate, parseDateTimeLiteral x.dates low = .ok l →
    parseDateTimeLiteral x.dates high = .ok h →
      ∃ q, emit x (.between e (.str low) (.str high) negate) = .ok q ∧
        s.value cx q = truth ((s.value cx sql).instant.map fun a =>
          decide (l.value ≤ a ∧ a ≤ h.value) != negate)
  renders : ∀ (t : TranslatedQuery) (name : String) (row : ResultRow) (v : Double),
    t.columns.filter (fun column => column.1 = name) = [(name, inferType e)] →
      row name = some (s.value cx sql) → (s.value cx sql).number = some v →
        ∃ format ∈ [formatDateTime, formatDate],
          formatRow x.dates t row name = some (.text (format x.dates v).toList)

/-! ### The type of a date -/

/-- The functions that give a date of their own. -/
def dateFns : List String := "now" :: "todatetime" :: startOfFns

theorem isDate_callType {fn : String} (hfn : fn ∈ dateFns) (types : List ColumnType) :
    (callType fn types).isDate = true := by
  simp only [dateFns, startOfFns, List.mem_cons, List.not_mem_nil, or_false] at hfn
  rcases hfn with rfl | rfl | rfl | rfl | rfl | rfl | rfl | rfl | rfl | rfl <;> rfl

theorem shifted_func_of_mem {name : String} (hname : lowerCase name ∈ dateFns)
    (args params : List Node) (distinct : Bool) :
    shifted (.func name args params distinct) = false := by
  have hif : lowerCase name ≠ "if" := fun h => absurd (h ▸ hname) (by decide)
  have hfirst : lowerCase name ∉ ["min", "max", "coalesce"] := by
    intro h
    simp only [List.mem_cons, List.not_mem_nil, or_false] at h
    rcases h with h | h | h <;> exact absurd (h ▸ hname) (by decide)
  rw [shifted, if_neg hif, if_neg hfirst]

theorem isDate_inferType_iff {e : Node} (he : DateTimeValued e) :
    (inferType e).isDate = true ↔ shifted e = false := by
  have hown {name : String} (hname : lowerCase name ∈ dateFns) (args params : List Node)
      (distinct : Bool) : (inferType (.func name args params distinct)).isDate = true ↔
        shifted (.func name args params distinct) = false := by
    rw [inferType]
    exact iff_of_true (isDate_callType hname _) (shifted_func_of_mem hname ..)
  induction he with
  | timestamp => decide
  | now hname => exact hown (hname ▸ by decide) ..
  | toDateTime hname => exact hown (hname ▸ by decide) ..
  | startOf hname => exact hown (List.mem_cons_of_mem _ (List.mem_cons_of_mem _ hname)) ..
  | shift seconds hop he ih =>
    rw [inferType, shifted]
    rcases hop with rfl | rfl <;> simp [ColumnType.isDate]
  | shiftLeft seconds he ih =>
    rw [inferType, shifted]
    simp [ColumnType.isDate]
  | extremum hname he ih =>
    rw [inferType, shifted]
    rcases hname with h | h <;> rw [h] <;>
      simpa [callType, inferTypes, shiftedAll] using ih
  | ite hname ha hb iha ihb =>
    rw [inferType, shifted, hname]
    simpa [callType, inferTypes, shiftedAll] using iha
  | coalesce hname he hargs ih ihargs =>
    rw [inferType, shifted, hname]
    simpa [callType, inferTypes, shiftedAll] using ih

/-! ### Where a text comes from -/

section Text

variable {s : Sqlite} {x : EmitCtx} {cx : s.Context} {e : Node} {e' sql : Sql}

theorem eq_truncateTo_of_emitStartOfWeek {name : String} {args : List Node}
    (h : emitStartOfWeek name args e' = .ok sql) : ∃ modifiers, sql = e'.truncateTo modifiers := by
  obtain ⟨mode, -, h⟩ := bind_eq_ok.mp h
  simp only at h
  split at h
  · split at h
    · exact ⟨_, (Except.ok.inj h).symm⟩
    · cases h
  · cases h

/-- The family of `toStartOfInterval` gives numbers. -/
theorem isText_startOf {name : String} {args : List Node} {distinct : Bool} {a : List Sql}
    (hname : lowerCase name ∈ startOfFns) (h : emitCall x name args distinct a = .ok sql) :
    (s.value cx sql).isText = false := by
  have hfloor (e : Sql) (seconds : Double) : (s.value cx (e.floorTo seconds)).isText = false :=
    s.arith cx _ _ _ (by decide)
  have htruncate (e : Sql) (modifiers : List Sql) :
      (s.value cx (e.truncateTo modifiers)).isText = false := s.toInteger cx _
  simp only [startOfFns, List.mem_cons, List.not_mem_nil, or_false] at hname
  rw [emitCall] at h
  rcases hname with hname | hname | hname | hname | hname | hname | hname | hname <;>
    rw [hname] at h
  · simp only at h
    split at h
    · obtain rfl := Except.ok.inj h
      exact hfloor ..
    · cases h
  · obtain rfl := Except.ok.inj h
    exact hfloor ..
  · obtain rfl := Except.ok.inj h
    exact hfloor ..
  · obtain rfl := Except.ok.inj h
    exact hfloor ..
  · obtain ⟨modifiers, rfl⟩ := eq_truncateTo_of_emitStartOfWeek h
    exact htruncate ..
  · obtain rfl := Except.ok.inj h
    exact htruncate ..
  · obtain rfl := Except.ok.inj h
    exact htruncate ..
  · obtain rfl := Except.ok.inj h
    exact htruncate ..

/-- The value of a date is a text only if an argument of `toDateTime` has that value. -/
theorem text_origin (he : DateTimeValued e) (hemit : emit x e = .ok sql)
    (htext : (s.value cx sql).isText = true) :
    ∃ arg q cx', ToDateTimeArg e arg ∧ emit x arg = .ok q ∧
      s.value cx' q = s.value cx sql := by
  induction he generalizing cx sql with
  | timestamp =>
    obtain rfl := Except.ok.inj hemit
    rw [s.arith cx _ _ _ (by decide)] at htext
    cases htext
  | now hname =>
    obtain ⟨-, a, a', -, -, hcall⟩ := emit_func hemit
    rw [emitCall, hname] at hcall
    obtain rfl := Except.ok.inj hcall
    rw [s.number cx _] at htext
    cases htext
  | toDateTime hname =>
    obtain ⟨hcheck, a, a', ha, hresolve, hcall⟩ := emit_func hemit
    obtain ⟨arg, rest, rfl⟩ := exists_cons_of_checkCall hname hcheck
    have hput := of_resolveDateArg (hname ▸ by decide) hresolve
    rw [emitCall, hname] at hcall
    obtain rfl := Except.ok.inj hcall
    cases ha with
    | cons harg hrest =>
      rename_i q es
      rw [s.paren] at htext ⊢
      rcases putDateLiteral_cases hput with rfl | ⟨n, rfl⟩
      · exact ⟨arg, q, cx, .here hname, harg, rfl⟩
      · have hnumber : (s.value cx (.number n)).isText = true := htext
        rw [s.number cx n] at hnumber
        cases hnumber
  | startOf hname =>
    obtain ⟨-, a, a', -, -, hcall⟩ := emit_func hemit
    rw [isText_startOf hname hcall] at htext
    cases htext
  | shift seconds hop he ih =>
    obtain ⟨l, r, rfl⟩ := binary_of_emit hop hemit
    rw [s.arith cx _ _ _ (by rcases hop with rfl | rfl <;> decide)] at htext
    cases htext
  | shiftLeft seconds he ih =>
    obtain ⟨l, r, rfl⟩ := binary_of_emit (.inl rfl) hemit
    rw [s.arith cx _ _ _ (by decide)] at htext
    cases htext
  | extremum hname he ih =>
    obtain ⟨a, ha, hcall⟩ := emit_func_of_notMem
      (by rcases hname with h | h <;> rw [h] <;> decide) hemit
    obtain ⟨e', rfl, he'⟩ : ∃ e', a = [e'] ∧ emit x _ = .ok e' := by
      cases ha with
      | cons he' hnil =>
        cases hnil
        exact ⟨_, rfl, he'⟩
    obtain ⟨fn, hfn, rfl⟩ : ∃ fn ∈ ["MIN", "MAX"], sql = .call fn [e'] := by
      rw [emitCall] at hcall
      rcases hname with h | h <;> rw [h] at hcall
      · exact ⟨"MIN", by decide, (Except.ok.inj hcall).symm⟩
      · exact ⟨"MAX", by decide, (Except.ok.inj hcall).symm⟩
    rcases s.extremum cx fn e' hfn with hnull | ⟨cx', hvalue⟩
    · rw [hnull] at htext
      cases htext
    · rw [hvalue] at htext ⊢
      obtain ⟨arg, q, cx'', harg, hq, hsame⟩ := ih he' htext
      exact ⟨arg, q, cx'', .extremum hname harg, hq, hsame⟩
  | ite hname ha hb iha ihb =>
    obtain ⟨a, hargs, hcall⟩ := emit_func_of_notMem (hname ▸ by decide) hemit
    rw [emitCall, hname] at hcall
    obtain rfl := Except.ok.inj hcall
    cases hargs with
    | cons hc hargs =>
      cases hargs with
      | cons ha' hargs =>
        cases hargs with
        | cons hb' hnil =>
          rename_i c' a' b' _
          rcases s.caseWhen cx c' a' b' with hvalue | hvalue
          · obtain ⟨arg, q, cx', harg, hq, hsame⟩ := iha ha' (hvalue ▸ htext)
            exact ⟨arg, q, cx', .ite hname (.inl rfl) harg, hq, hsame.trans hvalue.symm⟩
          · obtain ⟨arg, q, cx', harg, hq, hsame⟩ := ihb hb' (hvalue ▸ htext)
            exact ⟨arg, q, cx', .ite hname (.inr rfl) harg, hq, hsame.trans hvalue.symm⟩
  | @coalesce name e args params distinct hname he hargs ih ihargs =>
    obtain ⟨a, ha, hcall⟩ := emit_func_of_notMem (hname ▸ by decide) hemit
    rw [emitCall, hname] at hcall
    obtain rfl := Except.ok.inj hcall
    rcases s.coalesce cx a with hnull | ⟨q, hmem, hvalue⟩
    · rw [hnull] at htext
      cases htext
    · obtain ⟨arg, hmemArg, hq⟩ := exists_mem_of_forall₂ ha hmem
      have hfrom : ∃ leaf q' cx', ToDateTimeArg arg leaf ∧ emit x leaf = .ok q' ∧
          s.value cx' q' = s.value cx q := by
        rcases List.mem_cons.mp hmemArg with rfl | hmemArg
        · exact ih hq (hvalue ▸ htext)
        · exact ihargs arg hmemArg hq (hvalue ▸ htext)
      obtain ⟨leaf, q', cx', hleaf, hq', hsame⟩ := hfrom
      exact ⟨leaf, q', cx', .coalesce hname hmemArg hleaf, hq', hsame.trans hvalue.symm⟩

end Text

/-! ### Comparisons and rendering -/

section DateTyped

variable {s : Sqlite} {x : EmitCtx} {cx : s.Context} {e : Node} {sql : Sql}

theorem DateTimeValued.ne_str (he : DateTimeValued e) (value : String) : e ≠ .str value := by
  rintro rfl
  cases he

/-- A date is put as it is, whatever it is compared with. -/
theorem DateTimeValued.emitOperand_eq (he : DateTimeValued e) (against : Node)
    (emitted : Except String Sql) : emitOperand x e against emitted = emitted := by
  cases e <;> first | rfl | exact absurd rfl (he.ne_str _)

/-- A date literal that faces an expression with the type of a date is put as its time. -/
theorem emitOperand_literal {literal : String} {n : Double} (hdate : (inferType e).isDate = true)
    (hliteral : parseDateTimeLiteral x.dates literal = .ok n) (emitted : Except String Sql) :
    emitOperand x (.str literal) e emitted = .ok (.number n) := by
  rw [emitOperand, if_pos hdate, hliteral]
  rfl

/-- A date literal is a whole number of seconds. -/
theorem instant_of_parse {literal : String} {n : Double}
    (hliteral : parseDateTimeLiteral x.dates literal = .ok n) :
    (s.value cx (.number n)).instant = some n.value := by
  rw [parseDateTimeLiteral] at hliteral
  split at hliteral
  · next ms hms =>
      obtain rfl := Except.ok.inj hliteral
      obtain ⟨⟨day, time⟩, -, hparse⟩ := Option.bind_eq_some_iff.mp hms
      have hbound := abs_le.mp (x.dates.bounded _ _ hparse)
      exact s.whole cx (ms / 1000) (abs_lt.mpr ⟨by omega, by omega⟩)
  · cases hliteral

theorem emitOperands_literals {literals : List String} {ns : List Double}
    (hdate : (inferType e).isDate = true)
    (h : List.Forall₂ (fun literal n => parseDateTimeLiteral x.dates literal = .ok n)
      literals ns) :
    emitOperands x e (literals.map .str) = .ok (ns.map .number) := by
  induction h with
  | nil => rfl
  | cons hliteral _ ih =>
    rw [List.map_cons, emitOperands, emitOperand_literal hdate hliteral, ih]
    rfl

theorem emit_comparison {op : String} {left right : Node} {l r : Sql}
    (hop : comparison op ∈ compareOps)
    (hl : emitOperand x left right (emit x left) = .ok l)
    (hr : emitOperand x right left (emit x right) = .ok r) :
    emit x (.binary op left right) = .ok (.binary (comparison op) l r) := by
  have hne : op ≠ "/" := by
    rintro rfl
    revert hop
    decide
  rw [emit, if_neg hne]
  show (if comparison op ∈ compareOps then _ else _) = _
  rw [if_pos hop, hl, hr]
  rfl

theorem renderColumn_of_ne {column name : String} (hne : column ≠ name) (format : Double → String)
    (row : ResultRow) : renderColumn column format row name = row name := by
  rw [renderColumn]
  cases (row column).bind Value.number with
  | none => rfl
  | some v => exact Function.update_of_ne hne.symm _ _

/-- One column is rendered by its type. -/
def formatColumn (dates : Dates) (row : ResultRow) (column : String × ColumnType) : ResultRow :=
  match formatOf dates column.2 with
  | some format => renderColumn column.1 format row
  | none => row

theorem formatColumn_of_ne {dates : Dates} {row : ResultRow} {column : String × ColumnType}
    {name : String} (hne : column.1 ≠ name) : formatColumn dates row column name = row name := by
  rw [formatColumn]
  cases formatOf dates column.2 with
  | none => rfl
  | some format => exact renderColumn_of_ne hne _ _

theorem foldl_formatColumn_of_ne {dates : Dates} {row : ResultRow}
    {columns : List (String × ColumnType)} {name : String}
    (hne : ∀ column ∈ columns, column.1 ≠ name) :
    columns.foldl (formatColumn dates) row name = row name := by
  induction columns generalizing row with
  | nil => rfl
  | cons column columns ih =>
    obtain ⟨hcolumn, hrest⟩ := List.forall_mem_cons.mp hne
    rw [List.foldl_cons, ih hrest, formatColumn_of_ne hcolumn]

/-- The values of a column that is of the type of a date are rendered. -/
theorem formatRow_eq {dates : Dates} {t : TranslatedQuery} {name : String} {row : ResultRow}
    {type : ColumnType} {value : Value} {v : Double}
    (hcolumn : t.columns.filter (fun column => column.1 = name) = [(name, type)])
    (hrow : row name = some value) (hnumber : value.number = some v) {format : Double → String}
    (hformat : formatOf dates type = some format) :
    formatRow dates t row name = some (.text (format v).toList) := by
  obtain ⟨before, after, hcolumns, hbefore, hname, hafter⟩ := List.filter_eq_cons_iff.mp hcolumn
  have hother {columns : List (String × ColumnType)}
      (h : ∀ column ∈ columns, ¬ decide (column.1 = name) = true) :
      ∀ column ∈ columns, column.1 ≠ name :=
    fun column hmem heq => h column hmem (decide_eq_true heq)
  -- a column of its own keeps the raw time stamp from being rendered
  have hraw (row' : ResultRow) (hrow' : row' = if (t.hasStar &&
      !t.columns.any fun column => column.1 = "timestamp") = true then
        renderColumn "timestamp" (fun ms => formatDateTime dates (msToSeconds ms)) row else row) :
      row' name = some value := by
    rw [hrow', ← hrow]
    split
    · next h =>
        refine renderColumn_of_ne ?_ _ _
        rintro rfl
        rw [hcolumns, List.any_append, List.any_cons] at h
        simp at h
    · rfl
  obtain ⟨row', hrow'⟩ : ∃ row', row' = if (t.hasStar &&
      !t.columns.any fun column => column.1 = "timestamp") = true then
        renderColumn "timestamp" (fun ms => formatDateTime dates (msToSeconds ms)) row else row :=
    ⟨_, rfl⟩
  have hfold : formatRow dates t row = t.columns.foldl (formatColumn dates) row' := by
    rw [hrow']
    rfl
  rw [hfold, hcolumns, List.foldl_append, List.foldl_cons,
    foldl_formatColumn_of_ne (hother (List.filter_eq_nil_iff.mp hafter)), formatColumn, hformat]
  simp only [renderColumn, foldl_formatColumn_of_ne (hother hbefore), hraw row' hrow',
    Option.bind_some, hnumber, Function.update_self]

/-- A date is taken for one exactly if its type is not that of a sum or a difference, and its value
is not a text; a text it can be only as an argument of `toDateTime`. -/
theorem dateTyped_iff (he : DateTimeValued e) (hemit : emit x e = .ok sql) :
    (DateTyped s x cx e sql ↔ shifted e = false ∧ (s.value cx sql).isText = false) ∧
      ((s.value cx sql).isText = true → ∃ arg q cx', ToDateTimeArg e arg ∧ emit x arg = .ok q ∧
        s.value cx' q = s.value cx sql) := by
  refine ⟨⟨fun h => ⟨(isDate_inferType_iff he).mp h.typed, h.value⟩, ?_⟩, text_origin he hemit⟩
  rintro ⟨hshifted, htext⟩
  have hdate := (isDate_inferType_iff he).mpr hshifted
  have hself (against : Node) : emitOperand x e against (emit x e) = .ok sql :=
    (he.emitOperand_eq against _).trans hemit
  refine ⟨hdate, htext, ?_, ?_, ?_, ?_⟩
  · intro op literal n hop hliteral
    have hput := emitOperand_literal hdate hliteral (emit x (.str literal))
    have hnumber := s.number cx n
    have hinstant : (s.value cx (.number n)).instant = some n.value := instant_of_parse hliteral
    refine ⟨_, _, emit_comparison hop (hself _) hput, ?_, emit_comparison hop hput (hself _), ?_⟩
    · rw [s.compare cx _ _ _ hop htext hnumber, hinstant]
      cases (s.value cx sql).instant <;> rfl
    · rw [s.compare cx _ _ _ hop hnumber htext, hinstant]
      cases (s.value cx sql).instant <;> rfl
  · intro literals ns negate hne hliterals
    refine ⟨_, ?_, s.isIn cx negate sql (ns.map .number) (ns.map Double.value) ?_ htext ?_⟩
    · rw [emit, emitOperands_literals hdate hliterals, hemit]
      rfl
    · intro hnil
      rw [List.map_eq_nil_iff] at hnil
      subst hnil
      exact hne (List.forall₂_nil_right_iff.mp hliterals)
    · rw [List.map_map, List.map_map]
      refine List.map_congr_left fun n hn => ?_
      obtain ⟨literal, -, hliteral⟩ := exists_mem_of_forall₂ hliterals hn
      exact instant_of_parse hliteral
  · intro low high l h negate hlow hhigh
    refine ⟨_, ?_, s.between cx negate sql _ _ l.value h.value htext (instant_of_parse hlow)
      (instant_of_parse hhigh)⟩
    rw [emit, hemit, emitOperand_literal hdate hlow, emitOperand_literal hdate hhigh]
    rfl
  · intro t name row v hcolumn hrow hnumber
    rcases Bool.or_eq_true_iff.mp hdate with h | h
    · refine ⟨formatDateTime, List.mem_cons_self, formatRow_eq hcolumn hrow hnumber ?_⟩
      rw [of_decide_eq_true h]
      rfl
    · refine ⟨formatDate, by simp, formatRow_eq hcolumn hrow hnumber ?_⟩
      rw [of_decide_eq_true h]
      rfl

end DateTyped

/-! ### A day after the time stamp -/

theorem evaluate_isIn (row : Row) (negate : Bool) (e : Sql) (list : List Sql)
    (instants : List Instant)
    (hlist : list.map (fun q => (evaluate row q).instant) = instants.map some) :
    evaluate row (.isIn negate e list) =
      truth ((evaluate row e).instant.map fun a => decide (a ∈ instants) != negate) := by
  have hfilter : (list.map (evaluate row)).filterMap Value.instant = instants := by
    have hsome := congrArg (List.filterMap id) hlist
    rw [List.filterMap_map, List.filterMap_map, Function.id_comp, Function.id_comp,
      List.filterMap_some] at hsome
    rwa [List.filterMap_map]
  rw [evaluate, evaluateAll_eq, hfilter]

/-- SQLite on the expressions of dates. -/
def rowSqlite : Sqlite where
  Context := Row
  value := evaluate
  number row x := by
    rw [evaluate]
    exact isText_literalValue x
  whole row n hn := by
    rw [evaluate, literalValue_ofRat hn, Double.ofRat_intCast hn.le]
    rfl
  paren row e := by rw [evaluate]
  arith row op l r hop := by
    have hother : op ∉ compareOps ∧ op ≠ "||" := by
      simp only [List.mem_cons, List.not_mem_nil, or_false] at hop
      rcases hop with rfl | rfl | rfl | rfl | rfl <;> decide
    rw [evaluate, if_neg hother.1, if_neg hother.2]
    exact isText_arith ..
  toInteger row e := by
    rw [evaluate, if_pos rfl]
    cases evaluate row e with
    | real x => cases x <;> rfl
    | _ => rfl
  caseWhen row c a b := by
    rw [evaluate]
    split
    · exact .inl rfl
    · exact .inr rfl
  coalesce row es := by
    rw [evaluate, evaluateAll_eq]
    cases hfind : (es.map (evaluate row)).find? fun v => !v.isNull with
    | none => exact .inl rfl
    | some v =>
        obtain ⟨e, he, rfl⟩ := List.mem_map.mp (List.mem_of_find?_eq_some hfind)
        exact .inr ⟨e, he, rfl⟩
  extremum row name e hname := by
    refine .inr ⟨row, ?_⟩
    simp only [List.mem_cons, List.not_mem_nil, or_false] at hname
    rcases hname with rfl | rfl <;> rw [evaluate, evaluateAll, List.headD_cons]
  compare row op l r hop hl hr := by rw [evaluate, if_pos hop]
  isIn row negate e list instants _ _ hlist := evaluate_isIn row negate e list instants hlist
  between row negate e low high l h he hl hh := by
    rw [evaluate, hl, hh]
    cases (evaluate row e).instant <;> rfl

theorem dateTyped_iff_timestamp :
    DateTyped rowSqlite epochCtx (fun _ => .integer 0) (.col "timestamp")
      (.binary "/" (.column "timestamp") (.decimal 1000)) :=
  (dateTyped_iff .timestamp rfl).1.mpr ⟨rfl, rowSqlite.arith _ _ _ _ (by decide)⟩

/-- A day after the time stamp is a `Float64`: the date literal that it is compared with stays a
text, and the number is not rendered. -/
theorem not_dateTyped : ¬ ∀ (s : Sqlite) (x : EmitCtx) (cx : s.Context) (e : Node) (sql : Sql),
    DateTimeValued e → emit x e = .ok sql → DateTyped s x cx e sql := by
  intro h
  have hsum : DateTimeValued (.binary "+" (.col "timestamp") (.interval (.ofRat 86400))) :=
    .shift _ (.inl rfl) .timestamp
  have htyped := (h rowSqlite epochCtx (fun _ => .integer 0) _ _ hsum rfl).typed
  rw [inferType] at htyped
  revert htyped
  decide

end Lopata.Analytics

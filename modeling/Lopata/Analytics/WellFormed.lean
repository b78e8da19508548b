import Lopata.Analytics.DateTypes
import Lopata.Analytics.Grammar

/-!
# What Is Emitted Is an Expression

The text of an emitted expression is read by SQLite as the lexemes that are meant, and these form an
expression of SQLite. Both fail for what a query can contain: a number that is infinite, a text with
a character 0, an output column with a quote in its name, a minus sign in front of a negative
interval, and a star as an operand.

## Main results

* `put_of_emit`: what an expression of a query is emitted as.
* `wellFormed_iff`: when what is emitted is an expression of SQLite.
* `not_wellFormed`: the minus sign of an interval of `-1` days.
-/

namespace Lopata.Analytics

/-- The emitted text is read as the lexemes that are meant, and they form one expression. -/
structure WellFormed (sql : Sql) : Prop where
  read : sqliteLexer.lex sql.print = some sql.lexemes
  expression : Expression sql.lexemes

/-! ### Emitted trees -/

namespace Sql

/-- An expression is read as it is meant, and no operand is a star. -/
def Good (e : Sql) : Prop := e.lexical = true ∧ e.starless = true

variable {e l r : Sql} {list : List Sql}

theorem good_number {x : Double} : (number x).Good ↔ isFinite x = true := and_iff_left rfl

theorem good_text {value : String} : (text value).Good ↔ ∀ c ∈ value.toList, c.toNat ≠ 0 := by
  simp [Good, lexical, starless]

theorem good_output {name : String} : (output name).Good ↔ '"' ∉ name.toList := by
  simp [Good, lexical, starless]

theorem good_unary {op : String} : (unary op e).Good ↔
    e.Good ∧ (op = "NOT" ∨ e.beginsMinus = false) := by
  simp only [Good, lexical, starless, Bool.and_eq_true, Bool.or_eq_true, decide_eq_true_eq,
    Bool.not_eq_true']
  exact and_right_comm

theorem good_binary {op : String} : (binary op l r).Good ↔ l.Good ∧ r.Good := by
  simp only [Good, lexical, starless, Bool.and_eq_true]
  exact and_and_and_comm

theorem good_chain {op : String} : (chain op l r).Good ↔ l.Good ∧ r.Good :=
  show (binary op l r).Good ↔ _ from good_binary

theorem good_like {negate : Bool} : (like negate l r).Good ↔ l.Good ∧ r.Good :=
  show (binary "" l r).Good ↔ _ from good_binary

theorem good_caseWhen {c : Sql} : (caseWhen c l r).Good ↔ c.Good ∧ l.Good ∧ r.Good := by
  simp only [Good, lexical, starless, Bool.and_eq_true]
  tauto

theorem good_between {negate : Bool} : (between negate e l r).Good ↔ e.Good ∧ l.Good ∧ r.Good :=
  good_caseWhen

theorem good_all : (lexicalAll list = true ∧ starlessAll list = true) ↔ ∀ e ∈ list, e.Good := by
  rw [lexicalAll_iff, starlessAll_iff]
  exact forall₂_and.symm

theorem good_isIn {negate : Bool} : (isIn negate e list).Good ↔
    e.Good ∧ ∀ item ∈ list, item.Good := by
  rw [← good_all]
  simp only [Good, lexical, starless, Bool.and_eq_true]
  exact and_and_and_comm

theorem good_call {name : String} (hname : name ∈ sqliteFns) :
    (call name list).Good ↔ ∀ e ∈ list, e.Good := by
  have hne : ∀ name ∈ sqliteFns, name ≠ "COUNT" := by decide
  rw [← good_all, Good, lexical, starless, decide_eq_false (hne name hname), Bool.false_or]

end Sql

/-! ### Calls -/

section Calls

variable {x : EmitCtx} {name : String} {args : List Node} {distinct : Bool} {a used : List Sql}
  {e sql : Sql}

/-- An expression is put together from others, and well exactly if these are good ones. -/
def From (used : List Sql) (sql : Sql) : Prop :=
  (∀ e ∈ used, Emitted e) → Emitted sql ∧ (sql.Good ↔ ∀ e ∈ used, e.Good)

theorem from_self : From [e] e := fun h =>
  ⟨h e List.mem_cons_self, List.forall_mem_singleton.symm⟩

theorem isFinite_ofRat {n : ℕ} (hn : n ≤ 86400) : isFinite (.ofRat n) = true := by
  have hcast : ((n : ℤ) : ℚ) = n := Int.cast_natCast n
  rw [← hcast, Double.ofRat_intCast (by rw [abs_of_nonneg] <;> omega)]
  rfl

theorem from_text {value : String} (h : value.toList.all (·.toNat ≠ 0) = true) :
    From [] (.text value) := fun _ =>
  ⟨.text value, iff_of_true ⟨h, rfl⟩ (List.forall_mem_nil _)⟩

theorem from_number {n : Double} (h : isFinite n = true) : From [] (.number n) := fun _ =>
  ⟨.number n, iff_of_true (Sql.good_number.mpr h) (List.forall_mem_nil _)⟩

/-- The numbers that are put into an expression. -/
theorem from_ofRat {n : ℕ} (hn : n ≤ 86400) : From [] (.ofRat n) := from_number (isFinite_ofRat hn)

theorem From.cast {type : String} (htype : type ∈ sqliteTypes) (h : From used e) :
    From used (.cast type e) := fun hused =>
  ⟨.cast htype (h hused).1, (h hused).2⟩

theorem From.paren (h : From used e) : From used (.paren e) := fun hused =>
  ⟨.paren (h hused).1, (h hused).2⟩

theorem From.binary {op : String} {l r : Sql} {usedl usedr : List Sql} (hop : op ∈ sqliteOps)
    (hl : From usedl l) (hr : From usedr r) : From (usedl ++ usedr) (.binary op l r) := by
  intro hused
  obtain ⟨husedl, husedr⟩ := List.forall_mem_append.mp hused
  refine ⟨.binary hop (hl husedl).1 (hr husedr).1, ?_⟩
  rw [Sql.good_binary, (hl husedl).2, (hr husedr).2, List.forall_mem_append]

theorem From.chain {op : String} {l r : Sql} {usedl usedr : List Sql} (hop : op ∈ sqliteOps)
    (hl : From usedl l) (hr : From usedr r) : From (usedl ++ usedr) (.chain op l r) := by
  intro hused
  obtain ⟨husedl, husedr⟩ := List.forall_mem_append.mp hused
  refine ⟨.chain hop (hl husedl).1 (hr husedr).1, ?_⟩
  rw [Sql.good_chain, (hl husedl).2, (hr husedr).2, List.forall_mem_append]

theorem From.call {fn : String} {useds : List (List Sql)} (hfn : fn ∈ sqliteFns)
    (h : List.Forall₂ From useds a) : From useds.flatten (.call fn a) := by
  have hall : (∀ e ∈ useds.flatten, Emitted e) → (∀ e ∈ a, Emitted e) ∧
      ((∀ e ∈ a, e.Good) ↔ ∀ e ∈ useds.flatten, e.Good) := by
    induction h with
    | nil => exact fun _ => ⟨List.forall_mem_nil _, Iff.rfl⟩
    | @cons used e useds es h _ ih =>
      intro hused
      rw [List.flatten_cons, List.forall_mem_append] at hused
      obtain ⟨hemitted, hgood⟩ := ih hused.2
      refine ⟨List.forall_mem_cons.mpr ⟨(h hused.1).1, hemitted⟩, ?_⟩
      rw [List.forall_mem_cons, (h hused.1).2, hgood, List.flatten_cons, List.forall_mem_append]
  intro hused
  exact ⟨.call hfn (hall hused).1, (Sql.good_call hfn).trans (hall hused).2⟩

theorem From.caseWhen {c l r : Sql} : From [c, l, r] (.caseWhen c l r) := by
  intro hused
  simp only [List.forall_mem_cons, List.not_mem_nil, false_imp_iff, implies_true, and_true]
    at hused ⊢
  exact ⟨.caseWhen hused.1 hused.2.1 hused.2.2, Sql.good_caseWhen⟩

theorem From.congr {used' : List Sql} (h : From used e) (hsame : ∀ e, e ∈ used ↔ e ∈ used') :
    From used' e := by
  intro hused
  simp only [← hsame] at hused ⊢
  exact h hused

theorem from_call {fn : String} (hfn : fn ∈ sqliteFns) : From a (.call fn a) := fun hused =>
  ⟨.call hfn hused, Sql.good_call hfn⟩

/-! ### Dates -/

theorem from_toInteger : From [e] e.toInteger := from_self.cast (by decide)

theorem from_datePart {format : String} (hformat : format.toList.all (·.toNat ≠ 0) = true) :
    From [e] (e.datePart format) :=
  From.cast (by decide) (From.call (by decide) (.cons (from_text hformat)
    (.cons from_toInteger (.cons (from_text rfl) .nil))))

theorem from_truncateTo {modifiers : List Sql} {useds : List (List Sql)}
    (h : List.Forall₂ From useds modifiers) :
    From (e :: useds.flatten) (e.truncateTo modifiers) :=
  From.cast (by decide) (From.call (by decide) (.cons (from_text rfl)
    (.cons from_toInteger (.cons (from_text rfl) h))))

theorem from_floorTo {seconds : Double} (h : isFinite seconds = true) :
    From [e] (e.floorTo seconds) :=
  From.binary (by decide) (from_toInteger.binary (by decide) (from_number h)) (from_number h)

theorem from_small {n : ℕ} [n.AtLeastTwo] (hn : n ≤ 86400) :
    From [] (.ofRat (OfNat.ofNat n)) := by
  have hofRat := from_ofRat hn
  rwa [show ((n : ℕ) : ℚ) = OfNat.ofNat n from Nat.cast_ofNat] at hofRat

theorem from_one : From [] (.ofRat 1) := by
  have hofRat := from_ofRat (n := 1) (by decide)
  rwa [Nat.cast_one] at hofRat

theorem from_quarterOf : From [e] e.quarterOf :=
  From.binary (by decide) ((from_datePart rfl).binary (by decide) from_one)
    (from_small (n := 3) (by decide))

/-! ### Functions -/

theorem length_of_checkCall {min max : ℕ} (h : checkCall name args = .ok ())
    (harity : fnArity.lookup (lowerCase name) = some (min, some max)) :
    min ≤ args.length ∧ args.length ≤ max := by
  rw [checkCall] at h
  split_ifs at h
  rw [checkArity, harity] at h
  simp only [Option.all_some, decide_eq_true_eq] at h
  by_contra hno
  rw [if_neg hno] at h
  cases h

def unaryFns : List String :=
  ["sum", "avg", "min", "max", "touint32", "touint64", "toint32", "toint64", "tofloat64",
    "tofloat32", "tostring", "floor"]

/-- The functions that SQLite has as well. -/
def passedFns : List String :=
  ["abs", "round", "min2", "max2", "coalesce", "length", "lower", "upper"]

theorem from_unaryFn (hname : lowerCase name ∈ unaryFns)
    (hcall : emitCall x name args distinct [e] = .ok sql) : From [e] sql := by
  simp only [unaryFns, List.mem_cons, List.not_mem_nil, or_false] at hname
  rw [emitCall] at hcall
  rcases hname with hname | hname | hname | hname | hname | hname | hname | hname | hname |
    hname | hname | hname <;> rw [hname] at hcall <;> obtain rfl := Except.ok.inj hcall
  · exact From.call (by decide) (.cons (show From [e] _ from from_call (by decide))
      (.cons (from_ofRat (n := 0) (by decide)) .nil))
  · exact from_call (by decide)
  · exact from_call (by decide)
  · exact from_call (by decide)
  · exact from_toInteger
  · exact from_toInteger
  · exact from_toInteger
  · exact from_toInteger
  · exact from_self.cast (by decide)
  · exact from_self.cast (by decide)
  · exact from_self.cast (by decide)
  · exact from_toInteger

theorem from_passedFn (hname : lowerCase name ∈ passedFns)
    (hcall : emitCall x name args distinct a = .ok sql) : From a sql := by
  simp only [passedFns, List.mem_cons, List.not_mem_nil, or_false] at hname
  rw [emitCall] at hcall
  rcases hname with hname | hname | hname | hname | hname | hname | hname | hname <;>
    rw [hname] at hcall <;> obtain rfl := Except.ok.inj hcall <;> exact from_call (by decide)

theorem from_startOfWeek (h : emitStartOfWeek name args e = .ok sql) : From [e] sql := by
  obtain ⟨mode, -, h⟩ := bind_eq_ok.mp h
  simp only at h
  split at h
  · split at h
    · obtain rfl := Except.ok.inj h
      refine from_truncateTo (.cons (from_text rfl) (.cons (from_text rfl)
        (.cons (from_text ?_) .nil)))
      split_ifs <;> rfl
    · cases h
  · cases h

theorem from_dayOfWeek (h : emitDayOfWeek name args e = .ok sql) : From [e] sql := by
  have hw : From [e] (e.datePart "%w") := from_datePart rfl
  have hshift : From [e] (.binary "+" (e.datePart "%w") (.ofRat 6)) :=
    hw.binary (by decide) (from_small (by decide))
  rw [emitDayOfWeek] at h
  obtain ⟨mode, -, h⟩ := bind_eq_ok.mp h
  split at h
  · obtain rfl := Except.ok.inj h
    exact From.binary (by decide) (hshift.chain (by decide) (from_small (by decide))) from_one
  · obtain rfl := Except.ok.inj h
    exact hshift.binary (by decide) (from_small (by decide))
  · obtain rfl := Except.ok.inj h
    exact hw.paren
  · obtain rfl := Except.ok.inj h
    exact hw.binary (by decide) from_one
  · cases h

/-- The functions of dates put their first argument. -/
theorem from_dateFn (hname : lowerCase name ∈ dateTimeArgFns)
    (hne : lowerCase name ≠ "tostartofinterval")
    (hcall : emitCall x name args distinct (e :: a) = .ok sql) : From [e] sql := by
  simp only [dateTimeArgFns, List.mem_cons, List.not_mem_nil, or_false, hne, false_or] at hname
  rw [emitCall] at hcall
  rcases hname with hname | hname | hname | hname | hname | hname | hname | hname | hname |
    hname | hname | hname | hname | hname | hname | hname | hname | hname | hname | hname <;>
    rw [hname] at hcall
  · obtain rfl := Except.ok.inj hcall
    exact from_self.paren
  · obtain rfl := Except.ok.inj hcall
    exact from_floorTo (isFinite_ofRat (by decide))
  · obtain rfl := Except.ok.inj hcall
    exact from_floorTo (isFinite_ofRat (by decide))
  · obtain rfl := Except.ok.inj hcall
    exact from_floorTo (isFinite_ofRat (by decide))
  · obtain rfl := Except.ok.inj hcall
    exact from_floorTo (isFinite_ofRat (by decide))
  · exact from_startOfWeek hcall
  · obtain rfl := Except.ok.inj hcall
    exact from_truncateTo (.cons (from_text rfl) .nil)
  · obtain rfl := Except.ok.inj hcall
    have hmonths : From [e] (.chain "||" (.chain "||" (.text "+")
        (.binary "*" e.quarterOf (.ofRat 3))) (.text " months")) :=
      From.chain (by decide) (From.chain (by decide) (from_text rfl)
        (from_quarterOf.binary (by decide) (from_small (by decide)))) (from_text rfl)
    exact (from_truncateTo (.cons (from_text rfl) (.cons hmonths .nil))).congr (by simp)
  · obtain rfl := Except.ok.inj hcall
    exact from_truncateTo (.cons (from_text rfl) .nil)
  · obtain rfl := Except.ok.inj hcall
    exact from_truncateTo (.cons (from_text rfl) (.cons (from_text rfl)
      (.cons (from_text rfl) .nil)))
  · obtain rfl := Except.ok.inj hcall
    exact from_datePart rfl
  · obtain rfl := Except.ok.inj hcall
    exact From.binary (by decide) (From.chain (by decide)
      ((from_datePart rfl).binary (by decide) from_one) (from_small (by decide))) from_one
  · obtain rfl := Except.ok.inj hcall
    exact from_datePart rfl
  · obtain rfl := Except.ok.inj hcall
    exact from_datePart rfl
  · exact from_dayOfWeek hcall
  · obtain rfl := Except.ok.inj hcall
    exact from_datePart rfl
  · obtain rfl := Except.ok.inj hcall
    exact from_datePart rfl
  · obtain rfl := Except.ok.inj hcall
    exact from_datePart rfl
  · obtain rfl := Except.ok.inj hcall
    exact from_datePart rfl
  · obtain rfl := Except.ok.inj hcall
    exact from_toInteger

/-- `toStartOfInterval` puts the seconds of its interval as well. -/
theorem from_startOfInterval (hname : lowerCase name = "tostartofinterval")
    (hcall : emitCall x name args distinct (e :: a) = .ok sql) :
    ∃ seconds, args.tail.head? = some (.interval seconds) ∧ From [e, .number seconds] sql := by
  rw [emitCall, hname] at hcall
  simp only at hcall
  split at hcall
  · next seconds hinterval =>
      obtain rfl := Except.ok.inj hcall
      have hnumber : From [.number seconds] (.number seconds) := from_self
      refine ⟨seconds, hinterval, From.congr ?_ (fun _ => Iff.rfl)⟩
      exact (From.binary (by decide) (from_toInteger.binary (by decide) hnumber) hnumber).congr
        (by simp)
  · cases hcall

theorem from_intDiv {l r : Sql} (hname : lowerCase name = "intdiv")
    (hcall : emitCall x name args distinct [l, r] = .ok sql) : From [l, r] sql := by
  rw [emitCall, hname] at hcall
  obtain rfl := Except.ok.inj hcall
  exact from_toInteger.binary (by decide) from_toInteger

theorem from_if {c l r : Sql} (hname : lowerCase name = "if")
    (hcall : emitCall x name args distinct [c, l, r] = .ok sql) : From [c, l, r] sql := by
  rw [emitCall, hname] at hcall
  obtain rfl := Except.ok.inj hcall
  exact From.caseWhen

theorem from_now (hname : lowerCase name = "now")
    (hcall : emitCall x name args distinct a = .ok sql) : From [.number x.nowSeconds] sql := by
  rw [emitCall, hname] at hcall
  obtain rfl := Except.ok.inj hcall
  exact from_self

/-- `count` puts its argument only if it is distinct. -/
theorem from_count (hname : lowerCase name = "count")
    (hcall : emitCall x name args distinct a = .ok sql) :
    From (if distinct = true ∧ a.length = 1 then a else []) sql := by
  rw [emitCall, hname] at hcall
  simp only at hcall
  split_ifs at hcall ⊢ with hdistinct
  · obtain rfl := Except.ok.inj hcall
    obtain ⟨e, rfl⟩ := List.length_eq_one_iff.mp hdistinct.2
    have hgood : e.Good ↔ ∀ used ∈ [e], used.Good := List.forall_mem_singleton.symm
    exact fun hused => ⟨.countDistinct (hused e List.mem_cons_self), hgood⟩
  · obtain rfl := Except.ok.inj hcall
    exact fun _ => ⟨.countAll, iff_of_true ⟨rfl, rfl⟩ (List.forall_mem_nil _)⟩

/-- The functions that are known. -/
theorem mem_fns (hcall : emitCall x name args distinct a = .ok sql) :
    lowerCase name ∈ ["count", "intdiv", "if", "now"] ∨ lowerCase name ∈ unaryFns ∨
      lowerCase name ∈ passedFns ∨ lowerCase name ∈ dateTimeArgFns := by
  rw [emitCall] at hcall
  split at hcall <;> first | (cases hcall; done) | (next hname => rw [hname]; decide)

end Calls

/-! ### Sound expressions -/

/-- A date literal is put as a number. -/
def facesDate (node against : Node) : Bool :=
  match node with
  | .str _ => (inferType against).isDate
  | _ => false

def isStr : Node → Bool
  | .str _ => true
  | _ => false

/-- What is put is a negative number: a literal is none. -/
def putsNegative (x : EmitCtx) : Node → Bool
  | .interval seconds => isNegative seconds
  | .func name .. => lowerCase name = "now" && isNegative x.nowSeconds
  | _ => false

/-- The arguments that a call puts are sound. -/
def soundCall (x : EmitCtx) (fn : String) (args : List Node) (distinct : Bool)
    (sound : List Bool) : Bool :=
  let first := args.head?.any isStr || sound.getD 0 true
  if fn = "count" then !(distinct && args.length = 1) || sound.all id
  else if fn = "now" then isFinite x.nowSeconds
  else if fn = "tostartofinterval" then first && sound.getD 1 true
  else if fn ∈ dateTimeArgFns then first
  else sound.all id

mutual

/-- The numbers of an expression are finite, its texts have no character 0, the names of output
columns no quote, no operand is a star, and no minus sign stands in front of a negative number. -/
def sound (x : EmitCtx) : Node → Bool
  | .num value => isFinite value
  | .interval seconds => isFinite seconds
  | .str value => value.toList.all (·.toNat ≠ 0)
  | .star => false
  | .col name => name ∈ tableColumns || !name.toList.contains '"'
  | .unary op operand => sound x operand && (op = "NOT" || !putsNegative x operand)
  | .binary op left right =>
      if (if op = "<>" then "!=" else op) ∈ compareOps then
        (facesDate left right || sound x left) && (facesDate right left || sound x right)
      else sound x left && sound x right
  | .isIn expr list _ => sound x expr && soundOperands x expr list
  | .like expr pattern _ => sound x expr && sound x pattern
  | .between expr low high _ =>
      sound x expr && ((facesDate low expr || sound x low) && (facesDate high expr || sound x high))
  | .isnull expr _ => sound x expr
  | .func name args _ distinct => soundCall x (lowerCase name) args distinct (soundAll x args)

def soundAll (x : EmitCtx) : List Node → List Bool
  | [] => []
  | node :: nodes => sound x node :: soundAll x nodes

def soundOperands (x : EmitCtx) (against : Node) : List Node → Bool
  | [] => true
  | node :: nodes => (facesDate node against || sound x node) && soundOperands x against nodes

end

/-- The binary operators of `PRECEDENCE`. -/
def precedenceOps : List String :=
  ["OR", "AND", "=", "!=", "<>", "<", "<=", ">", ">=", "+", "-", "*", "/", "%"]

/-- The expressions that the parser makes. -/
inductive Parsable : Node → Prop
  | num {value : Double} (hvalue : value.Nonneg) : Parsable (.num value)
  | str (value : String) : Parsable (.str value)
  | col (name : String) : Parsable (.col name)
  | star : Parsable .star
  | func (name : String) {args params : List Node} (distinct : Bool)
      (hargs : ∀ arg ∈ args, Parsable arg) (hparams : ∀ param ∈ params, Parsable param) :
      Parsable (.func name args params distinct)
  | interval (seconds : Double) : Parsable (.interval seconds)
  | binary {op : String} {left right : Node} (hop : op ∈ precedenceOps) (hl : Parsable left)
      (hr : Parsable right) : Parsable (.binary op left right)
  | unary {op : String} {operand : Node} (hop : op = "NOT" ∨ op = "-") (h : Parsable operand) :
      Parsable (.unary op operand)
  | isIn {expr : Node} {list : List Node} (negate : Bool) (h : Parsable expr)
      (hlist : ∀ node ∈ list, Parsable node) : Parsable (.isIn expr list negate)
  | like {expr pattern : Node} (negate : Bool) (h : Parsable expr) (hpattern : Parsable pattern) :
      Parsable (.like expr pattern negate)
  | between {expr low high : Node} (negate : Bool) (h : Parsable expr) (hlow : Parsable low)
      (hhigh : Parsable high) : Parsable (.between expr low high negate)
  | isnull {expr : Node} (negate : Bool) (h : Parsable expr) : Parsable (.isnull expr negate)

/-! ### What is put -/

section Put

variable {x : EmitCtx} {name : String} {args params : List Node} {distinct : Bool} {a : List Sql}
  {e : Node} {q sql : Sql}

theorem isFinite_of_parse {dates : Dates} {value : String} {seconds : Double}
    (h : parseDateTimeLiteral dates value = .ok seconds) : isFinite seconds = true := by
  rw [parseDateTimeLiteral] at h
  split at h
  · next ms hms =>
      obtain rfl := Except.ok.inj h
      obtain ⟨⟨day, time⟩, -, hparse⟩ := Option.bind_eq_some_iff.mp hms
      have hbound := abs_le.mp (dates.bounded _ _ hparse)
      rw [Double.ofRat_intCast (abs_le.mpr ⟨by omega, by omega⟩)]
      rfl
  · cases h

/-- Only a number begins with a minus sign. -/
theorem beginsMinus_of_emitCall (hname : lowerCase name ≠ "now")
    (hcall : emitCall x name args distinct a = .ok sql) : sql.beginsMinus = false := by
  rw [emitCall] at hcall
  split at hcall
  case h_45 hnow => exact absurd hnow hname
  case h_1 =>
    obtain rfl := Except.ok.inj hcall
    split_ifs <;> rfl
  all_goals first
    | (obtain rfl := Except.ok.inj hcall; rfl)
    | (cases hcall; done)
    | skip
  case h_15 =>
    split at hcall
    · obtain rfl := Except.ok.inj hcall
      rfl
    · cases hcall
  case h_20 =>
    obtain ⟨modifiers, rfl⟩ := eq_truncateTo_of_emitStartOfWeek hcall
    rfl
  case h_29 =>
    rw [emitDayOfWeek] at hcall
    obtain ⟨mode, -, hcall⟩ := bind_eq_ok.mp hcall
    split at hcall <;> cases hcall <;> rfl

/-- An expression is put as one that is good exactly if it is sound. -/
def Put (x : EmitCtx) (e : Node) (sql : Sql) : Prop :=
  Emitted sql ∧ (sql.Good ↔ sound x e = true)

theorem put_all (h : ∀ arg ∈ args, ∀ sql, emit x arg = .ok sql → Put x arg sql)
    (ha : List.Forall₂ (fun arg q => emit x arg = .ok q) args a) :
    (∀ q ∈ a, Emitted q) ∧ ((∀ q ∈ a, q.Good) ↔ (soundAll x args).all id = true) := by
  induction ha with
  | nil => exact ⟨List.forall_mem_nil _, iff_of_true (List.forall_mem_nil _) rfl⟩
  | cons hq _ ih =>
    obtain ⟨harg, hargs⟩ := List.forall_mem_cons.mp h
    obtain ⟨hemitted, hgood⟩ := ih hargs
    refine ⟨List.forall_mem_cons.mpr ⟨(harg _ hq).1, hemitted⟩, ?_⟩
    rw [List.forall_mem_cons, (harg _ hq).2, hgood, soundAll, List.all_cons, Bool.and_eq_true]
    rfl

/-- An operand of a comparison. -/
theorem put_operand {against : Node} (h : ∀ sql, emit x e = .ok sql → Put x e sql)
    (hemit : emitOperand x e against (emit x e) = .ok sql) :
    Emitted sql ∧ (sql.Good ↔ (facesDate e against || sound x e) = true) := by
  have hplain (hno : facesDate e against = false) (hsql : emit x e = .ok sql) :
      Emitted sql ∧ (sql.Good ↔ (facesDate e against || sound x e) = true) := by
    rw [hno, Bool.false_or]
    exact h sql hsql
  cases e with
  | str value =>
    rw [emitOperand] at hemit
    split_ifs at hemit with hdate
    · cases hparse : parseDateTimeLiteral x.dates value with
      | error => rw [hparse] at hemit; cases hemit
      | ok seconds =>
        rw [hparse] at hemit
        obtain rfl := Except.ok.inj hemit
        refine ⟨.number seconds, iff_of_true ?_ ?_⟩
        · exact Sql.good_number.mpr (isFinite_of_parse hparse)
        · rw [show facesDate (.str value) against = true from hdate, Bool.true_or]
    · exact hplain (by simpa [facesDate] using hdate) hemit
  | _ => exact hplain rfl hemit

theorem put_operands {against : Node} {list : List Node} {qs : List Sql}
    (h : ∀ node ∈ list, ∀ sql, emit x node = .ok sql → Put x node sql)
    (hemit : emitOperands x against list = .ok qs) :
    (∀ q ∈ qs, Emitted q) ∧ ((∀ q ∈ qs, q.Good) ↔ soundOperands x against list = true) := by
  induction list generalizing qs with
  | nil =>
    obtain rfl := Except.ok.inj hemit
    exact ⟨List.forall_mem_nil _, iff_of_true (List.forall_mem_nil _) rfl⟩
  | cons node nodes ih =>
    rw [emitOperands] at hemit
    obtain ⟨q, hq, hemit⟩ := bind_eq_ok.mp hemit
    obtain ⟨rest, hrest, hemit⟩ := bind_eq_ok.mp hemit
    obtain rfl := Except.ok.inj hemit
    obtain ⟨hnode, hnodes⟩ := List.forall_mem_cons.mp h
    obtain ⟨hemitted, hgood⟩ := put_operand hnode hq
    obtain ⟨hemitteds, hgoods⟩ := ih hnodes hrest
    refine ⟨List.forall_mem_cons.mpr ⟨hemitted, hemitteds⟩, ?_⟩
    rw [List.forall_mem_cons, hgood, hgoods, soundOperands, Bool.and_eq_true]

theorem arity_dateFns : ∀ fn ∈ dateTimeArgFns,
    (fnArity.lookup fn).any (fun arity => 0 < arity.1) = true := by
  decide

theorem exists_cons_of_dateFn (hname : lowerCase name ∈ dateTimeArgFns)
    (hcheck : checkCall name args = .ok ()) : ∃ arg rest, args = arg :: rest := by
  cases args with
  | cons arg rest => exact ⟨arg, rest, rfl⟩
  | nil =>
    have harity := arity_dateFns _ hname
    cases hlookup : fnArity.lookup (lowerCase name) with
    | none => rw [hlookup] at harity; cases harity
    | some arity =>
      rw [hlookup] at harity
      rw [checkCall] at hcheck
      split_ifs at hcheck
      rw [checkArity, hlookup] at hcheck
      simp only at hcheck
      split_ifs at hcheck with hmin
      exact absurd hmin.1 (Nat.not_le_of_lt (of_decide_eq_true harity))

/-- The first argument of a function of dates. -/
theorem put_first {arg : Node} {rest : List Node} {q' : Sql} {a' : List Sql}
    (h : ∀ sql, emit x arg = .ok sql → Put x arg sql) (hq : emit x arg = .ok q)
    (hput : putDateLiteral x (arg :: rest) (q :: a) = .ok (q' :: a')) :
    a' = a ∧ Emitted q' ∧ (q'.Good ↔ (isStr arg || sound x arg) = true) := by
  have hplain (hno : isStr arg = false) (hsame : (q :: a) = q' :: a') :
      a' = a ∧ Emitted q' ∧ (q'.Good ↔ (isStr arg || sound x arg) = true) := by
    obtain ⟨rfl, rfl⟩ := List.cons.inj hsame
    rw [hno, Bool.false_or]
    exact ⟨rfl, h q hq⟩
  cases arg with
  | str value =>
    obtain ⟨seconds, hparse, hput⟩ := bind_eq_ok.mp hput
    obtain ⟨rfl, rfl⟩ := List.cons.inj (Except.ok.inj hput)
    exact ⟨rfl, .number seconds, iff_of_true (Sql.good_number.mpr (isFinite_of_parse hparse)) rfl⟩
  | _ => exact hplain rfl (Except.ok.inj hput)

theorem soundCall_plain {fn : String} {bs : List Bool}
    (hfn : fn = "intdiv" ∨ fn = "if" ∨ fn ∈ unaryFns ∨ fn ∈ passedFns) :
    soundCall x fn args distinct bs = bs.all id := by
  have hmem : fn ∈ ["intdiv", "if"] ++ unaryFns ++ passedFns := by
    simpa [or_assoc] using hfn
  have hall : ∀ fn ∈ ["intdiv", "if"] ++ unaryFns ++ passedFns, fn ≠ "count" ∧ fn ≠ "now" ∧
      fn ≠ "tostartofinterval" ∧ fn ∉ dateTimeArgFns := by decide
  obtain ⟨hcount, hnow, hinterval, hdate⟩ := hall fn hmem
  simp only [soundCall, if_neg hcount, if_neg hnow, if_neg hinterval, if_neg hdate]

/-- A function of dates. -/
theorem put_dateCall (h : ∀ arg ∈ args, ∀ sql, emit x arg = .ok sql → Put x arg sql)
    (hname : lowerCase name ∈ dateTimeArgFns) (hcheck : checkCall name args = .ok ())
    {a' : List Sql} (ha : List.Forall₂ (fun arg q => emit x arg = .ok q) args a)
    (hput : putDateLiteral x args a = .ok a') (hcall : emitCall x name args distinct a' = .ok sql) :
    Emitted sql ∧ (sql.Good ↔
      soundCall x (lowerCase name) args distinct (soundAll x args) = true) := by
  have hne : ∀ fn ∈ dateTimeArgFns, fn ≠ "count" ∧ fn ≠ "now" := by decide
  obtain ⟨hcount, hnow⟩ := hne _ hname
  obtain ⟨arg, rest, rfl⟩ := exists_cons_of_dateFn hname hcheck
  cases ha with
  | @cons _ q₀ _ qs₀ hq hqs =>
    obtain ⟨q, qs, rfl⟩ : ∃ q qs, a' = q :: qs := by
      rcases putDateLiteral_cases hput with rfl | ⟨n, rfl⟩
      · exact ⟨q₀, qs₀, rfl⟩
      · exact ⟨.number n, qs₀, rfl⟩
    obtain ⟨rfl, hemitted, hgood⟩ := put_first (h arg List.mem_cons_self) hq hput
    by_cases hinterval : lowerCase name = "tostartofinterval"
    · obtain ⟨seconds, hseconds, hfrom⟩ := from_startOfInterval hinterval hcall
      obtain ⟨rest, rfl⟩ : ∃ more, rest = .interval seconds :: more := by
        cases rest with
        | nil => cases hseconds
        | cons second more => exact ⟨more, congrArg (· :: more) (Option.some.inj hseconds)⟩
      obtain ⟨hemitted', hgood'⟩ := hfrom (by simp [hemitted, Emitted.number])
      refine ⟨hemitted', hgood'.trans ?_⟩
      rw [List.forall_mem_cons, List.forall_mem_singleton, hgood, Sql.good_number,
        ← Bool.and_eq_true]
      simp only [soundCall, if_neg hcount, if_neg hnow, if_pos hinterval]
      rfl
    · obtain ⟨hemitted', hgood'⟩ := from_dateFn hname hinterval hcall (by simpa using hemitted)
      refine ⟨hemitted', hgood'.trans (List.forall_mem_singleton.trans (hgood.trans ?_))⟩
      simp only [soundCall, if_neg hcount, if_neg hnow, if_neg hinterval, if_pos hname]
      rfl

/-- A call is put from the arguments that it asks for. -/
theorem put_call (h : ∀ arg ∈ args, ∀ sql, emit x arg = .ok sql → Put x arg sql)
    (hemit : emit x (.func name args params distinct) = .ok sql) :
    Put x (.func name args params distinct) sql := by
  obtain ⟨hcheck, a, a', ha, hresolve, hcall⟩ := emit_func hemit
  rw [Put, sound]
  by_cases hdate : lowerCase name ∈ dateTimeArgFns
  · exact put_dateCall h hdate hcheck ha (of_resolveDateArg hdate hresolve) hcall
  · obtain rfl := Except.ok.inj ((if_neg hdate).symm.trans hresolve)
    obtain ⟨hemitted, hgood⟩ := put_all h ha
    have hlen := ha.length_eq
    have hplain (hfn : lowerCase name = "intdiv" ∨ lowerCase name = "if" ∨
        lowerCase name ∈ unaryFns ∨ lowerCase name ∈ passedFns) (hfrom : From a sql) :
        Emitted sql ∧ (sql.Good ↔
          soundCall x (lowerCase name) args distinct (soundAll x args) = true) := by
      rw [soundCall_plain hfn, ← hgood]
      exact hfrom hemitted
    rcases mem_fns hcall with hname | hname | hname | hname
    · simp only [List.mem_cons, List.not_mem_nil, or_false] at hname
      rcases hname with hname | hname | hname | hname
      · obtain ⟨hemitted', hgood'⟩ := from_count hname hcall (by
          split_ifs
          · exact hemitted
          · exact List.forall_mem_nil _)
        refine ⟨hemitted', hgood'.trans ?_⟩
        rw [hname, soundCall, if_pos rfl, hlen]
        split_ifs with hdistinct
        · rw [hgood, hdistinct.1, hdistinct.2]
          rfl
        · rw [iff_true_left (List.forall_mem_nil _)]
          by_cases hone : a.length = 1
          · have hno : distinct = false := by simpa [hone] using hdistinct
            rw [hno]
            rfl
          · rw [decide_eq_false hone, Bool.and_false]
            rfl
      · obtain ⟨hmin, hmax⟩ := length_of_checkCall hcheck (by rw [hname]; rfl)
        obtain ⟨l, r, rfl⟩ := List.length_eq_two.mp (hlen ▸ le_antisymm hmax hmin)
        exact hplain (.inl hname) (from_intDiv hname hcall)
      · obtain ⟨hmin, hmax⟩ := length_of_checkCall hcheck (by rw [hname]; rfl)
        obtain ⟨c, l, r, rfl⟩ := List.length_eq_three.mp (hlen ▸ le_antisymm hmax hmin)
        exact hplain (.inr (.inl hname)) (from_if hname hcall)
      · obtain ⟨hemitted', hgood'⟩ := from_now hname hcall (by simp [Emitted.number])
        refine ⟨hemitted', hgood'.trans (List.forall_mem_singleton.trans ?_)⟩
        rw [hname, Sql.good_number]
        rfl
    · have harity : ∀ fn ∈ unaryFns, fnArity.lookup fn = some (1, some 1) := by decide
      obtain ⟨hmin, hmax⟩ := length_of_checkCall hcheck (harity _ hname)
      obtain ⟨q, rfl⟩ := List.length_eq_one_iff.mp (hlen ▸ le_antisymm hmax hmin)
      exact hplain (.inr (.inr (.inl hname))) (from_unaryFn hname hcall)
    · exact hplain (.inr (.inr (.inr hname))) (from_passedFn hname hcall)
    · exact absurd hname hdate

theorem isNegative_of_nonneg {v : Double} (h : v.Nonneg) : isNegative v = false := by
  cases v with
  | finite q hq => exact decide_eq_false (not_lt.mpr (Double.nonneg_finite_iff.mp h))
  | infinite negative => exact Double.nonneg_infinite_iff.mp h

/-- What is put begins with a minus sign only for a negative number. -/
theorem beginsMinus_of_emit (he : Parsable e) (hemit : emit x e = .ok sql) :
    sql.beginsMinus = putsNegative x e := by
  cases he with
  | num hvalue =>
    obtain rfl := Except.ok.inj hemit
    exact isNegative_of_nonneg hvalue
  | str | star | interval =>
    obtain rfl := Except.ok.inj hemit
    rfl
  | col name =>
    rw [emit] at hemit
    split_ifs at hemit <;> obtain rfl := Except.ok.inj hemit <;> rfl
  | func name distinct =>
    obtain ⟨-, a, a', -, -, hcall⟩ := emit_func hemit
    by_cases hname : lowerCase name = "now"
    · rw [emitCall, hname] at hcall
      obtain rfl := Except.ok.inj hcall
      rw [putsNegative, decide_eq_true hname]
      rfl
    · rw [beginsMinus_of_emitCall hname hcall, putsNegative, decide_eq_false hname]
      rfl
  | binary =>
    rw [emit] at hemit
    simp only at hemit
    split_ifs at hemit
    all_goals
      obtain ⟨l, -, hemit⟩ := bind_eq_ok.mp hemit
      obtain ⟨r, -, hemit⟩ := bind_eq_ok.mp hemit
      obtain rfl := Except.ok.inj hemit
      rfl
  | unary | isnull =>
    obtain ⟨q, -, hemit⟩ := bind_eq_ok.mp hemit
    obtain rfl := Except.ok.inj hemit
    rfl
  | isIn | like =>
    obtain ⟨q, -, hemit⟩ := bind_eq_ok.mp hemit
    obtain ⟨q', -, hemit⟩ := bind_eq_ok.mp hemit
    obtain rfl := Except.ok.inj hemit
    rfl
  | between =>
    obtain ⟨q, -, hemit⟩ := bind_eq_ok.mp hemit
    obtain ⟨low, -, hemit⟩ := bind_eq_ok.mp hemit
    obtain ⟨high, -, hemit⟩ := bind_eq_ok.mp hemit
    obtain rfl := Except.ok.inj hemit
    rfl

/-- What an expression of a query is emitted as. -/
theorem put_of_emit (he : Parsable e) (hemit : emit x e = .ok sql) : Put x e sql := by
  induction he generalizing sql with
  | num | interval =>
    obtain rfl := Except.ok.inj hemit
    exact ⟨.number _, Sql.good_number⟩
  | str value =>
    obtain rfl := Except.ok.inj hemit
    exact ⟨.text value, Sql.good_text.trans (by simp [sound])⟩
  | star =>
    obtain rfl := Except.ok.inj hemit
    exact ⟨.star, iff_of_false (fun h => by cases h.2) (by simp [sound])⟩
  | col name =>
    rw [emit] at hemit
    split_ifs at hemit with htimestamp hcolumn
    · obtain rfl := Except.ok.inj hemit
      have htime : "timestamp" ∈ tableColumns := by decide
      refine ⟨.binary (by decide) (.column htime) (.decimal 1000),
        iff_of_true ⟨rfl, rfl⟩ (by simp [sound, htimestamp, htime])⟩
    · obtain rfl := Except.ok.inj hemit
      exact ⟨.column hcolumn, iff_of_true ⟨rfl, rfl⟩ (by simp [sound, hcolumn])⟩
    · obtain rfl := Except.ok.inj hemit
      exact ⟨.output name, Sql.good_output.trans (by simp [sound, hcolumn])⟩
  | func name distinct _ _ ih => exact put_call (fun arg harg sql => ih arg harg) hemit
  | @binary op left right hop _ _ ihl ihr =>
    have hops : ∀ op ∈ precedenceOps, (if op = "<>" then "!=" else op) ∈ sqliteOps := by decide
    rw [emit] at hemit
    rw [Put, sound]
    by_cases hdivision : op = "/"
    · rw [if_pos hdivision] at hemit
      obtain ⟨l, hl, hemit⟩ := bind_eq_ok.mp hemit
      obtain ⟨r, hr, hemit⟩ := bind_eq_ok.mp hemit
      obtain rfl := Except.ok.inj hemit
      refine ⟨.binary (by decide) (.chain (by decide) (ihl hl).1 (.decimal 1)) (ihr hr).1, ?_⟩
      rw [hdivision, if_neg (by decide), Sql.good_binary, Sql.good_chain, (ihl hl).2, (ihr hr).2,
        Bool.and_eq_true]
      exact and_congr_left' (and_iff_left ⟨rfl, rfl⟩)
    · rw [if_neg hdivision] at hemit
      simp only at hemit
      by_cases hcompare : (if op = "<>" then "!=" else op) ∈ compareOps
      · rw [if_pos hcompare] at hemit
        obtain ⟨l, hl, hemit⟩ := bind_eq_ok.mp hemit
        obtain ⟨r, hr, hemit⟩ := bind_eq_ok.mp hemit
        obtain rfl := Except.ok.inj hemit
        obtain ⟨hemittedl, hgoodl⟩ := put_operand (fun sql => ihl) hl
        obtain ⟨hemittedr, hgoodr⟩ := put_operand (fun sql => ihr) hr
        refine ⟨.binary (hops op hop) hemittedl hemittedr, ?_⟩
        rw [if_pos hcompare, Sql.good_binary, hgoodl, hgoodr, Bool.and_eq_true]
      · rw [if_neg hcompare] at hemit
        obtain ⟨l, hl, hemit⟩ := bind_eq_ok.mp hemit
        obtain ⟨r, hr, hemit⟩ := bind_eq_ok.mp hemit
        obtain rfl := Except.ok.inj hemit
        refine ⟨.binary (hops op hop) (ihl hl).1 (ihr hr).1, ?_⟩
        rw [if_neg hcompare, Sql.good_binary, (ihl hl).2, (ihr hr).2, Bool.and_eq_true]
  | @unary op operand hop he ih =>
    obtain ⟨q, hq, hemit⟩ := bind_eq_ok.mp hemit
    obtain rfl := Except.ok.inj hemit
    obtain ⟨hemitted, hgood⟩ := ih hq
    refine ⟨.unary _ hemitted, ?_⟩
    rw [Sql.good_unary, hgood, beginsMinus_of_emit he hq, sound]
    rcases hop with rfl | rfl <;> simp
  | isIn negate _ _ ih ihlist =>
    obtain ⟨qs, hqs, hemit⟩ := bind_eq_ok.mp hemit
    obtain ⟨q, hq, hemit⟩ := bind_eq_ok.mp hemit
    obtain rfl := Except.ok.inj hemit
    obtain ⟨hemitted, hgood⟩ := ih hq
    obtain ⟨hemitteds, hgoods⟩ := put_operands (fun node hnode sql => ihlist node hnode) hqs
    refine ⟨.isIn negate hemitted hemitteds, ?_⟩
    rw [Sql.good_isIn, hgood, hgoods, sound, Bool.and_eq_true]
  | like negate _ _ ih ihpattern =>
    obtain ⟨q, hq, hemit⟩ := bind_eq_ok.mp hemit
    obtain ⟨p, hp, hemit⟩ := bind_eq_ok.mp hemit
    obtain rfl := Except.ok.inj hemit
    refine ⟨.like negate (ih hq).1 (ihpattern hp).1, ?_⟩
    rw [Sql.good_like, (ih hq).2, (ihpattern hp).2, sound, Bool.and_eq_true]
  | between negate _ _ _ ih ihlow ihhigh =>
    obtain ⟨q, hq, hemit⟩ := bind_eq_ok.mp hemit
    obtain ⟨low, hlow, hemit⟩ := bind_eq_ok.mp hemit
    obtain ⟨high, hhigh, hemit⟩ := bind_eq_ok.mp hemit
    obtain rfl := Except.ok.inj hemit
    obtain ⟨hemitted, hgood⟩ := ih hq
    obtain ⟨hemittedLow, hgoodLow⟩ := put_operand (fun sql => ihlow) hlow
    obtain ⟨hemittedHigh, hgoodHigh⟩ := put_operand (fun sql => ihhigh) hhigh
    refine ⟨.between negate hemitted hemittedLow hemittedHigh, ?_⟩
    rw [Sql.good_between, hgood, hgoodLow, hgoodHigh, sound, Bool.and_eq_true, Bool.and_eq_true]
  | isnull negate _ ih =>
    obtain ⟨q, hq, hemit⟩ := bind_eq_ok.mp hemit
    obtain rfl := Except.ok.inj hemit
    exact ⟨.isNull negate (ih hq).1, (ih hq).2⟩

theorem wellFormed_iff_good (h : Emitted sql) : WellFormed sql ↔ sql.Good := by
  have hlex := (readsIff_emitted h).lex_eq_iff lex_nil
  constructor
  · intro hwell
    exact ⟨hlex.mp hwell.read, (expression_lexemes_iff h).mp hwell.expression⟩
  · intro hgood
    exact ⟨hlex.mpr hgood.1, (expression_lexemes_iff h).mpr hgood.2⟩

/-- What is emitted for an expression of a query is an expression of SQLite exactly if the
expression is sound. -/
theorem wellFormed_iff (he : Parsable e) (hemit : emit x e = .ok sql) :
    WellFormed sql ↔ sound x e = true := by
  obtain ⟨hemitted, hgood⟩ := put_of_emit he hemit
  exact (wellFormed_iff_good hemitted).trans hgood

end Put

/-- The double of a column, negated. -/
theorem wellFormed_iff_double :
    WellFormed (.unary "-" (.column "double1")) ↔ sound epochCtx (.unary "-" (.col "double1")) :=
  wellFormed_iff (.unary (.inr rfl) (.col "double1")) rfl

/-- `-INTERVAL '-1' DAY` is emitted with two minus signs, which open a comment. -/
theorem not_wellFormed : ¬ ∀ (x : EmitCtx) (e : Node) (sql : Sql), Parsable e →
    emit x e = .ok sql → WellFormed sql := by
  intro h
  have hwell := h epochCtx (.unary "-" (.interval (.ofRat (-86400 : ℤ)))) _
    (.unary (.inr rfl) (.interval _)) rfl
  have hemitted : Emitted (.unary "-" (.number (.ofRat (-86400 : ℤ)))) :=
    .unary "-" (.number _)
  have hgood := ((wellFormed_iff_good hemitted).mp hwell).1
  have hnegative : isNegative (.ofRat (-86400 : ℤ)) = true := by
    rw [Double.ofRat_intCast (by decide)]
    decide
  rw [Sql.lexical, Sql.beginsMinus, hnegative] at hgood
  exact absurd ((Bool.and_eq_true ..).mp hgood).2 (by decide)

end Lopata.Analytics

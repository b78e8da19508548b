import Lopata.Analytics.Reading

/-!
# The Grammar of Expressions

The lexemes of an emitted expression form an expression of SQLite if no operand is a star. That they
do not otherwise is seen by what is due at each place: a star is an operator behind an operand, or
what is counted.

## Main results

* `Expression`: the lexemes of an expression.
* `expression_lexemes_iff`: when those of an emitted expression are such ones.
-/

namespace Lopata.Analytics

/-! ### Expressions of SQLite -/

/-- The lexemes of an expression, as far as such ones are put. -/
inductive Expression : List Lexeme → Prop
  | numeral (text : List Char) : Expression [.numeral text]
  | string (text : List Char) : Expression [.string text]
  | quoted (name : List Char) : Expression [.quoted name]
  | column {name : String} (hname : name ∈ tableColumns) : Expression [word name]
  | paren {ts : List Lexeme} (h : Expression ts) : Expression ([symbol "("] ++ (ts ++ [symbol ")"]))
  | minus {ts : List Lexeme} (h : Expression ts) : Expression ([symbol "-"] ++ ts)
  | not {ts : List Lexeme} (h : Expression ts) : Expression ([word "NOT"] ++ ts)
  | binary {op : String} {ls rs : List Lexeme} (hop : op ∈ sqliteOps) (hl : Expression ls)
      (hr : Expression rs) : Expression (ls ++ ([operatorLexeme op] ++ rs))
  | isIn {ts : List Lexeme} {items : List (List Lexeme)} (h : Expression ts)
      (hitems : ∀ item ∈ items, Expression item) :
      Expression (ts ++ ([word "IN", symbol "("] ++
        ([symbol ","].intercalate items ++ [symbol ")"])))
  | isNotIn {ts : List Lexeme} {items : List (List Lexeme)} (h : Expression ts)
      (hitems : ∀ item ∈ items, Expression item) :
      Expression (ts ++ ([word "NOT", word "IN", symbol "("] ++
        ([symbol ","].intercalate items ++ [symbol ")"])))
  | like {ts ps : List Lexeme} (h : Expression ts) (hp : Expression ps) :
      Expression (ts ++ ([word "LIKE"] ++ ps))
  | notLike {ts ps : List Lexeme} (h : Expression ts) (hp : Expression ps) :
      Expression (ts ++ ([word "NOT", word "LIKE"] ++ ps))
  | between {ts low high : List Lexeme} (h : Expression ts) (hlow : Expression low)
      (hhigh : Expression high) :
      Expression (ts ++ ([word "BETWEEN"] ++ (low ++ ([word "AND"] ++ high))))
  | notBetween {ts low high : List Lexeme} (h : Expression ts) (hlow : Expression low)
      (hhigh : Expression high) :
      Expression (ts ++ ([word "NOT", word "BETWEEN"] ++ (low ++ ([word "AND"] ++ high))))
  | isNull {ts : List Lexeme} (h : Expression ts) : Expression (ts ++ [word "IS", word "NULL"])
  | isNotNull {ts : List Lexeme} (h : Expression ts) :
      Expression (ts ++ [word "IS", word "NOT", word "NULL"])
  | countAll : Expression [word "COUNT", symbol "(", symbol "*", symbol ")"]
  | countDistinct {ts : List Lexeme} (h : Expression ts) :
      Expression ([word "COUNT", symbol "(", word "DISTINCT"] ++ (ts ++ [symbol ")"]))
  | call {name : String} {args : List (List Lexeme)} (hname : name ∈ sqliteFns)
      (hargs : ∀ arg ∈ args, Expression arg) :
      Expression ([word name, symbol "("] ++ ([symbol ","].intercalate args ++ [symbol ")"]))
  | cast {type : String} {ts : List Lexeme} (htype : type ∈ sqliteTypes) (h : Expression ts) :
      Expression ([word "CAST", symbol "("] ++ (ts ++ [word "AS", word type, symbol ")"]))
  | caseWhen {cs as bs : List Lexeme} (hc : Expression cs) (ha : Expression as)
      (hb : Expression bs) :
      Expression ([word "CASE", word "WHEN"] ++ (cs ++ ([word "THEN"] ++ (as ++
        ([word "ELSE"] ++ (bs ++ [word "END"]))))))

/-! ### Stars -/

/-- What is due: an operand, an operator behind an operand, the parenthesis of `COUNT` or what it
counts. -/
inductive Place
  | operand
  | operator
  | count
  | counted
  deriving DecidableEq

/-- A star is an operator behind an operand, or what is counted. -/
def Place.step : Place → Lexeme → Option Place
  | .count, t => if t = symbol "(" then some .counted else none
  | .counted, t =>
      if t = symbol "*" then some .operator
      else if t = word "DISTINCT" then some .operand
      else none
  | _, .numeral _ | _, .string _ | _, .quoted _ => some .operator
  | _, .word text =>
      if text = "COUNT".toList then some .count
      else if ((tableColumns ++ ["NULL", "END"]).map String.toList).contains text then some .operator
      else some .operand
  | place, .symbol text =>
      if text = [')'] then some .operator
      else if place = .operand ∧ text = ['*'] then none
      else some .operand

def Place.run (place : Place) (ts : List Lexeme) : Option Place := ts.foldlM Place.step place

theorem Place.run_append (place : Place) (ts us : List Lexeme) :
    place.run (ts ++ us) = (place.run ts).bind (Place.run · us) :=
  List.foldlM_append ..

namespace Sql

mutual

/-- No operand is a star. -/
def starless : Sql → Bool
  | .star => false
  | .number _ | .decimal _ | .text _ | .column _ | .output _ => true
  | .paren e | .isNull _ e | .countDistinct e | .cast _ e | .unary _ e => starless e
  | .binary _ l r | .chain _ l r | .like _ l r => starless l && starless r
  | .isIn _ e list => starless e && starlessAll list
  | .between _ a b c | .caseWhen a b c => starless a && (starless b && starless c)
  | .call name args => name = "COUNT" || starlessAll args

def starlessAll : List Sql → Bool
  | [] => true
  | e :: es => starless e && starlessAll es

end

theorem starlessAll_iff {list : List Sql} : starlessAll list ↔ ∀ e ∈ list, starless e := by
  induction list with
  | nil => simp [starlessAll]
  | cons e es ih => rw [starlessAll, Bool.and_eq_true, ih, List.forall_mem_cons]

end Sql

/-- The lexemes are those of an operand, or a star stands where one is due. -/
def Placed (ts : List Lexeme) (ok : Bool) : Prop :=
  Place.run .operand ts = if ok then some .operator else none

section Placed

variable {fs ts us : List Lexeme} {a b : Bool}

theorem Placed.after (h : Placed ts a) (hfs : Place.run .operand fs = some .operand) :
    Placed (fs ++ ts) a := by
  rw [Placed, Place.run_append, hfs]
  exact h

theorem Placed.before (h : Placed ts a) (hfs : Place.run .operator fs = some .operator) :
    Placed (ts ++ fs) a := by
  rw [Placed, Place.run_append, h]
  cases a with
  | false => rfl
  | true => exact hfs

theorem Placed.seq (ht : Placed ts a) (hfs : Place.run .operator fs = some .operand)
    (hu : Placed us b) : Placed (ts ++ (fs ++ us)) (a && b) := by
  rw [Placed, Place.run_append, ht]
  cases a with
  | false => rfl
  | true =>
    rw [if_pos rfl, Option.bind_some, Place.run_append, hfs]
    exact hu

/-- Operands with commas between them and a closing parenthesis. -/
theorem placed_list {ι : Type*} {text : ι → List Lexeme} {ok : ι → Bool} {l : List ι}
    (h : ∀ i ∈ l, Placed (text i) (ok i)) :
    Placed ([symbol ","].intercalate (l.map text) ++ [symbol ")"]) (l.all ok) := by
  induction l with
  | nil => rfl
  | cons i l ih =>
    obtain ⟨hi, hl⟩ := List.forall_mem_cons.mp h
    cases l with
    | nil =>
      have hone := hi.before (show Place.run .operator [symbol ")"] = _ from rfl)
      exact (by simpa using hone)
    | cons j l =>
      have hall := hi.seq (show Place.run .operator [symbol ","] = _ from rfl) (ih hl)
      simp only [List.map_cons, List.intercalate_cons_cons, List.append_assoc, List.all_cons]
        at hall ⊢
      exact hall

/-- Expressions with commas between them and a closing parenthesis. -/
theorem placed_items {items : List (List Lexeme)} (h : ∀ item ∈ items, Placed item true) :
    Placed ([symbol ","].intercalate items ++ [symbol ")"]) true := by
  have hlist : Placed ([symbol ","].intercalate (items.map fun item => item) ++ [symbol ")"])
      (items.all fun _ => true) := placed_list h
  rwa [List.map_id', List.all_eq_true.mpr fun _ _ => rfl] at hlist

theorem run_column : ∀ name ∈ tableColumns,
    Place.run .operand [word name] = some .operator := by
  decide

theorem run_operator : ∀ op ∈ sqliteOps,
    Place.run .operator [operatorLexeme op] = some .operand := by
  decide

theorem run_call : ∀ name ∈ sqliteFns,
    Place.run .operand [word name, symbol "("] = some .operand := by
  decide

theorem run_cast : ∀ type ∈ sqliteTypes,
    Place.run .operator [word "AS", word type, symbol ")"] = some .operator := by
  decide

theorem placed_expression (h : Expression ts) : Placed ts true := by
  induction h with
  | numeral | string | quoted | countAll => rfl
  | column hname => exact run_column _ hname
  | paren _ ih => exact (ih.before rfl).after rfl
  | minus _ ih | not _ ih => exact ih.after rfl
  | binary hop _ _ ihl ihr => exact ihl.seq (run_operator _ hop) ihr
  | isIn _ _ ih ihitems | isNotIn _ _ ih ihitems =>
    exact ih.seq rfl (placed_items ihitems)
  | like _ _ ih ihp | notLike _ _ ih ihp => exact ih.seq rfl ihp
  | between _ _ _ ih ihlow ihhigh | notBetween _ _ _ ih ihlow ihhigh =>
    exact ih.seq rfl (ihlow.seq rfl ihhigh)
  | isNull _ ih | isNotNull _ ih => exact ih.before rfl
  | countDistinct _ ih => exact (ih.before rfl).after rfl
  | call hname _ ihargs =>
    exact (placed_items ihargs).after (run_call _ hname)
  | cast htype _ ih => exact (ih.before (run_cast _ htype)).after rfl
  | caseWhen _ _ _ ihc iha ihb => exact (ihc.seq rfl (iha.seq rfl (ihb.before rfl))).after rfl

/-- A star is an operand of an emitted expression exactly if it stands where one is due. -/
theorem placed_lexemes {sql : Sql} (h : Emitted sql) : Placed sql.lexemes sql.starless := by
  have hlist {list : List Sql} (hitems : ∀ item ∈ list, Placed item.lexemes item.starless) :
      Placed ([symbol ","].intercalate (Sql.lexemesAll list) ++ [symbol ")"])
        (Sql.starlessAll list) := by
    have hall : list.all Sql.starless = Sql.starlessAll list := by
      rw [Bool.eq_iff_iff, List.all_eq_true, Sql.starlessAll_iff]
    rw [Sql.lexemesAll_eq_map, ← hall]
    exact placed_list hitems
  induction h with
  | number x =>
    rw [Sql.lexemes, numberLexemes]
    split_ifs <;> rfl
  | decimal | text | output | countAll | star => rfl
  | column hname => exact run_column _ hname
  | paren _ ih => exact (ih.before rfl).after rfl
  | unary op _ ih =>
    rw [Sql.lexemes]
    refine (ih.before rfl).after ?_
    split_ifs <;> rfl
  | binary hop _ _ ihl ihr => exact (ihl.seq (run_operator _ hop) (ihr.before rfl)).after rfl
  | chain hop _ _ ihl ihr => exact ihl.seq (run_operator _ hop) ihr
  | isIn negate _ _ ih ihlist =>
    have hclosed := (hlist ihlist).before (show Place.run .operator [symbol ")"] = _ from rfl)
    rw [List.append_assoc] at hclosed
    cases negate <;> exact (ih.seq rfl hclosed).after rfl
  | like negate _ _ ih ihp => cases negate <;> exact (ih.seq rfl (ihp.before rfl)).after rfl
  | between negate _ _ _ ih ihlow ihhigh =>
    cases negate <;> exact (ih.seq rfl (ihlow.seq rfl (ihhigh.before rfl))).after rfl
  | isNull negate _ ih => cases negate <;> exact (ih.before rfl).after rfl
  | countDistinct _ ih => exact (ih.before rfl).after rfl
  | @call name args hname _ ihargs =>
    have hne : ∀ name ∈ sqliteFns, name ≠ "COUNT" := by decide
    rw [Sql.starless, decide_eq_false (hne _ hname), Bool.false_or]
    exact (hlist ihargs).after (run_call _ hname)
  | cast htype _ ih => exact (ih.before (run_cast _ htype)).after rfl
  | caseWhen _ _ _ ihc iha ihb => exact (ihc.seq rfl (iha.seq rfl (ihb.before rfl))).after rfl

end Placed

/-- The lexemes of an emitted expression form one exactly if no operand is a star. -/
theorem expression_lexemes_iff {sql : Sql} (h : Emitted sql) :
    Expression sql.lexemes ↔ sql.starless = true := by
  constructor
  · intro hexpression
    have hplaced := (placed_lexemes h).symm.trans (placed_expression hexpression)
    by_contra hno
    rw [if_neg hno] at hplaced
    cases hplaced
  · intro hstarless
    have hall {list : List Sql}
        (hitems : ∀ item ∈ list, item.starless = true → Expression item.lexemes)
        (hlist : Sql.starlessAll list = true) : ∀ ts ∈ Sql.lexemesAll list, Expression ts := by
      rw [Sql.lexemesAll_eq_map]
      intro ts hts
      obtain ⟨item, hitem, rfl⟩ := List.mem_map.mp hts
      exact hitems item hitem (Sql.starlessAll_iff.mp hlist item hitem)
    induction h with
    | number x =>
      rw [Sql.lexemes, numberLexemes]
      split_ifs
      · exact (Expression.numeral _).minus
      · exact .numeral _
    | decimal n => exact .numeral _
    | text value => exact .string _
    | star => cases hstarless
    | column hname => exact .column hname
    | output name => exact .quoted _
    | paren _ ih => exact (ih hstarless).paren
    | unary op _ ih =>
      rw [Sql.lexemes]
      split_ifs
      · exact (ih hstarless).not.paren
      · exact (ih hstarless).minus.paren
    | binary hop _ _ ihl ihr =>
      obtain ⟨hl, hr⟩ := (Bool.and_eq_true ..).mp hstarless
      have hparen := (Expression.binary hop (ihl hl) (ihr hr)).paren
      rw [Sql.lexemes]
      simpa only [List.append_assoc] using hparen
    | chain hop _ _ ihl ihr =>
      obtain ⟨hl, hr⟩ := (Bool.and_eq_true ..).mp hstarless
      exact .binary hop (ihl hl) (ihr hr)
    | isIn negate _ _ ih ihlist =>
      obtain ⟨he, hlist⟩ := (Bool.and_eq_true ..).mp hstarless
      have hitems := hall ihlist hlist
      rw [Sql.lexemes]
      cases negate
      · have hparen := ((ih he).isIn hitems).paren
        simpa [List.append_assoc] using hparen
      · have hparen := ((ih he).isNotIn hitems).paren
        simpa [List.append_assoc] using hparen
    | like negate _ _ ih ihp =>
      obtain ⟨he, hp⟩ := (Bool.and_eq_true ..).mp hstarless
      rw [Sql.lexemes]
      cases negate
      · have hparen := ((ih he).like (ihp hp)).paren
        simpa [List.append_assoc] using hparen
      · have hparen := ((ih he).notLike (ihp hp)).paren
        simpa [List.append_assoc] using hparen
    | between negate _ _ _ ih ihlow ihhigh =>
      obtain ⟨he, hlow, hhigh⟩ := and_and_iff.mpr hstarless
      rw [Sql.lexemes]
      cases negate
      · have hparen := ((ih he).between (ihlow hlow) (ihhigh hhigh)).paren
        simpa [List.append_assoc] using hparen
      · have hparen := ((ih he).notBetween (ihlow hlow) (ihhigh hhigh)).paren
        simpa [List.append_assoc] using hparen
    | isNull negate _ ih =>
      rw [Sql.lexemes]
      cases negate
      · have hparen := (ih hstarless).isNull.paren
        simpa [List.append_assoc] using hparen
      · have hparen := (ih hstarless).isNotNull.paren
        simpa [List.append_assoc] using hparen
    | countAll => exact .countAll
    | call hname _ ihargs =>
      have hne : ∀ name ∈ sqliteFns, name ≠ "COUNT" := by decide
      rw [Sql.starless, decide_eq_false (hne _ hname), Bool.false_or] at hstarless
      exact .call hname (hall ihargs hstarless)
    | countDistinct _ ih => exact (ih hstarless).countDistinct
    | cast htype _ ih => exact .cast htype (ih hstarless)
    | caseWhen _ _ _ ihc iha ihb =>
      obtain ⟨hc, ha, hb⟩ := and_and_iff.mpr hstarless
      have hparen := (Expression.caseWhen (ihc hc) (iha ha) (ihb hb)).paren
      rw [Sql.lexemes]
      simpa [List.append_assoc] using hparen

end Lopata.Analytics

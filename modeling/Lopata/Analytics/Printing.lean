import Lopata.Lib.Lexing
import Lopata.Analytics.Translation

/-!
# The Text of an Expression

`emit` puts an expression together from texts. They are those of the tree here, and SQLite reads
them as lexemes: a number, a text in quotes, a name in quotes, a word, or an operator or another
sign. Comments are not taken here, so that a comment opener is an error.

## Main definitions

* `Sql.print`, `Sql.lexemes`: the text of an expression, and what is meant by it.
* `sqliteLexer`: how SQLite reads a text.
-/

namespace Lopata.Analytics

/-- A lexeme of SQLite. -/
inductive Lexeme
  | numeral (text : List Char)
  | string (text : List Char)
  | quoted (name : List Char)
  | word (text : List Char)
  | symbol (text : List Char)
  deriving DecidableEq

/-! ### The lexer of SQLite -/

/-- What a numeral has ended with: a digit in front of the point or the point, a digit behind the
point, the `e`, the sign of the exponent, a digit of the exponent. -/
inductive NumeralPart
  | whole
  | fraction
  | exponent
  | sign
  | power
  deriving DecidableEq

inductive LexState
  | start
  | word (read : List Char)
  | numeral (part : NumeralPart) (read : List Char)
  | string (read : List Char)
  | stringEnd (read : List Char)
  | quoted (read : List Char)
  | quotedEnd (read : List Char)
  | operator (c : Char)
  deriving DecidableEq

def isWordStart (c : Char) : Bool := c.isAlpha || c = '_'

def isWordChar (c : Char) : Bool := c.isAlphanum || c = '_'

/-- The beginning of a lexeme. -/
def beginLexeme (c : Char) : Option (List Lexeme × LexState) :=
  if c = ' ' ∨ c = '\t' ∨ c = '\n' ∨ c = '\r' then some ([], .start)
  else if isWordStart c then some ([], .word [c])
  else if c.isDigit then some ([], .numeral .whole [c])
  else if c = '\'' then some ([], .string [])
  else if c = '"' then some ([], .quoted [])
  else if c ∈ ['-', '/', '<', '>', '=', '!', '|'] then some ([], .operator c)
  else if c ∈ ['(', ')', ',', '+', '*', '%'] then some ([.symbol [c]], .start)
  else none

/-- The end of a lexeme and the beginning of the next one. -/
def endLexeme (t : Lexeme) (c : Char) : Option (List Lexeme × LexState) :=
  (beginLexeme c).map fun out => (t :: out.1, out.2)

/-- A character of a numeral; one that a word could go on with is an error. -/
def numeralStep (part : NumeralPart) (read : List Char) (c : Char) :
    Option (List Lexeme × LexState) :=
  let next (part : NumeralPart) : Option (List Lexeme × LexState) :=
    some ([], .numeral part (read ++ [c]))
  match part with
  | .whole =>
      if c.isDigit then next .whole
      else if c = '.' then next .fraction
      else if c = 'e' ∨ c = 'E' then next .exponent
      else if isWordChar c then none
      else endLexeme (.numeral read) c
  | .fraction =>
      if c.isDigit then next .fraction
      else if c = 'e' ∨ c = 'E' then next .exponent
      else if isWordChar c then none
      else endLexeme (.numeral read) c
  | .exponent => if c.isDigit then next .power else if c = '+' ∨ c = '-' then next .sign else none
  | .sign => if c.isDigit then next .power else none
  | .power =>
      if c.isDigit then next .power
      else if isWordChar c then none
      else endLexeme (.numeral read) c

/-- The operators of two characters. -/
def doubleOperators : List (List Char) :=
  [['<', '='], ['<', '>'], ['>', '='], ['=', '='], ['!', '='], ['|', '|']]

def lexStep (s : LexState) (c : Char) : Option (List Lexeme × LexState) :=
  -- a text ends at a character 0
  if c.toNat = 0 then none
  else
    match s with
    | .start => beginLexeme c
    | .word read =>
        if isWordChar c then some ([], .word (read ++ [c])) else endLexeme (.word read) c
    | .numeral part read => numeralStep part read c
    | .string read => some ([], if c = '\'' then .stringEnd read else .string (read ++ [c]))
    | .stringEnd read =>
        if c = '\'' then some ([], .string (read ++ [c])) else endLexeme (.string read) c
    | .quoted read => some ([], if c = '"' then .quotedEnd read else .quoted (read ++ [c]))
    | .quotedEnd read =>
        if c = '"' then some ([], .quoted (read ++ [c])) else endLexeme (.quoted read) c
    | .operator d =>
        if doubleOperators.contains [d, c] then some ([.symbol [d, c]], .start)
        -- the openers of comments
        else if d = '-' ∧ c = '-' ∨ d = '/' ∧ c = '*' then none
        else if d = '!' then none
        else endLexeme (.symbol [d]) c

def lexFinish : LexState → Option (List Lexeme)
  | .start => some []
  | .word read => some [.word read]
  | .numeral .whole read | .numeral .fraction read | .numeral .power read => some [.numeral read]
  | .numeral .exponent _ | .numeral .sign _ => none
  | .string _ | .quoted _ => none
  | .stringEnd read => some [.string read]
  | .quotedEnd read => some [.quoted read]
  | .operator d => if d = '!' then none else some [.symbol [d]]

def sqliteLexer : Lexer LexState Lexeme where
  start := .start
  step := lexStep
  finish := lexFinish

/-! ### Printing -/

/-- A character in a text of JSON. -/
def escapeChar (c : Char) : List Char :=
  if c = '"' then ['\\', '"']
  else if c = '\\' then ['\\', '\\']
  else if c.toNat = 8 then ['\\', 'b']
  else if c.toNat = 9 then ['\\', 't']
  else if c.toNat = 10 then ['\\', 'n']
  else if c.toNat = 12 then ['\\', 'f']
  else if c.toNat = 13 then ['\\', 'r']
  else if c.toNat < 32 then
    '\\' :: 'u' :: '0' :: '0' :: [Nat.digitChar (c.toNat / 16), Nat.digitChar (c.toNat % 16)]
  else [c]

/-- What `JSON.stringify` puts between the quotes. -/
def escapeName (name : String) : List Char := name.toList.flatMap escapeChar

/-- `s.replace(/'/g, "''")`. -/
def doubleQuotes (text : List Char) : List Char :=
  text.flatMap fun c => if c = '\'' then ['\'', '\''] else [c]

def quoteStr (s : String) : List Char := '\'' :: (doubleQuotes s.toList ++ ['\''])

/-- An operator between spaces. -/
def spaced (op : String) : List Char := ' ' :: (op.toList ++ [' '])

namespace Sql

mutual

/-- The text of an expression. -/
def print : Sql → List Char
  | .number x => x.text
  | .decimal n => Nat.toDigits 10 n ++ ".0".toList
  | .text value => quoteStr value
  | .star => ['*']
  | .column name => name.toList
  | .output name => '"' :: (escapeName name ++ ['"'])
  | .paren e => "(".toList ++ (print e ++ ")".toList)
  | .unary op e => (if op = "NOT" then "(NOT ".toList else "(-".toList) ++ (print e ++ ")".toList)
  | .binary op l r =>
      "(".toList ++ (print l ++ (spaced op ++ (print r ++ ")".toList)))
  | .chain op l r => print l ++ (spaced op ++ print r)
  | .isIn negate e list =>
      "(".toList ++ (print e ++ ((if negate then " NOT IN (".toList else " IN (".toList) ++
        (", ".toList.intercalate (printAll list) ++ "))".toList)))
  | .like negate e pattern =>
      "(".toList ++ (print e ++ ((if negate then " NOT LIKE ".toList else " LIKE ".toList) ++
        (print pattern ++ ")".toList)))
  | .between negate e low high =>
      "(".toList ++ (print e ++ ((if negate then " NOT BETWEEN ".toList else " BETWEEN ".toList) ++
        (print low ++ (" AND ".toList ++ (print high ++ ")".toList)))))
  | .isNull negate e =>
      "(".toList ++ (print e ++ (if negate then " IS NOT NULL)".toList else " IS NULL)".toList))
  | .call name args =>
      (name.toList ++ "(".toList) ++ (", ".toList.intercalate (printAll args) ++ ")".toList)
  | .countDistinct e => "COUNT(DISTINCT ".toList ++ (print e ++ ")".toList)
  | .cast type e => "CAST(".toList ++ (print e ++ (" AS ".toList ++ type.toList ++ ")".toList))
  | .caseWhen c a b =>
      "(CASE WHEN ".toList ++ (print c ++ (" THEN ".toList ++ (print a ++
        (" ELSE ".toList ++ (print b ++ " END)".toList)))))

def printAll : List Sql → List (List Char)
  | [] => []
  | e :: es => print e :: printAll es

end

end Sql

/-! ### What is meant -/

def word (text : String) : Lexeme := .word text.toList

def symbol (text : String) : Lexeme := .symbol text.toList

/-- The lexemes of a number: a minus sign is one of its own. -/
def numberLexemes (x : Double) : List Lexeme :=
  if x.text.head? = some '-' then [symbol "-", .numeral x.text.tail] else [.numeral x.text]

/-- The lexeme of an operator. -/
def operatorLexeme (op : String) : Lexeme := if op = "AND" ∨ op = "OR" then word op else symbol op

namespace Sql

mutual

/-- The lexemes that an expression is meant to consist of. -/
def lexemes : Sql → List Lexeme
  | .number x => numberLexemes x
  | .decimal n => [.numeral (Nat.toDigits 10 n ++ ".0".toList)]
  | .text value => [.string value.toList]
  | .star => [symbol "*"]
  | .column name => [word name]
  | .output name => [.quoted (escapeName name)]
  | .paren e => [symbol "("] ++ (lexemes e ++ [symbol ")"])
  | .unary op e =>
      [symbol "(", if op = "NOT" then word "NOT" else symbol "-"] ++ (lexemes e ++ [symbol ")"])
  | .binary op l r =>
      [symbol "("] ++ (lexemes l ++ ([operatorLexeme op] ++ (lexemes r ++ [symbol ")"])))
  | .chain op l r => lexemes l ++ ([operatorLexeme op] ++ lexemes r)
  | .isIn negate e list =>
      [symbol "("] ++ (lexemes e ++ ((if negate then [word "NOT", word "IN", symbol "("]
        else [word "IN", symbol "("]) ++
          ([symbol ","].intercalate (lexemesAll list) ++ [symbol ")", symbol ")"])))
  | .like negate e pattern =>
      [symbol "("] ++ (lexemes e ++ ((if negate then [word "NOT", word "LIKE"]
        else [word "LIKE"]) ++ (lexemes pattern ++ [symbol ")"])))
  | .between negate e low high =>
      [symbol "("] ++ (lexemes e ++ ((if negate then [word "NOT", word "BETWEEN"]
        else [word "BETWEEN"]) ++
          (lexemes low ++ ([word "AND"] ++ (lexemes high ++ [symbol ")"])))))
  | .isNull negate e =>
      [symbol "("] ++ (lexemes e ++ (if negate then [word "IS", word "NOT", word "NULL", symbol ")"]
        else [word "IS", word "NULL", symbol ")"]))
  | .call name args =>
      [word name, symbol "("] ++ ([symbol ","].intercalate (lexemesAll args) ++ [symbol ")"])
  | .countDistinct e =>
      [word "COUNT", symbol "(", word "DISTINCT"] ++ (lexemes e ++ [symbol ")"])
  | .cast type e =>
      [word "CAST", symbol "("] ++ (lexemes e ++ [word "AS", word type, symbol ")"])
  | .caseWhen c a b =>
      [symbol "(", word "CASE", word "WHEN"] ++ (lexemes c ++ ([word "THEN"] ++ (lexemes a ++
        ([word "ELSE"] ++ (lexemes b ++ [word "END", symbol ")"])))))

def lexemesAll : List Sql → List (List Lexeme)
  | [] => []
  | e :: es => lexemes e :: lexemesAll es

end

end Sql

end Lopata.Analytics

import Mathlib.Algebra.GroupWithZero.Nat
import Mathlib.Data.List.Sort
import Lopata.Lib.Path
import Lopata.Lib.Text

/-!
# Redirect Rules

A rule of `_redirects` has a pattern for the path, a target and a status. `*` matches any text of
one line and `:name` a piece of a path; what they matched is put into the target. A rule with
status 200 rewrites the path of the request, any other answers with a redirect.
-/

namespace Lopata.Assets

/-- A text, as a list of its characters. -/
abbrev Text := List Char

structure RedirectRule where
  source : Text
  target : Text
  status : ℕ

/-! ### Matching -/

/-- A part of the regular expression of a pattern. -/
inductive Piece where
  | literal (c : Char)
  | splat
  | placeholder (name : Text)

def isWordChar (c : Char) : Bool := c.isAlphanum || c = '_'

/-- The parts of a pattern. -/
def pieces : Text → List Piece
  | [] => []
  | '*' :: rest => .splat :: pieces rest
  | ':' :: rest =>
      if rest.takeWhile isWordChar = [] then .literal ':' :: pieces rest
      else .placeholder (rest.takeWhile isWordChar) :: pieces (rest.dropWhile isWordChar)
  | c :: rest => .literal c :: pieces rest
termination_by text => text.length
decreasing_by
  all_goals have := (List.dropWhile_suffix isWordChar (l := rest)).length_le
  all_goals simp only [List.length_cons]
  all_goals omega

/-- What `.` does not match. -/
def isLineEnd (c : Char) : Bool := c.toNat ∈ [10, 13, 0x2028, 0x2029]

/-- Whether the parts match a text, longest first; the names with what they matched. -/
def exec : List Piece → Text → Option (List (Text × Text))
  | [], text => if text = [] then some [] else none
  | .literal c :: ps, text => if text.head? = some c then exec ps text.tail else none
  | .splat :: ps, text =>
      (List.range ((text.takeWhile fun c => !isLineEnd c).length + 1)).reverse.findSome? fun n =>
        (exec ps (text.drop n)).map (("splat".toList, text.take n) :: ·)
  | .placeholder name :: ps, text =>
      (List.range (text.takeWhile (· ≠ '/')).length).reverse.findSome? fun n =>
        (exec ps (text.drop (n + 1))).map ((name, text.take (n + 1)) :: ·)

/-- `result[name] = value`. -/
def setProperty (result : List (Text × Text)) (name value : Text) : List (Text × Text) :=
  if name = "__proto__".toList then result
  else if result.any (·.1 = name) then
    result.map fun p => if p.1 = name then (name, value) else p
  else result ++ [(name, value)]

/-- A property that is an array index. -/
def isIndex (name : Text) : Bool :=
  name ≠ [] && name.all Char.isDigit && (name = ['0'] || name.head? ≠ some '0') &&
    decimalValue name < 2 ^ 32 - 1

/-- `Object.entries`: indices come first, in ascending order. -/
def entriesOf (object : List (Text × Text)) : List (Text × Text) :=
  ((object.filter fun p => isIndex p.1).insertionSort fun a b =>
    decimalValue a.1 ≤ decimalValue b.1) ++ object.filter fun p => !isIndex p.1

def matchRedirectPattern (pattern pathname : Text) : Option (List (Text × Text)) :=
  (exec (pieces pattern) pathname).map fun found =>
    entriesOf (found.foldl (fun result p => setProperty result p.1 p.2) [])

/-! ### Substitution -/

/-- A replacement, in which `$` may name the match and what is around it. -/
def expand (matched before after : Text) : Text → Text
  | [] => []
  | [c] => [c]
  | c :: d :: rest =>
      if c ≠ '$' then c :: expand matched before after (d :: rest)
      else if d = '$' then '$' :: expand matched before after rest
      else if d = '&' then matched ++ expand matched before after rest
      else if d.toNat = 96 then before ++ expand matched before after rest
      else if d.toNat = 39 then after ++ expand matched before after rest
      else '$' :: expand matched before after (d :: rest)

/-- `text.replaceAll(':' + key, value)` from a place in the text on. -/
def replaceFrom (key value before : Text) : Text → Text
  | [] => []
  | c :: rest =>
      if c = ':' ∧ key <+: rest then
        expand (':' :: key) before (rest.drop key.length) value ++
          replaceFrom key value (before ++ ':' :: key) (rest.drop key.length)
      else c :: replaceFrom key value (before ++ [c]) rest
termination_by text => text.length
decreasing_by
  all_goals simp only [List.length_cons, List.length_drop]
  all_goals omega

def substitute (target : Text) (found : List (Text × Text)) : Text :=
  found.foldl (fun target p => replaceFrom p.1 p.2 [] target) target

/-! ### Applying the rules -/

/-- What the rules make of a request. -/
inductive Redirected where
  | response (status : ℕ) (location : Text)
  | rewritten (pathname : Text)
  | unmatched

def isExternal (target : Text) : Bool :=
  "http://".toList <+: target || "https://".toList <+: target

/-- The first rule that matches; a location that is not external is resolved against the
request's origin. -/
def applyRedirects (search pathname : Text) : List RedirectRule → Redirected
  | [] => .unmatched
  | rule :: rules =>
      match matchRedirectPattern rule.source pathname with
      | none => applyRedirects search pathname rules
      | some found =>
          let target := substitute rule.target found
          if rule.status = 200 then
            if isExternal target then .response 302 target else .rewritten target
          else .response rule.status (if isExternal target then target else target ++ search)

end Lopata.Assets

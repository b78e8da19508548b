import Lopata.Lib.Text

/-!
# Origins of URLs

What the URL parser makes of a text that is resolved against a base with a scheme of the web: its
states up to the path, which decide the origin. How a host is parsed is left open.

## Main results

* `resolve_eq_origin_iff`: a text leads to the base's own origin if, behind no scheme or the
  base's, it names no host, or the base's own.
-/

namespace Lopata.Url

/-- The special schemes whose URLs have an origin; with `file` these are all special ones. -/
inductive Scheme where
  | ftp
  | http
  | https
  | ws
  | wss
  deriving DecidableEq

namespace Scheme

def text : Scheme → List Char
  | ftp => "ftp".toList
  | http => "http".toList
  | https => "https".toList
  | ws => "ws".toList
  | wss => "wss".toList

def defaultPort : Scheme → ℕ
  | ftp => 21
  | http | ws => 80
  | https | wss => 443

def ofText? (text : List Char) : Option Scheme :=
  [ftp, http, https, ws, wss].find? fun s => s.text = text

theorem ofText?_eq_some_iff {s : Scheme} {text : List Char} :
    ofText? text = some s ↔ text = s.text := by
  constructor
  · intro h
    have htext := List.find?_some (p := fun s : Scheme => decide (s.text = text)) h
    exact (of_decide_eq_true htext).symm
  · rintro rfl
    cases s <;> rfl

end Scheme

structure Origin (Host : Type) where
  scheme : Scheme
  host : Host
  /-- None for the default port of the scheme. -/
  port : Option ℕ
  deriving DecidableEq

/-- What becomes of a text: it is no URL, or one whose origin is only its own, or one with an
origin. -/
inductive Resolved (Host : Type) where
  | failure
  | null
  | origin (o : Origin Host)
  deriving DecidableEq

/-! ### Preparation -/

/-- A control character or a space. -/
def isControl (c : Char) : Bool := c.toNat ≤ 0x20

/-- Control characters and spaces at the ends are left out, and then tabs and newlines. -/
def clean (input : List Char) : List Char :=
  ((input.dropWhile isControl).reverse.dropWhile isControl).reverse.filter fun c =>
    c.toNat ∉ [9, 10, 13]

def isSchemeChar (c : Char) : Bool := c.isAlphanum || c = '+' || c = '-' || c = '.'

/-- The scheme at the start, in lower case, and what is behind its colon. -/
def schemeOf (text : List Char) : Option (List Char × List Char) :=
  match text.head?.any Char.isAlpha, text.dropWhile isSchemeChar with
  | true, ':' :: rest => some ((text.takeWhile isSchemeChar).map Char.toLower, rest)
  | _, _ => none

/-! ### Authorities -/

/-- A slash or a backslash, which are the same in special URLs. -/
def isSlash (c : Char) : Bool := c = '/' || c = '\\'

/-- The host, and what is behind the colon after it; in brackets a colon is part of the host. -/
def splitPort : Bool → List Char → List Char × Option (List Char)
  | _, [] => ([], none)
  | inBrackets, c :: rest =>
      if c = ':' ∧ inBrackets = false then ([], some rest)
      else
        let inside := if c = '[' then true else if c = ']' then false else inBrackets
        let found := splitPort inside rest
        (c :: found.1, found.2)

/-- The port of an origin; none if the text is no port. -/
def portOf (defaultPort : Option ℕ) (digits : List Char) : Option (Option ℕ) :=
  if ¬ digits.all Char.isDigit ∨ 65535 < decimalValue digits then none
  else if digits = [] ∨ defaultPort = some (decimalValue digits) then some none
  else some (some (decimalValue digits))

section Resolve

variable {Host : Type} (parseHost : Bool → List Char → Option Host)

/-- A host with a port behind credentials; special URLs need a host. -/
def authority (special : Bool) (defaultPort : Option ℕ) (whole : List Char) :
    Option (Host × Option ℕ) :=
  let found := splitPort false (whole.reverse.takeWhile (· ≠ '@')).reverse
  if found.1 = [] ∧ (special = true ∨ found.2 ≠ none ∨ '@' ∈ whole) then none
  else do
    let host ← parseHost special found.1
    let port ← found.2.elim (some none) (portOf defaultPort)
    return (host, port)

/-- Special authority ignore slashes state, and what follows. -/
def ignoreSlashes (scheme : Scheme) (text : List Char) : Resolved Host :=
  let whole := (text.dropWhile isSlash).takeWhile fun c => !(isSlash c || c = '?' || c = '#')
  match authority parseHost true (some scheme.defaultPort) whole with
  | some (host, port) => .origin ⟨scheme, host, port⟩
  | none => .failure

/-- Relative state and relative slash state. -/
def relative (base : Origin Host) (text : List Char) : Resolved Host :=
  match text with
  | c :: d :: rest =>
      if isSlash c && isSlash d then ignoreSlashes parseHost base.scheme rest else .origin base
  | _ => .origin base

/-- Special relative or authority state. -/
def relativeOrAuthority (base : Origin Host) (text : List Char) : Resolved Host :=
  match text with
  | '/' :: '/' :: rest => ignoreSlashes parseHost base.scheme rest
  | text => relative parseHost base text

/-- Special authority slashes state. -/
def authoritySlashes (scheme : Scheme) (text : List Char) : Resolved Host :=
  match text with
  | '/' :: '/' :: rest => ignoreSlashes parseHost scheme rest
  | text => ignoreSlashes parseHost scheme text

/-- The drive of a Windows path. -/
def isDrive (name : List Char) : Bool :=
  match name with
  | [c, d] => c.isAlpha && (d = ':' || d = '|')
  | _ => false

/-- File state to file host state. -/
def file (text : List Char) : Resolved Host :=
  match text with
  | c :: d :: rest =>
      let name := rest.takeWhile fun c => !(isSlash c || c = '?' || c = '#')
      if !(isSlash c && isSlash d) || name = [] || isDrive name || (parseHost true name).isSome then
        .null
      else .failure
  | _ => .null

/-- Path or authority state of a scheme that is not special, or its path. -/
def pathOrAuthority (text : List Char) : Resolved Host :=
  match text with
  | '/' :: '/' :: rest =>
      match authority parseHost false none
          (rest.takeWhile fun c => !(c = '/' || c = '?' || c = '#')) with
      | some _ => .null
      | none => .failure
  | _ => .null

/-- `new URL(input, base)`, up to its origin. -/
def resolve (base : Origin Host) (input : List Char) : Resolved Host :=
  match schemeOf (clean input) with
  | none => relative parseHost base (clean input)
  | some (name, rest) =>
      if name = "file".toList then file parseHost rest
      else
        match Scheme.ofText? name with
        | some scheme =>
            if scheme = base.scheme then relativeOrAuthority parseHost base rest
            else authoritySlashes parseHost scheme rest
        | none => pathOrAuthority parseHost rest

end Resolve

/-! ### The base's own origin -/

/-- What is left of a text behind the scheme of the base, or without a scheme. -/
def stem (scheme : Scheme) (input : List Char) : Option (List Char) :=
  match schemeOf (clean input) with
  | none => some (clean input)
  | some (name, rest) => if name = scheme.text then some rest else none

/-- Two slashes or backslashes, and the text behind them. -/
def afterSlashes : List Char → Option (List Char)
  | c :: d :: rest => if isSlash c && isSlash d then some rest else none
  | _ => none

/-- The text has no scheme but that of the base, and names no host but that of the base. -/
def Keeps {Host : Type} (parseHost : Bool → List Char → Option Host) (base : Origin Host)
    (input : List Char) : Prop :=
  ∃ text, stem base.scheme input = some text ∧
    ∀ rest, afterSlashes text = some rest →
      ignoreSlashes parseHost base.scheme rest = .origin base

section Keeps

variable {Host : Type} {parseHost : Bool → List Char → Option Host} {base : Origin Host}

theorem relative_eq (text : List Char) :
    relative parseHost base text =
      (afterSlashes text).elim (.origin base) (ignoreSlashes parseHost base.scheme) := by
  unfold relative afterSlashes
  split
  · split <;> rfl
  · rfl

theorem relativeOrAuthority_eq (text : List Char) :
    relativeOrAuthority parseHost base text = relative parseHost base text := by
  unfold relativeOrAuthority
  split
  · rfl
  · rfl

theorem relative_eq_origin_iff {text : List Char} :
    relative parseHost base text = .origin base ↔
      ∀ rest, afterSlashes text = some rest →
        ignoreSlashes parseHost base.scheme rest = .origin base := by
  rw [relative_eq]
  cases afterSlashes text with
  | none => exact iff_of_true rfl fun rest h => by cases h
  | some rest =>
    exact ⟨fun h rest' hrest => Option.some.inj hrest ▸ h, fun h => h rest rfl⟩

theorem ignoreSlashes_ne {scheme : Scheme} (h : scheme ≠ base.scheme) (text : List Char) :
    ignoreSlashes parseHost scheme text ≠ .origin base := by
  intro heq
  unfold ignoreSlashes at heq
  dsimp only at heq
  split at heq
  · exact h (congrArg Origin.scheme (Resolved.origin.inj heq))
  · cases heq

theorem authoritySlashes_ne {scheme : Scheme} (h : scheme ≠ base.scheme) (text : List Char) :
    authoritySlashes parseHost scheme text ≠ .origin base := by
  unfold authoritySlashes
  split <;> exact ignoreSlashes_ne h _

theorem file_ne (text : List Char) : file parseHost text ≠ .origin base := by
  unfold file
  intro heq
  split at heq
  · dsimp only at heq
    split at heq <;> cases heq
  · cases heq

theorem pathOrAuthority_ne (text : List Char) :
    pathOrAuthority parseHost text ≠ .origin base := by
  unfold pathOrAuthority
  intro heq
  split at heq
  · split at heq <;> cases heq
  · cases heq

/-- **Resolving** keeps the origin of the base exactly if the text has no scheme but the base's and
names no host but the base's. -/
theorem resolve_eq_origin_iff {input : List Char} :
    resolve parseHost base input = .origin base ↔ Keeps parseHost base input := by
  rw [resolve, Keeps, stem]
  cases hscheme : schemeOf (clean input) with
  | none => simp [relative_eq_origin_iff]
  | some found =>
    obtain ⟨name, rest⟩ := found
    dsimp only
    by_cases hname : name = base.scheme.text
    · have hfile : name ≠ "file".toList := by
        rw [hname]
        cases base.scheme <;> decide
      rw [if_neg hfile, if_pos hname, Scheme.ofText?_eq_some_iff.mpr hname]
      simp [relativeOrAuthority_eq, relative_eq_origin_iff]
    · rw [if_neg hname]
      refine iff_of_false (fun heq => ?_) fun ⟨text, htext, _⟩ => by cases htext
      split at heq
      · exact file_ne rest heq
      · split at heq
        · next scheme hscheme =>
            have hne : scheme ≠ base.scheme := fun h =>
              hname (h ▸ Scheme.ofText?_eq_some_iff.mp hscheme)
            rw [if_neg hne] at heq
            exact authoritySlashes_ne hne rest heq
        · exact pathOrAuthority_ne rest heq

end Keeps

end Lopata.Url

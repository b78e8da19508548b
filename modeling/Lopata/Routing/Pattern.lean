import Lopata.Lib.Path
import Lopata.Lib.Text

/-!
# Route Patterns

A route pattern names a path, or, with a `*` at its end, all paths that start with what is in
front of it. How specific a pattern is is read off its text: whether it has a `*`, how many
segments it has, whether a separator stands in front of the `*`, and how long it is.

## Main results

* `extractPathPattern_head`: the path part of a pattern starts with a separator.
* `matchRoute_wildcard`: a pattern with a `*` at its end matches the paths that start with its
  literal prefix, and `/*` every path.
* `segmentCount_wildcard`: its segments are those of the literal prefix.
-/

namespace Lopata.Routing

/-- A text, as a list of its characters. -/
abbrev Text := List Char

/-! ### The path part of a pattern -/

/-- `pattern.replace(/^https?:\/\//, '')`. -/
def stripProtocol (pattern : Text) : Text :=
  if "http://".toList <+: pattern then pattern.drop 7
  else if "https://".toList <+: pattern then pattern.drop 8
  else pattern

def extractPathPattern (pattern : Text) : Text :=
  let pattern := stripProtocol pattern
  let path :=
    if pattern.head? = some '/' then pattern
    else if '/' ∈ pattern then pattern.dropWhile (· ≠ '/')
    else "/*".toList
  (path.takeWhile (· ≠ '?')).takeWhile (· ≠ '#')

theorem extractPathPattern_head (pattern : Text) :
    (extractPathPattern pattern).head? = some '/' := by
  have hcut : ∀ path : Text, path.head? = some '/' →
      ((path.takeWhile (· ≠ '?')).takeWhile (· ≠ '#')).head? = some '/' := by
    intro path hpath
    obtain ⟨rest, rfl⟩ := List.head?_eq_some_iff.mp hpath
    rfl
  refine hcut _ ?_
  split
  · assumption
  · split
    · next hmem =>
        have hne : (stripProtocol pattern).dropWhile (· ≠ '/') ≠ [] := by
          intro hnil
          have hall := List.dropWhile_eq_nil_iff.mp hnil '/' hmem
          exact absurd hall (by decide)
        have hhead := List.head?_dropWhile_not (fun c : Char => decide (c ≠ '/'))
          (stripProtocol pattern)
        cases hcase : (stripProtocol pattern).dropWhile (· ≠ '/') with
        | nil => exact absurd hcase hne
        | cons c rest =>
          rw [hcase] at hhead
          simpa using hhead
    · rfl

/-! ### Matching -/

def matchRoute (pathname pattern : Text) : Bool :=
  if pattern = "/*".toList ∨ pattern = "*".toList then true
  else if "/*".toList <:+ pattern then pattern.dropLast.dropLast ++ ['/'] <+: pathname
  else if "*".toList <:+ pattern then pattern.dropLast <+: pathname
  else pathname = pattern

def matchHost (hostname pattern : Text) : Bool :=
  if pattern = hostname then true
  else if "*.".toList <+: pattern then
    pattern.drop 1 <:+ hostname && (pattern.drop 1).length < hostname.length
  else false

/-- Whether some host pattern has a wildcard. -/
def hasWildcardHost (patterns : Option (List Text)) : Bool :=
  match patterns with
  | none => false
  | some patterns => patterns.any ('*' ∈ ·)

/-- `pattern.replace(/\/?\*$/, '')`. -/
def stripWildcard (pattern : Text) : Text :=
  if "/*".toList <:+ pattern then pattern.dropLast.dropLast
  else if "*".toList <:+ pattern then pattern.dropLast
  else pattern

def segmentCount (pattern : Text) : ℕ :=
  let clean := stripWildcard pattern
  if clean = [] ∨ clean = ['/'] then 0 else (Path.segments clean).length

/-- `pattern.length`. -/
def length16 (pattern : Text) : ℕ := (encodeUtf16 pattern).length

/-! ### Patterns whose only wildcard is at their end -/

/-- A wildcard is at the end of the pattern. -/
def TrailingOnly (pattern : Text) : Prop := '*' ∉ pattern.dropLast

instance (pattern : Text) : Decidable (TrailingOnly pattern) :=
  inferInstanceAs (Decidable ('*' ∉ pattern.dropLast))

/-- What is in front of the wildcard. -/
def literalPrefix (pattern : Text) : Text :=
  if pattern.getLast? = some '*' then pattern.dropLast else pattern

theorem TrailingOnly.eq_of_mem {pattern : Text} (h : TrailingOnly pattern)
    (hwild : '*' ∈ pattern) : pattern = literalPrefix pattern ++ ['*'] := by
  have hne : pattern ≠ [] := List.ne_nil_of_mem hwild
  obtain ⟨before, last, rfl⟩ := (List.eq_nil_or_concat pattern).resolve_left hne
  rw [List.concat_eq_append] at h hwild ⊢
  have hlast : last = '*' := by
    rcases List.mem_append.mp hwild with hmem | hmem
    · rw [TrailingOnly, List.dropLast_concat] at h
      exact absurd hmem h
    · exact (List.mem_singleton.mp hmem).symm
  subst hlast
  rw [literalPrefix, if_pos List.getLast?_concat, List.dropLast_concat]

/-- A pattern ends with `/*` if a separator is in front of the wildcard. -/
theorem slashStar_suffix_iff {literal : Text} :
    "/*".toList <:+ literal ++ ['*'] ↔ literal.getLast? = some '/' := by
  constructor
  · rintro ⟨before, hbefore⟩
    have heq : before ++ ['/'] = literal := by
      have hconcat : (before ++ ['/']) ++ ['*'] = literal ++ ['*'] := by
        rw [← hbefore, List.append_assoc]
        rfl
      exact List.append_cancel_right hconcat
    rw [← heq, List.getLast?_concat]
  · intro hlast
    obtain ⟨before, rfl⟩ := List.getLast?_eq_some_iff.mp hlast
    exact ⟨before, by rw [List.append_assoc]; rfl⟩

theorem star_suffix (literal : Text) : "*".toList <:+ literal ++ ['*'] :=
  List.suffix_append literal _

/-- **A wildcard matches what starts with its literal prefix.** -/
theorem matchRoute_wildcard {literal pathname : Text} (hhead : literal.head? = some '/') :
    matchRoute pathname (literal ++ ['*']) = true ↔ literal = ['/'] ∨ literal <+: pathname := by
  obtain ⟨rest, rfl⟩ := List.head?_eq_some_iff.mp hhead
  unfold matchRoute
  have hall : ('/' :: rest) ++ ['*'] = "/*".toList ∨ ('/' :: rest) ++ ['*'] = "*".toList ↔
      '/' :: rest = ['/'] := by
    constructor
    · rintro (h | h)
      · exact (List.append_left_inj ['*']).mp h
      · cases h
    · exact fun h => .inl (by rw [h]; rfl)
  split
  · next h => exact ⟨fun _ => .inl (hall.mp h), fun _ => rfl⟩
  · next h =>
      have hne : ¬ '/' :: rest = ['/'] := fun heq => h (hall.mpr heq)
      have hiff : ('/' :: rest = ['/'] ∨ '/' :: rest <+: pathname) ↔
          '/' :: rest <+: pathname := or_iff_right hne
      rw [hiff]
      split
      · next hslash =>
          have hlast := slashStar_suffix_iff.mp hslash
          rw [List.dropLast_concat, List.dropLast_append_getLast? '/' hlast, decide_eq_true_iff]
      · rw [if_pos (star_suffix _), List.dropLast_concat, decide_eq_true_iff]

/-- A pattern without wildcards matches itself. -/
theorem matchRoute_exact {pattern pathname : Text} (h : '*' ∉ pattern) :
    matchRoute pathname pattern = true ↔ pathname = pattern := by
  have hsuffix : ∀ text : Text, '*' ∈ text → ¬ text <:+ pattern := fun text hmem hsub =>
    h (hsub.mem hmem)
  have hne : ∀ text : Text, '*' ∈ text → pattern ≠ text := fun text hmem heq => h (heq ▸ hmem)
  unfold matchRoute
  rw [if_neg, if_neg (hsuffix _ (by decide)), if_neg (hsuffix _ (by decide)), decide_eq_true_iff]
  rw [not_or]
  exact ⟨hne _ (by decide), hne _ (by decide)⟩

/-- **The segments of a wildcard are those of its literal prefix.** -/
theorem segmentCount_wildcard (literal : Text) :
    segmentCount (literal ++ ['*']) = (Path.segments literal).length := by
  have hcount : ∀ text : Text,
      (if text = [] ∨ text = ['/'] then 0 else (Path.segments text).length) =
        (Path.segments text).length := by
    intro text
    split
    · next h =>
        rcases h with rfl | rfl <;> rfl
    · rfl
  rw [segmentCount, hcount, stripWildcard]
  split
  · next hslash =>
      obtain ⟨before, rfl⟩ := List.getLast?_eq_some_iff.mp (slashStar_suffix_iff.mp hslash)
      rw [List.dropLast_concat, List.dropLast_concat, Path.segments_append_separator,
        Path.segments_nil, List.append_nil]
  · rw [if_pos (star_suffix _), List.dropLast_concat]

theorem length16_lt_of_prefixed {pattern longer : Text} (h : pattern <+: longer)
    (hne : pattern ≠ longer) : length16 pattern < length16 longer := by
  obtain ⟨rest, rfl⟩ := h
  have hrest : rest ≠ [] := by
    rintro rfl
    exact hne (List.append_nil _).symm
  obtain ⟨c, rest, rfl⟩ := List.exists_cons_of_ne_nil hrest
  have hunits : 0 < (charUnits c).length := by
    unfold charUnits
    split <;> simp
  simp only [length16, encodeUtf16, List.flatMap_append, List.flatMap_cons, List.length_append]
  omega

end Lopata.Routing

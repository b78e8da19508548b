import Mathlib.Data.Char
import Mathlib.Data.List.Lex
import Mathlib.Data.List.Dedup
import Lopata.Lib.Like
import Lopata.Lib.Paging
import Lopata.R2.Bucket

/-!
# Listing a Bucket

`list` asks the database for the rows whose key is `LIKE` the prefix, in the order of the keys,
from an offset on; the cursor it returns is the offset of the next page. Between two pages
objects may be put and deleted, so each page is asked of a table of its own.

## Main results

* `mem_keysOf`: keys with the prefix are among the rows.
* `completes_iff`, `traverse_eq`: a traversal is a reading by offset of the matching keys.
* `listed_once`: a traversal ends exactly when the offset catches up with the rows, and reports
  what is there throughout exactly once if and only if the mutations move no such object across
  the cursor on balance and no two pages share a common prefix.
* `not_listed_once`: a `delete` between two pages makes the next page skip an object.
-/

namespace Lopata.R2

/-- `R2ListOptions`; a missing delimiter is an empty one, a missing cursor the offset 0. -/
structure ListOptions where
  keyPrefix : Text := []
  limit : ℕ := 1000
  /-- The offset whose decimal text the cursor is. -/
  cursor : ℕ := 0
  delimiter : Text := []
  /-- The metadata asked for, HTTP and custom; all without the option. -/
  includes : Option (Bool × Bool) := none

structure ListResult where
  objects : List (Key × Row)
  truncated : Bool
  /-- The offset whose decimal text the cursor is; the text is empty on the last page. -/
  cursor : Option ℕ
  delimitedPrefixes : List Text

/-! ### The query -/

/-- The rows of a bucket whose keys are `LIKE` the prefix, in the order of the keys. -/
def matching (objects : Table (Bucket × Key) Row) (b : Bucket) (keyPrefix : Text) :
    List (Key × Row) :=
  ((objects.rows.filter fun r => r.1.1 = b && likeBare (keyPrefix ++ ['%']) r.1.2).map
    fun r => (r.1.2, r.2)).insertionSort fun p q => p.1 ≤ q.1

/-! ### Grouping -/

/-- `indexOf`. -/
def indexOf (needle : Text) : Text → Option ℕ
  | [] => if needle = [] then some 0 else none
  | c :: text =>
      if needle <+: c :: text then some 0 else (indexOf needle text).map fun i => i + 1

/-- The common prefix a key is reported through. -/
def group (o : ListOptions) (key : Key) : Option Text :=
  if o.delimiter = [] then none
  else
    (indexOf o.delimiter (key.drop o.keyPrefix.length)).map fun i =>
      o.keyPrefix ++ (key.drop o.keyPrefix.length).take (i + o.delimiter.length)

/-- The code units of a character in UTF-16. -/
def utf16 (c : Char) : List ℕ :=
  if c.toNat < 0x10000 then [c.toNat]
  else [0xD800 + (c.toNat - 0x10000) / 0x400, 0xDC00 + (c.toNat - 0x10000) % 0x400]

/-- The common prefixes of some keys, in the order of `sort`. -/
def commonPrefixes (o : ListOptions) (keys : List Key) : List Text :=
  (keys.filterMap (group o)).dedup.insertionSort fun p q => p.flatMap utf16 ≤ q.flatMap utf16

/-- `buildListObject`. -/
def buildListObject (includes : Option (Bool × Bool)) (object : Key × Row) : Key × Row :=
  match includes with
  | none => object
  | some (http, custom) =>
      (object.1,
        { object.2 with
          httpMetadata := if http then object.2.httpMetadata else none
          customMetadata := if custom then object.2.customMetadata else none })

/-- `list`. -/
def list (objects : Table (Bucket × Key) Row) (b : Bucket) (o : ListOptions) : ListResult :=
  let rows := ((matching objects b o.keyPrefix).drop o.cursor).take (o.limit + 1)
  let shown := rows.take o.limit
  let truncated := decide (o.limit < rows.length)
  { objects := (shown.filter fun r => group o r.1 = none).map (buildListObject o.includes)
    truncated
    cursor := if truncated then some (o.cursor + o.limit) else none
    delimitedPrefixes := commonPrefixes o (shown.map Prod.fst) }

/-! ### Traversals -/

/-- The page after a page. -/
def ListOptions.next (o : ListOptions) (page : ListResult) : ListOptions :=
  { o with cursor := page.cursor.getD 0 }

/-- The pages of a traversal, each asked of the table of its time, until one is not truncated. -/
def traverse (b : Bucket) (o : ListOptions) : List (Table (Bucket × Key) Row) → List ListResult
  | [] => []
  | t :: ts =>
      list t b o :: if (list t b o).truncated then traverse b (o.next (list t b o)) ts else []

/-- The traversal ends with the page asked of the last of the tables. -/
def Completes (b : Bucket) : ListOptions → List (Table (Bucket × Key) Row) → Prop
  | _, [] => False
  | o, t :: ts =>
      if (list t b o).truncated = true then Completes b (o.next (list t b o)) ts
      else ts.length = 0

instance Completes.decidable (b : Bucket) :
    (o : ListOptions) → (ts : List (Table (Bucket × Key) Row)) → Decidable (Completes b o ts)
  | _, [] => inferInstanceAs (Decidable False)
  | o, t :: ts =>
      have := Completes.decidable b (o.next (list t b o)) ts
      inferInstanceAs (Decidable (if (list t b o).truncated = true then
        Completes b (o.next (list t b o)) ts else ts.length = 0))

/-- The matching keys. -/
def keysOf (b : Bucket) (o : ListOptions) (t : Table (Bucket × Key) Row) : List Key :=
  (matching t b o.keyPrefix).map Prod.fst

/-- How often a key is reported as an object. -/
def objectReports (pages : List ListResult) (key : Key) : ℕ :=
  ((pages.map fun page => page.objects.map Prod.fst).flatten).count key

/-- How often a common prefix is reported. -/
def prefixReports (pages : List ListResult) (p : Text) : ℕ :=
  ((pages.map ListResult.delimitedPrefixes).flatten).count p

/-- The key is reported once: as an object, or through its common prefix. -/
def ReportedOnce (o : ListOptions) (pages : List ListResult) (key : Key) : Prop :=
  (group o key).elim (objectReports pages key = 1)
    fun p => objectReports pages key = 0 ∧ prefixReports pages p = 1

/-- An object with the prefix that is there at every page. -/
def Lasting (b : Bucket) (o : ListOptions) (ts : List (Table (Bucket × Key) Row)) (key : Key) :
    Prop :=
  o.keyPrefix <+: key ∧ ∀ t ∈ ts, (t.get? (b, key)).isSome

instance (b : Bucket) (o : ListOptions) (ts : List (Table (Bucket × Key) Row)) (key : Key) :
    Decidable (Lasting b o ts key) :=
  inferInstanceAs (Decidable (_ ∧ ∀ t ∈ ts, (t.get? (b, key)).isSome))

/-! ### What pages by offset need -/

/-- Between the pages puts and deletes move the object across the cursor as often one way as the
other. -/
def Steady (b : Bucket) (o : ListOptions) (ts : List (Table (Bucket × Key) Row)) (key : Key) :
    Prop :=
  crossings false o.limit key o.cursor (ts.map (keysOf b o)) =
    crossings true o.limit key o.cursor (ts.map (keysOf b o))

instance (b : Bucket) (o : ListOptions) (ts : List (Table (Bucket × Key) Row)) (key : Key) :
    Decidable (Steady b o ts key) :=
  inferInstanceAs (Decidable (_ = _))

/-- At some page a matching key under the common prefix has its position among the `limit` ones
from the cursor on. -/
def Covered (b : Bucket) (o : ListOptions) (ts : List (Table (Bucket × Key) Row)) (p : Text) :
    Prop :=
  ∃ w ∈ windows o.limit o.cursor (ts.map (keysOf b o)), ∃ key ∈ w, group o key = some p

instance (b : Bucket) (o : ListOptions) (ts : List (Table (Bucket × Key) Row)) (p : Text) :
    Decidable (Covered b o ts p) :=
  inferInstanceAs (Decidable (∃ w ∈ windows o.limit o.cursor (ts.map (keysOf b o)), _))

/-- At no two pages keys under one common prefix have their positions among the `limit` ones from
the cursor on. -/
def Unsplit (b : Bucket) (o : ListOptions) (ts : List (Table (Bucket × Key) Row)) : Prop :=
  Ungrouped (group o) (windows o.limit o.cursor (ts.map (keysOf b o)))

instance (b : Bucket) (o : ListOptions) (ts : List (Table (Bucket × Key) Row)) :
    Decidable (Unsplit b o ts) :=
  inferInstanceAs (Decidable (Ungrouped _ _))

section Query

variable {b : Bucket} {o : ListOptions} {t : Table (Bucket × Key) Row} {key : Key}

/-- The matching keys, each once. -/
theorem nodup_keysOf (b : Bucket) (o : ListOptions) (t : Table (Bucket × Key) Row) :
    (keysOf b o t).Nodup := by
  have hperm : (keysOf b o t).Perm ((t.rows.filter fun r =>
      r.1.1 = b && likeBare (o.keyPrefix ++ ['%']) r.1.2).map fun r => r.1.2) := by
    have hsort := (List.perm_insertionSort (fun p q : Key × Row => p.1 ≤ q.1)
      ((t.rows.filter fun r => r.1.1 = b && likeBare (o.keyPrefix ++ ['%']) r.1.2).map
        fun r => (r.1.2, r.2))).map Prod.fst
    rwa [List.map_map] at hsort
  rw [hperm.nodup_iff]
  have hrows : ((t.rows.filter fun r =>
      r.1.1 = b && likeBare (o.keyPrefix ++ ['%']) r.1.2).map Prod.fst).Nodup :=
    (List.filter_sublist.map Prod.fst).nodup t.nodup
  rw [List.nodup_map_iff_inj_on (List.Nodup.of_map _ hrows)]
  intro x hx y hy heq
  have hbx := (List.mem_filter.mp hx).2
  have hby := (List.mem_filter.mp hy).2
  simp only [Bool.and_eq_true, decide_eq_true_eq] at hbx hby
  have hkey : x.1 = y.1 := Prod.ext (hbx.1.trans hby.1.symm) heq
  exact List.inj_on_of_nodup_map hrows hx hy hkey

theorem mem_keysOf (h : (t.get? (b, key)).isSome) (hstarts : o.keyPrefix <+: key) :
    key ∈ keysOf b o t := by
  obtain ⟨row, hrow⟩ := Option.isSome_iff_exists.mp h
  refine List.mem_map.mpr ⟨(key, row), ?_, rfl⟩
  rw [matching, List.mem_insertionSort]
  refine List.mem_map.mpr ⟨((b, key), row), List.mem_filter.mpr ⟨Table.mem_of_get? hrow, ?_⟩, rfl⟩
  simp [likeBare_of_starts hstarts]

end Query

/-! ### A traversal reads by offset -/

section Traversal

variable {b : Bucket} {o : ListOptions} {t : Table (Bucket × Key) Row}
  {ts : List (Table (Bucket × Key) Row)} {key : Key}

/-- The rows a page shows. -/
theorem take_fetched (l : List (Key × Row)) (c m : ℕ) :
    (((l.drop c).take (m + 1)).take m).map Prod.fst = window m c (l.map Prod.fst) := by
  rw [List.take_take, Nat.min_eq_left (Nat.le_succ m), window, List.map_take, List.map_drop]

theorem truncated_iff :
    (list t b o).truncated = true ↔ o.cursor + o.limit < (keysOf b o t).length := by
  simp only [list, keysOf, decide_eq_true_eq, List.length_take, List.length_drop, List.length_map]
  omega

theorem next_eq (h : (list t b o).truncated = true) :
    o.next (list t b o) = { o with cursor := o.cursor + o.limit } := by
  have hcursor : (list t b o).cursor = some (o.cursor + o.limit) := if_pos h
  rw [ListOptions.next, hcursor]
  rfl

theorem keysOf_next (c : ℕ) : keysOf b { o with cursor := c } = keysOf b o := rfl

/-- **A traversal ends** where the reading of the matching keys ends. -/
theorem completes_iff :
    Completes b o ts ↔ Ends o.limit o.cursor (ts.map (keysOf b o)) := by
  induction ts generalizing o with
  | nil => exact Iff.rfl
  | cons t ts ih =>
    rw [Completes, List.map_cons, Ends]
    by_cases htruncated : (list t b o).truncated = true
    · have hlen := truncated_iff.mp htruncated
      rw [if_pos htruncated, if_neg (by omega), next_eq htruncated, ih]
      rfl
    · have hlen := mt truncated_iff.mpr htruncated
      rw [if_neg htruncated, if_pos (by omega), List.length_eq_zero_iff, List.map_eq_nil_iff]

theorem map_fst_buildListObject (includes : Option (Bool × Bool)) (l : List (Key × Row)) :
    (l.map (buildListObject includes)).map Prod.fst = l.map Prod.fst := by
  rw [List.map_map]
  refine List.map_congr_left fun r _ => ?_
  simp only [Function.comp, buildListObject]
  split <;> rfl

/-- A page reports the keys of its window, grouped. -/
theorem list_eq : (list t b o).objects.map Prod.fst =
      (window o.limit o.cursor (keysOf b o t)).filter (fun k => group o k = none) ∧
    (list t b o).delimitedPrefixes =
      commonPrefixes o (window o.limit o.cursor (keysOf b o t)) := by
  have hshown := take_fetched (matching t b o.keyPrefix) o.cursor o.limit
  constructor
  · rw [list, map_fst_buildListObject, keysOf, ← hshown, List.filter_map]
    rfl
  · rw [list, keysOf, ← hshown]

/-- **The pages of a traversal that ends** are the windows of the matching keys. -/
theorem traverse_eq (h : Completes b o ts) :
    (traverse b o ts).map (fun page => page.objects.map Prod.fst) =
        (windows o.limit o.cursor (ts.map (keysOf b o))).map
          (fun w => w.filter fun k => group o k = none) ∧
      (traverse b o ts).map ListResult.delimitedPrefixes =
        (windows o.limit o.cursor (ts.map (keysOf b o))).map (commonPrefixes o) := by
  induction ts generalizing o with
  | nil => exact h.elim
  | cons t ts ih =>
    obtain ⟨hobjects, hprefixes⟩ := list_eq (b := b) (o := o) (t := t)
    rw [Completes] at h
    rw [traverse, List.map_cons, List.map_cons, List.map_cons, windows, List.map_cons,
      List.map_cons, hobjects, hprefixes]
    split at h
    · next htruncated =>
        obtain ⟨hrest, hrest'⟩ := ih h
        rw [next_eq htruncated] at hrest hrest'
        rw [if_pos htruncated, next_eq htruncated, hrest, hrest']
        exact ⟨rfl, rfl⟩
    · next hlast =>
        obtain rfl := List.length_eq_zero_iff.mp h
        rw [if_neg hlast]
        exact ⟨rfl, rfl⟩

theorem count_commonPrefixes (o : ListOptions) (keys : List Key) (p : Text) :
    (commonPrefixes o keys).count p = if keys.any (fun k => group o k = some p) then 1 else 0 := by
  rw [commonPrefixes, (List.perm_insertionSort _ _).count_eq]
  have hmem : p ∈ (keys.filterMap (group o)).dedup ↔
      keys.any (fun k => group o k = some p) = true := by
    simp
  by_cases hp : keys.any (fun k => group o k = some p) = true
  · rw [if_pos hp, List.count_eq_one_of_mem (List.nodup_dedup _) (hmem.mpr hp)]
  · rw [if_neg hp, List.count_eq_zero_of_not_mem (mt hmem.mp hp)]

/-- Objects are reported as often as they are read. -/
theorem objectReports_windows {o : ListOptions} {key : Key} {pages : List ListResult}
    {ws : List (List Key)} (h : pages.map (fun page => page.objects.map Prod.fst) =
      ws.map fun w => w.filter fun k => group o k = none) :
    objectReports pages key = if group o key = none then ws.flatten.count key else 0 := by
  rw [objectReports, h, ← List.filter_flatten]
  split
  · next hgroup => exact List.count_filter (by simpa using hgroup)
  · next hgroup =>
      refine List.count_eq_zero_of_not_mem fun hmem => hgroup ?_
      simpa using (List.mem_filter.mp hmem).2

/-- Common prefixes are reported once by each page that reads a key under them. -/
theorem prefixReports_windows {o : ListOptions} {pages : List ListResult} {ws : List (List Key)}
    (h : pages.map ListResult.delimitedPrefixes = ws.map (commonPrefixes o)) (p : Text) :
    prefixReports pages p = pagesOf (group o) p ws := by
  rw [prefixReports, h]
  clear h
  induction ws with
  | nil => rfl
  | cons w ws ih =>
    rw [List.map_cons, List.flatten_cons, List.count_append, ih, count_commonPrefixes,
      pagesOf_cons, Nat.add_comm]
    simp only [List.any_eq_true, decide_eq_true_eq]

theorem objectReports_eq (h : Completes b o ts) :
    objectReports (traverse b o ts) key =
      if group o key = none then
        ((windows o.limit o.cursor (ts.map (keysOf b o))).flatten).count key
      else 0 :=
  objectReports_windows (traverse_eq h).1

theorem prefixReports_eq (h : Completes b o ts) (p : Text) :
    prefixReports (traverse b o ts) p =
      pagesOf (group o) p (windows o.limit o.cursor (ts.map (keysOf b o))) :=
  prefixReports_windows (traverse_eq h).2 p

/-- **A key is reported once** if it keeps its side of the cursor, or if its common prefix is
covered. -/
theorem reportedOnce_iff (h : Completes b o ts) (hcursor : o.cursor = 0)
    (hunsplit : Unsplit b o ts) (hlasting : Lasting b o ts key) :
    ReportedOnce o (traverse b o ts) key ↔
      (group o key).elim (Steady b o ts key) (Covered b o ts) := by
  have hreads := completes_iff.mp h
  have hnd : ∀ l ∈ ts.map (keysOf b o), l.Nodup := by
    intro l hl
    obtain ⟨t, -, rfl⟩ := List.mem_map.mp hl
    exact nodup_keysOf b o t
  have hmem : ∀ l ∈ ts.map (keysOf b o), key ∈ l := by
    intro l hl
    obtain ⟨t, ht, rfl⟩ := List.mem_map.mp hl
    exact mem_keysOf (hlasting.2 t ht) hlasting.1
  rw [ReportedOnce, objectReports_eq h]
  cases hgroup : group o key with
  | none =>
    rw [hcursor] at hreads
    rw [if_pos rfl, Option.elim, Option.elim, Steady, hcursor]
    exact count_windows hnd hmem hreads
  | some p =>
    have hle := ungrouped_iff.mp hunsplit p
    rw [if_neg (by simp), Option.elim, Option.elim, prefixReports_eq h, Covered,
      ← pagesOf_pos_iff]
    constructor
    · rintro ⟨-, hone⟩
      omega
    · intro hpos
      exact ⟨rfl, by omega⟩

end Traversal

/-! ### The results -/

/-- The tables of the first pages. -/
def tables (f : ℕ → Table (Bucket × Key) Row) (n : ℕ) : List (Table (Bucket × Key) Row) :=
  (List.range (n + 1)).map f

/-- **Pagination.** Take any tables for the successive pages. The traversal ends exactly if at
some page the matching rows are no more than all pages so far hold. A traversal that ends reports
each common prefix once at most and each object with the prefix that is there at every page
exactly once, if and only if no common prefix is split between two pages, puts and deletes move no
such object across the cursor on balance, and the common prefixes of these objects are covered. -/
theorem listed_once (b : Bucket) (o : ListOptions) (hcursor : o.cursor = 0)
    (f : ℕ → Table (Bucket × Key) Row) :
    ((∃ n, Completes b o (tables f n)) ↔
        ∃ i, (matching (f i) b o.keyPrefix).length ≤ (i + 1) * o.limit) ∧
      ∀ n, Completes b o (tables f n) →
        (((∀ p, prefixReports (traverse b o (tables f n)) p ≤ 1) ∧
            ∀ key, Lasting b o (tables f n) key →
              ReportedOnce o (traverse b o (tables f n)) key) ↔
          Unsplit b o (tables f n) ∧ ∀ key, Lasting b o (tables f n) key →
            (group o key).elim (Steady b o (tables f n) key) (Covered b o (tables f n))) := by
  constructor
  · have hiff := ends_iff (m := o.limit) (c := 0) (f := fun i => keysOf b o (f i))
    have hkeys : ∀ n, (tables f n).map (keysOf b o) = snapshots (fun i => keysOf b o (f i)) n := by
      intro n
      rw [tables, List.map_map]
      rfl
    simp only [completes_iff, hcursor, hkeys]
    rw [hiff]
    simp only [keysOf, List.length_map, Nat.zero_add]
  · intro n hends
    have hsplit : (∀ p, prefixReports (traverse b o (tables f n)) p ≤ 1) ↔
        Unsplit b o (tables f n) := by
      simp only [prefixReports_eq hends]
      exact ungrouped_iff.symm
    rw [hsplit]
    exact and_congr_right fun hunsplit => forall_congr' fun key => imp_congr_right fun hlasting =>
      reportedOnce_iff hends hcursor hunsplit hlasting

/-- A row without metadata. -/
def plainRow : Row :=
  ⟨0, [], [], 0, none, none, none⟩

/-- A table with some keys of the bucket `b`. -/
def tableOf (keys : List Key) : Table (Bucket × Key) Row :=
  keys.foldl (fun t key => t.insert ("b".toList, key) plainRow) .empty

/-- Pages of three keys, grouped. -/
def byThree : ListOptions where
  limit := 3
  delimiter := "/".toList

/-- Objects `a`, `b/1` and `b/2`, from the second page on `c` as well. -/
def growing (i : ℕ) : Table (Bucket × Key) Row :=
  if i = 0 then tableOf ["b/2".toList, "a".toList, "b/1".toList, "d".toList]
  else tableOf ["b/2".toList, "a".toList, "b/1".toList, "d".toList, "c".toList]

theorem listed_once_growing :
    (∃ n, Completes "b".toList byThree (tables growing n)) ∧
      (((∀ p, prefixReports (traverse "b".toList byThree (tables growing 1)) p ≤ 1) ∧
          ∀ key, Lasting "b".toList byThree (tables growing 1) key →
            ReportedOnce byThree (traverse "b".toList byThree (tables growing 1)) key) ↔
        Unsplit "b".toList byThree (tables growing 1) ∧
          ∀ key, Lasting "b".toList byThree (tables growing 1) key →
            (group byThree key).elim (Steady "b".toList byThree (tables growing 1) key)
              (Covered "b".toList byThree (tables growing 1))) :=
  ⟨(listed_once "b".toList byThree rfl growing).1.mpr ⟨1, by decide⟩,
    (listed_once "b".toList byThree rfl growing).2 1 (by decide)⟩

/-- The object `a` is deleted after the first page. -/
def shrinking (i : ℕ) : Table (Bucket × Key) Row :=
  if i = 0 then tableOf ["a".toList, "b".toList, "c".toList]
  else tableOf ["b".toList, "c".toList]

/-- With pages of one key `b` is never reported. -/
theorem not_listed_once :
    ¬ ∀ n, Completes "b".toList { limit := 1 } (tables shrinking n) → ∀ key,
      (∀ t ∈ tables shrinking n, (t.get? ("b".toList, key)).isSome) →
        ReportedOnce { limit := 1 } (traverse "b".toList { limit := 1 } (tables shrinking n))
          key := by
  intro hall
  have honce := hall 1 (by decide) "b".toList (by decide)
  have hnever : objectReports (traverse "b".toList { limit := 1 } (tables shrinking 1))
      "b".toList = 0 := by
    decide
  cases hnever.symm.trans honce

end Lopata.R2

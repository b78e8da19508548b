import Mathlib.Algebra.Order.Ring.Rat
import Lopata.Lib.Resuming
import Lopata.Lib.Text

/-!
# Listing the Repositories of a Namespace

`ArtifactsBinding.list` gives a page of the repositories in the order of their creation, with the
creation time of the repository behind the page as the cursor of the next one. A reader follows
the cursors while repositories are created and deleted.

## Main results

* `traverse_eq`: the pages are pages by creation time, of which the next one begins at the time of
  the repository behind.
* `traversed_iff`: a reader who follows the cursors comes to an end and sees each repository once,
  exactly if no page ends between two repositories of one creation time.
-/

namespace Lopata.Artifacts

abbrev Text := List Char

structure RepoRow where
  id : Text
  /-- `namespace`. -/
  space : Text
  name : Text
  description : Option Text
  defaultBranch : Text
  readOnly : Bool
  forkedFrom : Option Text
  /-- In milliseconds. -/
  createdAt : ℕ
  deriving DecidableEq, Repr

structure ListReposOpts where
  limit : Option ℚ
  cursor : Option Text

structure RepoInfo where
  id : Text
  name : Text
  remote : Text
  defaultBranch : Text
  description : Option Text
  deriving DecidableEq, Repr

structure RepoListResult where
  repos : List RepoInfo
  cursor : Option Text
  deriving DecidableEq, Repr

/-- A binding, and what it is built on. -/
structure ArtifactsBinding where
  /-- `namespace`. -/
  space : Text
  remoteBase : Text
  /-- `new URL(text).toString()`. -/
  url : Text → Text
  /-- `ORDER BY created_at ASC` of SQLite, which says nothing about rows of one time. -/
  orderByCreatedAt : Sorter RepoRow.createdAt

/-- `LIMIT` takes integers only. -/
def sqlLimit (x : ℚ) : Option ℕ :=
  if x.den = 1 then some x.num.toNat else none

/-- The number of repositories of a page. -/
def pageLimit (limit : Option ℚ) : ℚ := min (max (limit.getD 100) 1) 1000

/-- The time that a page begins at; none is `NaN`. -/
def startTime : Option Text → Option ℤ
  | none | some [] => some 0
  | some cursor => parseDecimal cursor

namespace ArtifactsBinding

variable (b : ArtifactsBinding)

def buildRemote (id : Text) : Text :=
  b.url (b.remoteBase ++ '/' :: id ++ ".git".toList)

/-- The rows of the namespace from a time on. -/
def rowsFrom (table : List RepoRow) (time : Option ℤ) : List RepoRow :=
  table.filter fun row => row.space = b.space && time.any fun t => t ≤ (row.createdAt : ℤ)

def toInfo (row : RepoRow) : RepoInfo where
  id := row.id
  name := row.name
  remote := b.buildRemote row.id
  defaultBranch := row.defaultBranch
  description := row.description

/-- `list`; none if SQLite raises. -/
def list (table : List RepoRow) (opts : ListReposOpts) : Option RepoListResult := do
  let limit := pageLimit opts.limit
  let count ← sqlLimit (limit + 1)
  let rows := (b.orderByCreatedAt.sort (b.rowsFrom table (startTime opts.cursor))).take count
  let more := limit < rows.length
  let page := if more then rows.take limit.num.toNat else rows
  let nextCursor := if more then rows[limit.num.toNat]?.map fun row => decimal row.createdAt
    else none
  return { repos := page.map b.toInfo, cursor := nextCursor }

/-- What a reader gets who follows the cursors, with a table for each page; none if a call raises,
or the last page is not that of the last table. -/
def traverse (limit : Option ℚ) : Option Text → List (List RepoRow) → Option (List RepoListResult)
  | _, [] => none
  | cursor, table :: tables => do
      let result ← b.list table { limit, cursor }
      match result.cursor with
      | none => if tables.isEmpty then return [result] else none
      | some next => return result :: (← traverse limit (some next) tables)

/-- The reader comes to an end, and sees each repository once that is there for all pages. -/
structure Traversed (limit : Option ℚ) (tables : ℕ → List RepoRow) : Prop where
  ends : ∃ n, (b.traverse limit none (snapshots tables n)).isSome = true
  once : ∀ n results, b.traverse limit none (snapshots tables n) = some results →
    ∀ row, row.space = b.space → (∀ i ≤ n, row ∈ tables i) →
      ((results.flatMap RepoListResult.repos).map RepoInfo.id).count row.id = 1

/-- The creation times from a time on, in order. -/
def createdAts (table : List RepoRow) (time : Option ℤ) : List ℕ :=
  ((b.rowsFrom table time).map RepoRow.createdAt).insertionSort (· ≤ ·)

/-- The page ends between two repositories of one time. -/
def Divides (limit : ℕ) (table : List RepoRow) (time : Option ℤ) : Prop :=
  ∃ t, (b.createdAts table time)[limit - 1]? = some t ∧ (b.createdAts table time)[limit]? = some t

/-- No page that the reader gets ends between two repositories of one time. -/
def NeverDivides (limit : ℕ) : Option ℤ → List (List RepoRow) → Prop
  | _, [] => True
  | time, table :: tables =>
      ¬ b.Divides limit table time ∧
        ∀ t, (b.createdAts table time)[limit]? = some t →
          NeverDivides limit (some (t : ℤ)) tables

end ArtifactsBinding

/-! ### A page is a page by creation time -/

section Pages

variable {b : ArtifactsBinding} {limit : Option ℚ} {table : List RepoRow} {n : ℕ}

/-- The rows of the namespace. -/
def inSpace (b : ArtifactsBinding) (table : List RepoRow) : List RepoRow :=
  table.filter fun row => row.space = b.space

theorem rowsFrom_eq (time : ℕ) :
    b.rowsFrom table (some (time : ℤ)) =
      (inSpace b table).filter fun row => time ≤ row.createdAt := by
  rw [ArtifactsBinding.rowsFrom, inSpace, List.filter_filter]
  refine List.filter_congr fun row _ => ?_
  rw [Option.any_some, decide_eq_decide.mpr Nat.cast_le, Bool.and_comm]

/-- The clamped limit, if it is a whole number. -/
theorem exists_pageLimit (h : (pageLimit limit).den = 1) :
    ∃ n : ℕ, 1 ≤ n ∧ pageLimit limit = n := by
  have hone : (1 : ℚ) ≤ pageLimit limit := le_min (le_max_right _ _) (by norm_num)
  have hnum : ((pageLimit limit).num : ℚ) = pageLimit limit := Rat.den_eq_one_iff _ |>.mp h
  have hpos : 1 ≤ (pageLimit limit).num := by
    rw [← hnum] at hone
    exact_mod_cast hone
  refine ⟨(pageLimit limit).num.toNat, by omega, ?_⟩
  rw [← hnum]
  exact_mod_cast (Int.toNat_of_nonneg (by omega)).symm

theorem startTime_decimal (time : ℕ) : startTime (some (decimal time)) = some (time : ℤ) := by
  obtain ⟨c, cs, hcons⟩ := List.exists_cons_of_ne_nil (decimal_ne_nil (time : ℤ))
  rw [hcons, startTime, ← hcons, parseDecimal_decimal]
  exact List.cons_ne_nil c cs

theorem list_eq {cursor : Option Text} {time : ℕ} (hlimit : pageLimit limit = n)
    (hcursor : startTime cursor = some (time : ℤ)) :
    b.list table { limit, cursor } =
      some
        { repos := (b.orderByCreatedAt.page n time (inSpace b table)).map b.toInfo
          cursor := (b.orderByCreatedAt.next n time (inSpace b table)).map
            fun t : ℕ => decimal t } := by
  have hcount : sqlLimit ((n : ℚ) + 1) = some (n + 1) := by
    have hcast : (n : ℚ) + 1 = ((n + 1 : ℕ) : ℚ) := by push_cast; rfl
    rw [sqlLimit, hcast, Rat.den_natCast, if_pos rfl, Rat.num_natCast, Int.toNat_natCast]
  have hrows : b.orderByCreatedAt.sort (b.rowsFrom table (some (time : ℤ))) =
      b.orderByCreatedAt.onward time (inSpace b table) := by
    rw [rowsFrom_eq, Sorter.onward]
  simp only [ArtifactsBinding.list, hlimit, hcount, hcursor, hrows, Option.bind_eq_bind,
    Option.bind_some, Rat.num_natCast, Int.toNat_natCast, Nat.cast_lt]
  rw [Sorter.page, Sorter.next]
  generalize b.orderByCreatedAt.onward time (inSpace b table) = rows
  by_cases hmore : n < rows.length
  · have hlen : n < (rows.take (n + 1)).length := by rw [List.length_take]; omega
    have hnext : (rows.take (n + 1))[n]? = rows[n]? := List.getElem?_take_of_succ
    rw [if_pos hlen, if_pos hlen, List.take_take, Nat.min_eq_left (Nat.le_succ n), hnext,
      Option.map_map]
    rfl
  · have hall : rows.take (n + 1) = rows := List.take_of_length_le (by omega)
    rw [hall, if_neg hmore, if_neg hmore, List.take_of_length_le (by omega),
      List.getElem?_eq_none (by omega)]
    rfl

theorem list_eq_none {cursor : Option Text} (hlimit : (pageLimit limit).den ≠ 1) :
    b.list table { limit, cursor } = none := by
  have hden : (pageLimit limit + 1).den = (pageLimit limit).den := by
    have hcast : (1 : ℚ) = ((1 : ℕ) : ℚ) := rfl
    rw [hcast, Rat.add_natCast_den]
  simp only [ArtifactsBinding.list, sqlLimit, hden, if_neg hlimit, Option.bind_eq_bind,
    Option.bind_none]

variable {cursor : Option Text} {time : ℕ} {tables : List (List RepoRow)}

theorem traverse_of_last (hlimit : pageLimit limit = n)
    (hcursor : startTime cursor = some (time : ℤ))
    (hnext : b.orderByCreatedAt.next n time (inSpace b table) = none) :
    b.traverse limit cursor (table :: tables) =
      if tables.isEmpty then
        some [{ repos := (b.orderByCreatedAt.page n time (inSpace b table)).map b.toInfo
                cursor := none }]
      else none := by
  rw [ArtifactsBinding.traverse, list_eq hlimit hcursor, hnext]
  rfl

theorem traverse_of_next {t : ℕ} (hlimit : pageLimit limit = n)
    (hcursor : startTime cursor = some (time : ℤ))
    (hnext : b.orderByCreatedAt.next n time (inSpace b table) = some t) :
    b.traverse limit cursor (table :: tables) =
      (b.traverse limit (some (decimal t)) tables).map fun results =>
        { repos := (b.orderByCreatedAt.page n time (inSpace b table)).map b.toInfo
          cursor := some (decimal t) } :: results := by
  rw [ArtifactsBinding.traverse, list_eq hlimit hcursor, hnext]
  exact Option.map_eq_bind.symm

/-- The reader comes to an end as it does with pages by creation time. -/
theorem isSome_traverse (hlimit : pageLimit limit = n)
    (hcursor : startTime cursor = some (time : ℤ)) :
    (b.traverse limit cursor tables).isSome = true ↔
      b.orderByCreatedAt.Completes n time (tables.map (inSpace b)) := by
  induction tables generalizing cursor time with
  | nil => exact ⟨fun h => (nomatch h), False.elim⟩
  | cons table tables ih =>
    rw [List.map_cons]
    cases hnext : b.orderByCreatedAt.next n time (inSpace b table) with
    | none =>
      rw [traverse_of_last hlimit hcursor hnext, Sorter.completes_of_last hnext,
        List.map_eq_nil_iff]
      cases tables <;> simp
    | some t =>
      rw [traverse_of_next hlimit hcursor hnext, Sorter.completes_of_next hnext,
        Option.isSome_map, ih (startTime_decimal t)]

/-- The repositories that the reader gets are those of the pages. -/
theorem ids_traverse {results : List RepoListResult} (hlimit : pageLimit limit = n)
    (hcursor : startTime cursor = some (time : ℤ))
    (h : b.traverse limit cursor tables = some results) :
    (results.flatMap RepoListResult.repos).map RepoInfo.id =
      (b.orderByCreatedAt.pages n time (tables.map (inSpace b))).flatten.map RepoRow.id := by
  induction tables generalizing cursor time results with
  | nil => cases h
  | cons table tables ih =>
    have hids : ∀ rows : List RepoRow,
        (rows.map b.toInfo).map RepoInfo.id = rows.map RepoRow.id := fun rows => List.map_map
    rw [List.map_cons]
    cases hnext : b.orderByCreatedAt.next n time (inSpace b table) with
    | none =>
      rw [traverse_of_last hlimit hcursor hnext] at h
      obtain ⟨-, h⟩ := Option.ite_none_right_eq_some.mp h
      obtain rfl := Option.some.inj h
      rw [Sorter.pages_of_last hnext, List.flatMap_singleton, hids, List.flatten_singleton]
    | some t =>
      rw [traverse_of_next hlimit hcursor hnext] at h
      obtain ⟨rest, hrest, rfl⟩ := Option.map_eq_some_iff.mp h
      rw [Sorter.pages_of_next hnext, List.flatMap_cons, List.map_append, hids,
        List.flatten_cons, List.map_append, ih (startTime_decimal t) hrest]

/-- The creation times are the keys of the pages, whatever the order of rows of one time. -/
theorem createdAts_eq : b.createdAts table (some (time : ℤ)) =
    b.orderByCreatedAt.keys time (inSpace b table) := by
  rw [ArtifactsBinding.createdAts, rowsFrom_eq]
  refine List.Perm.eq_of_pairwise' (r := (· ≤ ·)) ?_ Sorter.pairwise_keys ?_
  · exact List.pairwise_insertionSort _ _
  · exact (List.perm_insertionSort _ _).trans ((b.orderByCreatedAt.perm _).map _).symm

theorem divides_iff (hn : 1 ≤ n) : b.Divides n table (some (time : ℤ)) ↔
    b.orderByCreatedAt.Splits n time (inSpace b table) := by
  rw [Sorter.splits_iff hn, ArtifactsBinding.Divides, createdAts_eq]

theorem whole_of_neverDivides (hn : 1 ≤ n) : b.NeverDivides n (some (time : ℤ)) tables →
    b.orderByCreatedAt.Whole n time (tables.map (inSpace b)) := by
  induction tables generalizing time with
  | nil => exact fun _ => trivial
  | cons table tables ih =>
    rintro ⟨hdivides, hrest⟩
    rw [divides_iff hn] at hdivides
    rw [createdAts_eq, ← Sorter.next_eq] at hrest
    rw [List.map_cons]
    cases hnext : b.orderByCreatedAt.next n time (inSpace b table) with
    | none =>
      refine ⟨hdivides, ?_⟩
      rw [hnext]
      trivial
    | some t => exact (Sorter.whole_of_next hnext).mpr ⟨hdivides, ih (hrest t hnext)⟩

end Pages

/-! ### Following the cursors -/

section Reader

variable {b : ArtifactsBinding} {limit : Option ℚ} {n : ℕ} {tables : ℕ → List RepoRow}

theorem map_snapshots (b : ArtifactsBinding) (tables : ℕ → List RepoRow) (m : ℕ) :
    (snapshots tables m).map (inSpace b) = snapshots (fun i => inSpace b (tables i)) m := by
  rw [snapshots, snapshots, List.map_map]
  rfl

theorem nodup_inSpace {table : List RepoRow} (h : (table.map RepoRow.id).Nodup) :
    ((inSpace b table).map RepoRow.id).Nodup :=
  List.Nodup.sublist (List.filter_sublist.map _) h

/-- What a reader gets, in terms of the pages. -/
theorem traversed_of_pages (hlimit : pageLimit limit = n) :
    b.Traversed limit tables ↔
      (∃ m, b.orderByCreatedAt.Completes n 0 (snapshots (fun i => inSpace b (tables i)) m)) ∧
      ∀ m, b.orderByCreatedAt.Completes n 0 (snapshots (fun i => inSpace b (tables i)) m) →
        ∀ row, (∀ i ≤ m, row ∈ inSpace b (tables i)) →
          b.orderByCreatedAt.times n RepoRow.id 0 (snapshots (fun i => inSpace b (tables i)) m)
            row = 1 := by
  have hstart : startTime none = some ((0 : ℕ) : ℤ) := rfl
  have hends : ∀ m, (b.traverse limit none (snapshots tables m)).isSome = true ↔
      b.orderByCreatedAt.Completes n 0 (snapshots (fun i => inSpace b (tables i)) m) := fun m => by
    rw [isSome_traverse hlimit hstart, map_snapshots]
  have hmem : ∀ row i, row ∈ inSpace b (tables i) ↔ row ∈ tables i ∧ row.space = b.space :=
    fun row i => by rw [inSpace, List.mem_filter, decide_eq_true_eq]
  constructor
  · rintro ⟨⟨m, hm⟩, honce⟩
    refine ⟨⟨m, (hends m).mp hm⟩, fun m hm row hall => ?_⟩
    obtain ⟨results, hresults⟩ := Option.isSome_iff_exists.mp ((hends m).mpr hm)
    have hone := honce m results hresults row ((hmem row 0).mp (hall 0 (Nat.zero_le m))).2
      fun i hi => ((hmem row i).mp (hall i hi)).1
    rw [ids_traverse hlimit hstart hresults, map_snapshots] at hone
    exact hone
  · rintro ⟨⟨m, hm⟩, honce⟩
    refine ⟨⟨m, (hends m).mpr hm⟩, fun m results hresults row hspace hall => ?_⟩
    have hm := (hends m).mp (Option.isSome_iff_exists.mpr ⟨results, hresults⟩)
    rw [ids_traverse hlimit hstart hresults, map_snapshots]
    exact honce m hm row fun i hi => (hmem row i).mpr ⟨hall i hi, hspace⟩

/-- While repositories are created and deleted, no page divides repositories of one time. -/
theorem traversed_of_neverDivides (hlimit : pageLimit limit = n) (hn : 1 ≤ n)
    (hids : ∀ i, ((tables i).map RepoRow.id).Nodup)
    (hfinite : {t | ∃ i, ∃ row ∈ tables i, row.createdAt = t}.Finite)
    (hnever : ∀ m, b.NeverDivides n (some 0) (snapshots tables m)) : b.Traversed limit tables := by
  have hwhole : ∀ m, b.orderByCreatedAt.Whole n 0 (snapshots (fun i => inSpace b (tables i)) m) :=
    fun m => map_snapshots b tables m ▸ whole_of_neverDivides hn (hnever m)
  rw [traversed_of_pages hlimit]
  constructor
  · refine Sorter.exists_completes _ hn hfinite (fun i row hrow => ?_) hwhole
    exact ⟨i, row, List.mem_of_mem_filter hrow, rfl⟩
  · intro m hends row hall
    refine Sorter.count_pages hn ?_ hends (hwhole m) ?_ (Nat.zero_le _)
    · intro l hl
      obtain ⟨i, -, rfl⟩ := List.mem_map.mp hl
      exact nodup_inSpace (hids i)
    · intro l hl
      obtain ⟨i, hi, rfl⟩ := List.mem_map.mp hl
      exact hall i (Nat.lt_succ_iff.mp (List.mem_range.mp hi))

/-- While the repositories stay what they are. -/
theorem traversed_const_iff {table : List RepoRow} (hlimit : pageLimit limit = n) (hn : 1 ≤ n)
    (hids : (table.map RepoRow.id).Nodup) :
    b.Traversed limit (fun _ => table) ↔ ¬ Sorter.Tied n (b.createdAts table (some 0)) := by
  have hkeys : b.createdAts table (some 0) = b.orderByCreatedAt.keys 0 (inSpace b table) :=
    createdAts_eq
  have hreads := b.orderByCreatedAt.reads_iff (c := 0) hn (nodup_inSpace (b := b) hids)
  rw [traversed_of_pages hlimit, hkeys]
  constructor
  · rintro ⟨⟨m, hends⟩, honce⟩
    exact hreads.mp ⟨m, hends, fun row hrow _ => honce m hends row fun _ _ => hrow⟩
  · intro htied
    obtain ⟨m, hends, -⟩ := hreads.mpr htied
    refine ⟨⟨m, hends⟩, fun m hends row hall => ?_⟩
    have hsame : ∀ l ∈ snapshots (fun _ => inSpace b table) m, l = inSpace b table := by
      intro l hl
      obtain ⟨-, -, rfl⟩ := List.mem_map.mp hl
      rfl
    have hwhole := Sorter.whole_of_not_tied hn hsame htied
    refine Sorter.count_pages hn ?_ hends hwhole ?_ (Nat.zero_le _)
    · exact fun l hl => hsame l hl ▸ nodup_inSpace hids
    · exact fun l hl => hsame l hl ▸ hall 0 (Nat.zero_le m)

theorem not_traversed_of_fraction (hlimit : (pageLimit limit).den ≠ 1) :
    ¬ b.Traversed limit tables := by
  rintro ⟨⟨m, hm⟩, -⟩
  have hcons : snapshots tables m = tables 0 :: (snapshots tables m).tail := by
    cases m with
    | zero => rfl
    | succ m => rw [snapshots_succ, List.tail_cons]
  rw [hcons, ArtifactsBinding.traverse, list_eq_none hlimit] at hm
  cases hm

/-- The reader comes to an end and sees each repository once that is there throughout, while
finitely many are created and deleted, if no page that is read ends between two repositories of one
time. While none is created or deleted, this is so exactly if the limit is a whole number and no
multiple of it has neighbours of one time. -/
theorem traversed_iff (b : ArtifactsBinding) (limit : Option ℚ) :
    (∀ (tables : ℕ → List RepoRow) (n : ℕ),
      (∀ i, ((tables i).map RepoRow.id).Nodup) →
      {t | ∃ i, ∃ row ∈ tables i, row.createdAt = t}.Finite → pageLimit limit = n →
      (∀ m, b.NeverDivides n (some 0) (snapshots tables m)) → b.Traversed limit tables) ∧
    ∀ table : List RepoRow, (table.map RepoRow.id).Nodup →
      (b.Traversed limit (fun _ => table) ↔
        ∃ n : ℕ, pageLimit limit = n ∧ ¬ Sorter.Tied n (b.createdAts table (some 0))) := by
  have hone : ∀ {n : ℕ}, pageLimit limit = n → 1 ≤ n := by
    intro n hlimit
    have hden : (pageLimit limit).den = 1 := hlimit ▸ Rat.den_natCast n
    obtain ⟨n', hn', heq⟩ := exists_pageLimit hden
    have hcast : (n : ℚ) = n' := hlimit.symm.trans heq
    have : n = n' := by exact_mod_cast hcast
    omega
  refine ⟨fun tables n hids hfinite hlimit hnever =>
    traversed_of_neverDivides hlimit (hone hlimit) hids hfinite hnever, fun table hids => ?_⟩
  constructor
  · intro htraversed
    by_cases hden : (pageLimit limit).den = 1
    · obtain ⟨n, hn, hlimit⟩ := exists_pageLimit hden
      exact ⟨n, hlimit, (traversed_const_iff hlimit hn hids).mp htraversed⟩
    · exact absurd htraversed (not_traversed_of_fraction hden)
  · rintro ⟨n, hlimit, htied⟩
    exact (traversed_const_iff hlimit (hone hlimit) hids).mpr htied

/-- A binding whose rows of one time stay in the order of the table. -/
def stableBinding : ArtifactsBinding where
  space := "default".toList
  remoteBase := "http://localhost:8787/__artifacts".toList
  url := id
  orderByCreatedAt :=
    { sort := List.insertionSort fun a b => a.createdAt ≤ b.createdAt
      perm := fun l => List.perm_insertionSort _ l
      sorted := fun l => List.pairwise_insertionSort _ l }

/-- A repository with the defaults of `create`. -/
def created (id : Text) (createdAt : ℕ) : RepoRow where
  id := id
  space := stableBinding.space
  name := id
  description := none
  defaultBranch := "main".toList
  readOnly := false
  forkedFrom := none
  createdAt := createdAt

/-- Two repositories of different times, read one by one. -/
theorem traversed_iff_two :
    stableBinding.Traversed (some 1) fun _ => [created "b".toList 6, created "a".toList 5] := by
  refine ((traversed_iff stableBinding (some 1)).2 _ (by decide)).mpr ⟨1, by rfl, ?_⟩
  have htimes : stableBinding.createdAts [created "b".toList 6, created "a".toList 5] (some 0) =
      [5, 6] := by decide
  rw [htimes]
  rintro ⟨k, t, hk, hend, hnext⟩
  obtain rfl : k = 1 := by
    obtain ⟨hlt, -⟩ := List.getElem?_eq_some_iff.mp hnext
    rw [Nat.mul_one] at hlt
    change k < 2 at hlt
    omega
  cases hend
  cases hnext

/-- Two repositories of one time: each page with a limit of one begins at that time again. -/
theorem not_traversed :
    ¬ stableBinding.Traversed (some 1) fun _ => [created "a".toList 5, created "b".toList 5] := by
  intro htraversed
  have htied := (traversed_const_iff (n := 1) (by rfl) le_rfl (by decide)).mp htraversed
  exact htied ⟨1, 5, le_rfl, by decide, by decide⟩

end Reader

end Lopata.Artifacts

import Lopata.Lib.Text
import Lopata.R2.Listing

/-!
# Listing through S3

The proxy answers both versions of ListObjects with `list` of the R2 bucket. Version 2 hands out
the cursor of `list` as its token. Version 1 hands out the last key of a page as its marker, and
passes a marker to `list` as a cursor, which reads it as an offset.

## Main results

* `follows_iff`: a client reads the rows by the offsets that its markers or tokens name.
* `enumerates_iff`: both versions report everything once exactly when no common prefix is split
  between pages of version 2 and the markers of version 1 name offsets that miss nothing.
* `not_enumerates`: objects named by numbers, two on a page.
-/

namespace Lopata.S3

open R2

/-! ### The handler -/

/-- The parameters of a request; `max-keys` is a number from 1 on, or missing. -/
structure ListParams where
  keyPrefix : Option Text := none
  maxKeys : Option ℕ := none
  delimiter : Option Text := none

/-- What the proxy asks `list` for. -/
def ListParams.options (params : ListParams) : ListOptions where
  keyPrefix := params.keyPrefix.getD []
  limit := params.maxKeys.getD 1000
  delimiter := params.delimiter.getD []

/-- SQLite has integers of 64 bits; numbers from here on are rounded to 2^63 at least. -/
def sqliteMax : ℕ := 2 ^ 63 - 512

/-- A number that is bound to `LIMIT` or `OFFSET`; a negative offset is read as 0. -/
def bindInteger (i : ℤ) : Option ℕ :=
  if -(2 ^ 63 + 1024) ≤ i ∧ i < sqliteMax then some i.toNat else none

/-- The number a cursor is read as; none is `NaN`, which is bound as `NULL` and refused. -/
def cursorOffset (cursor : Option Text) : Option ℤ :=
  if cursor.getD [] = [] then some 0 else parseDecimal (cursor.getD [])

/-- `list` with the text of a cursor: the page, and the text of the next cursor. -/
def listFrom (t : Table (Bucket × Key) Row) (b : Bucket) (o : ListOptions)
    (cursor : Option Text) : Option (ListResult × Text) :=
  (cursorOffset cursor).bind fun i =>
    (bindInteger (o.limit + 1)).bind fun _ =>
      (bindInteger i).map fun offset =>
        let page := list t b { o with cursor := offset }
        (page, if page.truncated then decimal (i + o.limit) else [])

/-- What a client reads of a response: the page, and `NextMarker` or `NextContinuationToken`. -/
structure Page where
  list : ListResult
  next : Option Text

/-- An element is left out if its text is empty. -/
def rendered (text : Option Text) : Option Text :=
  text.filter (· ≠ [])

/-- `handleListObjects` with `list-type=2`. -/
def listObjectsV2 (t : Table (Bucket × Key) Row) (b : Bucket) (params : ListParams)
    (continuationToken : Option Text) : Option Page :=
  (listFrom t b params.options continuationToken).map fun (page, cursor) =>
    { list := page
      next := rendered (if page.truncated = true ∧ cursor ≠ [] then some cursor else none) }

/-- `handleListObjects` without `list-type`. -/
def listObjectsV1 (t : Table (Bucket × Key) Row) (b : Bucket) (params : ListParams)
    (marker : Option Text) : Option Page :=
  (listFrom t b params.options marker).map fun (page, _) =>
    { list := page
      next := rendered (if page.truncated = true then page.objects.getLast?.map Prod.fst
        else none) }

/-! ### A client -/

/-- The pages of a client that follows the markers or tokens until a page is not truncated. -/
def Follows (respond : Option Text → Option Page) : Option Text → List Page → Prop
  | _, [] => False
  | cursor, p :: ps =>
      respond cursor = some p ∧
        if p.list.truncated = true then ∃ text, p.next = some text ∧ Follows respond (some text) ps
        else ps = []

/-- The client receives every key with the prefix, or its common prefix, exactly once. -/
def Complete (t : Table (Bucket × Key) Row) (b : Bucket) (params : ListParams)
    (pages : List Page) : Prop :=
  ∀ key, params.options.keyPrefix <+: key → (t.get? (b, key)).isSome →
    ReportedOnce params.options (pages.map Page.list) key

/-- The same keys and common prefixes are on the pages. -/
def SameSet (pages pages' : List Page) : Prop :=
  (∀ key, 0 < objectReports (pages.map Page.list) key ↔
      0 < objectReports (pages'.map Page.list) key) ∧
    ∀ p, 0 < prefixReports (pages.map Page.list) p ↔
      0 < prefixReports (pages'.map Page.list) p

/-- Both versions enumerate the bucket. -/
def Enumerates (t : Table (Bucket × Key) Row) (b : Bucket) (params : ListParams) : Prop :=
  ∃ pages pages', Follows (listObjectsV1 t b params) none pages ∧
    Follows (listObjectsV2 t b params) none pages' ∧
      Complete t b params pages ∧ Complete t b params pages' ∧ SameSet pages pages'

/-! ### When they do -/

/-- The offset that the marker of a page is read as. -/
def markerOffset (o : ListOptions) (keys : List Key) (c : ℕ) : Option ℕ :=
  (((window o.limit c keys).filter fun k => group o k = none).getLast?.filter (· ≠ [])).bind
    fun key => (parseDecimal key).bind bindInteger

/-- A key is on a page that starts at one of some offsets, or its common prefix is. -/
def Shows (o : ListOptions) (keys : List Key) (cs : List ℕ) (key : Key) : Prop :=
  (group o key).elim (key ∈ (reads o.limit keys cs).flatten)
    fun p => 0 < pagesOf (group o) p (reads o.limit keys cs)

/-- It is on one such page only. -/
def ShowsOnce (o : ListOptions) (keys : List Key) (cs : List ℕ) (key : Key) : Prop :=
  (group o key).elim ((reads o.limit keys cs).flatten.count key = 1)
    fun p => pagesOf (group o) p (reads o.limit keys cs) = 1

/-- The pages that start at some offsets miss no key, and have the keys with the prefix once. -/
def Hits (o : ListOptions) (keys : List Key) (cs : List ℕ) : Prop :=
  ∀ key ∈ keys, Shows o keys cs key ∧ (o.keyPrefix <+: key → ShowsOnce o keys cs key)

/-- The keys of a common prefix have their positions on one page of version 2. -/
def Together (o : ListOptions) (keys : List Key) : Prop :=
  ∀ key ∈ keys, o.keyPrefix <+: key → ∀ k ∈ keys, ∀ k' ∈ keys, (group o key).isSome →
    group o k = group o key → group o k' = group o key →
      keys.idxOf k / o.limit = keys.idxOf k' / o.limit

/-- SQLite takes the limit and the offsets of version 2. -/
def Bindable (o : ListOptions) (keys : List Key) : Prop :=
  o.limit + 1 < sqliteMax ∧
    ∀ i, (i + 1) * o.limit < keys.length → (i + 1) * o.limit < sqliteMax

/-! ### Following -/

/-- **A client** reads the pages at the offsets that its markers or tokens name. -/
theorem follows_iff {κ : Type*} (keys : List κ) (m : ℕ) (respond : Option Text → Option Page)
    (page : ℕ → Page) (next : ℕ → Option ℕ) (offset : Option Text → Option ℕ)
    (good : Option Text → Prop)
    (hrespond : ∀ cursor, good cursor → respond cursor = (offset cursor).map page)
    (htruncated : ∀ c, (page c).list.truncated = true ↔ c + m < keys.length)
    (hnext : ∀ c, c + m < keys.length →
      ((page c).next.bind fun text => offset (some text)) = next c ∧
        ∀ text, (page c).next = some text → good (some text))
    (cursor : Option Text) (hgood : good cursor) (pages : List Page) :
    Follows respond cursor pages ↔
      ∃ c cs, offset cursor = some c ∧ Jumps next m keys c cs ∧ pages = cs.map page := by
  induction pages generalizing cursor with
  | nil =>
    refine iff_of_false id ?_
    rintro ⟨c, cs, -, hjumps, hnil⟩
    obtain rfl := List.map_eq_nil_iff.mp hnil.symm
    exact hjumps
  | cons p ps ih =>
    rw [Follows, hrespond cursor hgood]
    constructor
    · rintro ⟨hp, hrest⟩
      obtain ⟨c, hc, rfl⟩ := Option.map_eq_some_iff.mp hp
      split at hrest
      · next htrunc =>
          have hmore := (htruncated c).mp htrunc
          obtain ⟨hnames, hgoods⟩ := hnext c hmore
          obtain ⟨text, htext, hfollows⟩ := hrest
          obtain ⟨c', cs, hc', hjumps, rfl⟩ := (ih _ (hgoods text htext)).mp hfollows
          refine ⟨c, c :: cs, hc, ⟨rfl, ?_⟩, rfl⟩
          rw [if_neg (by omega), ← hnames, htext]
          exact ⟨c', hc', hjumps⟩
      · next hlast =>
          subst hrest
          refine ⟨c, [c], hc, ⟨rfl, ?_⟩, rfl⟩
          have := mt (htruncated c).mpr hlast
          rw [if_pos (by omega)]
    · rintro ⟨c, cs, hc, hjumps, heq⟩
      cases cs with
      | nil => exact hjumps.elim
      | cons d cs =>
        obtain ⟨rfl, hjumps⟩ := hjumps
        obtain ⟨rfl, rfl⟩ := List.cons.inj heq
        refine ⟨Option.map_eq_some_iff.mpr ⟨d, hc, rfl⟩, ?_⟩
        split at hjumps
        · next hlast =>
            subst hjumps
            rw [if_neg (by rw [htruncated]; omega)]
            rfl
        · next hmore =>
            obtain ⟨hnames, hgoods⟩ := hnext d (by omega)
            obtain ⟨c', hc', hjumps⟩ := hjumps
            rw [← hnames] at hc'
            obtain ⟨text, htext, hoffset⟩ := Option.bind_eq_some_iff.mp hc'
            rw [if_pos ((htruncated d).mpr (by omega))]
            exact ⟨text, htext, (ih _ (hgoods text htext)).mpr ⟨c', cs, hoffset, hjumps, rfl⟩⟩

section

variable {t : Table (Bucket × Key) Row} {b : Bucket} {params : ListParams}

theorem bindInteger_natCast (n : ℕ) :
    bindInteger n = if n < sqliteMax then some n else none := by
  unfold bindInteger
  by_cases hlt : n < sqliteMax
  · rw [if_pos hlt, if_pos ⟨by omega, by exact_mod_cast hlt⟩, Int.toNat_natCast]
  · rw [if_neg hlt, if_neg fun hboth => hlt (by exact_mod_cast hboth.2)]

/-- The offset of a cursor. -/
def offset (cursor : Option Text) : Option ℕ := (cursorOffset cursor).bind bindInteger

/-- The page at an offset, and what it hands out. -/
def pageV1 (t : Table (Bucket × Key) Row) (b : Bucket) (o : ListOptions) (c : ℕ) : Page :=
  let page := list t b { o with cursor := c }
  { list := page
    next := rendered (if page.truncated = true then page.objects.getLast?.map Prod.fst else none) }

def pageV2 (t : Table (Bucket × Key) Row) (b : Bucket) (o : ListOptions) (c : ℕ) : Page :=
  let page := list t b { o with cursor := c }
  { list := page
    next := if page.truncated = true then some (decimal (c + o.limit : ℕ)) else none }

variable {o : ListOptions}

theorem listFrom_eq (hlimit : o.limit + 1 < sqliteMax) (cursor : Option Text) :
    listFrom t b o cursor = (cursorOffset cursor).bind fun i => (bindInteger i).map fun c =>
      (list t b { o with cursor := c },
        if (list t b { o with cursor := c }).truncated then decimal (i + o.limit) else []) := by
  have hbind := bindInteger_natCast (o.limit + 1)
  rw [if_pos hlimit, Nat.cast_add, Nat.cast_one] at hbind
  rw [listFrom, hbind]
  rfl

theorem listFrom_none (hlimit : ¬ o.limit + 1 < sqliteMax) (cursor : Option Text) :
    listFrom t b o cursor = none := by
  have hbind := bindInteger_natCast (o.limit + 1)
  rw [if_neg hlimit, Nat.cast_add, Nat.cast_one] at hbind
  rw [listFrom, hbind]
  cases cursorOffset cursor <;> rfl

theorem cursorOffset_some {text : Text} (h : text ≠ []) :
    cursorOffset (some text) = parseDecimal text :=
  if_neg h

theorem truncated_at (c : ℕ) : (list t b { o with cursor := c }).truncated = true ↔
    c + o.limit < (keysOf b o t).length :=
  truncated_iff (o := { o with cursor := c })

/-- **Version 1** follows the numbers in the keys. -/
theorem follows_V1 (hlimit : params.options.limit + 1 < sqliteMax) {pages : List Page} :
    Follows (listObjectsV1 t b params) none pages ↔
      ∃ cs, Jumps (markerOffset params.options (keysOf b params.options t)) params.options.limit
          (keysOf b params.options t) 0 cs ∧
        pages = cs.map (pageV1 t b params.options) := by
  have hiff := follows_iff (keysOf b params.options t) params.options.limit (listObjectsV1 t b params)
    (pageV1 t b params.options) (markerOffset params.options (keysOf b params.options t)) offset
    (fun _ => True) ?_ truncated_at ?_ none trivial pages
  · rw [hiff]
    constructor
    · rintro ⟨c, cs, hc, h⟩
      obtain rfl : 0 = c := Option.some.inj (Eq.trans (by decide) hc)
      exact ⟨cs, h⟩
    · rintro ⟨cs, h⟩
      exact ⟨0, cs, by decide, h⟩
  · intro cursor _
    rw [listObjectsV1, listFrom_eq hlimit, offset]
    cases cursorOffset cursor with
    | none => rfl
    | some i =>
      show Option.map _ ((bindInteger i).map _) = (bindInteger i).map _
      cases bindInteger i <;> rfl
  · intro c hmore
    refine ⟨?_, fun _ _ => trivial⟩
    have hkeys := (list_eq (b := b) (o := { params.options with cursor := c }) (t := t)).1
    have htrunc := (truncated_at (o := params.options) (t := t) (b := b) c).mpr hmore
    have hpage : (pageV1 t b params.options c).next = rendered
        ((window params.options.limit c (keysOf b params.options t)).filter
          fun k => group params.options k = none).getLast? := by
      show rendered (if (list t b { params.options with cursor := c }).truncated = true then
        (list t b { params.options with cursor := c }).objects.getLast?.map Prod.fst else none) = _
      rw [if_pos htrunc, ← List.getLast?_map, hkeys]
      rfl
    rw [hpage, markerOffset, rendered]
    cases hlast : Option.filter (fun text => decide (text ≠ []))
        ((window params.options.limit c (keysOf b params.options t)).filter
          fun k => group params.options k = none).getLast? with
    | none => rfl
    | some text =>
      have hne : text ≠ [] := by
        have := Option.filter_eq_some_iff.mp hlast
        exact of_decide_eq_true this.2
      show offset (some text) = (parseDecimal text).bind bindInteger
      rw [offset, cursorOffset_some hne]

/-- **Version 2** follows the offsets of the windows. -/
theorem follows_V2 (hlimit : params.options.limit + 1 < sqliteMax) {pages : List Page} :
    Follows (listObjectsV2 t b params) none pages ↔
      ∃ cs, Jumps (fun c => if c + params.options.limit < sqliteMax then
            some (c + params.options.limit) else none) params.options.limit
          (keysOf b params.options t) 0 cs ∧
        pages = cs.map (pageV2 t b params.options) := by
  have hiff := follows_iff (keysOf b params.options t) params.options.limit (listObjectsV2 t b params)
    (pageV2 t b params.options)
    (fun c => if c + params.options.limit < sqliteMax then some (c + params.options.limit) else none)
    offset (fun cursor => ∃ c : ℕ, cursorOffset cursor = some (c : ℤ)) ?_ truncated_at ?_ none
    ⟨0, rfl⟩ pages
  · rw [hiff]
    constructor
    · rintro ⟨c, cs, hc, h⟩
      obtain rfl : 0 = c := Option.some.inj (Eq.trans (by decide) hc)
      exact ⟨cs, h⟩
    · rintro ⟨cs, h⟩
      exact ⟨0, cs, by decide, h⟩
  · rintro cursor ⟨i, hi⟩
    rw [listObjectsV2, listFrom_eq hlimit, offset, hi, Option.bind_some, Option.bind_some,
      bindInteger_natCast]
    split
    · refine congrArg (fun next => some (⟨_, next⟩ : Page)) ?_
      by_cases htrunc : (list t b { params.options with cursor := i }).truncated = true
      · simp only [htrunc, if_true, true_and, ne_eq, decimal_ne_nil, not_false_eq_true, rendered,
          Option.filter_some, decide_true]
        rfl
      · simp only [htrunc, Bool.false_eq_true, if_false, false_and]
        rfl
    · rfl
  · intro c hmore
    have htrunc := (truncated_at (o := params.options) (t := t) (b := b) c).mpr hmore
    have hpage : (pageV2 t b params.options c).next =
        some (decimal (c + params.options.limit : ℕ)) := if_pos htrunc
    have hoffset : cursorOffset (some (decimal (c + params.options.limit : ℕ))) =
        some ((c + params.options.limit : ℕ) : ℤ) := by
      rw [cursorOffset_some (decimal_ne_nil _), parseDecimal_decimal]
    rw [hpage]
    constructor
    · show offset _ = _
      rw [offset, hoffset, Option.bind_some, bindInteger_natCast]
    · rintro text htext
      obtain rfl := Option.some.inj htext
      exact ⟨_, hoffset⟩

/-! ### What the pages report -/

/-- Pages at some offsets report the keys of their windows. -/
theorem reports_at {pages : List Page} {cs : List ℕ}
    (h : pages.map Page.list = cs.map fun c => list t b { o with cursor := c }) :
    (∀ key, objectReports (pages.map Page.list) key = if group o key = none then
        (reads o.limit (keysOf b o t) cs).flatten.count key else 0) ∧
      ∀ p, prefixReports (pages.map Page.list) p =
        pagesOf (group o) p (reads o.limit (keysOf b o t) cs) := by
  have hlist := fun c => list_eq (b := b) (o := { o with cursor := c }) (t := t)
  constructor
  · intro key
    refine objectReports_windows ?_
    rw [h, reads, List.map_map, List.map_map]
    exact List.map_congr_left fun c _ => (hlist c).1
  · intro p
    refine prefixReports_windows ?_ p
    rw [h, reads, List.map_map, List.map_map]
    exact List.map_congr_left fun c _ => (hlist c).2

theorem isSome_of_mem_keysOf {key : Key} (h : key ∈ keysOf b o t) : (t.get? (b, key)).isSome := by
  obtain ⟨r, hr, rfl⟩ := List.mem_map.mp h
  rw [matching, List.mem_insertionSort] at hr
  obtain ⟨row, hrow, rfl⟩ := List.mem_map.mp hr
  obtain ⟨hmem, hboth⟩ := List.mem_filter.mp hrow
  rw [Bool.and_eq_true, decide_eq_true_eq] at hboth
  obtain ⟨⟨b', key⟩, row⟩ := row
  obtain rfl : b' = b := hboth.1
  rw [Table.mem_rows_iff.mp hmem]
  rfl

/-- A client that has each key with the prefix, or its common prefix, once. -/
theorem complete_iff {pages : List Page} {cs : List ℕ}
    (h : pages.map Page.list = cs.map fun c => list t b { params.options with cursor := c }) :
    Complete t b params pages ↔ ∀ key ∈ keysOf b params.options t,
      params.options.keyPrefix <+: key →
        ShowsOnce params.options (keysOf b params.options t) cs key := by
  obtain ⟨hobjects, hprefixes⟩ := reports_at h
  have honce : ∀ key, ReportedOnce params.options (pages.map Page.list) key ↔
      ShowsOnce params.options (keysOf b params.options t) cs key := by
    intro key
    rw [ReportedOnce, ShowsOnce, hobjects]
    cases hgroup : group params.options key with
    | none => rw [if_pos rfl, Option.elim, Option.elim]
    | some p => rw [if_neg (by simp), Option.elim, Option.elim, hprefixes, and_iff_right rfl]
  constructor
  · exact fun hall key hkey hstarts =>
      (honce key).mp (hall key hstarts (isSome_of_mem_keysOf hkey))
  · exact fun hall key hstarts hsome =>
      (honce key).mpr (hall key (mem_keysOf hsome hstarts) hstarts)

theorem mem_of_mem_reads {m : ℕ} {keys : List Key} {cs : List ℕ} {w : List Key} {key : Key}
    (hw : w ∈ reads m keys cs) (hkey : key ∈ w) : key ∈ keys := by
  obtain ⟨c, -, rfl⟩ := List.mem_map.mp hw
  exact List.mem_of_mem_drop (List.mem_of_mem_take hkey)

/-- Two clients receive the same set, if one of them receives everything. -/
theorem sameSet_iff {pages pages' : List Page} {cs cs' : List ℕ}
    (h : pages.map Page.list = cs.map fun c => list t b { o with cursor := c })
    (h' : pages'.map Page.list = cs'.map fun c => list t b { o with cursor := c })
    (hall : ∀ key ∈ keysOf b o t, Shows o (keysOf b o t) cs' key) :
    SameSet pages pages' ↔ ∀ key ∈ keysOf b o t, Shows o (keysOf b o t) cs key := by
  obtain ⟨hobjects, hprefixes⟩ := reports_at h
  obtain ⟨hobjects', hprefixes'⟩ := reports_at h'
  have hpos : ∀ (cs : List ℕ) key, (0 < if group o key = none then
      (reads o.limit (keysOf b o t) cs).flatten.count key else 0) ↔
        group o key = none ∧ key ∈ (reads o.limit (keysOf b o t) cs).flatten := by
    intro cs key
    split
    · next hnone => rw [List.count_pos_iff, and_iff_right hnone]
    · next hsome => exact iff_of_false (Nat.lt_irrefl 0) fun hboth => hsome hboth.1
  constructor
  · rintro ⟨hkeys, hgroups⟩ key hkey
    have hshown := hall key hkey
    unfold Shows at hshown ⊢
    cases hgroup : group o key with
    | none =>
      rw [hgroup] at hshown
      have hboth := hkeys key
      rw [hobjects, hobjects', hpos, hpos, hgroup, and_iff_right rfl, and_iff_right rfl] at hboth
      exact hboth.mpr hshown
    | some p =>
      rw [hgroup] at hshown
      have hboth := hgroups p
      rw [hprefixes, hprefixes'] at hboth
      exact hboth.mpr hshown
  · intro hshows
    constructor
    · intro key
      rw [hobjects, hobjects', hpos, hpos]
      refine and_congr_right fun hnone => ?_
      constructor
      · intro hmem
        obtain ⟨w, hw, hkey⟩ := List.mem_flatten.mp hmem
        have hshown := hall key (mem_of_mem_reads hw hkey)
        rwa [Shows, hnone] at hshown
      · intro hmem
        obtain ⟨w, hw, hkey⟩ := List.mem_flatten.mp hmem
        have hshown := hshows key (mem_of_mem_reads hw hkey)
        rwa [Shows, hnone] at hshown
    · intro p
      rw [hprefixes, hprefixes', pagesOf_pos_iff, pagesOf_pos_iff]
      constructor
      · rintro ⟨w, hw, key, hkey, hgroup⟩
        have hshown := hall key (mem_of_mem_reads hw hkey)
        rw [Shows, hgroup] at hshown
        exact pagesOf_pos_iff.mp hshown
      · rintro ⟨w, hw, key, hkey, hgroup⟩
        have hshown := hshows key (mem_of_mem_reads hw hkey)
        rw [Shows, hgroup] at hshown
        exact pagesOf_pos_iff.mp hshown

theorem shows_of_count {keys : List Key} {cs : List ℕ} {key : Key}
    (h : (reads o.limit keys cs).flatten.count key = 1) : Shows o keys cs key := by
  have hmem : key ∈ (reads o.limit keys cs).flatten := List.count_pos_iff.mp (by omega)
  unfold Shows
  cases hgroup : group o key with
  | none => exact hmem
  | some p =>
    obtain ⟨w, hw, hkey⟩ := List.mem_flatten.mp hmem
    exact pagesOf_pos_iff.mpr ⟨w, hw, key, hkey, hgroup⟩

/-- **Version 2** shows everything, and a common prefix once if its keys are on one page. -/
theorem complete_V2 (hm : 0 < params.options.limit) {cs : List ℕ}
    (hjumps : Jumps (fun c => if c + params.options.limit < sqliteMax then
      some (c + params.options.limit) else none) params.options.limit
        (keysOf b params.options t) 0 cs) :
    (∀ key ∈ keysOf b params.options t,
        Shows params.options (keysOf b params.options t) cs key) ∧
      (Complete t b params (cs.map (pageV2 t b params.options)) ↔
        Together params.options (keysOf b params.options t)) := by
  obtain ⟨hreads, hends⟩ := jumps_windows (fun c c' hc => by
    obtain ⟨-, hc⟩ := Option.ite_none_right_eq_some.mp hc
    exact (Option.some.inj hc).symm) hjumps
  have hnd := nodup_keysOf b params.options t
  have hcount : ∀ key ∈ keysOf b params.options t,
      (reads params.options.limit (keysOf b params.options t) cs).flatten.count key = 1 := by
    intro key hkey
    rw [hreads]
    exact count_windows_replicate hnd hkey hends
  have hshows := fun key hkey => shows_of_count (o := params.options) (hcount key hkey)
  refine ⟨hshows, ?_⟩
  have hpages : (cs.map (pageV2 t b params.options)).map Page.list =
      cs.map fun c => list t b { params.options with cursor := c } := by
    rw [List.map_map]
    rfl
  rw [complete_iff hpages]
  refine forall₂_congr fun key hkey => imp_congr_right fun _ => ?_
  have hshown := hshows key hkey
  unfold Shows at hshown
  unfold ShowsOnce
  cases hgroup : group params.options key with
  | none =>
    refine iff_of_true (hcount key hkey) fun k _ k' _ hsome => ?_
    cases hsome
  | some p =>
    rw [hgroup] at hshown
    have hone := pagesOf_windows_replicate (group params.options) (g := p) hm hnd hends
    rw [← hreads] at hone
    constructor
    · intro hpages k hk k' hk' _ hg hg'
      exact hone.mp (Nat.le_of_eq hpages) k hk k' hk' hg hg'
    · intro htogether
      have hle := hone.mpr fun k hk k' hk' hg hg' => htogether k hk k' hk' rfl hg hg'
      exact Nat.le_antisymm hle hshown

/-! ### The result -/

theorem bindable_of_follows {pages : List Page}
    (h : Follows (listObjectsV1 t b params) none pages) :
    params.options.limit + 1 < sqliteMax := by
  by_contra hlimit
  cases pages with
  | nil => exact h
  | cons p ps =>
    have hp := h.1
    rw [listObjectsV1, listFrom_none hlimit] at hp
    cases hp

/-- Version 2 reaches its last page. -/
theorem exists_jumps_V2 (hm : 0 < o.limit) (keys : List Key) :
    (∃ cs, Jumps (fun c => if c + o.limit < sqliteMax then some (c + o.limit) else none) o.limit
      keys 0 cs) ↔ ∀ i, (i + 1) * o.limit < keys.length → (i + 1) * o.limit < sqliteMax := by
  rw [exists_jumps_iff hm fun _ => rfl]
  simp only [Nat.zero_add]

/-- **Listing through S3.** Both versions enumerate the bucket exactly when SQLite takes the limit
and the offsets, the keys of each common prefix are on one page of version 2, and the markers of
version 1, read as numbers, name offsets whose pages miss nothing and repeat nothing. -/
theorem enumerates_iff (t : Table (Bucket × Key) Row) (b : Bucket) (params : ListParams)
    (hmax : ∀ n, params.maxKeys = some n → 1 ≤ n) :
    Enumerates t b params ↔
      Bindable params.options (keysOf b params.options t) ∧
        Together params.options (keysOf b params.options t) ∧
          ∃ cs, Jumps (markerOffset params.options (keysOf b params.options t))
              params.options.limit (keysOf b params.options t) 0 cs ∧
            Hits params.options (keysOf b params.options t) cs := by
  have hm : 0 < params.options.limit := by
    show 0 < params.maxKeys.getD 1000
    cases hkeys : params.maxKeys with
    | none => decide
    | some n => exact hmax n hkeys
  have hpages : ∀ cs : List ℕ, (cs.map (pageV1 t b params.options)).map Page.list =
      cs.map fun c => list t b { params.options with cursor := c } := by
    intro cs
    rw [List.map_map]
    rfl
  have hpages' : ∀ cs : List ℕ, (cs.map (pageV2 t b params.options)).map Page.list =
      cs.map fun c => list t b { params.options with cursor := c } := by
    intro cs
    rw [List.map_map]
    rfl
  constructor
  · rintro ⟨pages, pages', hfollows, hfollows', hcomplete, hcomplete', hsame⟩
    have hlimit := bindable_of_follows hfollows
    obtain ⟨cs, hjumps, rfl⟩ := (follows_V1 hlimit).mp hfollows
    obtain ⟨cs', hjumps', rfl⟩ := (follows_V2 hlimit).mp hfollows'
    obtain ⟨hshows', htogether⟩ := complete_V2 hm hjumps'
    have hshows := (sameSet_iff (hpages cs) (hpages' cs') hshows').mp hsame
    have honce := (complete_iff (hpages cs)).mp hcomplete
    exact ⟨⟨hlimit, (exists_jumps_V2 hm _).mp ⟨cs', hjumps'⟩⟩, htogether.mp hcomplete', cs, hjumps,
      fun key hkey => ⟨hshows key hkey, honce key hkey⟩⟩
  · rintro ⟨⟨hlimit, hoffsets⟩, htogether, cs, hjumps, hhits⟩
    obtain ⟨cs', hjumps'⟩ := (exists_jumps_V2 hm _).mpr hoffsets
    obtain ⟨hshows', hcomplete'⟩ := complete_V2 hm hjumps'
    refine ⟨_, _, (follows_V1 hlimit).mpr ⟨cs, hjumps, rfl⟩,
      (follows_V2 hlimit).mpr ⟨cs', hjumps', rfl⟩, ?_, hcomplete'.mpr htogether, ?_⟩
    · exact (complete_iff (hpages cs)).mpr fun key hkey => (hhits key hkey).2
    · exact (sameSet_iff (hpages cs) (hpages' cs') hshows').mpr fun key hkey => (hhits key hkey).1

/-- On one page nothing is missed, and no common prefix is split. -/
theorem hits_of_fits {keys : List Key} (hnd : keys.Nodup)
    (hfits : keys.length ≤ o.limit) {next : ℕ → Option ℕ} :
    Together o keys ∧ Jumps next o.limit keys 0 [0] ∧ Hits o keys [0] := by
  have hwindow : reads o.limit keys [0] = [keys] := by
    rw [reads, List.map_cons, List.map_nil, window, List.drop_zero, List.take_of_length_le hfits]
  refine ⟨?_, ⟨rfl, ?_⟩, ?_⟩
  · intro key _ _ k hk k' hk' _ _ _
    have hpos := List.idxOf_lt_length_of_mem hk
    have hpos' := List.idxOf_lt_length_of_mem hk'
    rw [Nat.div_eq_of_lt (by omega), Nat.div_eq_of_lt (by omega)]
  · rw [if_pos (by omega)]
  · intro key hkey
    unfold Shows ShowsOnce
    rw [hwindow]
    cases hgroup : group o key with
    | none =>
      have hone := List.count_eq_one_of_mem hnd hkey
      simp [hkey, hone]
    | some p =>
      have hone : pagesOf (group o) p [keys] = 1 := by
        rw [pagesOf_cons, if_pos ⟨key, hkey, hgroup⟩]
        rfl
      simp [hone]

end

/-- Two objects in a directory and one beside it, on one page. -/
theorem enumerates_iff_small :
    Enumerates (tableOf ["a".toList, "d/1".toList, "d/2".toList]) "b".toList
      { delimiter := some ['/'] } := by
  have hlength : (keysOf "b".toList (ListParams.options { delimiter := some ['/'] })
      (tableOf ["a".toList, "d/1".toList, "d/2".toList])).length = 3 := by decide
  obtain ⟨htogether, hjumps, hhits⟩ := hits_of_fits
    (o := ListParams.options { delimiter := some ['/'] })
    (nodup_keysOf "b".toList (ListParams.options { delimiter := some ['/'] })
      (tableOf ["a".toList, "d/1".toList, "d/2".toList])) (by rw [hlength]; decide)
  refine (enumerates_iff _ _ _ fun n hn => by cases hn).mpr
    ⟨⟨by decide, fun i hi => ?_⟩, htogether, [0], hjumps, hhits⟩
  rw [hlength] at hi
  have hi : (i + 1) * 1000 < 3 := hi
  omega

/-- With objects `10` to `13`, two on a page, the marker `11` skips the objects after it. -/
theorem not_enumerates : ¬ ∀ (t : Table (Bucket × Key) Row) (b : Bucket) (params : ListParams),
    (∀ n, params.maxKeys = some n → 1 ≤ n) → Enumerates t b params := by
  intro hall
  have hmax : ∀ n, (some 2 : Option ℕ) = some n → 1 ≤ n := by
    rintro n ⟨⟩
    decide
  obtain ⟨pages, -, hfollows, -, hcomplete, -⟩ := hall
    (tableOf ["10".toList, "11".toList, "12".toList, "13".toList]) "b".toList
    { maxKeys := some 2 } hmax
  obtain ⟨cs, hjumps, rfl⟩ := (follows_V1 (by decide)).mp hfollows
  have htwo : Jumps (markerOffset (ListParams.options { maxKeys := some 2 })
      (keysOf "b".toList (ListParams.options { maxKeys := some 2 })
        (tableOf ["10".toList, "11".toList, "12".toList, "13".toList]))) 2
      (keysOf "b".toList (ListParams.options { maxKeys := some 2 })
        (tableOf ["10".toList, "11".toList, "12".toList, "13".toList])) 0 [0, 11] := by
    refine ⟨rfl, ?_⟩
    rw [if_neg (by decide)]
    refine ⟨11, by decide, rfl, ?_⟩
    rw [if_pos (by decide)]
  obtain rfl := hjumps.unique htwo
  have honce := hcomplete "12".toList (List.nil_prefix) (by decide)
  have hnever : objectReports (([0, 11].map (pageV1
      (tableOf ["10".toList, "11".toList, "12".toList, "13".toList]) "b".toList
        (ListParams.options { maxKeys := some 2 }))).map Page.list) "12".toList = 0 := by decide
  cases hnever.symm.trans honce

end Lopata.S3

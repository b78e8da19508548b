import Mathlib.Data.Set.Finite.List
import Lopata.KV.Namespace
import Lopata.Lib.Keyset

/-!
# Following the Cursor of a Listing

A client lists a prefix page by page: it passes the cursor of each page to the next call, until a
page says `list_complete`. Between two pages anything may happen to the namespace, and the clock
may stand anywhere.

## Main results

* `traversal_spec`: the traversal ends; what it yields is in strictly ascending order, and a key
  that is there and not expired whenever a page is read is yielded exactly once.
-/

namespace Lopata.KV

variable {limits : Limits}

/-- A call to the namespace; `now` is what it reads off the clock. -/
inductive Call where
  | put (now : Double) (key : Str) (blob : List UInt8) (options : PutOptions)
  | delete (key : Str)
  | get (now : Double) (key : Str)
  | getWithMetadata (now : Double) (key : Str)
  | bulkGet (now : Double) (keys : List Str)
  | bulkGetWithMetadata (now : Double) (keys : List Str)
  | list (now : Double) (options : ListOptions)

/-- What a call leaves. -/
def Call.run (ns : Namespace limits) : Call → Namespace limits
  | .put now key blob options => (KV.put ns now key blob options).2
  | .delete key => KV.delete ns key
  | .get now key => (KV.get ns now key).2
  | .getWithMetadata now key => (KV.getWithMetadata ns now key).2
  | .bulkGet now keys => (KV.bulkGet ns now keys).2
  | .bulkGetWithMetadata now keys => (KV.bulkGetWithMetadata ns now keys).2
  | .list now options => (KV.list ns now options).2

/-- The calls in front of a page, and the time at which the page is read. -/
structure Round where
  calls : List Call
  now : Double

/-- The namespace that a page is read from. -/
def Round.before (ns : Namespace limits) (r : Round) : Namespace limits :=
  r.calls.foldl Call.run ns

/-- A page, with the namespace and the time it was read at. -/
structure Visit (limits : Limits) where
  ns : Namespace limits
  now : Double
  page : Page

/-- The pages of a traversal that goes on from a cursor. -/
def visits (keyPrefix : Str) (limit : Option ℤ) :
    Str → Namespace limits → List Round → List (Visit limits)
  | _, _, [] => []
  | cursor, ns, r :: rs =>
      let result := list (r.before ns) r.now { keyPrefix, limit, cursor }
      ⟨r.before ns, r.now, result.1⟩ ::
        if result.1.listComplete then []
        else visits keyPrefix limit result.1.cursor result.2 rs

/-- The last page says that the list is complete. -/
def Completes (vs : List (Visit limits)) : Prop :=
  ∃ v, vs.getLast? = some v ∧ v.page.listComplete = true

/-- The entries that a traversal yields. -/
def entries (vs : List (Visit limits)) : List ListKey :=
  vs.flatMap fun v => v.page.keys

/-- The names that a traversal yields. -/
def names (vs : List (Visit limits)) : List Str := (entries vs).map ListKey.name

/-- A key is there and not expired. -/
def Live (ns : Namespace limits) (now : Double) (key : List Char) : Prop :=
  ∃ row, ns.rows.get? key = some row ∧ row.expiredSql now = false

instance (ns : Namespace limits) (now : Double) (key : List Char) : Decidable (Live ns now key) :=
  decidable_of_iff ((ns.rows.get? key).any fun row => !row.expiredSql now) <| by
    rw [Option.any_eq_true]
    exact exists_congr fun row => and_congr Iff.rfl (by rw [Bool.not_eq_true'])

/-! ### A page is a page by key -/

/-- The rows of the range when a page is read, expired ones deleted. -/
def rangeRows (keyPrefix : Str) (now : Double) (ns : Namespace limits) :
    List (List Char × Row) :=
  (purge ns now).rows.rows.filter fun p => decide (InRange keyPrefix p.1)

/-- A cursor as a bound on keys. -/
def bound (cursor : Str) : Option (List Char) :=
  if cursor = [] then none else some (decodeUtf16 cursor)

theorem selected_eq (ns : Namespace limits) (now : Double) (keyPrefix cursor : Str) :
    (purge ns now).selected keyPrefix cursor =
      behind Prod.fst (bound cursor) (rangeRows keyPrefix now ns) := by
  rw [Namespace.selected, behind, rangeRows, List.filter_filter]
  refine List.filter_congr fun p _ => ?_
  by_cases h : cursor = []
  · simp [bound, After, h]
  · rw [Bool.and_comm, bound, if_neg h, Option.all_some]
    refine congrArg₂ _ (decide_eq_decide.mpr ?_) rfl
    simp only [After, h, false_or]

theorem nodup_rangeRows (keyPrefix : Str) (now : Double) (ns : Namespace limits) :
    ((rangeRows keyPrefix now ns).map Prod.fst).Nodup :=
  (List.filter_sublist.map Prod.fst).nodup (purge ns now).rows.nodup

theorem mem_rangeRows {keyPrefix : Str} {now : Double} {ns : Namespace limits}
    {p : List Char × Row} :
    p ∈ rangeRows keyPrefix now ns ↔
      p ∈ ns.rows.rows ∧ p.2.expiredSql now = false ∧ InRange keyPrefix p.1 := by
  simp only [rangeRows, purge, Namespace.filter, Table.filter, List.mem_filter,
    Bool.not_eq_true', decide_eq_true_iff, and_assoc]

theorem mem_keys_rangeRows {keyPrefix : Str} {now : Double} {ns : Namespace limits}
    {key : List Char} :
    key ∈ (rangeRows keyPrefix now ns).map Prod.fst ↔ Live ns now key ∧ InRange keyPrefix key := by
  rw [List.mem_map]
  constructor
  · rintro ⟨⟨k, row⟩, hmem, rfl⟩
    obtain ⟨hrow, hexpired, hrange⟩ := mem_rangeRows.mp hmem
    exact ⟨⟨row, Table.mem_rows_iff.mp hrow, hexpired⟩, hrange⟩
  · rintro ⟨⟨row, hrow, hexpired⟩, hrange⟩
    exact ⟨(key, row), mem_rangeRows.mpr ⟨Table.mem_rows_iff.mpr hrow, hexpired, hrange⟩, rfl⟩

section Page

variable {ns : Namespace limits} {now : Double} {options : ListOptions} {n : ℕ}

/-- The rows of a listing are the first ones behind the cursor. -/
theorem firstBy_selected (hn : options.effectiveLimit = n) :
    firstBy Prod.fst (options.effectiveLimit + 1)
        ((purge ns now).selected options.keyPrefix options.cursor) =
      (sortedBehind Prod.fst (bound options.cursor)
        (rangeRows options.keyPrefix now ns)).take (n + 1) := by
  rw [firstBy, limit, if_neg (by omega), selected_eq, sortedBehind, hn]
  congr 1

theorem slice_take {α : Type*} (l : List α) :
    slice (n : ℤ) (l.take (n + 1)) = l.take n := by
  rw [slice, if_neg (by omega), List.take_take]
  congr 1
  omega

/-- A page has the first rows behind the cursor. -/
theorem list_keys (hn : options.effectiveLimit = n) :
    (list ns now options).1.keys =
      (keysetPage Prod.fst n (bound options.cursor)
        (rangeRows options.keyPrefix now ns)).map ListKey.ofRow := by
  show (slice options.effectiveLimit (firstBy Prod.fst (options.effectiveLimit + 1)
    ((purge ns now).selected options.keyPrefix options.cursor))).map ListKey.ofRow = _
  rw [firstBy_selected hn, hn, slice_take, keysetPage]

/-- The row that is read beyond the limit tells whether anything is left. -/
theorem listComplete_iff (hn : options.effectiveLimit = n) :
    (list ns now options).1.listComplete = true ↔
      IsLast Prod.fst n (bound options.cursor) (rangeRows options.keyPrefix now ns) := by
  show decide (((firstBy Prod.fst (options.effectiveLimit + 1)
    ((purge ns now).selected options.keyPrefix options.cursor)).length : ℤ) ≤
      options.effectiveLimit) = true ↔ _
  rw [firstBy_selected hn, hn, decide_eq_true_iff, List.length_take, IsLast,
    ← length_sortedBehind]
  omega

/-- The cursor is the last key of the page; as no key is empty, the next call does not take it
for the start. -/
theorem bound_cursor (hn : options.effectiveLimit = n) (hpos : 1 ≤ n)
    (hlast : ¬ IsLast Prod.fst n (bound options.cursor) (rangeRows options.keyPrefix now ns)) :
    bound (list ns now options).1.cursor =
      nextCursor Prod.fst n (bound options.cursor) (rangeRows options.keyPrefix now ns) := by
  have hcomplete : decide (((firstBy Prod.fst (options.effectiveLimit + 1)
      ((purge ns now).selected options.keyPrefix options.cursor)).length : ℤ) ≤
        options.effectiveLimit) = false :=
    Bool.eq_false_iff.mpr fun h => hlast ((listComplete_iff hn).mp h)
  obtain ⟨⟨key, row⟩, hmem, hnext, -⟩ := exists_nextCursor hpos hlast
  have hlastRow : (slice options.effectiveLimit (firstBy Prod.fst (options.effectiveLimit + 1)
      ((purge ns now).selected options.keyPrefix options.cursor))).getLast?.map
        (fun p => encodeUtf16 p.1) = some (encodeUtf16 key) := by
    rw [firstBy_selected hn, hn, slice_take]
    rw [nextCursor, keysetPage] at hnext
    obtain ⟨p, hp, hkey⟩ := Option.map_eq_some_iff.mp hnext
    rw [hp, Option.map_some, hkey]
  have hne : encodeUtf16 key ≠ [] := by
    intro hnil
    have hfits := ns.fits key row (mem_rangeRows.mp hmem).1
    apply hfits.1
    rw [← decodeUtf16_encodeUtf16 key, hnil]
    rfl
  show bound (if decide (((firstBy Prod.fst (options.effectiveLimit + 1)
      ((purge ns now).selected options.keyPrefix options.cursor)).length : ℤ) ≤
        options.effectiveLimit) = true then []
    else ((slice options.effectiveLimit (firstBy Prod.fst (options.effectiveLimit + 1)
      ((purge ns now).selected options.keyPrefix options.cursor))).getLast?.map
        fun p => encodeUtf16 p.1).getD []) = _
  rw [hcomplete, if_neg Bool.false_ne_true, hlastRow, Option.getD_some, bound, if_neg hne,
    decodeUtf16_encodeUtf16, hnext]

end Page

/-! ### A traversal is a paging by key -/

variable {keyPrefix : Str} {limit : Option ℤ} {n : ℕ}

/-- The rows that each page of a traversal was read from. -/
def snapshotRows (keyPrefix : Str) (vs : List (Visit limits)) : List (List (List Char × Row)) :=
  vs.map fun v => rangeRows keyPrefix v.now v.ns

/-- The limit of a page, as a number of rows. -/
theorem exists_effectiveLimit (h : 1 ≤ limit.getD 1000) :
    ∃ n : ℕ, 1 ≤ n ∧ ∀ keyPrefix cursor,
      ({ keyPrefix, limit, cursor } : ListOptions).effectiveLimit = n :=
  ⟨(min (limit.getD 1000) 1000).toNat, by omega, fun _ _ => by
    show min (limit.getD 1000) 1000 = _
    omega⟩

section Traversal

variable (hn : ∀ keyPrefix cursor,
  ({ keyPrefix, limit, cursor } : ListOptions).effectiveLimit = n) (hpos : 1 ≤ n)

include hn hpos

theorem visits_keys (cursor : Str) (ns : Namespace limits) (rs : List Round) :
    (visits keyPrefix limit cursor ns rs).map (fun v => v.page.keys) =
      (keysetPages Prod.fst n (bound cursor)
        (snapshotRows keyPrefix (visits keyPrefix limit cursor ns rs))).map
          (List.map ListKey.ofRow) := by
  induction rs generalizing cursor ns with
  | nil => rfl
  | cons r rs ih =>
    have hpage : IsLast Prod.fst n (bound cursor) (rangeRows keyPrefix r.now (r.before ns)) →
        (list (r.before ns) r.now { keyPrefix, limit, cursor }).1.listComplete = true :=
      (listComplete_iff (hn keyPrefix cursor)).mpr
    rw [visits]
    simp only [snapshotRows, List.map_cons, keysetPages, List.map_cons]
    rw [list_keys (hn keyPrefix cursor)]
    congr 1
    split
    · rfl
    · next hmore =>
        rw [← bound_cursor (hn keyPrefix cursor) hpos fun h => hmore (hpage h)]
        exact ih _ _

theorem completes_iff (cursor : Str) (ns : Namespace limits) (rs : List Round) :
    Completes (visits keyPrefix limit cursor ns rs) ↔
      KeysetEnds Prod.fst n (bound cursor)
        (snapshotRows keyPrefix (visits keyPrefix limit cursor ns rs)) := by
  induction rs generalizing cursor ns with
  | nil =>
    constructor
    · rintro ⟨v, hv, -⟩
      cases hv
    · exact False.elim
  | cons r rs ih =>
    rw [visits]
    by_cases hlast : IsLast Prod.fst n (bound cursor) (rangeRows keyPrefix r.now (r.before ns))
    · have hcomplete := (listComplete_iff (hn keyPrefix cursor)).mpr hlast
      simp only [hcomplete, if_true, snapshotRows, List.map_cons, List.map_nil, KeysetEnds,
        hlast]
      exact ⟨fun _ => trivial, fun _ => ⟨_, rfl, hcomplete⟩⟩
    · have hmore : ¬ (list (r.before ns) r.now { keyPrefix, limit, cursor }).1.listComplete =
          true := fun h => hlast ((listComplete_iff (hn keyPrefix cursor)).mp h)
      simp only [hmore, Bool.false_eq_true, if_false, snapshotRows, List.map_cons, KeysetEnds,
        hlast]
      rw [← bound_cursor (hn keyPrefix cursor) hpos hlast]
      refine Iff.trans ?_ (ih _ _)
      generalize visits keyPrefix limit _ _ rs = vs
      constructor
      · rintro ⟨v, hv, hdone⟩
        cases vs with
        | nil =>
          cases hv
          exact absurd hdone hmore
        | cons w vs => exact ⟨v, by rwa [List.getLast?_cons_cons] at hv, hdone⟩
      · rintro ⟨v, hv, hdone⟩
        cases vs with
        | nil => cases hv
        | cons w vs => exact ⟨v, by rwa [List.getLast?_cons_cons], hdone⟩

theorem entries_eq (cursor : Str) (ns : Namespace limits) (rs : List Round) :
    entries (visits keyPrefix limit cursor ns rs) =
      (keysetPages Prod.fst n (bound cursor)
        (snapshotRows keyPrefix (visits keyPrefix limit cursor ns rs))).flatten.map
          ListKey.ofRow := by
  rw [entries, List.flatMap_def, visits_keys hn hpos, List.map_flatten]

theorem names_eq (cursor : Str) (ns : Namespace limits) (rs : List Round) :
    names (visits keyPrefix limit cursor ns rs) =
      ((keysetPages Prod.fst n (bound cursor)
        (snapshotRows keyPrefix (visits keyPrefix limit cursor ns rs))).flatten.map
          Prod.fst).map encodeUtf16 := by
  rw [names, entries_eq hn hpos, List.map_map, List.map_map]
  rfl

end Traversal

/-! ### The traversal ends -/

/-- The namespace that page `i` is read from. -/
def nsAt (ns : Namespace limits) (rounds : ℕ → Round) : ℕ → Namespace limits
  | 0 => (rounds 0).before ns
  | i + 1 => (rounds (i + 1)).before (purge (nsAt ns rounds i) (rounds i).now)

theorem nsAt_succ (ns : Namespace limits) (rounds : ℕ → Round) (i : ℕ) :
    nsAt ns rounds (i + 1) =
      nsAt (purge ((rounds 0).before ns) (rounds 0).now) (fun i => rounds (i + 1)) i := by
  induction i with
  | zero => rfl
  | succ i ih =>
    rw [nsAt, ih]
    rfl

/-- Finitely many keys fit. -/
theorem finite_keyFits (limits : Limits) : {key | KeyFits limits key}.Finite := by
  have hchars : Finite Char :=
    Finite.of_injective (fun c : Char => (⟨c.toNat, by
      have hvalid : c.toNat < 0xD800 ∨ 0xDFFF < c.toNat ∧ c.toNat < 0x110000 := c.valid
      omega⟩ : Fin 0x110000)) fun c d h => Char.toNat_inj.mp (Fin.mk.inj_iff.mp h)
  refine (List.finite_length_le Char limits.maxKeySize).subset ?_
  rintro key ⟨-, hsize⟩
  exact (length_le_length_encodeUtf8 key).trans hsize

variable (keyPrefix) in
theorem nodup_snapshotRows (vs : List (Visit limits)) :
    ∀ l ∈ snapshotRows keyPrefix vs, (l.map Prod.fst).Nodup := by
  intro l hl
  obtain ⟨v, -, rfl⟩ := List.mem_map.mp hl
  exact nodup_rangeRows keyPrefix v.now v.ns

theorem mem_keyFits_of_rangeRows {now : Double} {ns : Namespace limits}
    {p : List Char × Row} (h : p ∈ rangeRows keyPrefix now ns) : p.1 ∈ {key | KeyFits limits key} :=
  ns.fits p.1 p.2 (mem_rangeRows.mp h).1

theorem completes_of_keysetEnds
    (hn : ∀ keyPrefix cursor, ({ keyPrefix, limit, cursor } : ListOptions).effectiveLimit = n)
    (hpos : 1 ≤ n) (cursor : Str) (ns : Namespace limits) (rounds : ℕ → Round) (m : ℕ)
    (h : KeysetEnds Prod.fst n (bound cursor)
      (snapshots (fun i => rangeRows keyPrefix (rounds i).now (nsAt ns rounds i)) m)) :
    Completes (visits keyPrefix limit cursor ns ((List.range (m + 1)).map rounds)) := by
  rw [completes_iff hn hpos]
  induction m generalizing cursor ns rounds with
  | zero =>
    have hlast : IsLast Prod.fst n (bound cursor)
        (rangeRows keyPrefix (rounds 0).now ((rounds 0).before ns)) := by
      by_contra hnot
      have h : if IsLast Prod.fst n (bound cursor)
        (rangeRows keyPrefix (rounds 0).now ((rounds 0).before ns)) then
          ([] : List (List (List Char × Row))) = [] else False := h
      rwa [if_neg hnot] at h
    have hcomplete := (listComplete_iff (hn keyPrefix cursor)).mpr hlast
    show KeysetEnds Prod.fst n (bound cursor) (snapshotRows keyPrefix
      (visits keyPrefix limit cursor ns [rounds 0]))
    rw [visits]
    simp only [hcomplete, if_true, snapshotRows, List.map_cons, List.map_nil, KeysetEnds, hlast]
  | succ m ih =>
    rw [List.range_succ_eq_map, List.map_cons, List.map_map, visits]
    rw [snapshots_succ, KeysetEnds] at h
    by_cases hlast : IsLast Prod.fst n (bound cursor)
        (rangeRows keyPrefix (rounds 0).now ((rounds 0).before ns))
    · have hcomplete := (listComplete_iff (hn keyPrefix cursor)).mpr hlast
      simp only [hcomplete, if_true, snapshotRows, List.map_cons, List.map_nil, KeysetEnds,
        hlast]
    · have hmore : ¬ (list ((rounds 0).before ns) (rounds 0).now
          { keyPrefix, limit, cursor }).1.listComplete = true :=
        fun hc => hlast ((listComplete_iff (hn keyPrefix cursor)).mp hc)
      change if IsLast Prod.fst n (bound cursor)
        (rangeRows keyPrefix (rounds 0).now ((rounds 0).before ns)) then _ = []
        else KeysetEnds Prod.fst n (nextCursor Prod.fst n (bound cursor)
          (rangeRows keyPrefix (rounds 0).now ((rounds 0).before ns))) _ at h
      rw [if_neg hlast] at h
      simp only [nsAt_succ] at h
      simp only [hmore, Bool.false_eq_true, if_false, snapshotRows, List.map_cons, KeysetEnds,
        hlast]
      rw [← bound_cursor (hn keyPrefix cursor) hpos hlast] at h ⊢
      exact ih _ _ (fun i => rounds (i + 1)) h

/-- **The listing by cursor.** The traversal of a prefix ends, whatever happens between its
pages. When it has ended, the names it yielded are in strictly ascending order, and a key of the
range that is there and not expired whenever a page is read is among them exactly once. -/
theorem traversal_spec (ns : Namespace limits) (keyPrefix : Str) (limit : Option ℤ)
    (hlimit : 1 ≤ limit.getD 1000) :
    (∀ rounds : ℕ → Round, ∃ m,
      Completes (visits keyPrefix limit [] ns ((List.range m).map rounds))) ∧
    ∀ rounds : List Round, Completes (visits keyPrefix limit [] ns rounds) →
      ((names (visits keyPrefix limit [] ns rounds)).map decodeUtf16).Pairwise (· < ·) ∧
      ∀ key, InRange keyPrefix key →
        (∀ v ∈ visits keyPrefix limit [] ns rounds, Live v.ns v.now key) →
        (names (visits keyPrefix limit [] ns rounds)).count (encodeUtf16 key) = 1 := by
  obtain ⟨n, hpos, hn⟩ := exists_effectiveLimit hlimit
  constructor
  · intro rounds
    obtain ⟨m, hm⟩ := exists_keysetEnds Prod.fst (c := bound []) hpos
      (finite_keyFits limits)
      (f := fun i => rangeRows keyPrefix (rounds i).now (nsAt ns rounds i))
      fun i p hp _ => mem_keyFits_of_rangeRows hp
    exact ⟨m + 1, completes_of_keysetEnds hn hpos [] ns rounds m hm⟩
  · intro rounds hdone
    have hends := (completes_iff hn hpos [] ns rounds).mp hdone
    have hnd := nodup_snapshotRows keyPrefix (visits keyPrefix limit [] ns rounds)
    rw [names_eq hn hpos]
    constructor
    · have hread : decodeUtf16 ∘ encodeUtf16 = id := funext decodeUtf16_encodeUtf16
      rw [List.map_map, hread, List.map_id, List.pairwise_map]
      exact pairwise_keysetPages hpos hnd hends
    · intro key hrange hlive
      rw [List.count_map_of_injective _ _ encodeUtf16_injective]
      refine count_keysetPages hpos hnd hends (fun x hx => by cases hx) ?_
      intro l hl
      obtain ⟨v, hv, rfl⟩ := List.mem_map.mp hl
      exact mem_keys_rangeRows.mpr ⟨hlive v hv, hrange⟩

/-- A key of ASCII. -/
private def letter (c : Char) : Str := encodeUtf16 [c]

/-- Two keys, listed one by one, the first overwritten and a third put between the pages. -/
theorem traversal_spec_two :
    let ns := Round.before (Namespace.empty {})
      ⟨[.put (.ofRat 0) (letter 'b') [] {}, .put (.ofRat 0) (letter 'a') [] {}], .ofRat 0⟩
    let rounds : List Round := [⟨[], .ofRat 0⟩,
      ⟨[.put (.ofRat 1) (letter 'a') [1] {}, .put (.ofRat 1) (letter '0') [] {}], .ofRat 1⟩]
    1 ≤ (some 1 : Option ℤ).getD 1000 ∧
      names (visits [] (some 1) [] ns rounds) = [letter 'a', letter 'b'] ∧
      (names (visits [] (some 1) [] ns rounds)).count (encodeUtf16 ['b']) = 1 :=
  ⟨by decide, by decide +kernel,
    ((traversal_spec _ [] (some 1) (by decide)).2 _ ⟨_, rfl, by decide +kernel⟩).2 ['b'] (.inl rfl)
      (by decide +kernel)⟩

end Lopata.KV

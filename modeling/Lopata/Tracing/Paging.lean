import Lopata.Lib.Keyset
import Lopata.Tracing.Store

/-!
# Following the Cursors of the Trace Store

A reader of the store follows the cursor of each page to the next one, while spans and errors are
written.

## Main results

* `visits_eq`: the pages are pages by key, from the newest to the oldest.
* `reads_iff`: the reader sees every entry once, the newest first, exactly if the cursor of the
  first page is behind none of them.
* `reads_spec`: for the three lists, while newer entries are written.
* `not_reads`: an entry at the highest timestamp is not seen.
-/

namespace Lopata.Tracing

/-! ### Reading and writing -/

/-- A call that writes to the store. -/
inductive Call where
  | insertSpan (spanId : Text) (span : Span)
  | endSpan (spanId : Text) (endTime : Timestamp) (status : Status) (statusMessage : Option Text)
  | setSpanStatus (spanId : Text) (status : Status) (statusMessage : Option Text)
  | updateAttributes (spanId attrs : Text)
  | insertError (id : Text) (row : ErrorRow)
  | deleteError (id : Text)
  | clearErrors
  | clearTraces

variable (json : JsonFunctions)

/-- What a call leaves. -/
def Call.run (store : Store) : Call → Store
  | .insertSpan spanId span => Tracing.insertSpan store spanId span
  | .endSpan spanId endTime status message => Tracing.endSpan store spanId endTime status message
  | .setSpanStatus spanId status message => Tracing.setSpanStatus store spanId status message
  | .updateAttributes spanId attrs => Tracing.updateAttributes json store spanId attrs
  | .insertError id row => Tracing.insertError store id row
  | .deleteError id => Tracing.deleteError store id
  | .clearErrors => Tracing.clearErrors store
  | .clearTraces => Tracing.clearTraces store

/-- No row is lost. -/
structure Keeps (store store' : Store) : Prop where
  spans : ∀ id, (store.spans.get? id).isSome → (store'.spans.get? id).isSome
  errors : ∀ id, (store.errors.get? id).isSome → (store'.errors.get? id).isSome

/-- No call of a list deletes a row. -/
def KeepsAll : Store → List Call → Prop
  | _, [] => True
  | store, call :: calls =>
      Keeps store (call.run json store) ∧ KeepsAll (call.run json store) calls

/-- What is inserted is newer than what the store had at the start. -/
def Call.Newer (start : Store) : Call → Prop
  | .insertSpan _ span => ∀ p ∈ start.spans.rows, p.2.startTime < span.startTime
  | .insertError _ row => ∀ p ∈ start.errors.rows, p.2.timestamp < row.timestamp
  | _ => True

/-- Each trace has one root span. -/
def OneRoot (store : Store) : Prop :=
  (store.spans.rows.filter fun p => p.2.parentSpanId = none).Pairwise fun p q =>
    p.2.traceId ≠ q.2.traceId

instance (store : Store) : Decidable (OneRoot store) :=
  inferInstanceAs (Decidable (List.Pairwise _ _))

/-- The store that page `i` is read from; the calls `calls i` come behind that page. -/
def storeAt (store : Store) (calls : ℕ → List Call) : ℕ → Store
  | 0 => store
  | i + 1 => (calls i).foldl (Call.run json) (storeAt store calls i)

section Reader

variable {ρ ι : Type} (q : Query ρ ι) (limit : Option ℕ)

/-- The pages that a reader gets who goes on from a cursor. -/
def visits : Option Text → List Store → List (Page ι)
  | _, [] => []
  | cursor, store :: stores =>
      let page := q.list store { limit, cursor }
      page :: if page.cursor.isNone then [] else visits page.cursor stores

/-- The last page has no cursor. -/
def Completes (pages : List (Page ι)) : Prop :=
  ∃ page, pages.getLast? = some page ∧ page.cursor = none

/-- The reader comes to an end. What is read is in descending order, and each row that is there at
the start is read once. -/
structure Reads (key : ι → ℤ ×ₗ Text) (stores : ℕ → Store) : Prop where
  ends : ∃ n, Completes (visits q limit none ((List.range n).map stores))
  descending : ∀ n, Completes (visits q limit none ((List.range n).map stores)) →
    ((visits q limit none ((List.range n).map stores)).flatMap Page.items).Pairwise
      fun a b => key b < key a
  once : ∀ n, Completes (visits q limit none ((List.range n).map stores)) →
    ∀ row ∈ q.rows (stores 0),
      (((visits q limit none ((List.range n).map stores)).flatMap Page.items).map key).count
        (q.key row) = 1

end Reader

def TraceSummary.key (item : TraceSummary) : ℤ ×ₗ Text :=
  toLex ((item.startTime : ℤ), item.traceId)

def SpanItem.key (item : SpanItem) : ℤ ×ₗ Text := toLex ((item.startTime : ℤ), item.spanId)

def ErrorItem.key (item : ErrorItem) : ℤ ×ₗ Text := toLex ((item.timestamp : ℤ), item.id)

/-! ### A page is a page by key -/

/-- The order of the pages: the newest first. -/
def newest {ρ ι : Type} (q : Query ρ ι) (row : ρ) : (ℤ ×ₗ Text)ᵒᵈ := OrderDual.toDual (q.key row)

/-- A cursor as a bound. -/
def bound (time : ℤ) (id : Text) : (ℤ ×ₗ Text)ᵒᵈ := OrderDual.toDual (toLex (time, id))

/-- The rows of a query have keys of their own, and each is a group of its own. -/
structure Listable {ρ ι : Type} (q : Query ρ ι) (store : Store) : Prop where
  nodup : ((q.rows store).map q.key).Nodup
  ungrouped : ∀ p : ρ → Bool, q.group ((q.rows store).filter p) = (q.rows store).filter p

section Page

variable {ρ ι : Type} {q : Query ρ ι} {store : Store} {time : ℤ} {id : Text} {n : ℕ}
  {o : Options}

theorem precedes_eq (row : ρ) :
    q.precedes (some time, id) row = decide (bound time id < newest q row) := by
  refine decide_eq_decide.mpr ?_
  exact (Prod.Lex.toLex_lt_toLex (x := ((q.time row : ℤ), q.id row)) (y := (time, id))).symm

theorem nodup_newest (h : Listable q store) : ((q.rows store).map (newest q)).Nodup := by
  have hdual : newest q = OrderDual.toDual ∘ q.key := rfl
  rw [hdual, ← List.map_map]
  exact h.nodup.map OrderDual.toDual.injective

theorem select_eq (h : Listable q store) :
    q.select store (some time, id) n =
      (sortedBehind (newest q) (some (bound time id)) (q.rows store)).take n := by
  have hfilter : (q.rows store).filter (q.precedes (some time, id)) =
      behind (newest q) (some (bound time id)) (q.rows store) :=
    List.filter_congr fun row _ => precedes_eq row
  rw [Query.select, h.ungrouped, hfilter, sortedBehind]
  rfl

variable (h : Listable q store) (hcursor : parseCursor o.cursor = (some time, id))
  (hn : o.limit.getD 50 = n)

include h hcursor hn

/-- A page has the newest rows behind the cursor. -/
theorem list_items :
    (q.list store o).items =
      (keysetPage (newest q) n (some (bound time id)) (q.rows store)).map (q.item store) := by
  rw [Query.list]
  simp only [hcursor, hn, select_eq h, decide_eq_true_eq]
  rw [keysetPage]
  refine congrArg _ ?_
  split
  · rw [List.take_take, min_eq_left (Nat.le_succ n)]
  · next hall =>
    rw [List.length_take] at hall
    rw [List.take_of_length_le (by omega), List.take_of_length_le (by omega)]

/-- The cursor of a page is that of its last row, if there are more rows. -/
theorem list_cursor :
    (q.list store o).cursor =
      if IsLast (newest q) n (some (bound time id)) (q.rows store) then none
      else (keysetPage (newest q) n (some (bound time id)) (q.rows store)).getLast?.map
        fun row => buildCursor (q.time row) (q.id row) := by
  have hmore : n < ((sortedBehind (newest q) (some (bound time id)) (q.rows store)).take
      (n + 1)).length ↔ ¬ IsLast (newest q) n (some (bound time id)) (q.rows store) := by
    rw [List.length_take, IsLast, ← length_sortedBehind]
    omega
  rw [Query.list]
  simp only [hcursor, hn, select_eq h, decide_eq_true_eq, hmore]
  by_cases hlast : IsLast (newest q) n (some (bound time id)) (q.rows store)
  · simp only [hlast, not_true_eq_false, if_false, if_true]
    split <;> rfl
  · simp only [hlast, not_false_eq_true, if_true, if_false, List.take_take,
      min_eq_left (Nat.le_succ n), keysetPage]
    split
    · next last hget => rw [hget, Option.map_some]
    · next hget => rw [hget, Option.map_none]

theorem cursor_isNone_iff (hpos : 1 ≤ n) :
    (q.list store o).cursor = none ↔
      IsLast (newest q) n (some (bound time id)) (q.rows store) := by
  rw [list_cursor h hcursor hn]
  split
  · next hlast => exact iff_of_true rfl hlast
  · next hmore =>
    refine iff_of_false ?_ hmore
    obtain ⟨row, -, hnext, -⟩ := exists_nextCursor hpos hmore
    rw [nextCursor] at hnext
    obtain ⟨last, hlast, -⟩ := Option.map_eq_some_iff.mp hnext
    rw [hlast]
    exact Option.some_ne_none _

/-- The next page goes on behind the last row of the page. -/
theorem parseCursor_cursor (hpos : 1 ≤ n)
    (hmore : ¬ IsLast (newest q) n (some (bound time id)) (q.rows store)) :
    ∃ time' id', parseCursor (q.list store o).cursor = (some time', id') ∧
      nextCursor (newest q) n (some (bound time id)) (q.rows store) = some (bound time' id') := by
  obtain ⟨row, -, hnext, -⟩ := exists_nextCursor hpos hmore
  rw [nextCursor] at hnext
  obtain ⟨last, hlast, -⟩ := Option.map_eq_some_iff.mp hnext
  refine ⟨q.time last, q.id last, ?_, ?_⟩
  · rw [list_cursor h hcursor hn, if_neg hmore, hlast]
    exact parseCursor_buildCursor _ _
  · rw [nextCursor, hlast]
    rfl

end Page

/-! ### The pages are pages by key -/

section Traversal

variable {ρ ι : Type} {q : Query ρ ι} {limit : Option ℕ} {key : ι → ℤ ×ₗ Text} {n : ℕ}

/-- The rows that each page is chosen from. -/
def visitedRows (q : Query ρ ι) (limit : Option ℕ) : Option Text → List Store → List (List ρ)
  | _, [] => []
  | cursor, store :: stores =>
      let page := q.list store { limit, cursor }
      q.rows store :: if page.cursor.isNone then [] else visitedRows q limit page.cursor stores

theorem exists_store_of_mem_visitedRows {cursor : Option Text} {stores : List Store} {rows : List ρ}
    (h : rows ∈ visitedRows q limit cursor stores) : ∃ store ∈ stores, q.rows store = rows := by
  induction stores generalizing cursor with
  | nil => cases h
  | cons store stores ih =>
    rw [visitedRows] at h
    rcases List.mem_cons.mp h with rfl | hrest
    · exact ⟨store, List.mem_cons_self, rfl⟩
    · split at hrest
      · cases hrest
      · obtain ⟨store', hstore', heq⟩ := ih hrest
        exact ⟨store', List.mem_cons_of_mem _ hstore', heq⟩

variable (hn : limit.getD 50 = n) (hpos : 1 ≤ n)

include hn hpos

theorem visits_eq (hkey : ∀ store row, key (q.item store row) = q.key row) {stores : List Store}
    (hlist : ∀ store ∈ stores, Listable q store) {cursor : Option Text} {time : ℤ} {id : Text}
    (hcursor : parseCursor cursor = (some time, id)) :
    ((visits q limit cursor stores).flatMap Page.items).map key =
      ((keysetPages (newest q) n (some (bound time id))
        (visitedRows q limit cursor stores)).flatten).map q.key := by
  induction stores generalizing cursor time id with
  | nil => rfl
  | cons store stores ih =>
    have hstore := hlist store List.mem_cons_self
    have hitems := list_items (o := { limit, cursor }) hstore hcursor hn
    rw [visits, visitedRows]
    simp only [List.flatMap_cons, List.map_append, keysetPages, List.flatten_cons]
    congr 1
    · rw [hitems, List.map_map]
      exact List.map_congr_left fun row _ => hkey store row
    · split
      · rfl
      · next hsome =>
        have hmore : ¬ IsLast (newest q) n (some (bound time id)) (q.rows store) := fun hlast =>
          hsome (Option.isNone_iff_eq_none.mpr
            ((cursor_isNone_iff (o := { limit, cursor }) hstore hcursor hn hpos).mpr hlast))
        obtain ⟨time', id', hnext, hbound⟩ :=
          parseCursor_cursor (o := { limit, cursor }) hstore hcursor hn hpos hmore
        rw [hbound]
        exact ih (fun s hs => hlist s (List.mem_cons_of_mem _ hs)) hnext

theorem completes_iff {stores : List Store} (hlist : ∀ store ∈ stores, Listable q store)
    {cursor : Option Text} {time : ℤ} {id : Text}
    (hcursor : parseCursor cursor = (some time, id)) :
    Completes (visits q limit cursor stores) ↔
      KeysetEnds (newest q) n (some (bound time id)) (visitedRows q limit cursor stores) := by
  induction stores generalizing cursor time id with
  | nil =>
    refine iff_of_false ?_ fun h => h
    rintro ⟨page, hpage, -⟩
    cases hpage
  | cons store stores ih =>
    have hstore := hlist store List.mem_cons_self
    have hnone := cursor_isNone_iff (o := { limit, cursor }) hstore hcursor hn hpos
    rw [visits, visitedRows]
    by_cases hlast : IsLast (newest q) n (some (bound time id)) (q.rows store)
    · have hcomplete := hnone.mpr hlast
      simp only [hcomplete, Option.isNone_none, if_true, KeysetEnds, hlast]
      exact iff_of_true ⟨_, rfl, hcomplete⟩ trivial
    · have hsome : (q.list store { limit, cursor }).cursor.isNone = false := by
        rw [Bool.eq_false_iff]
        exact fun hnil => hlast (hnone.mp (Option.isNone_iff_eq_none.mp hnil))
      obtain ⟨time', id', hnext, hbound⟩ :=
        parseCursor_cursor (o := { limit, cursor }) hstore hcursor hn hpos hlast
      simp only [hsome, Bool.false_eq_true, if_false, KeysetEnds, hlast, hbound]
      rw [← ih (fun s hs => hlist s (List.mem_cons_of_mem _ hs)) hnext]
      have hne : (q.list store { limit, cursor }).cursor ≠ none := by
        intro hnil
        rw [hnil] at hsome
        cases hsome
      generalize visits q limit _ stores = pages
      cases pages with
      | nil =>
        refine iff_of_false ?_ ?_
        · rintro ⟨page, hpage, hdone⟩
          cases hpage
          exact hne hdone
        · rintro ⟨page, hpage, -⟩
          cases hpage
      | cons page pages => simp only [Completes, List.getLast?_cons_cons]

theorem completes_of_keysetEnds {stores : ℕ → Store} (hlist : ∀ i, Listable q (stores i))
    {cursor : Option Text} {time : ℤ} {id : Text}
    (hcursor : parseCursor cursor = (some time, id)) {m : ℕ}
    (h : KeysetEnds (newest q) n (some (bound time id))
      (snapshots (fun i => q.rows (stores i)) m)) :
    Completes (visits q limit cursor ((List.range (m + 1)).map stores)) := by
  induction m generalizing cursor time id stores with
  | zero =>
    have hlast : IsLast (newest q) n (some (bound time id)) (q.rows (stores 0)) := by
      by_contra hmore
      rw [snapshots, List.range_succ, List.range_zero, List.nil_append, List.map_cons,
        List.map_nil, KeysetEnds, if_neg hmore] at h
      exact h
    have hcomplete := (cursor_isNone_iff (o := { limit, cursor }) (hlist 0) hcursor hn
      hpos).mpr hlast
    refine ⟨_, ?_, hcomplete⟩
    rw [List.range_succ, List.range_zero, List.nil_append, List.map_cons, List.map_nil, visits]
    simp only [hcomplete, Option.isNone_none, if_true, List.getLast?_singleton]
  | succ m ih =>
    have hrange : (List.range (m + 1 + 1)).map stores =
        stores 0 :: (List.range (m + 1)).map fun i => stores (i + 1) := by
      rw [List.range_succ_eq_map, List.map_cons, List.map_map]
      rfl
    rw [snapshots_succ, KeysetEnds] at h
    rw [hrange, visits]
    by_cases hlast : IsLast (newest q) n (some (bound time id)) (q.rows (stores 0))
    · have hcomplete := (cursor_isNone_iff (o := { limit, cursor }) (hlist 0) hcursor hn
        hpos).mpr hlast
      simp only [hcomplete, Option.isNone_none, if_true]
      exact ⟨_, rfl, hcomplete⟩
    · obtain ⟨time', id', hnext, hbound⟩ :=
        parseCursor_cursor (o := { limit, cursor }) (hlist 0) hcursor hn hpos hlast
      rw [if_neg hlast, hbound] at h
      have hrest := ih (fun i => hlist (i + 1)) hnext h
      have hnone : (q.list (stores 0) { limit, cursor }).cursor.isNone = false := by
        rw [Bool.eq_false_iff]
        exact fun hnil => hlast ((cursor_isNone_iff (o := { limit, cursor }) (hlist 0)
          hcursor hn hpos).mp (Option.isNone_iff_eq_none.mp hnil))
      simp only [hnone, Bool.false_eq_true, if_false]
      obtain ⟨page, hpage, hdone⟩ := hrest
      refine ⟨page, ?_, hdone⟩
      rw [List.getLast?_cons, hpage]
      rfl

end Traversal

/-! ### What the calls leave -/

/-- A span is still that of its trace, its parent and its start. -/
structure Span.Same (span span' : Span) : Prop where
  traceId : span'.traceId = span.traceId
  parentSpanId : span'.parentSpanId = span.parentSpanId
  startTime : span'.startTime = span.startTime

theorem Span.Same.refl (span : Span) : span.Same span := ⟨rfl, rfl, rfl⟩

theorem Span.Same.trans {span span' span'' : Span} (h : span.Same span') (h' : span'.Same span'') :
    span.Same span'' :=
  ⟨h'.traceId.trans h.traceId, h'.parentSpanId.trans h.parentSpanId,
    h'.startTime.trans h.startTime⟩

section Calls

variable {json : JsonFunctions} {store store' : Store} {call : Call} {id : Text}

theorem get?_modify_same {spans : Table Text Span} {spanId : Text} {f : Span → Span}
    {span' : Span} (h : (spans.modify spanId f).get? id = some span')
    (hf : ∀ span : Span, span.Same (f span)) :
    ∃ span, spans.get? id = some span ∧ span.Same span' := by
  rw [Table.get?_modify] at h
  split at h
  · next heq =>
    obtain ⟨span, hspan, rfl⟩ := Option.map_eq_some_iff.mp h
    exact ⟨span, heq ▸ hspan, hf span⟩
  · exact ⟨span', h, .refl span'⟩

theorem of_enforceTraceCap {span : Span} (h : (enforceTraceCap store).spans.get? id = some span) :
    store.spans.get? id = some span := by
  rw [enforceTraceCap] at h
  split at h
  · exact h
  · dsimp only at h
    rw [Table.get?_filter] at h
    exact (Option.filter_eq_some_iff.mp h).1

theorem of_insertSpan {spanId : Text} {inserted span : Span}
    (h : (insertSpan store spanId inserted).spans.get? id = some span) :
    store.spans.get? id = some span ∨
      store.spans.get? id = none ∧ id = spanId ∧ inserted = span := by
  have hinsert : store.spans.get? spanId = none →
      (store.spans.insert spanId inserted).get? id = some span →
      store.spans.get? id = some span ∨
        store.spans.get? id = none ∧ id = spanId ∧ inserted = span := by
    intro hnone hget
    rcases Table.of_get?_insert hget with ⟨rfl, rfl⟩ | ⟨-, hold⟩
    · exact .inr ⟨hnone, rfl, rfl⟩
    · exact .inl hold
  rw [insertSpan] at h
  dsimp only at h
  split at h
  · exact .inl h
  · next hfree =>
    rw [Option.not_isSome_iff_eq_none] at hfree
    split at h
    · exact hinsert hfree (of_enforceTraceCap h)
    · exact hinsert hfree h

/-- A span behind a call was there, or is inserted. -/
theorem spans_of_run {span : Span} (h : (call.run json store).spans.get? id = some span) :
    (∃ old, store.spans.get? id = some old ∧ old.Same span) ∨
      store.spans.get? id = none ∧ call = .insertSpan id span := by
  cases call with
  | insertSpan spanId inserted =>
    rcases of_insertSpan h with hold | ⟨hnone, rfl, rfl⟩
    · exact .inl ⟨span, hold, .refl span⟩
    · exact .inr ⟨hnone, rfl⟩
  | endSpan spanId endTime status message =>
    simp only [Call.run, endSpan] at h
    split at h
    · exact .inl ⟨span, h, .refl span⟩
    · exact .inl (get?_modify_same h fun old => ⟨rfl, rfl, rfl⟩)
  | setSpanStatus spanId status message =>
    exact .inl (get?_modify_same h fun old => ⟨rfl, rfl, rfl⟩)
  | updateAttributes spanId attrs =>
    exact .inl (get?_modify_same h fun old => ⟨rfl, rfl, rfl⟩)
  | insertError errorId row =>
    refine .inl ⟨span, ?_, .refl span⟩
    simp only [Call.run, insertError, enforceErrorCap] at h
    split at h
    · exact h
    · split at h <;> exact h
  | deleteError errorId | clearErrors => exact .inl ⟨span, h, .refl span⟩
  | clearTraces => cases h

/-- An error behind a call was there, or is inserted. -/
theorem errors_of_run {row : ErrorRow} (h : (call.run json store).errors.get? id = some row) :
    store.errors.get? id = some row ∨
      store.errors.get? id = none ∧ call = .insertError id row := by
  cases call with
  | insertSpan spanId inserted =>
    left
    simp only [Call.run, insertSpan, enforceTraceCap] at h
    split at h
    · exact h
    · split at h
      · split at h <;> exact h
      · exact h
  | endSpan spanId endTime status message =>
    left
    simp only [Call.run, endSpan] at h
    split at h <;> exact h
  | setSpanStatus spanId status message | updateAttributes spanId attrs | clearTraces =>
    exact .inl h
  | insertError errorId inserted =>
    simp only [Call.run, insertError] at h
    split at h
    · exact .inl h
    · next hfree =>
      rw [Option.not_isSome_iff_eq_none] at hfree
      have hget : (store.errors.insert errorId inserted).get? id = some row := by
        rw [enforceErrorCap] at h
        split at h
        · exact h
        · dsimp only at h
          rw [Table.get?_filter] at h
          exact (Option.filter_eq_some_iff.mp h).1
      rcases Table.of_get?_insert hget with ⟨rfl, rfl⟩ | ⟨-, hold⟩
      · exact .inr ⟨hfree, rfl⟩
      · exact .inl hold
  | deleteError errorId => exact .inl (Table.of_get?_erase h).2
  | clearErrors => cases h

/-- A span that a call keeps is the same. -/
theorem exists_span_of_keeps (h : Keeps store (call.run json store)) {span : Span}
    (hspan : store.spans.get? id = some span) :
    ∃ span', (call.run json store).spans.get? id = some span' ∧ span.Same span' := by
  obtain ⟨span', hspan'⟩ := Option.isSome_iff_exists.mp (h.spans id (by rw [hspan]; rfl))
  rcases spans_of_run hspan' with ⟨old, hold, hsame⟩ | ⟨hnone, -⟩
  · obtain rfl := Option.some.inj (hspan.symm.trans hold)
    exact ⟨span', hspan', hsame⟩
  · cases hnone.symm.trans hspan

theorem error_of_keeps (h : Keeps store (call.run json store)) {row : ErrorRow}
    (hrow : store.errors.get? id = some row) :
    (call.run json store).errors.get? id = some row := by
  obtain ⟨row', hrow'⟩ := Option.isSome_iff_exists.mp (h.errors id (by rw [hrow]; rfl))
  rcases errors_of_run hrow' with hold | ⟨hnone, -⟩
  · rwa [hrow.symm.trans hold]
  · cases hnone.symm.trans hrow

/-- The calls that are there to delete. -/
def Call.Deletes : Call → Prop
  | .deleteError _ | .clearErrors | .clearTraces => True
  | _ => False

/-- Below the caps only those calls delete. -/
theorem keeps_run (hspans : store.rootSpanCount < traceCap)
    (herrors : store.errors.rows.length < errorCap) (hcall : ¬ call.Deletes) :
    Keeps store (call.run json store) := by
  have hsame : ∀ {spanId : Text} {f : Span → Span} {id : Text},
      (store.spans.get? id).isSome → ((store.spans.modify spanId f).get? id).isSome := by
    intro spanId f id hid
    rwa [Table.modify, Table.get?_mapRows, Option.isSome_map]
  cases call with
  | insertSpan spanId span =>
    have hinsert : ∀ id, (store.spans.get? id).isSome →
        ((store.spans.insert spanId span).get? id).isSome := by
      intro id hid
      rw [Table.get?_insert]
      split
      · rfl
      · exact hid
    have hcap : ¬ traceCap < store.rootSpanCount + 1 := by omega
    simp only [Call.run, insertSpan, enforceTraceCap]
    split
    · exact ⟨fun _ h => h, fun _ h => h⟩
    · split
      · rw [if_pos (not_lt.mp hcap)]
        exact ⟨hinsert, fun _ h => h⟩
      · exact ⟨hinsert, fun _ h => h⟩
  | endSpan spanId endTime status message =>
    simp only [Call.run, endSpan]
    split
    · exact ⟨fun _ h => h, fun _ h => h⟩
    · exact ⟨fun _ => hsame, fun _ h => h⟩
  | setSpanStatus spanId status message | updateAttributes spanId attrs =>
    exact ⟨fun _ => hsame, fun _ h => h⟩
  | insertError errorId row =>
    simp only [Call.run, insertError]
    split
    · exact ⟨fun _ h => h, fun _ h => h⟩
    · next hfree =>
      rw [Option.not_isSome_iff_eq_none] at hfree
      have hlength : (store.errors.insert errorId row).rows.length ≤ errorCap := by
        rw [Table.rows_insert_of_get?_eq_none hfree, List.length_append]
        exact herrors
      rw [enforceErrorCap, if_pos hlength]
      refine ⟨fun _ h => h, fun id hid => ?_⟩
      dsimp only
      rw [Table.get?_insert]
      split
      · rfl
      · exact hid
  | deleteError _ | clearErrors | clearTraces => exact absurd trivial hcall

/-- A store that has all the rows of another one, and besides only newer ones. -/
structure Extends (start store : Store) : Prop where
  spans : ∀ id span, start.spans.get? id = some span →
    ∃ span', store.spans.get? id = some span' ∧ span.Same span'
  newSpans : ∀ id span, store.spans.get? id = some span →
    (∃ old, start.spans.get? id = some old ∧ old.Same span) ∨
      ∀ p ∈ start.spans.rows, p.2.startTime < span.startTime
  errors : ∀ id row, start.errors.get? id = some row → store.errors.get? id = some row
  newErrors : ∀ id row, store.errors.get? id = some row →
    start.errors.get? id = some row ∨ ∀ p ∈ start.errors.rows, p.2.timestamp < row.timestamp

theorem Extends.refl (start : Store) : Extends start start where
  spans _ span h := ⟨span, h, .refl span⟩
  newSpans _ span h := .inl ⟨span, h, .refl span⟩
  errors _ _ h := h
  newErrors _ _ h := .inl h

theorem Extends.run {start : Store} (h : Extends start store)
    (hkeeps : Keeps store (call.run json store)) (hnewer : call.Newer start) :
    Extends start (call.run json store) where
  spans id span hspan := by
    obtain ⟨span', hspan', hsame⟩ := h.spans id span hspan
    obtain ⟨span'', hspan'', hsame'⟩ := exists_span_of_keeps hkeeps hspan'
    exact ⟨span'', hspan'', hsame.trans hsame'⟩
  newSpans id span hspan := by
    rcases spans_of_run hspan with ⟨old, hold, hsame⟩ | ⟨-, rfl⟩
    · rcases h.newSpans id old hold with ⟨first, hfirst, hsame'⟩ | hlater
      · exact .inl ⟨first, hfirst, hsame'.trans hsame⟩
      · exact .inr fun p hp => hsame.startTime.symm ▸ hlater p hp
    · exact .inr hnewer
  errors id row hrow := error_of_keeps hkeeps (h.errors id row hrow)
  newErrors id row hrow := by
    rcases errors_of_run hrow with hold | ⟨-, rfl⟩
    · exact h.newErrors id row hold
    · exact .inr hnewer

theorem Extends.foldl {start : Store} {calls : List Call} (h : Extends start store)
    (hkeeps : KeepsAll json store calls) (hnewer : ∀ call ∈ calls, call.Newer start) :
    Extends start (calls.foldl (Call.run json) store) := by
  induction calls generalizing store with
  | nil => exact h
  | cons call calls ih =>
    exact ih (h.run hkeeps.1 (hnewer call List.mem_cons_self)) hkeeps.2
      fun call' hcall' => hnewer call' (List.mem_cons_of_mem _ hcall')

/-- The store of each page has the rows of the first one, and besides only newer ones. -/
theorem extends_storeAt {calls : ℕ → List Call}
    (hkeeps : ∀ i, KeepsAll json (storeAt json store calls i) (calls i))
    (hnewer : ∀ i, ∀ call ∈ calls i, call.Newer store) (i : ℕ) :
    Extends store (storeAt json store calls i) := by
  induction i with
  | zero => exact .refl store
  | succ i ih => exact ih.foldl (hkeeps i) (hnewer i)

end Calls

/-! ### Every entry is read once -/

section Reads

variable {ρ ι : Type} {q : Query ρ ι} {limit : Option ℕ} {key : ι → ℤ ×ₗ Text} {n : ℕ}
  {stores : ℕ → Store}

theorem Listable.nodup_visited (hlist : ∀ i, Listable q (stores i)) {m : ℕ}
    {cursor : Option Text} {rows : List ρ}
    (h : rows ∈ visitedRows q limit cursor ((List.range m).map stores)) :
    ∃ i, rows = q.rows (stores i) ∧ (rows.map (newest q)).Nodup := by
  obtain ⟨store, hstore, rfl⟩ := exists_store_of_mem_visitedRows h
  obtain ⟨i, -, rfl⟩ := List.mem_map.mp hstore
  exact ⟨i, rfl, nodup_newest (hlist i)⟩

/-- The reader comes to an end if what is written is newer than what was there. -/
theorem exists_completes (hn : limit.getD 50 = n) (hpos : 1 ≤ n)
    (hlist : ∀ i, Listable q (stores i))
    (hnew : ∀ i, ∀ row ∈ q.rows (stores i), q.key row ∈ (q.rows (stores 0)).map q.key ∨
      ∀ old ∈ q.rows (stores 0), q.key old < q.key row) :
    ∃ m, Completes (visits q limit none ((List.range m).map stores)) := by
  by_cases hlast : IsLast (newest q) n (some (bound maxSafeInteger highestId)) (q.rows (stores 0))
  · refine ⟨0 + 1, completes_of_keysetEnds hn hpos hlist rfl ?_⟩
    rw [snapshots, List.range_succ, List.range_zero, List.nil_append, List.map_cons,
      List.map_nil, KeysetEnds, if_pos hlast]
  · obtain ⟨first, hfirst, hnext, -⟩ := exists_nextCursor hpos hlast
    -- behind the first page, only rows of the first store are left
    have hfinite : {k | k ∈ (q.rows (stores 0)).map (newest q)}.Finite := List.finite_toSet _
    obtain ⟨m, hm⟩ := exists_keysetEnds (newest q)
      (c := nextCursor (newest q) n (some (bound maxSafeInteger highestId)) (q.rows (stores 0)))
      hpos hfinite (f := fun i => q.rows (stores (i + 1))) (by
        intro i row hrow hbehind
        rcases hnew (i + 1) row hrow with hold | hnewer
        · obtain ⟨old, hmem, heq⟩ := List.mem_map.mp hold
          exact List.mem_map.mpr ⟨old, hmem, congrArg OrderDual.toDual heq⟩
        · exact absurd (hbehind _ hnext) (hnewer first hfirst).asymm)
    refine ⟨m + 1 + 1, completes_of_keysetEnds hn hpos hlist rfl ?_⟩
    rw [snapshots_succ, KeysetEnds, if_neg hlast]
    exact hm

/-- **Reading page by page**: the reader comes to an end, reads the newest first, and reads each
row of the first store once, exactly if they are all behind the cursor that stands for the
start. -/
theorem reads_iff (hlimit : 1 ≤ limit.getD 50)
    (hkey : ∀ store row, key (q.item store row) = q.key row)
    (hlist : ∀ i, Listable q (stores i))
    (hstay : ∀ i, ∀ row ∈ q.rows (stores 0), q.key row ∈ (q.rows (stores i)).map q.key)
    (hnew : ∀ i, ∀ row ∈ q.rows (stores i), q.key row ∈ (q.rows (stores 0)).map q.key ∨
      ∀ old ∈ q.rows (stores 0), q.key old < q.key row) :
    Reads q limit key stores ↔
      ∀ row ∈ q.rows (stores 0), q.precedes (parseCursor none) row = true := by
  obtain ⟨n, hn⟩ : ∃ n, limit.getD 50 = n := ⟨_, rfl⟩
  have hpos : 1 ≤ n := hn ▸ hlimit
  have hstores : ∀ m, ∀ store ∈ (List.range m).map stores, Listable q store := by
    intro m store hstore
    obtain ⟨i, -, rfl⟩ := List.mem_map.mp hstore
    exact hlist i
  have hends : ∀ m, Completes (visits q limit none ((List.range m).map stores)) →
      KeysetEnds (newest q) n (some (bound maxSafeInteger highestId))
        (visitedRows q limit none ((List.range m).map stores)) :=
    fun m => (completes_iff hn hpos (hstores m) rfl).mp
  have heq : ∀ m, ((visits q limit none ((List.range m).map stores)).flatMap Page.items).map key =
      ((keysetPages (newest q) n (some (bound maxSafeInteger highestId))
        (visitedRows q limit none ((List.range m).map stores))).flatten).map q.key :=
    fun m => visits_eq hn hpos hkey (hstores m) rfl
  have hnodup : ∀ m, ∀ rows ∈ visitedRows q limit none ((List.range m).map stores),
      (rows.map (newest q)).Nodup := by
    intro m rows hrows
    obtain ⟨-, -, hnd⟩ := Listable.nodup_visited hlist hrows
    exact hnd
  constructor
  · rintro ⟨⟨m, hm⟩, -, honce⟩ row hrow
    have hread := List.count_pos_iff.mp ((honce m hm row hrow).symm ▸ Nat.one_pos)
    rw [heq] at hread
    obtain ⟨row', hrow', hsame⟩ := List.mem_map.mp hread
    have hbehind := behind_of_mem_keysetPages (hnodup m) (hends m hm) hpos hrow' _ rfl
    have hnewest : newest q row' = newest q row := congrArg OrderDual.toDual hsame
    rw [show parseCursor none = (some maxSafeInteger, highestId) from rfl, precedes_eq, ← hnewest]
    exact decide_eq_true hbehind
  · intro hall
    refine ⟨exists_completes hn hpos hlist hnew, ?_, ?_⟩
    · intro m hm
      have hsorted := pairwise_keysetPages hpos (hnodup m) (hends m hm)
      have hkeys : (((visits q limit none ((List.range m).map stores)).flatMap Page.items).map
          key).Pairwise fun a b => b < a := by
        rw [heq, List.pairwise_map]
        exact hsorted.imp fun hlt => hlt
      exact List.pairwise_map.mp hkeys
    · intro m hm row hrow
      have hcount := count_keysetPages (k := newest q row) hpos (hnodup m) (hends m hm)
        (fun x hx => by
          obtain rfl := Option.some.inj hx
          have hprecedes := hall row hrow
          rw [show parseCursor none = (some maxSafeInteger, highestId) from rfl,
            precedes_eq] at hprecedes
          exact of_decide_eq_true hprecedes)
        (fun rows hrows => by
          obtain ⟨i, rfl, -⟩ := Listable.nodup_visited hlist hrows
          obtain ⟨row', hrow', hsame⟩ := List.mem_map.mp (hstay i row hrow)
          exact List.mem_map.mpr ⟨row', hrow', congrArg OrderDual.toDual hsame⟩)
      have hdual : newest q = OrderDual.toDual ∘ q.key := rfl
      rw [hdual, ← List.map_map, Function.comp_apply,
        List.count_map_of_injective _ _ OrderDual.toDual.injective] at hcount
      rw [heq]
      exact hcount

end Reads

/-! ### The three lists -/

section Lists

variable {json : JsonFunctions} {store : Store}

theorem nodup_keys {ρ : Type} {rows : List (Text × ρ)} (h : (rows.map Prod.fst).Nodup)
    (time : Text × ρ → ℤ) : (rows.map fun p => toLex (time p, p.1)).Nodup := by
  refine List.Nodup.of_map (fun k => (ofLex k).2) ?_
  rw [List.map_map]
  exact h

theorem listable_allSpans (store : Store) : Listable allSpans store where
  nodup := nodup_keys store.spans.nodup _
  ungrouped _ := rfl

theorem listable_allErrors (store : Store) : Listable allErrors store where
  nodup := nodup_keys store.errors.nodup _
  ungrouped _ := rfl

theorem listable_traces (h : OneRoot store) : Listable (traces json) store where
  nodup := by
    refine List.Nodup.of_map (fun k => (ofLex k).2) ?_
    rw [List.map_map]
    exact List.pairwise_map.mpr h
  ungrouped p := List.pwFilter_eq_self.mpr (h.sublist List.filter_sublist)

section Extends

variable {later : Store} (h : Extends store later)

include h

theorem stay_allSpans {row : Text × Span} (hrow : row ∈ allSpans.rows store) :
    allSpans.key row ∈ (allSpans.rows later).map allSpans.key := by
  obtain ⟨span', hspan', hsame⟩ := h.spans row.1 row.2 (Table.mem_rows_iff.mp hrow)
  refine List.mem_map.mpr ⟨(row.1, span'), Table.mem_rows_iff.mpr hspan', ?_⟩
  exact congrArg (fun t : Timestamp => toLex ((t : ℤ), row.1)) hsame.startTime

theorem stay_traces {row : Text × Span} (hrow : row ∈ (traces json).rows store) :
    (traces json).key row ∈ ((traces json).rows later).map (traces json).key := by
  obtain ⟨hmem, hroot⟩ := List.mem_filter.mp hrow
  obtain ⟨span', hspan', hsame⟩ := h.spans row.1 row.2 (Table.mem_rows_iff.mp hmem)
  refine List.mem_map.mpr ⟨(row.1, span'), List.mem_filter.mpr
    ⟨Table.mem_rows_iff.mpr hspan', ?_⟩, ?_⟩
  · rw [← hroot]
    exact decide_eq_decide.mpr (by rw [hsame.parentSpanId])
  · exact congrArg₂ (fun (t : Timestamp) (id : Text) => toLex ((t : ℤ), id)) hsame.startTime
      hsame.traceId

theorem stay_allErrors {row : Text × ErrorRow} (hrow : row ∈ allErrors.rows store) :
    allErrors.key row ∈ (allErrors.rows later).map allErrors.key :=
  List.mem_map_of_mem (Table.mem_rows_iff.mpr (h.errors row.1 row.2 (Table.mem_rows_iff.mp hrow)))

theorem new_allSpans {row : Text × Span} (hrow : row ∈ allSpans.rows later) :
    allSpans.key row ∈ (allSpans.rows store).map allSpans.key ∨
      ∀ old ∈ allSpans.rows store, allSpans.key old < allSpans.key row := by
  rcases h.newSpans row.1 row.2 (Table.mem_rows_iff.mp hrow) with ⟨old, hold, hsame⟩ | hlater
  · refine .inl (List.mem_map.mpr ⟨(row.1, old), Table.mem_rows_iff.mpr hold, ?_⟩)
    exact congrArg (fun t : Timestamp => toLex ((t : ℤ), row.1)) hsame.startTime.symm
  · exact .inr fun old hold => Prod.Lex.toLex_lt_toLex.mpr (.inl (hlater old hold))

theorem new_traces {row : Text × Span} (hrow : row ∈ (traces json).rows later) :
    (traces json).key row ∈ ((traces json).rows store).map (traces json).key ∨
      ∀ old ∈ (traces json).rows store, (traces json).key old < (traces json).key row := by
  obtain ⟨hmem, hroot⟩ := List.mem_filter.mp hrow
  rcases h.newSpans row.1 row.2 (Table.mem_rows_iff.mp hmem) with ⟨old, hold, hsame⟩ | hlater
  · refine .inl (List.mem_map.mpr ⟨(row.1, old), List.mem_filter.mpr
      ⟨Table.mem_rows_iff.mpr hold, ?_⟩, ?_⟩)
    · rw [← hroot]
      exact decide_eq_decide.mpr (by rw [hsame.parentSpanId])
    · exact congrArg₂ (fun (t : Timestamp) (id : Text) => toLex ((t : ℤ), id))
        hsame.startTime.symm hsame.traceId.symm
  · exact .inr fun old hold =>
      Prod.Lex.toLex_lt_toLex.mpr (.inl (hlater old (List.mem_filter.mp hold).1))

theorem new_allErrors {row : Text × ErrorRow} (hrow : row ∈ allErrors.rows later) :
    allErrors.key row ∈ (allErrors.rows store).map allErrors.key ∨
      ∀ old ∈ allErrors.rows store, allErrors.key old < allErrors.key row := by
  rcases h.newErrors row.1 row.2 (Table.mem_rows_iff.mp hrow) with hold | hlater
  · exact .inl (List.mem_map_of_mem (Table.mem_rows_iff.mpr hold))
  · exact .inr fun old hold => Prod.Lex.toLex_lt_toLex.mpr (.inl (hlater old hold))

end Extends

/-- An entry is in front of the cursor that stands for the start. -/
def BeforeStart (time : Timestamp) (id : Text) : Prop :=
  (time : ℤ) < maxSafeInteger ∨ (time : ℤ) = maxSafeInteger ∧ id < highestId

instance (time : Timestamp) (id : Text) : Decidable (BeforeStart time id) :=
  inferInstanceAs (Decidable (_ ∨ _))

theorem forall_precedes_iff {ρ ι : Type} (q : Query ρ ι) :
    (∀ row ∈ q.rows store, q.precedes (parseCursor none) row = true) ↔
      ∀ row ∈ q.rows store, BeforeStart (q.time row) (q.id row) :=
  forall₂_congr fun _ _ => decide_eq_true_iff

/-- **Following the cursors.** While nothing is deleted and only newer spans and errors are written,
the reader of the traces, of the spans and of the errors comes to an end, reads the newest first,
and reads each entry that was there at the start once, exactly if all of them are in front of the
cursor that stands for the start. -/
theorem reads_spec (json : JsonFunctions) (store : Store) (calls : ℕ → List Call)
    (limit : Option ℕ) (hlimit : 1 ≤ limit.getD 50)
    (hkeeps : ∀ i, KeepsAll json (storeAt json store calls i) (calls i))
    (hnewer : ∀ i, ∀ call ∈ calls i, call.Newer store)
    (hroot : ∀ i, OneRoot (storeAt json store calls i)) :
    (Reads (traces json) limit TraceSummary.key (storeAt json store calls) ↔
      ∀ p ∈ store.spans.rows, p.2.parentSpanId = none →
        BeforeStart p.2.startTime p.2.traceId) ∧
    (Reads allSpans limit SpanItem.key (storeAt json store calls) ↔
      ∀ p ∈ store.spans.rows, BeforeStart p.2.startTime p.1) ∧
    (Reads allErrors limit ErrorItem.key (storeAt json store calls) ↔
      ∀ p ∈ store.errors.rows, BeforeStart p.2.timestamp p.1) := by
  have hextends := extends_storeAt hkeeps hnewer
  refine ⟨?_, ?_, ?_⟩
  · rw [reads_iff hlimit (fun _ _ => rfl) (fun i => listable_traces (hroot i))
      (fun i _ => stay_traces (hextends i)) (fun i _ => new_traces (hextends i)),
      forall_precedes_iff]
    refine forall_congr' fun p => ?_
    rw [← and_imp]
    exact imp_congr_left (List.mem_filter.trans (and_congr_right' decide_eq_true_iff))
  · rw [reads_iff hlimit (fun _ _ => rfl) (fun i => listable_allSpans _)
      (fun i _ => stay_allSpans (hextends i)) (fun i _ => new_allSpans (hextends i)),
      forall_precedes_iff]
    exact Iff.rfl
  · rw [reads_iff hlimit (fun _ _ => rfl) (fun i => listable_allErrors _)
      (fun i _ => stay_allErrors (hextends i)) (fun i _ => new_allErrors (hextends i)),
      forall_precedes_iff]
    exact Iff.rfl

end Lists

/-- A database without JSON functions. -/
private def noJson : JsonFunctions := { generationId := fun _ => none, patch := fun text _ => text }

/-- Two root spans of one time. -/
private def twoSpans : Store where
  spans := (Table.empty.insert "a".toList
      { traceId := "t".toList, startTime := ⟨5, by decide⟩ }).insert
    "b".toList { traceId := "u".toList, startTime := ⟨5, by decide⟩ }
  rootSpanCount := 2

/-- A newer one is written behind the first page. -/
private def newerSpan (i : ℕ) : List Call :=
  if i = 0 then [.insertSpan "c".toList { traceId := "v".toList, startTime := ⟨6, by decide⟩ }]
  else []

private theorem storeAt_newerSpan (i : ℕ) :
    storeAt noJson twoSpans newerSpan (i + 1) =
      insertSpan twoSpans "c".toList { traceId := "v".toList, startTime := ⟨6, by decide⟩ } := by
  induction i with
  | zero => rfl
  | succ i ih => exact ih

/-- Two spans of one time are read one by one while a newer one is written. -/
theorem reads_spec_twoSpans :
    Reads (traces noJson) (some 1) TraceSummary.key (storeAt noJson twoSpans newerSpan) ∧
      Reads allSpans (some 1) SpanItem.key (storeAt noJson twoSpans newerSpan) ∧
      Reads allErrors (some 1) ErrorItem.key (storeAt noJson twoSpans newerSpan) := by
  obtain ⟨htraces, hspans, herrors⟩ := reads_spec noJson twoSpans newerSpan (some 1) (by decide)
    (fun i => by
      cases i with
      | zero => exact ⟨keeps_run (by decide) (by decide) id, trivial⟩
      | succ i => trivial)
    (fun i call hcall => by
      cases i with
      | zero =>
          obtain rfl := List.mem_singleton.mp hcall
          show ∀ p ∈ twoSpans.spans.rows, p.2.startTime < _
          decide
      | succ i => cases hcall)
    (fun i => by
      cases i with
      | zero => decide
      | succ i =>
          rw [storeAt_newerSpan]
          decide)
  exact ⟨htraces.mpr (by decide), hspans.mpr (by decide), herrors.mpr (by decide)⟩

/-- An error at the highest timestamp, under the id that stands for the highest one. -/
private def highestError : Store where
  errors := Table.empty.insert highestId { timestamp := ⟨maxSafeInteger, by decide⟩ }

private theorem storeAt_nil (store : Store) (i : ℕ) :
    storeAt noJson store (fun _ => []) i = store := by
  induction i with
  | zero => rfl
  | succ i ih => exact ih

/-- An error at the highest timestamp is not read. -/
theorem not_reads : ¬ ∀ (json : JsonFunctions) (store : Store) (calls : ℕ → List Call)
    (limit : Option ℕ), 1 ≤ limit.getD 50 →
    (∀ i, KeepsAll json (storeAt json store calls i) (calls i)) →
    (∀ i, ∀ call ∈ calls i, call.Newer store) →
    (∀ i, OneRoot (storeAt json store calls i)) →
    Reads (traces json) limit TraceSummary.key (storeAt json store calls) ∧
      Reads allSpans limit SpanItem.key (storeAt json store calls) ∧
      Reads allErrors limit ErrorItem.key (storeAt json store calls) := by
  intro hall
  obtain ⟨-, -, hreads⟩ := hall noJson highestError (fun _ => []) (some 1) (by decide)
    (fun _ => trivial) (fun _ _ hcall => by cases hcall)
    (fun i => by
      rw [storeAt_nil]
      decide)
  rw [reads_iff (by decide) (fun _ _ => rfl) (fun i => listable_allErrors _)
    (fun i row hrow => by
      rw [storeAt_nil] at hrow ⊢
      exact List.mem_map_of_mem hrow)
    (fun i row hrow => by
      rw [storeAt_nil] at hrow ⊢
      exact .inl (List.mem_map_of_mem hrow)), forall_precedes_iff] at hreads
  exact absurd hreads (by decide)

end Lopata.Tracing

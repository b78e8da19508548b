import Mathlib.Data.Finset.Card
import Mathlib.Data.List.Basic
import Mathlib.Data.List.Nodup

/-!
# Keyed Tables

A `Table κ ρ` is a relational table with a primary key: a list of rows in insertion order
in which no key occurs twice. The key condition is a field of the structure, so a table
with two rows of one key cannot be built, and lookups, updates and counts never have to
re-establish it.

The operations are those of a keyed SQL table: `insert` is `INSERT OR REPLACE` (a replaced
row moves to the end), `mapRows` an unconditional `UPDATE`, `modify` an `UPDATE ... WHERE
key = ?`, `filter` a `DELETE` of the rows the predicate rejects, `count` a
`SELECT COUNT(*) ... WHERE`.

## Main results

* `Table.mem_rows_iff`: the rows are exactly the graph of `get?`.
* `Table.get?_insert`, `Table.get?_modify`, `Table.get?_filter`: lookups after an update.
* `Table.card_support`: a count is the number of keys whose row satisfies the predicate.
* `Table.count_filter_eq`: removing rows a count ignores keeps it.
-/

namespace Lopata

/-- A table with a primary key: rows in insertion order, no key twice. -/
structure Table (κ : Type*) (ρ : Type*) where
  /-- The rows, oldest first. -/
  rows : List (κ × ρ)
  /-- The primary key. -/
  nodup : (rows.map Prod.fst).Nodup

namespace Table

variable {κ ρ : Type*}

/-- The table without rows. -/
def empty : Table κ ρ := ⟨[], List.nodup_nil⟩

/-- Rewrite every row, keys unchanged. -/
def mapRows (t : Table κ ρ) (f : κ → ρ → ρ) : Table κ ρ where
  rows := t.rows.map fun p => (p.1, f p.1 p.2)
  nodup := by
    rw [List.map_map]
    exact t.nodup

/-- Keep the rows that satisfy `q`. -/
def filter (t : Table κ ρ) (q : κ → ρ → Bool) : Table κ ρ where
  rows := t.rows.filter fun p => q p.1 p.2
  nodup := (List.filter_sublist.map Prod.fst).nodup t.nodup

/-- The number of rows that satisfy `q`. -/
def count (t : Table κ ρ) (q : ρ → Bool) : ℕ :=
  t.rows.countP fun p => q p.2

/-- Removing rows the count ignores keeps it. -/
theorem count_filter_eq {t : Table κ ρ} {p : κ → ρ → Bool} {q : ρ → Bool}
    (h : ∀ k r, p k r = false → q r = false) : (t.filter p).count q = t.count q := by
  simp only [count, filter, List.countP_filter]
  refine List.countP_congr ?_
  rintro ⟨k, r⟩ -
  have hkr := h k r
  cases hp : p k r <;> simp_all

/-- The keys of the rows that satisfy `q`. -/
def support (t : Table κ ρ) (q : ρ → Bool) : Finset κ where
  val := (t.rows.filter fun p => q p.2).map Prod.fst
  nodup := (List.filter_sublist.map Prod.fst).nodup t.nodup

/-- The support is as large as the count. -/
theorem card_support (t : Table κ ρ) (q : ρ → Bool) : (t.support q).card = t.count q := by
  show ((t.rows.filter fun p => q p.2).map Prod.fst).length = t.count q
  rw [List.length_map, count, List.countP_eq_length_filter]

variable [DecidableEq κ]

/-- The row under a key. -/
def get? (t : Table κ ρ) (k : κ) : Option ρ :=
  (t.rows.find? fun p => p.1 = k).map Prod.snd

/-- Rewrite the row under a key, if there is one. -/
def modify (t : Table κ ρ) (k : κ) (f : ρ → ρ) : Table κ ρ :=
  t.mapRows fun k' r => if k' = k then f r else r

/-- Remove the row under a key. -/
def erase (t : Table κ ρ) (k : κ) : Table κ ρ :=
  t.filter fun k' _ => k' ≠ k

/-- Append a row, replacing the one under its key. -/
def insert (t : Table κ ρ) (k : κ) (r : ρ) : Table κ ρ where
  rows := (t.erase k).rows ++ [(k, r)]
  nodup := by
    rw [List.map_append, List.nodup_append]
    refine ⟨(t.erase k).nodup, List.nodup_singleton k, ?_⟩
    rintro a ha b hb
    obtain ⟨⟨k', r'⟩, hmem, rfl⟩ := List.mem_map.mp ha
    obtain rfl := List.mem_singleton.mp hb
    have := (List.mem_filter.mp hmem).2
    simpa using this

/-! ### Lookups -/

/-- The rows are exactly the graph of the lookup. -/
theorem mem_rows_iff {t : Table κ ρ} {k : κ} {r : ρ} :
    (k, r) ∈ t.rows ↔ t.get? k = some r := by
  obtain ⟨rows, hnd⟩ := t
  simp only [get?]
  induction rows with
  | nil => simp
  | cons p rows ih =>
    obtain ⟨hp, hnd'⟩ := List.nodup_cons.mp hnd
    by_cases hk : p.1 = k
    · have hout : (k, r) ∉ rows := by
        intro h
        exact hp (hk ▸ List.mem_map_of_mem h)
      obtain ⟨p₁, p₂⟩ := p
      obtain rfl := hk
      simp [hout, eq_comm]
    · have hne : (k, r) ≠ p := by
        rintro rfl
        exact hk rfl
      simp [hk, hne, ih hnd']

/-- A looked-up row is a row. -/
theorem mem_of_get? {t : Table κ ρ} {k : κ} {r : ρ} (h : t.get? k = some r) :
    (k, r) ∈ t.rows :=
  mem_rows_iff.mpr h

@[simp] theorem get?_empty (k : κ) : (empty : Table κ ρ).get? k = none := rfl

@[simp] theorem get?_mapRows (t : Table κ ρ) (f : κ → ρ → ρ) (k : κ) :
    (t.mapRows f).get? k = (t.get? k).map (f k) := by
  ext r
  rw [← mem_rows_iff]
  simp only [mapRows, List.mem_map, Prod.exists, Prod.mk.injEq, Option.map_eq_some_iff,
    ← mem_rows_iff]
  constructor
  · rintro ⟨k', r', hmem, rfl, rfl⟩
    exact ⟨r', hmem, rfl⟩
  · rintro ⟨r', hmem, rfl⟩
    exact ⟨k, r', hmem, rfl, rfl⟩

@[simp] theorem get?_filter (t : Table κ ρ) (q : κ → ρ → Bool) (k : κ) :
    (t.filter q).get? k = (t.get? k).filter (q k) := by
  ext r
  rw [← mem_rows_iff]
  simp only [filter, List.mem_filter, mem_rows_iff, Option.filter_eq_some_iff]

theorem get?_modify (t : Table κ ρ) (k : κ) (f : ρ → ρ) (k' : κ) :
    (t.modify k f).get? k' = if k' = k then (t.get? k').map f else t.get? k' := by
  rw [modify, get?_mapRows]
  by_cases h : k' = k
  · simp [h]
  · cases hg : t.get? k' <;> simp [h]

@[simp] theorem get?_modify_self (t : Table κ ρ) (k : κ) (f : ρ → ρ) :
    (t.modify k f).get? k = (t.get? k).map f := by
  rw [get?_modify, if_pos rfl]

theorem get?_modify_of_ne (t : Table κ ρ) {k k' : κ} (f : ρ → ρ) (h : k' ≠ k) :
    (t.modify k f).get? k' = t.get? k' := by
  rw [get?_modify, if_neg h]

theorem get?_erase (t : Table κ ρ) (k k' : κ) :
    (t.erase k).get? k' = if k' = k then none else t.get? k' := by
  rw [erase, get?_filter]
  by_cases h : k' = k
  · cases hg : t.get? k' <;> simp [h]
  · cases hg : t.get? k' <;> simp [h]

/-- What is left was there. -/
theorem of_get?_erase {t : Table κ ρ} {k k' : κ} {r : ρ} (h : (t.erase k).get? k' = some r) :
    k' ≠ k ∧ t.get? k' = some r := by
  rw [get?_erase] at h
  split at h
  · cases h
  · next hne => exact ⟨hne, h⟩

theorem get?_insert (t : Table κ ρ) (k : κ) (r : ρ) (k' : κ) :
    (t.insert k r).get? k' = if k' = k then some r else t.get? k' := by
  have herase := get?_erase t k k'
  simp only [get?, insert] at herase ⊢
  rw [List.find?_append]
  by_cases h : k' = k
  · subst h
    rw [if_pos rfl, Option.map_eq_none_iff] at herase
    simp [herase]
  · rw [if_neg h] at herase ⊢
    rw [← herase]
    simp [Ne.symm h]

/-- What is there afterwards is what was inserted or was there. -/
theorem of_get?_insert {t : Table κ ρ} {k k' : κ} {r r' : ρ}
    (h : (t.insert k r).get? k' = some r') :
    k' = k ∧ r = r' ∨ k' ≠ k ∧ t.get? k' = some r' := by
  rw [get?_insert] at h
  split at h
  · next heq => exact .inl ⟨heq, Option.some.inj h⟩
  · next hne => exact .inr ⟨hne, h⟩

@[simp] theorem get?_insert_self (t : Table κ ρ) (k : κ) (r : ρ) :
    (t.insert k r).get? k = some r := by
  rw [get?_insert, if_pos rfl]

theorem get?_insert_of_ne (t : Table κ ρ) {k k' : κ} (r : ρ) (h : k' ≠ k) :
    (t.insert k r).get? k' = t.get? k' := by
  rw [get?_insert, if_neg h]

/-- Tables agree on a set of keys if each has the rows of the other there. -/
theorem forall_get?_eq_iff {t t' : Table κ ρ} {p : κ → Prop} :
    (∀ k, p k → t.get? k = t'.get? k) ↔
      (∀ row ∈ t.rows, p row.1 → t'.get? row.1 = some row.2) ∧
        ∀ row ∈ t'.rows, p row.1 → t.get? row.1 = some row.2 := by
  constructor
  · intro h
    constructor
    · rintro ⟨k, r⟩ hrow hk
      exact (h k hk).symm.trans (mem_rows_iff.mp hrow)
    · rintro ⟨k, r⟩ hrow hk
      exact (h k hk).trans (mem_rows_iff.mp hrow)
  · rintro ⟨hleft, hright⟩ k hk
    ext r
    constructor
    · intro hr
      exact hleft (k, r) (mem_rows_iff.mpr hr) hk
    · intro hr
      exact hright (k, r) (mem_rows_iff.mpr hr) hk

/-! ### Sizes -/

/-- Erasing a row makes a table one row shorter. -/
theorem length_erase {t : Table κ ρ} {k : κ} {r : ρ} (h : t.get? k = some r) :
    (t.erase k).rows.length + 1 = t.rows.length := by
  have hmem := mem_of_get? h
  obtain ⟨rows, hnd⟩ := t
  simp only [erase, filter] at hmem ⊢
  induction rows with
  | nil => cases hmem
  | cons p rows ih =>
    obtain ⟨hp, hnd'⟩ := List.nodup_cons.mp hnd
    rcases List.mem_cons.mp hmem with rfl | hmem
    · have hkeep : ∀ q ∈ rows, decide (q.1 ≠ k) = true := by
        intro q hq
        simp only [ne_eq, decide_not, Bool.not_eq_true', decide_eq_false_iff_not]
        intro heq
        have hmap := List.mem_map_of_mem (f := Prod.fst) hq
        exact hp (heq ▸ hmap)
      rw [List.filter_cons_of_neg (by simp), List.filter_eq_self.mpr hkeep, List.length_cons]
    · have hne : p.1 ≠ k := by
        intro heq
        exact hp (heq ▸ List.mem_map_of_mem hmem)
      rw [List.filter_cons_of_pos (by simpa using hne), List.length_cons, List.length_cons]
      have hrest := ih hnd' (mem_rows_iff.mp hmem) hmem
      omega

/-- The rows are the one under a key and those that are left without it. -/
theorem perm_erase {t : Table κ ρ} {k : κ} {r : ρ} (h : t.get? k = some r) :
    t.rows.Perm ((k, r) :: (t.erase k).rows) := by
  have hnew : (k, r) ∉ (t.erase k).rows := fun hmem => (of_get?_erase (mem_rows_iff.mp hmem)).1 rfl
  refine (List.perm_ext_iff_of_nodup t.nodup.of_map
    (List.nodup_cons.mpr ⟨hnew, (t.erase k).nodup.of_map⟩)).mpr ?_
  rintro ⟨k', r'⟩
  rw [List.mem_cons, mem_rows_iff, mem_rows_iff, get?_erase]
  by_cases hk : k' = k
  · subst hk
    rw [h, if_pos rfl]
    simp [eq_comm]
  · simp [hk]

/-- A key that is not there has nothing to erase. -/
theorem rows_erase_of_get?_eq_none {t : Table κ ρ} {k : κ} (h : t.get? k = none) :
    (t.erase k).rows = t.rows := by
  refine List.filter_eq_self.mpr ?_
  rintro ⟨k', r⟩ hrow
  simp only [ne_eq, decide_not, Bool.not_eq_true', decide_eq_false_iff_not]
  rintro rfl
  cases h.symm.trans (mem_rows_iff.mp hrow)

/-- Replacing a row keeps the size of a table. -/
theorem length_insert_of_get?_eq_some {t : Table κ ρ} {k : κ} {r r' : ρ} (h : t.get? k = some r) :
    (t.insert k r').rows.length = t.rows.length := by
  show ((t.erase k).rows ++ [(k, r')]).length = _
  rw [List.length_append, List.length_singleton, length_erase h]

/-- Inserting a new row makes a table one row longer. -/
theorem rows_insert_of_get?_eq_none {t : Table κ ρ} {k : κ} {r : ρ} (h : t.get? k = none) :
    (t.insert k r).rows = t.rows ++ [(k, r)] := by
  show (t.erase k).rows ++ [(k, r)] = _
  rw [rows_erase_of_get?_eq_none h]

omit [DecidableEq κ] in
/-- The rows are all there is to a table. -/
theorem eq_of_rows_eq {t t' : Table κ ρ} (h : t.rows = t'.rows) : t = t' := by
  obtain ⟨rows, hnodup⟩ := t
  obtain ⟨rows', hnodup'⟩ := t'
  obtain rfl : rows = rows' := h
  rfl

/-- A new row that is erased again leaves the table as it was. -/
theorem erase_insert_of_get?_eq_none {t : Table κ ρ} {k : κ} {r : ρ} (h : t.get? k = none) :
    (t.insert k r).erase k = t := by
  have hrows : ((t.insert k r).erase k).rows = t.rows := by
    show List.filter _ (t.insert k r).rows = _
    rw [rows_insert_of_get?_eq_none h, List.filter_append]
    have hsame : t.rows.filter (fun p => decide (p.1 ≠ k)) = t.rows :=
      rows_erase_of_get?_eq_none h
    rw [hsame, List.filter_singleton]
    simp
  exact eq_of_rows_eq hrows

/-- Lookups in a table without rows. -/
theorem get?_of_rows_eq_nil {t : Table κ ρ} (h : t.rows = []) (k : κ) : t.get? k = none := by
  rw [get?, h]
  rfl

/-- Lookups in a table with one row. -/
theorem get?_of_rows_eq_singleton {t : Table κ ρ} {k : κ} {r : ρ} (h : t.rows = [(k, r)])
    (k' : κ) : t.get? k' = if k' = k then some r else none := by
  rw [get?, h]
  by_cases hk : k = k'
  · simp [hk]
  · simp [hk, Ne.symm hk]

/-- The only row replaced. -/
theorem rows_insert_of_rows_eq_singleton {t : Table κ ρ} {k : κ} {r r' : ρ}
    (h : t.rows = [(k, r)]) : (t.insert k r').rows = [(k, r')] := by
  show t.rows.filter _ ++ [(k, r')] = _
  rw [h]
  simp

/-- The only row erased. -/
theorem rows_erase_of_rows_eq_singleton {t : Table κ ρ} {k : κ} {r : ρ}
    (h : t.rows = [(k, r)]) : (t.erase k).rows = [] := by
  show t.rows.filter _ = _
  rw [h]
  simp

/-! ### Counts -/

/-- A key is in the support if its row satisfies the predicate. -/
theorem mem_support {t : Table κ ρ} {q : ρ → Bool} {k : κ} :
    k ∈ t.support q ↔ ∃ r, t.get? k = some r ∧ q r = true := by
  show k ∈ (t.rows.filter fun p => q p.2).map Prod.fst ↔ _
  simp [← mem_rows_iff]

end Table

end Lopata

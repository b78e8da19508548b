import Lopata.KV.Listing

/-!
# The Views of a Namespace

Five reads tell whether a key is live: `get`, `getWithMetadata`, their bulk forms, and a listing
by cursor. Each decides for itself. They differ in two places: a bulk read finds its rows by the
strings that the texts of their keys become, and `list` tells `NULL` from `0` where the others ask
whether `expiration` is true.

## Main results

* `agree_iff`: the views agree on a key exactly when it comes back as itself from the table, and
  its row does not expire at the epoch, or no row of it is live.
* `not_agree`: they do not agree on a lone surrogate, nor on a row that expires at the epoch.
-/

namespace Lopata.KV

variable {limits : Limits}

/-- The entries of a listing that nothing interrupts. -/
def Listed (ns : Namespace limits) (now : Double) (limit : Option ℤ) (l : List ListKey) : Prop :=
  ∃ rounds : List Round, (∀ r ∈ rounds, r = ⟨[], now⟩) ∧
    Completes (visits [] limit [] ns rounds) ∧ entries (visits [] limit [] ns rounds) = l

/-- The views agree on a key: on whether it is live, on its value and on its metadata. -/
def Agree (ns : Namespace limits) (now : Double) (limit : Option ℤ) (key : Str) : Prop :=
  ∃ answer : Option (List Char × Option (List Char)),
    (get ns now key).1 = .ok (answer.map Prod.fst) ∧
    (∃ metadata, (getWithMetadata ns now key).1 = .ok (answer.map Prod.fst, metadata) ∧
      metadata.toOption = answer.bind Prod.snd) ∧
    (∀ keys, key ∈ keys → validateKeys limits keys = .ok () →
      ∃ map, (bulkGet ns now keys).1 = .ok map ∧ lookup map key = some (answer.map Prod.fst)) ∧
    (∀ keys, key ∈ keys → validateKeys limits keys = .ok () →
      ∃ map metadata, (bulkGetWithMetadata ns now keys).1 = .ok map ∧
        lookup map key = some (answer.map Prod.fst, metadata) ∧
        metadata.toOption = answer.bind Prod.snd) ∧
    ∀ l, Listed ns now limit l →
      ((∃ e ∈ l, e.name = key) ↔ answer.isSome) ∧
      ∀ e ∈ l, e.name = key → e.metadata.toOption = answer.bind Prod.snd

/-- A string that comes back as itself from the table: it has no surrogate without its other
half. -/
def WellFormed (key : Str) : Prop := encodeUtf16 (decodeUtf16 key) = key

instance (key : Str) : Decidable (WellFormed key) := inferInstanceAs (Decidable (_ = _))

/-! ### Expiry -/

/-- What `get` takes to be expired has an expiration other than zero. -/
theorem expired_iff {row : Row} {now : Double} :
    row.expired now = true ↔
      row.expiredSql now = true ∧ row.expiration ≠ some (.ofRat 0) := by
  unfold Row.expired Row.expiredSql Number.truthy Number.lt
  cases row.expiration with
  | none => simp
  | some x =>
    simp only [ne_eq, reduceCtorEq, not_false_eq_true, true_and, Bool.and_eq_true,
      decide_eq_true_eq, Option.any_some]
    exact and_comm

theorem expiredSql_eq_false_iff {row : Row} {now : Double} (h : row.expired now = false) :
    row.expiredSql now = false ↔
      (row.expiration = some (.ofRat 0) → now.value ≤ (Double.ofRat 0).value) := by
  have hnot : ¬ (row.expiredSql now = true ∧ row.expiration ≠ some (.ofRat 0)) := by
    rw [← expired_iff, h]
    exact Bool.false_ne_true
  constructor
  · intro hsql hzero
    rw [Row.expiredSql, hzero, Option.any_some, decide_eq_false_iff_not] at hsql
    exact not_lt.mp hsql
  · intro himp
    by_contra hsql
    have hsql : row.expiredSql now = true := Bool.eq_true_of_not_eq_false hsql
    have hzero : row.expiration = some (.ofRat 0) := by
      by_contra hne
      exact hnot ⟨hsql, hne⟩
    have hle := himp hzero
    rw [Row.expiredSql, hzero, Option.any_some, decide_eq_true_eq] at hsql
    exact absurd hsql (not_lt.mpr hle)

theorem toOption_metadataOr (row : Row) :
    (row.metadataOr .undefined).toOption = (row.metadataOr .null).toOption := by
  unfold Row.metadataOr
  split <;> rfl

/-! ### The bulk reads -/

theorem lookup_map_of_mem {α : Type*} {f : Str → α} {keys : List Str} {key : Str}
    (h : key ∈ keys) : lookup (keys.map fun k => (k, f k)) key = some (f key) := by
  induction keys with
  | nil => cases h
  | cons k keys ih =>
    by_cases hk : k = key
    · subst hk
      simp [lookup]
    · have hmem : key ∈ keys := (List.mem_cons.mp h).resolve_left (Ne.symm hk)
      have hrest := ih hmem
      rw [lookup] at hrest ⊢
      rwa [List.map_cons, List.find?_cons_of_neg (by simpa using hk)]

/-- A bulk read finds a row by the string that its key becomes. -/
theorem lookup_rowMap {ns : Namespace limits} {now : Double} {keys : List Str} {key : Str}
    (h : key ∈ keys) {row : Row} :
    lookup (rowMap ns now keys) key = some row ↔
      WellFormed key ∧ ns.rows.get? (decodeUtf16 key) = some row ∧ row.expired now = false := by
  have hnodup : ((rowMap ns now keys).map Prod.fst).Nodup := by
    rw [rowMap, List.map_map]
    have hkeys := (List.filter_sublist (p := fun p : List Char × Row =>
      decide (p.1 ∈ keys.map decodeUtf16) && !p.2.expired now)).map Prod.fst |>.nodup ns.rows.nodup
    have hmap := hkeys.map encodeUtf16_injective
    rwa [List.map_map] at hmap
  have hget : lookup (rowMap ns now keys) key =
    (⟨rowMap ns now keys, hnodup⟩ : Table Str Row).get? key := rfl
  rw [hget, ← Table.mem_rows_iff]
  show (key, row) ∈ rowMap ns now keys ↔ _
  rw [rowMap, List.mem_map]
  constructor
  · rintro ⟨⟨text, r⟩, hmem, heq⟩
    obtain ⟨hkey, rfl⟩ := Prod.mk.inj heq
    obtain ⟨hrow, hcond⟩ := List.mem_filter.mp hmem
    rw [Bool.and_eq_true, Bool.not_eq_true'] at hcond
    have htext : decodeUtf16 key = text := by
      rw [← hkey, decodeUtf16_encodeUtf16]
    refine ⟨?_, ?_, hcond.2⟩
    · rw [WellFormed, htext, hkey]
    · rw [htext]
      exact Table.mem_rows_iff.mp hrow
  · rintro ⟨hwf, hrow, hexpired⟩
    refine ⟨(decodeUtf16 key, row), List.mem_filter.mpr ⟨Table.mem_rows_iff.mpr hrow, ?_⟩, ?_⟩
    · rw [Bool.and_eq_true, Bool.not_eq_true', decide_eq_true_iff]
      exact ⟨List.mem_map_of_mem h, hexpired⟩
    · rw [hwf]

/-! ### The listing -/

theorem rangeRows_purge (keyPrefix : Str) (now : Double) (ns : Namespace limits) :
    rangeRows keyPrefix now (purge ns now) = rangeRows keyPrefix now ns := by
  simp only [rangeRows, purge, Namespace.filter, Table.filter, List.filter_filter,
    Bool.and_self]

/-- Nothing changes between the pages of a listing that nothing interrupts. -/
theorem rangeRows_of_mem_visits {keyPrefix : Str} {limit : Option ℤ} {now : Double}
    {rounds : List Round} (h : ∀ r ∈ rounds, r = ⟨[], now⟩) {cursor : Str}
    {ns : Namespace limits} {v : Visit limits}
    (hv : v ∈ visits keyPrefix limit cursor ns rounds) :
    rangeRows keyPrefix v.now v.ns = rangeRows keyPrefix now ns := by
  induction rounds generalizing cursor ns with
  | nil => cases hv
  | cons r rounds ih =>
    obtain rfl := h r List.mem_cons_self
    rw [visits] at hv
    rcases List.mem_cons.mp hv with rfl | hv
    · rfl
    · split at hv
      · cases hv
      · rw [ih (fun r hr => h r (List.mem_cons_of_mem _ hr)) hv]
        exact rangeRows_purge keyPrefix now ns

/-- Such a listing has the rows that are not expired. -/
theorem mem_listed_iff {ns : Namespace limits} {now : Double} {limit : Option ℤ}
    (hlimit : 1 ≤ limit.getD 1000) {l : List ListKey} (h : Listed ns now limit l) {e : ListKey} :
    e ∈ l ↔ ∃ key row, ns.rows.get? key = some row ∧ row.expiredSql now = false ∧
      ListKey.ofRow (key, row) = e := by
  obtain ⟨rounds, hidle, hdone, rfl⟩ := h
  obtain ⟨n, hpos, hn⟩ := exists_effectiveLimit hlimit
  have hends := (completes_iff hn hpos [] ns rounds).mp hdone
  have hsame : ∀ l ∈ snapshotRows [] (visits [] limit [] ns rounds),
      l = rangeRows [] now ns := by
    intro l hl
    obtain ⟨v, hv, rfl⟩ := List.mem_map.mp hl
    exact rangeRows_of_mem_visits hidle hv
  have hread : ∀ {p}, p ∈ (keysetPages Prod.fst n (bound [])
      (snapshotRows [] (visits [] limit [] ns rounds))).flatten → p ∈ rangeRows [] now ns := by
    intro p hp
    obtain ⟨l, hl, hmem⟩ := exists_mem_of_mem_keysetPages hp
    exact hsame l hl ▸ hmem
  rw [entries_eq hn hpos, List.mem_map]
  constructor
  · rintro ⟨⟨key, row⟩, hp, rfl⟩
    obtain ⟨hrow, hexpired, -⟩ := mem_rangeRows.mp (hread hp)
    exact ⟨key, row, Table.mem_rows_iff.mp hrow, hexpired, rfl⟩
  · rintro ⟨key, row, hrow, hexpired, rfl⟩
    have hmem : (key, row) ∈ rangeRows [] now ns :=
      mem_rangeRows.mpr ⟨Table.mem_rows_iff.mpr hrow, hexpired, .inl rfl⟩
    have hkey := mem_keysetPages (nodup_snapshotRows _ _) hends (k := key)
      (fun x hx => by cases hx) fun l hl => hsame l hl ▸ List.mem_map_of_mem hmem
    obtain ⟨⟨k, r⟩, hp, rfl⟩ := List.mem_map.mp hkey
    have hr := Table.mem_rows_iff.mp (mem_rangeRows.mp (hread hp)).1
    obtain rfl := Option.some.inj (hrow.symm.trans hr)
    exact ⟨(k, row), hp, rfl⟩

/-- A listing that nothing interrupts ends. -/
theorem exists_listed (ns : Namespace limits) (now : Double) {limit : Option ℤ}
    (hlimit : 1 ≤ limit.getD 1000) : ∃ l, Listed ns now limit l := by
  obtain ⟨n, hpos, hn⟩ := exists_effectiveLimit hlimit
  obtain ⟨m, hm⟩ := exists_keysetEnds Prod.fst (c := bound []) hpos
    (finite_keyFits limits) (f := fun i => rangeRows [] now (nsAt ns (fun _ => ⟨[], now⟩) i))
    fun i p hp _ => mem_keyFits_of_rangeRows hp
  refine ⟨_, _, ?_, completes_of_keysetEnds hn hpos [] ns (fun _ => ⟨[], now⟩) m hm, rfl⟩
  intro r hr
  obtain ⟨i, -, rfl⟩ := List.mem_map.mp hr
  rfl

/-- The name of an entry comes back as itself, and tells its row. -/
theorem exists_named_iff {ns : Namespace limits} {now : Double} {limit : Option ℤ}
    (hlimit : 1 ≤ limit.getD 1000) {l : List ListKey} (h : Listed ns now limit l) {key : Str} :
    (∃ e ∈ l, e.name = key) ↔ WellFormed key ∧
      ∃ row, ns.rows.get? (decodeUtf16 key) = some row ∧ row.expiredSql now = false := by
  constructor
  · rintro ⟨e, he, rfl⟩
    obtain ⟨text, row, hrow, hexpired, rfl⟩ := (mem_listed_iff hlimit h).mp he
    have htext : decodeUtf16 (ListKey.ofRow (text, row)).name = text := decodeUtf16_encodeUtf16 text
    rw [WellFormed, htext]
    exact ⟨rfl, row, hrow, hexpired⟩
  · rintro ⟨hwf, row, hrow, hexpired⟩
    exact ⟨_, (mem_listed_iff hlimit h).mpr ⟨_, row, hrow, hexpired, rfl⟩, hwf⟩

/-! ### Agreement -/

section Reads

variable {ns : Namespace limits} {now : Double} {key : Str}
  (hvalid : validateKey limits key = .ok ())

include hvalid

theorem get_of_none (h : ns.rows.get? (decodeUtf16 key) = none) :
    (get ns now key).1 = .ok none ∧ (getWithMetadata ns now key).1 = .ok (none, .null) := by
  simp only [get, getWithMetadata, hvalid, h, and_self]

variable (now) in
theorem get_of_some {row : Row} (h : ns.rows.get? (decodeUtf16 key) = some row) :
    (get ns now key).1 = .ok (if row.expired now then none else some (decodeText row.value)) ∧
    (getWithMetadata ns now key).1 =
      .ok (if row.expired now then (none, .null)
        else (some (decodeText row.value), row.metadataOr .null)) := by
  simp only [get, getWithMetadata, hvalid, h]
  constructor <;> split <;> rfl

end Reads

theorem bulkGet_eq (ns : Namespace limits) (now : Double) {keys : List Str} {key : Str}
    (hkey : key ∈ keys) (h : validateKeys limits keys = .ok ()) :
    ∃ map, (bulkGet ns now keys).1 = .ok map ∧ lookup map key =
      some ((lookup (rowMap ns now keys) key).map fun row => decodeText row.value) := by
  rw [bulkGet, h]
  exact ⟨_, rfl, lookup_map_of_mem (List.mem_eraseDups.mpr hkey)⟩

theorem bulkGetWithMetadata_eq (ns : Namespace limits) (now : Double) {keys : List Str}
    {key : Str} (hkey : key ∈ keys) (h : validateKeys limits keys = .ok ()) :
    ∃ map, (bulkGetWithMetadata ns now keys).1 = .ok map ∧ lookup map key =
      some (match lookup (rowMap ns now keys) key with
        | some row => (some (decodeText row.value), row.metadataOr .null)
        | none => (none, .null)) := by
  rw [bulkGetWithMetadata, h]
  exact ⟨_, rfl, lookup_map_of_mem (List.mem_eraseDups.mpr hkey)⟩

/-- A row that `get` takes to be live comes back under the key's string, and `list` takes it to
be live as well. -/
def Unambiguous (ns : Namespace limits) (now : Double) (key : Str) : Prop :=
  ∀ row, ns.rows.get? (decodeUtf16 key) = some row → row.expired now = false →
    WellFormed key ∧
      (row.expiration = some (.ofRat 0) → now.value ≤ (Double.ofRat 0).value)

section Agreement

variable {ns : Namespace limits} {now : Double} {limit : Option ℤ} {key : Str}

/-- Where `get` finds nothing live, no view does. -/
theorem agree_of_not_live (hvalid : validateKey limits key = .ok ())
    (hlimit : 1 ≤ limit.getD 1000)
    (h : ∀ row, ns.rows.get? (decodeUtf16 key) = some row → row.expired now = true) :
    Agree ns now limit key := by
  have hget : (get ns now key).1 = .ok none ∧
      (getWithMetadata ns now key).1 = .ok (none, .null) := by
    cases hrow : ns.rows.get? (decodeUtf16 key) with
    | none => exact get_of_none hvalid hrow
    | some row =>
      have hread := get_of_some now hvalid hrow
      rwa [if_pos (h row hrow), if_pos (h row hrow)] at hread
  have hlookup : ∀ keys, key ∈ keys → lookup (rowMap ns now keys) key = none := by
    intro keys hkey
    rw [Option.eq_none_iff_forall_ne_some]
    intro row hrow
    obtain ⟨-, hget, hexpired⟩ := (lookup_rowMap hkey).mp hrow
    cases (h row hget).symm.trans hexpired
  refine ⟨none, hget.1, ⟨.null, hget.2, rfl⟩, ?_, ?_, ?_⟩
  · intro keys hkey hkeys
    obtain ⟨map, hmap, hvalue⟩ := bulkGet_eq ns now hkey hkeys
    rw [hlookup keys hkey] at hvalue
    exact ⟨map, hmap, hvalue⟩
  · intro keys hkey hkeys
    obtain ⟨map, hmap, hvalue⟩ := bulkGetWithMetadata_eq ns now hkey hkeys
    rw [hlookup keys hkey] at hvalue
    exact ⟨map, .null, hmap, hvalue, rfl⟩
  · intro l hl
    have hnone : ¬ ∃ e ∈ l, e.name = key := by
      rw [exists_named_iff hlimit hl]
      rintro ⟨-, row, hrow, hsql⟩
      cases hsql.symm.trans (expired_iff.mp (h row hrow)).1
    refine ⟨⟨fun he => absurd he hnone, fun hsome => by cases hsome⟩, ?_⟩
    intro e he hname
    exact absurd ⟨e, he, hname⟩ hnone

/-- Where `get` finds a live row, the others do if it comes back under the key's string and SQL
takes it to be live. -/
theorem agree_of_live (hvalid : validateKey limits key = .ok ()) (hlimit : 1 ≤ limit.getD 1000)
    {row : Row} (hrow : ns.rows.get? (decodeUtf16 key) = some row)
    (hexpired : row.expired now = false) (hwf : WellFormed key)
    (hsql : row.expiredSql now = false) : Agree ns now limit key := by
  have hget := get_of_some now hvalid hrow
  rw [hexpired, if_neg Bool.false_ne_true, if_neg Bool.false_ne_true] at hget
  have hlookup : ∀ keys, key ∈ keys → lookup (rowMap ns now keys) key = some row :=
    fun keys hkey => (lookup_rowMap hkey).mpr ⟨hwf, hrow, hexpired⟩
  refine ⟨some (decodeText row.value, (row.metadataOr .null).toOption), hget.1,
    ⟨_, hget.2, rfl⟩, ?_, ?_, ?_⟩
  · intro keys hkey hkeys
    obtain ⟨map, hmap, hvalue⟩ := bulkGet_eq ns now hkey hkeys
    rw [hlookup keys hkey] at hvalue
    exact ⟨map, hmap, hvalue⟩
  · intro keys hkey hkeys
    obtain ⟨map, hmap, hvalue⟩ := bulkGetWithMetadata_eq ns now hkey hkeys
    rw [hlookup keys hkey] at hvalue
    exact ⟨map, _, hmap, hvalue, rfl⟩
  · intro l hl
    constructor
    · rw [exists_named_iff hlimit hl]
      exact ⟨fun _ => rfl, fun _ => ⟨hwf, row, hrow, hsql⟩⟩
    · intro e he hname
      obtain ⟨text, row', hrow', -, rfl⟩ := (mem_listed_iff hlimit hl).mp he
      have htext : decodeUtf16 key = text := by
        rw [← hname]
        exact decodeUtf16_encodeUtf16 text
      rw [← htext, hrow] at hrow'
      obtain rfl := Option.some.inj hrow'
      exact toOption_metadataOr row

/-- **The views of a key agree** exactly when a row that `get` takes to be live comes back under
the key's string and does not expire at the epoch. -/
theorem agree_iff (hvalid : validateKey limits key = .ok ()) (hlimit : 1 ≤ limit.getD 1000) :
    Agree ns now limit key ↔ Unambiguous ns now key := by
  constructor
  · rintro ⟨answer, hget, -, -, -, hlist⟩ row hrow hexpired
    have hlive := (get_of_some now hvalid hrow).1
    rw [hexpired, if_neg Bool.false_ne_true, hget] at hlive
    have hsome : answer.isSome = true := by
      cases answer with
      | none => cases hlive
      | some a => rfl
    obtain ⟨l, hl⟩ := exists_listed ns now hlimit
    obtain ⟨hwf, row', hrow', hsql⟩ := (exists_named_iff hlimit hl).mp ((hlist l hl).1.mpr hsome)
    obtain rfl := Option.some.inj (hrow.symm.trans hrow')
    exact ⟨hwf, (expiredSql_eq_false_iff hexpired).mp hsql⟩
  · intro h
    by_cases hlive : ∃ row, ns.rows.get? (decodeUtf16 key) = some row ∧ row.expired now = false
    · obtain ⟨row, hrow, hexpired⟩ := hlive
      obtain ⟨hwf, hzero⟩ := h row hrow hexpired
      exact agree_of_live hvalid hlimit hrow hexpired hwf
        ((expiredSql_eq_false_iff hexpired).mpr hzero)
    · refine agree_of_not_live hvalid hlimit fun row hrow => ?_
      by_contra hnot
      exact hlive ⟨row, hrow, Bool.eq_false_of_not_eq_true hnot⟩

end Agreement

/-- The views agree on a key with metadata that has been put with a time to live. -/
theorem agree_iff_session :
    let ns := Round.before (Namespace.empty {})
      ⟨[.put (.ofRat 0) (encodeUtf16 ['a']) [104, 105]
        { metadata := some "1".toList, expirationTtl := some (some (.ofRat 60)) }], .ofRat 0⟩
    validateKey {} (encodeUtf16 ['a']) = .ok () ∧ Agree ns (.ofRat 59) none (encodeUtf16 ['a']) :=
  ⟨by decide +kernel, (agree_iff (by decide +kernel) (by decide)).mpr (by
    rintro row hrow -
    have hput : row = ⟨[104, 105], some ['1'], some (.ofRat 60)⟩ :=
      Option.some.inj (hrow.symm.trans (by decide +kernel))
    subst hput
    exact ⟨by decide +kernel, fun hzero => absurd hzero (by decide +kernel)⟩)⟩

/-- A key that is a lone surrogate is live to `get` and not to the bulk read of it; a row whose
expiration is zero is live to `get` and not listed. -/
theorem not_agree :
    (¬ Agree (Round.before (Namespace.empty {})
      ⟨[.put (.ofRat 0) [0xD800] [118] {}], .ofRat 0⟩) (.ofRat 0) none [0xD800]) ∧
    ¬ Agree (Round.before (Namespace.empty {})
      ⟨[.put (.ofRat (-60)) (encodeUtf16 ['a']) [118]
        { expirationTtl := some (some (.ofRat 60)) }], .ofRat 0⟩) (.ofRat 1) none
          (encodeUtf16 ['a']) := by
  constructor
  · rintro ⟨answer, hget, -, hbulk, -⟩
    obtain ⟨map, hmap, hlookup⟩ := hbulk [[0xD800]] List.mem_cons_self (by decide +kernel)
    have hlive : answer.map Prod.fst = some ['v'] :=
      Except.ok.inj (hget.symm.trans (by decide +kernel))
    have hnone : map = [([0xD800], none)] := Except.ok.inj (hmap.symm.trans (by decide +kernel))
    rw [hlive, hnone] at hlookup
    exact absurd hlookup (by decide +kernel)
  · rintro ⟨answer, hget, -, -, -, hlist⟩
    have hlive : answer.map Prod.fst = some ['v'] :=
      Except.ok.inj (hget.symm.trans (by decide +kernel))
    have hsome : answer.isSome = true := by
      cases answer with
      | none => cases hlive
      | some a => rfl
    obtain ⟨e, he, -⟩ := (hlist [] ⟨[⟨[], .ofRat 1⟩], fun r hr => List.mem_singleton.mp hr,
      ⟨_, rfl, by decide +kernel⟩, by decide +kernel⟩).1.mpr hsome
    cases he

end Lopata.KV

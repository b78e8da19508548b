import Lopata.KV.Listing
import Lopata.Lib.Unicode

/-!
# Listing by Prefix

`list` asks for a range of keys: its end is the prefix with its last code unit plus one. The
program's strings are sequences of UTF-16 code units, the keys of the table are texts in UTF-8.

## Main results

* `listsExactly_iff`: when a listing has exactly the live keys that start with the prefix.
* `not_listsExactly`: a key is not found under itself.
-/

namespace Lopata.KV

variable {limits : Limits}

/-- The last code unit of the prefix has no next one of its kind. -/
def endsAtTop (keyPrefix : Str) : Bool :=
  keyPrefix.getLast?.any fun u => u = 0xFFFF || u = 0xDFFF || isHighSurrogate u

/-- The prefix or its last code unit plus one has a surrogate without its other half, which the
database takes for U+FFFD. -/
def blurred (keyPrefix : Str) : Bool :=
  !isWellFormed keyPrefix || keyPrefix.getLast? = some 0xD7FF

/-! ### The range of a text -/

theorem prefixEnd_append (s : Str) {t : Str} (ht : t ≠ []) :
    prefixEnd (s ++ t) = s ++ prefixEnd t := by
  rw [prefixEnd, List.dropLast_append_of_ne_nil ht, List.getLast?_append_of_ne_nil s ht,
    List.append_assoc, prefixEnd]

theorem charUnits_ne_nil (c : Char) : charUnits c ≠ [] := by
  rw [charUnits]
  split <;> exact List.cons_ne_nil _ _

theorem encodeUtf16_concat (text : List Char) (c : Char) :
    encodeUtf16 (text ++ [c]) = encodeUtf16 text ++ charUnits c := by
  rw [encodeUtf16_append, encodeUtf16_cons]
  exact congrArg _ (List.append_nil _)

theorem getLast?_encodeUtf16_concat (text : List Char) (c : Char) :
    (encodeUtf16 (text ++ [c])).getLast? = (charUnits c).getLast? := by
  rw [encodeUtf16_concat, List.getLast?_append_of_ne_nil _ (charUnits_ne_nil c)]

theorem inRange_text {text key : List Char} {c : Char} :
    InRange (encodeUtf16 (text ++ [c])) key ↔
      text ++ [c] ≤ key ∧ key < text ++ decodeUtf16 (prefixEnd (charUnits c)) := by
  have hne : encodeUtf16 (text ++ [c]) ≠ [] := by
    rw [encodeUtf16_concat]
    exact List.append_ne_nil_of_right_ne_nil _ (charUnits_ne_nil c)
  rw [InRange, or_iff_right hne, decodeUtf16_encodeUtf16, encodeUtf16_concat,
    prefixEnd_append _ (charUnits_ne_nil c), decodeUtf16_encodeUtf16_append]

/-- What the end of the range has for the last character of a text: something before it, U+FFFD
for a surrogate behind U+D7FF, or the next character. -/
inductive Next (c : Char) : Prop
  | before (htop : endsAtTop (charUnits c) = true)
      (hlt : decodeUtf16 (prefixEnd (charUnits c)) < [c])
  | surrogate (htop : endsAtTop (charUnits c) = false)
      (hlast : (charUnits c).getLast? = some 0xD7FF)
      (hend : decodeUtf16 (prefixEnd (charUnits c)) = [replacement]) (hlt : c < replacement)
  | succ (htop : endsAtTop (charUnits c) = false) (c' : Char)
      (hend : decodeUtf16 (prefixEnd (charUnits c)) = [c']) (hsucc : c'.toNat = c.toNat + 1)

theorem toNat_succ {u : UInt16} (h : u ≠ 0xFFFF) : (u + 1).toNat = u.toNat + 1 := by
  have hlt := u.toNat_lt
  have hne : u.toNat ≠ 0xFFFF := fun heq => h (UInt16.toNat_inj.mp heq)
  rw [UInt16.toNat_add]
  exact Nat.mod_eq_of_lt (by
    show u.toNat + 1 < 2 ^ 16
    omega)

theorem next_of_single {c : Char} {u : UInt16} (hunits : charUnits c = [u])
    (hchar : u.toNat = c.toNat) (hu : isHighSurrogate u = false)
    (hlow : isLowSurrogate u = false) : Next c := by
  have hend : decodeUtf16 (prefixEnd (charUnits c)) = [singleUnit (u + 1)] := by
    rw [hunits]
    rfl
  have hdfff : u ≠ 0xDFFF := by
    rintro rfl
    cases hlow
  have htop : endsAtTop (charUnits c) = decide (u = 0xFFFF) := by
    simp [hunits, endsAtTop, hu, hdfff]
  by_cases hffff : u = 0xFFFF
  · refine .before (htop.trans (decide_eq_true hffff)) ?_
    rw [hend, List.cons_lt_cons_iff, char_lt_iff, ← hchar, hffff]
    exact .inl (by decide)
  · have hnext := toNat_succ hffff
    rw [← Bool.not_eq_true, isHighSurrogate_iff] at hu
    rw [← Bool.not_eq_true, isLowSurrogate_iff] at hlow
    by_cases hd7ff : u = 0xD7FF
    · refine .surrogate (htop.trans (decide_eq_false hffff)) ?_ ?_ ?_
      · rw [hunits, hd7ff]
        rfl
      · rw [hend, hd7ff]
        rfl
      · rw [char_lt_iff, ← hchar, hd7ff]
        decide
    · have hne : u.toNat ≠ 0xD7FF := fun heq => hd7ff (UInt16.toNat_inj.mp heq)
      refine .succ (htop.trans (decide_eq_false hffff)) _ hend ?_
      rw [toNat_singleUnit (by omega), hnext, hchar]

theorem next_of_pair {c : Char} {u v : UInt16} (hunits : charUnits c = [u, v])
    (hu : isHighSurrogate u = true) (hv : isLowSurrogate v = true)
    (hchar : c.toNat = 0x10000 + (u.toNat - 0xD800) * 0x400 + (v.toNat - 0xDC00)) : Next c := by
  have hend : prefixEnd (charUnits c) = [u, v + 1] := by
    rw [hunits]
    rfl
  have hffff : v ≠ 0xFFFF := by
    rintro rfl
    cases hv
  have hlow := isLowSurrogate_iff.mp hv
  have hhigh : isHighSurrogate v = false := by
    rw [← Bool.not_eq_true, isHighSurrogate_iff]
    omega
  have htop : endsAtTop (charUnits c) = decide (v = 0xDFFF) := by
    simp [hunits, endsAtTop, hhigh, hffff]
  have hfirst := isHighSurrogate_iff.mp hu
  by_cases hdfff : v = 0xDFFF
  · have hpair : ¬ (isHighSurrogate u && isLowSurrogate (v + 1)) = true := by
      rw [hdfff, Bool.and_eq_true]
      rintro ⟨-, hnot⟩
      cases hnot
    have hsingle : decodeUtf16 [u, v + 1] = [singleUnit u, singleUnit (v + 1)] := if_neg hpair
    have hreplacement : replacement.toNat = 0xFFFD := rfl
    refine .before (htop.trans (decide_eq_true hdfff)) ?_
    rw [hend, hsingle, singleUnit_of_surrogate hfirst.1 (by omega), List.cons_lt_cons_iff,
      char_lt_iff, hreplacement, hchar]
    exact .inl (by omega)
  · have hnext := toNat_succ hffff
    have hne : v.toNat ≠ 0xDFFF := fun heq => hdfff (UInt16.toNat_inj.mp heq)
    have hpair : (isHighSurrogate u && isLowSurrogate (v + 1)) = true := by
      rw [hu, Bool.true_and, isLowSurrogate_iff, hnext]
      omega
    have hchars : decodeUtf16 (prefixEnd (charUnits c)) = [Char.ofNat
        (0x10000 + (u.toNat - 0xD800) * 0x400 + ((v + 1).toNat - 0xDC00))] := by
      rw [hend]
      exact if_pos hpair
    refine .succ (htop.trans (decide_eq_false hdfff)) _ hchars ?_
    · rw [toNat_charOfNat, hnext, hchar]
      · omega
      · unfold Nat.isValidChar
        omega

theorem next (c : Char) : Next c := by
  rcases charUnits_cases c with ⟨u, hunits, hchar, hu, hlow⟩ | ⟨u, v, hunits, hu, hv, hchar⟩
  · exact next_of_single hunits hchar hu hlow
  · exact next_of_pair hunits hu hv hchar

/-! ### Keys that start with the prefix -/

section Starts

variable {keyPrefix : Str} {key : List Char}

/-- A prefix of a key is a text, or a text and half a pair. -/
theorem text_or_half (h : keyPrefix <+: encodeUtf16 key) :
    (∃ text rest, keyPrefix = encodeUtf16 text ∧ key = text ++ rest) ∨
      ∃ text u, keyPrefix = encodeUtf16 text ++ [u] ∧ isHighSurrogate u = true := by
  obtain ⟨rest, hrest⟩ := h
  rcases List.eq_nil_or_concat' keyPrefix with rfl | ⟨s, u, rfl⟩
  · exact .inl ⟨[], key, rfl, rfl⟩
  · by_cases hu : isHighSurrogate u = true
    · rw [List.append_assoc] at hrest
      have hend : ∀ v ∈ s.getLast?, isHighSurrogate v = false := by
        intro v hv
        obtain ⟨s, rfl⟩ := List.getLast?_eq_some_iff.mp hv
        rw [List.append_assoc] at hrest
        by_contra hhigh
        have hlow := isLowSurrogate_of_append hrest ((Bool.not_eq_false _).mp hhigh)
        rw [isLowSurrogate_iff] at hlow
        rw [isHighSurrogate_iff] at hu
        omega
      obtain ⟨text, -, -, rfl, -⟩ := exists_of_append_eq_encodeUtf16 hrest hend
      exact .inr ⟨text, u, rfl, hu⟩
    · obtain ⟨text, rest', rfl, hs, -⟩ := exists_of_append_eq_encodeUtf16 hrest fun v hv => by
        rw [List.getLast?_concat, Option.mem_some_iff] at hv
        exact hv ▸ (Bool.not_eq_true _).mp hu
      exact .inl ⟨text, rest', hs, rfl⟩

theorem endsAtTop_text (text : List Char) (c : Char) :
    endsAtTop (encodeUtf16 (text ++ [c])) = endsAtTop (charUnits c) := by
  rw [endsAtTop, getLast?_encodeUtf16_concat, endsAtTop]

theorem le_of_starts {text key : List Char} (h : text <+: key) : text ≤ key := by
  obtain ⟨rest, rfl⟩ := h
  have hle : text ++ [] ≤ text ++ rest :=
    append_le_append_iff.mpr (not_lt.mp (List.not_lt_nil rest))
  rwa [List.append_nil] at hle

/-- The end of the range of a text with half a pair is its start. -/
theorem not_inRange_half (text : List Char) {u : UInt16} (hu : isHighSurrogate u = true)
    (key : List Char) : ¬ InRange (encodeUtf16 text ++ [u]) key := by
  rw [isHighSurrogate_iff] at hu
  have hne : u ≠ 0xFFFF := by
    rintro rfl
    exact absurd hu.2 (by decide)
  have hnext := toNat_succ hne
  have hend : decodeUtf16 (prefixEnd (encodeUtf16 text ++ [u])) = text ++ [replacement] := by
    have hlast : prefixEnd [u] = [u + 1] := rfl
    rw [prefixEnd_append _ (List.cons_ne_nil u []), decodeUtf16_encodeUtf16_append, hlast]
    exact congrArg (fun c => text ++ [c]) (singleUnit_of_surrogate (by omega) (by omega))
  have hstart : decodeUtf16 (encodeUtf16 text ++ [u]) = text ++ [replacement] := by
    rw [decodeUtf16_encodeUtf16_append]
    exact congrArg (fun c => text ++ [c]) (singleUnit_of_surrogate (by omega) (by omega))
  rw [InRange, or_iff_right (List.append_ne_nil_of_right_ne_nil _ (List.cons_ne_nil u [])), hend,
    hstart]
  exact fun h => absurd (h.1.trans_lt h.2) (lt_irrefl _)

/-- **Complete.** A key that starts with the prefix is in the range, unless the prefix ends at the
top. -/
theorem inRange_iff_of_starts (h : keyPrefix <+: encodeUtf16 key) :
    InRange keyPrefix key ↔ endsAtTop keyPrefix = false := by
  rcases text_or_half h with ⟨text, rest, rfl, rfl⟩ | ⟨text, u, rfl, hu⟩
  · rcases List.eq_nil_or_concat' text with rfl | ⟨text, c, rfl⟩
    · exact iff_of_true (.inl rfl) rfl
    · rw [inRange_text, endsAtTop_text, and_iff_right (le_of_starts (List.prefix_append _ _)),
        List.append_assoc, append_lt_append_iff]
      cases next c with
      | before htop hlt =>
        rw [htop]
        refine iff_of_false (fun hrest => ?_) Bool.false_ne_true.symm
        exact absurd ((hrest.trans hlt).trans_le (le_of_starts (List.prefix_append _ _)))
          (lt_irrefl _)
      | surrogate htop hlast hend hlt =>
        refine iff_of_true ?_ htop
        rw [hend]
        exact List.cons_lt_cons_iff.mpr (.inl hlt)
      | succ htop c' hend hsucc =>
        refine iff_of_true ?_ htop
        rw [hend]
        exact List.cons_lt_cons_iff.mpr (.inl (char_lt_iff.mpr (by omega)))
  · refine iff_of_false (not_inRange_half text hu key) ?_
    rw [endsAtTop, List.getLast?_concat, Option.any_some, hu, Bool.or_true]
    exact Bool.false_ne_true.symm

/-- **Sound.** What is in the range starts with the prefix, unless an end of the range stands for
another text. -/
theorem starts_of_inRange (hblurred : blurred keyPrefix = false) (h : InRange keyPrefix key) :
    keyPrefix <+: encodeUtf16 key := by
  rw [blurred, Bool.or_eq_false_iff, Bool.not_eq_false', decide_eq_false_iff_not,
    ← encodeUtf16_decodeUtf16_iff] at hblurred
  obtain ⟨htext, hlast⟩ := hblurred
  rw [← htext] at h hlast ⊢
  rcases List.eq_nil_or_concat' (decodeUtf16 keyPrefix) with hnil | ⟨text, c, hconcat⟩
  · rw [hnil]
    exact List.nil_prefix
  · rw [hconcat] at h hlast ⊢
    rw [inRange_text] at h
    rw [getLast?_encodeUtf16_concat] at hlast
    cases next c with
    | before htop hlt =>
      exact absurd ((h.1.trans_lt h.2).trans (append_lt_append_iff.mpr hlt)) (lt_irrefl _)
    | surrogate htop hd7ff => exact absurd hd7ff hlast
    | succ htop c' hend hsucc =>
      have hbetween : ∀ d, d < c' ↔ d ≤ c := by
        intro d
        rw [← not_lt, char_lt_iff, char_lt_iff, hsucc]
        omega
      rw [hend] at h
      exact encodeUtf16_prefix.mpr ((prefix_iff_of_succ hbetween).mpr h)

end Starts

/-! ### The pages of a listing -/

variable {ns : Namespace limits} {now : Double} {keyPrefix : Str} {limit : Option ℤ}
  {rounds : List Round}

/-- Nothing is called between the pages, and no key expires. -/
def Still (ns : Namespace limits) (now : Double) (rounds : List Round) : Prop :=
  ∀ r ∈ rounds, r.calls = [] ∧ ∀ key, Live ns r.now key ↔ Live ns now key

theorem live_purge {now' : Double} {key : List Char} :
    Live (purge ns now') now key ↔ Live ns now' key ∧ Live ns now key := by
  have hget : (purge ns now').rows.get? key =
      (ns.rows.get? key).filter fun row => !row.expiredSql now' :=
    Table.get?_filter ns.rows (fun _ row => !row.expiredSql now') key
  simp only [Live, hget, Option.filter_eq_some_iff, Bool.not_eq_true']
  constructor
  · rintro ⟨row, ⟨hrow, hlive'⟩, hlive⟩
    exact ⟨⟨row, hrow, hlive'⟩, row, hrow, hlive⟩
  · rintro ⟨⟨row, hrow, hlive'⟩, row', hrow', hlive⟩
    rw [hrow] at hrow'
    exact ⟨row, ⟨hrow, hlive'⟩, Option.some.inj hrow' ▸ hlive⟩

theorem live_of_mem_visits (h : Still ns now rounds) {cursor : Str} {v : Visit limits}
    (hv : v ∈ visits keyPrefix limit cursor ns rounds) (key : List Char) :
    Live v.ns v.now key ↔ Live ns now key := by
  induction rounds generalizing ns cursor with
  | nil => cases hv
  | cons r rs ih =>
    have hbefore : r.before ns = ns := by
      rw [Round.before, (h r List.mem_cons_self).1, List.foldl_nil]
    have hlive := (h r List.mem_cons_self).2
    have hpurged : ∀ key, Live (purge ns r.now) now key ↔ Live ns now key := by
      intro key
      rw [live_purge, hlive, and_self]
    rw [visits, hbefore] at hv
    rcases List.mem_cons.mp hv with rfl | hv
    · exact hlive key
    · split at hv
      · cases hv
      · have hstill : Still (purge ns r.now) now rs := by
          intro r' hr'
          have hr := h r' (List.mem_cons_of_mem r hr')
          exact ⟨hr.1, fun key => by rw [live_purge, hlive, hr.2, and_self, hpurged]⟩
        exact (ih hstill hv).trans (hpurged key)

/-- The names of a listing over all pages are the live keys of the range. -/
theorem mem_names_iff (hlimit : 1 ≤ limit.getD 1000) (hstill : Still ns now rounds)
    (hdone : Completes (visits keyPrefix limit [] ns rounds)) {name : Str} :
    name ∈ names (visits keyPrefix limit [] ns rounds) ↔
      ∃ key, name = encodeUtf16 key ∧ Live ns now key ∧ InRange keyPrefix key := by
  constructor
  · intro hname
    obtain ⟨n, hpos, hn⟩ := exists_effectiveLimit hlimit
    rw [names_eq hn hpos, List.map_map, List.mem_map] at hname
    obtain ⟨p, hp, rfl⟩ := hname
    obtain ⟨l, hl, hpl⟩ := exists_mem_of_mem_keysetPages hp
    obtain ⟨v, hv, rfl⟩ := List.mem_map.mp hl
    have hkey := mem_keys_rangeRows.mp (List.mem_map_of_mem hpl)
    exact ⟨p.1, rfl, (live_of_mem_visits hstill hv p.1).mp hkey.1, hkey.2⟩
  · rintro ⟨key, rfl, hlive, hrange⟩
    have hcount := ((traversal_spec ns keyPrefix limit hlimit).2 rounds hdone).2 key hrange
      fun v hv => (live_of_mem_visits hstill hv key).mpr hlive
    exact List.count_pos_iff.mp (hcount ▸ Nat.one_pos)

theorem nodup_names (hlimit : 1 ≤ limit.getD 1000)
    (hdone : Completes (visits keyPrefix limit [] ns rounds)) :
    (names (visits keyPrefix limit [] ns rounds)).Nodup := by
  have hsorted := ((traversal_spec ns keyPrefix limit hlimit).2 rounds hdone).1
  exact List.Nodup.of_map decodeUtf16 (hsorted.imp fun h => h.ne)

/-- The names are those of the live keys that start with the prefix, each once. -/
structure ListsExactly (ns : Namespace limits) (now : Double) (keyPrefix : Str)
    (names : List Str) : Prop where
  nodup : names.Nodup
  exact : ∀ name, name ∈ names ↔
    ∃ key, name = encodeUtf16 key ∧ Live ns now key ∧ keyPrefix <+: encodeUtf16 key

/-- The live keys with which the range of the prefix does what it should. -/
structure RangeSuits (ns : Namespace limits) (now : Double) (keyPrefix : Str) : Prop where
  /-- If the prefix ends at the top, no live key starts with it. -/
  top : endsAtTop keyPrefix = true → ∀ key, Live ns now key → ¬ keyPrefix <+: encodeUtf16 key
  /-- If an end of the range stands for another text, it has only live keys that start with the
  prefix. -/
  blurred : blurred keyPrefix = true →
    ∀ key, Live ns now key → InRange keyPrefix key → keyPrefix <+: encodeUtf16 key

/-- **Listing by prefix.** Over all its pages a listing has exactly the live keys that start with
the prefix if and only if the range of the prefix suits them. -/
theorem listsExactly_iff (ns : Namespace limits) (now : Double) (keyPrefix : Str)
    (limit : Option ℤ) (hlimit : 1 ≤ limit.getD 1000) (rounds : List Round)
    (hstill : Still ns now rounds) (hdone : Completes (visits keyPrefix limit [] ns rounds)) :
    ListsExactly ns now keyPrefix (names (visits keyPrefix limit [] ns rounds)) ↔
      RangeSuits ns now keyPrefix := by
  have hlisted : ∀ key, encodeUtf16 key ∈ names (visits keyPrefix limit [] ns rounds) ↔
      Live ns now key ∧ InRange keyPrefix key := by
    intro key
    rw [mem_names_iff hlimit hstill hdone]
    constructor
    · rintro ⟨key', hkey, h⟩
      exact encodeUtf16_injective hkey ▸ h
    · exact fun h => ⟨key, rfl, h⟩
  constructor
  · intro h
    have hexact : ∀ key, Live ns now key →
        (InRange keyPrefix key ↔ keyPrefix <+: encodeUtf16 key) := by
      intro key hlive
      have hmem := (hlisted key).symm.trans (h.exact (encodeUtf16 key))
      rw [and_iff_right hlive] at hmem
      rw [hmem]
      constructor
      · rintro ⟨key', hkey, -, hstarts⟩
        exact hkey ▸ hstarts
      · exact fun hstarts => ⟨key, rfl, hlive, hstarts⟩
    refine ⟨fun htop key hlive hstarts => ?_, fun _ key hlive => (hexact key hlive).mp⟩
    have hrange := (hexact key hlive).mpr hstarts
    rw [inRange_iff_of_starts hstarts, htop] at hrange
    cases hrange
  · intro h
    refine ⟨nodup_names hlimit hdone, fun name => ?_⟩
    rw [mem_names_iff hlimit hstill hdone]
    refine exists_congr fun key => and_congr_right fun _ => and_congr_right fun hlive => ?_
    constructor
    · intro hrange
      cases hblurred : blurred keyPrefix with
      | false => exact starts_of_inRange hblurred hrange
      | true => exact h.blurred hblurred key hlive hrange
    · intro hstarts
      rw [inRange_iff_of_starts hstarts, ← Bool.not_eq_true]
      exact fun htop => h.top htop key hlive hstarts

/-- A namespace with the keys `ab` and `b`. -/
def twoKeys : Namespace {} :=
  Round.before (Namespace.empty {}) ⟨[.put (.ofRat 0) (encodeUtf16 ['b']) [] {},
    .put (.ofRat 0) (encodeUtf16 ['a', 'b']) [] {}], .ofRat 0⟩

theorem listsExactly_twoKeys :
    ListsExactly twoKeys (.ofRat 0) (encodeUtf16 ['a'])
      (names (visits (encodeUtf16 ['a']) none [] twoKeys [⟨[], .ofRat 0⟩])) ∧
    names (visits (encodeUtf16 ['a']) none [] twoKeys [⟨[], .ofRat 0⟩]) =
      [encodeUtf16 ['a', 'b']] := by
  have hstill : Still twoKeys (.ofRat 0) [⟨[], .ofRat 0⟩] := by
    intro r hr
    rw [List.mem_singleton.mp hr]
    exact ⟨rfl, fun _ => Iff.rfl⟩
  have hsuits : RangeSuits twoKeys (.ofRat 0) (encodeUtf16 ['a']) :=
    ⟨fun h => absurd h (by decide), fun h => absurd h (by decide)⟩
  exact ⟨(listsExactly_iff twoKeys (.ofRat 0) (encodeUtf16 ['a']) none (by decide) _ hstill
    ⟨_, rfl, by decide +kernel⟩).mpr hsuits, by decide +kernel⟩

/-- U+1F3FF, whose second half has no next one. -/
def darkTone : List Char := [Char.ofNat 0x1F3FF]

/-- A namespace with this key only. -/
def oneTone : Namespace {} :=
  Round.before (Namespace.empty {})
    ⟨[.put (.ofRat 0) (encodeUtf16 darkTone) [] {}], .ofRat 0⟩

/-- It is not among the keys that start with it. -/
theorem not_listsExactly :
    Completes (visits (encodeUtf16 darkTone) none [] oneTone [⟨[], .ofRat 0⟩]) ∧
      names (visits (encodeUtf16 darkTone) none [] oneTone [⟨[], .ofRat 0⟩]) = [] ∧
      ¬ ListsExactly oneTone (.ofRat 0) (encodeUtf16 darkTone)
        (names (visits (encodeUtf16 darkTone) none [] oneTone [⟨[], .ofRat 0⟩])) := by
  have hnames : names (visits (encodeUtf16 darkTone) none [] oneTone [⟨[], .ofRat 0⟩]) = [] := by
    decide +kernel
  refine ⟨⟨_, rfl, by decide +kernel⟩, hnames, fun h => ?_⟩
  rw [hnames] at h
  exact List.not_mem_nil ((h.exact (encodeUtf16 darkTone)).mpr
    ⟨darkTone, rfl, by decide +kernel, List.prefix_rfl⟩)

end Lopata.KV

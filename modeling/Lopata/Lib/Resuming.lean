import Mathlib.Data.List.Sort
import Mathlib.Data.Set.Card
import Lopata.Lib.Paging

/-!
# Paging from a Key on

A list is read page by page in the order of a key that several entries may share: each page is the
`n` first entries from a key on, and the next page goes on at the key of the entry behind it. The
list may be another one for each page.

The page that goes on at a key reads all entries of that key again. So an entry is read twice if
the entry behind its page has its key, and reading does not end where `n + 1` entries have one key.

## Main results

* `count_pages`: an entry that is in all the lists is read once if no page splits a key.
* `exists_completes`: reading ends if no page splits a key and there are finitely many keys.
* `reads_iff`: for one list, reading ends and reads each entry once exactly if no two neighbours at
  the end of a page have one key.
-/

namespace Lopata

/-- A way to bring entries into the order of a key; those of one key may be in any order. -/
structure Sorter {α κ : Type*} [LinearOrder κ] (key : α → κ) where
  sort : List α → List α
  perm : ∀ l, (sort l).Perm l
  sorted : ∀ l, (sort l).Pairwise fun a b => key a ≤ key b

namespace Sorter

variable {α κ : Type*} [LinearOrder κ] {key : α → κ}

section Definitions

variable (S : Sorter key) (n : ℕ)

/-- The entries from a key on. -/
def onward (c : κ) (l : List α) : List α :=
  S.sort (l.filter fun a => c ≤ key a)

def page (c : κ) (l : List α) : List α :=
  (S.onward c l).take n

/-- The key that the next page goes on at. -/
def next (c : κ) (l : List α) : Option κ :=
  (S.onward c l)[n]?.map key

/-- The pages read from a sequence of lists. -/
def pages : κ → List (List α) → List (List α)
  | _, [] => []
  | c, l :: ls => S.page n c l :: (S.next n c l).elim [] fun c' => pages c' ls

/-- Reading ends with the last of the lists. -/
def Completes : κ → List (List α) → Prop
  | _, [] => False
  | c, l :: ls => (S.next n c l).elim (ls = []) fun c' => Completes c' ls

/-- The entry behind the page has the key of one that is on it. -/
def Splits (c : κ) (l : List α) : Prop :=
  ∃ a ∈ S.page n c l, S.next n c l = some (key a)

/-- No page that is read splits a key. -/
def Whole : κ → List (List α) → Prop
  | _, [] => True
  | c, l :: ls => ¬ S.Splits n c l ∧ (S.next n c l).elim True fun c' => Whole c' ls

end Definitions

variable {S : Sorter key} {n : ℕ} {c c' : κ} {l : List α} {ls : List (List α)} {a : α}

/-! ### One page -/

theorem mem_onward : a ∈ S.onward c l ↔ a ∈ l ∧ c ≤ key a := by
  rw [onward, (S.perm _).mem_iff, List.mem_filter, decide_eq_true_eq]

theorem mem_of_mem_page (h : a ∈ S.page n c l) : a ∈ l ∧ c ≤ key a :=
  mem_onward.mp (List.mem_of_mem_take h)

theorem pairwise_onward : (S.onward c l).Pairwise fun a b => key a ≤ key b := S.sorted _

/-- The entry behind a page. -/
theorem exists_of_next (h : S.next n c l = some c') :
    ∃ b ∈ (S.onward c l).drop n, key b = c' ∧ ∀ a ∈ (S.onward c l).drop n, c' ≤ key a := by
  obtain ⟨b, hb, rfl⟩ := Option.map_eq_some_iff.mp h
  obtain ⟨hlt, rfl⟩ := List.getElem?_eq_some_iff.mp hb
  have hdrop := List.drop_eq_getElem_cons hlt
  have hsorted := (pairwise_onward (S := S) (c := c) (l := l)).drop (i := n)
  rw [hdrop] at hsorted ⊢
  refine ⟨_, List.mem_cons_self, rfl, fun a ha => ?_⟩
  rcases List.mem_cons.mp ha with rfl | ha
  · exact le_rfl
  · exact (List.pairwise_cons.mp hsorted).1 a ha

theorem key_le_next (hnext : S.next n c l = some c') (ha : a ∈ S.page n c l) : key a ≤ c' := by
  obtain ⟨b, hb, rfl, -⟩ := exists_of_next hnext
  have hsorted := pairwise_onward (S := S) (c := c) (l := l)
  rw [← List.take_append_drop n (S.onward c l)] at hsorted
  exact (List.pairwise_append.mp hsorted).2.2 a ha b hb

/-- Where no key is split, the next page goes on behind all keys of this one. -/
theorem key_lt_next (hwhole : ¬ S.Splits n c l) (hnext : S.next n c l = some c')
    (ha : a ∈ S.page n c l) : key a < c' :=
  lt_of_le_of_ne (key_le_next hnext ha) fun heq => hwhole ⟨a, ha, heq ▸ hnext⟩

/-- An entry from the key on is on the page, or on from where the next one begins. -/
theorem mem_page_or (ha : a ∈ l) (hc : c ≤ key a) :
    a ∈ S.page n c l ∨ ∃ c', S.next n c l = some c' ∧ c' ≤ key a := by
  have hmem : a ∈ S.onward c l := mem_onward.mpr ⟨ha, hc⟩
  rw [← List.take_append_drop n (S.onward c l)] at hmem
  rcases List.mem_append.mp hmem with htake | hdrop
  · exact .inl htake
  · cases hnext : S.next n c l with
    | none =>
      rw [next, Option.map_eq_none_iff, List.getElem?_eq_none_iff] at hnext
      rw [List.drop_eq_nil_of_le hnext] at hdrop
      cases hdrop
    | some c' =>
      obtain ⟨-, -, -, hle⟩ := exists_of_next hnext
      exact .inr ⟨c', rfl, hle a hdrop⟩

/-- A page with another one behind it has an entry. -/
theorem exists_mem_page (hn : 1 ≤ n) (hnext : S.next n c l = some c') : ∃ a, a ∈ S.page n c l := by
  obtain ⟨b, hb, -, -⟩ := exists_of_next hnext
  have hlen : 0 < (S.page n c l).length := by
    have hpos := List.length_pos_of_mem hb
    rw [List.length_drop] at hpos
    rw [page, List.length_take]
    omega
  exact List.exists_mem_of_length_pos hlen

theorem le_next (hn : 1 ≤ n) (hnext : S.next n c l = some c') : c ≤ c' := by
  obtain ⟨a, ha⟩ := exists_mem_page hn hnext
  exact (mem_of_mem_page ha).2.trans (key_le_next hnext ha)

/-! ### All pages -/

theorem pages_of_next (hnext : S.next n c l = some c') :
    S.pages n c (l :: ls) = S.page n c l :: S.pages n c' ls := by
  rw [pages, hnext]
  rfl

theorem completes_of_next (hnext : S.next n c l = some c') :
    S.Completes n c (l :: ls) ↔ S.Completes n c' ls := by
  rw [Completes, hnext]
  rfl

theorem whole_of_next (hnext : S.next n c l = some c') :
    S.Whole n c (l :: ls) ↔ ¬ S.Splits n c l ∧ S.Whole n c' ls := by
  rw [Whole, hnext]
  rfl

theorem pages_of_last (hnext : S.next n c l = none) :
    S.pages n c (l :: ls) = [S.page n c l] := by
  rw [pages, hnext]
  rfl

theorem completes_of_last (hnext : S.next n c l = none) :
    S.Completes n c (l :: ls) ↔ ls = [] := by
  rw [Completes, hnext]
  rfl

/-- What is read is in one of the lists, from the key on. -/
theorem exists_mem_of_mem_pages (hn : 1 ≤ n) (h : a ∈ (S.pages n c ls).flatten) :
    (∃ l ∈ ls, a ∈ l) ∧ c ≤ key a := by
  induction ls generalizing c with
  | nil => cases h
  | cons l ls ih =>
    have hfirst : a ∈ S.page n c l → (∃ l' ∈ l :: ls, a ∈ l') ∧ c ≤ key a := fun ha =>
      ⟨⟨l, List.mem_cons_self, (mem_of_mem_page ha).1⟩, (mem_of_mem_page ha).2⟩
    cases hnext : S.next n c l with
    | none =>
      rw [pages_of_last hnext, List.flatten_singleton] at h
      exact hfirst h
    | some c' =>
      rw [pages_of_next hnext, List.flatten_cons, List.mem_append] at h
      rcases h with h | h
      · exact hfirst h
      · obtain ⟨⟨l', hl', ha⟩, hle⟩ := ih h
        exact ⟨⟨l', List.mem_cons_of_mem l hl', ha⟩, (le_next hn hnext).trans hle⟩

/-- **No entry is missed**, whether keys are split or not. -/
theorem mem_pages (hends : S.Completes n c ls) (hall : ∀ l ∈ ls, a ∈ l) (hc : c ≤ key a) :
    a ∈ (S.pages n c ls).flatten := by
  induction ls generalizing c with
  | nil => cases hends
  | cons l ls ih =>
    have hal := hall l List.mem_cons_self
    rcases mem_page_or (S := S) (n := n) hal hc with hpage | ⟨c', hnext, hle⟩
    · rw [pages, List.flatten_cons]
      exact List.mem_append_left _ hpage
    · rw [pages_of_next hnext, List.flatten_cons]
      exact List.mem_append_right _ (ih ((completes_of_next hnext).mp hends)
        (fun l' hl' => hall l' (List.mem_cons_of_mem l hl')) hle)

section Count

variable {ι : Type*} [BEq ι] [LawfulBEq ι] {name : α → ι}

/-- How often an entry is read, by its name. -/
def times (S : Sorter key) (n : ℕ) (name : α → ι) (c : κ) (ls : List (List α)) (a : α) : ℕ :=
  ((S.pages n c ls).flatten.map name).count (name a)

theorem count_page_of_mem (hnd : (l.map name).Nodup) (ha : a ∈ S.page n c l) :
    ((S.page n c l).map name).count (name a) = 1 := by
  refine List.count_eq_one_of_mem ?_ (List.mem_map_of_mem ha)
  have hperm : ((S.onward c l).map name).Perm ((l.filter fun a => c ≤ key a).map name) :=
    (S.perm _).map name
  refine List.Nodup.sublist ((List.take_sublist n _).map name) ?_
  rw [hperm.nodup_iff]
  exact List.Nodup.sublist (List.filter_sublist.map name) hnd

/-- An entry is not read where it is not on a page. -/
theorem count_eq_zero (hn : 1 ≤ n) (hnd : ∀ l ∈ ls, (l.map name).Nodup)
    (hall : ∀ l ∈ ls, a ∈ l) (hnot : a ∉ (S.pages n c ls).flatten) : S.times n name c ls a = 0 := by
  rw [times, List.count_eq_zero]
  intro hmem
  obtain ⟨b, hb, hname⟩ := List.mem_map.mp hmem
  obtain ⟨⟨l, hl, hbl⟩, -⟩ := exists_mem_of_mem_pages hn hb
  obtain rfl := List.inj_on_of_nodup_map (hnd l hl) hbl (hall l hl) hname
  exact hnot hb

theorem count_page_of_not_mem (hnd : (l.map name).Nodup) (hal : a ∈ l)
    (ha : a ∉ S.page n c l) : ((S.page n c l).map name).count (name a) = 0 := by
  rw [List.count_eq_zero]
  intro hmem
  obtain ⟨b, hb, hname⟩ := List.mem_map.mp hmem
  obtain rfl := List.inj_on_of_nodup_map hnd (mem_of_mem_page hb).1 hal hname
  exact ha hb

theorem times_of_next (hnext : S.next n c l = some c') :
    S.times n name c (l :: ls) a =
      ((S.page n c l).map name).count (name a) + S.times n name c' ls a := by
  rw [times, pages_of_next hnext, List.flatten_cons, List.map_append, List.count_append]
  rfl

/-- **Exactly once**: an entry that is in all the lists is read once, if no page splits a key. -/
theorem count_pages (hn : 1 ≤ n) (hnd : ∀ l ∈ ls, (l.map name).Nodup)
    (hends : S.Completes n c ls) (hwhole : S.Whole n c ls) (hall : ∀ l ∈ ls, a ∈ l)
    (hc : c ≤ key a) : S.times n name c ls a = 1 := by
  induction ls generalizing c with
  | nil => cases hends
  | cons l ls ih =>
    have hl := hnd l List.mem_cons_self
    have hal := hall l List.mem_cons_self
    have hls := fun l' hl' => hnd l' (List.mem_cons_of_mem l hl')
    have hals := fun l' hl' => hall l' (List.mem_cons_of_mem l hl')
    rcases mem_page_or (S := S) (n := n) hal hc with hpage | ⟨c', hnext, hle⟩
    · cases hnext : S.next n c l with
      | none =>
        rw [times, pages_of_last hnext, List.flatten_singleton]
        exact count_page_of_mem hl hpage
      | some c' =>
        have hlt := key_lt_next ((whole_of_next hnext).mp hwhole).1 hnext hpage
        -- all that is read on the later pages has a greater key
        have hrest := count_eq_zero (S := S) (c := c') hn hls hals fun hmem =>
          absurd (exists_mem_of_mem_pages hn hmem).2 (not_le.mpr hlt)
        rw [times_of_next hnext, count_page_of_mem hl hpage, hrest]
    · have hwhole' := (whole_of_next hnext).mp hwhole
      have hpage : a ∉ S.page n c l := fun hpage =>
        absurd hle (not_le.mpr (key_lt_next hwhole'.1 hnext hpage))
      rw [times_of_next hnext, count_page_of_not_mem hl hal hpage, Nat.zero_add]
      exact ih hls ((completes_of_next hnext).mp hends) hwhole'.2 hals hle

/-- An entry whose key is split is read again. -/
theorem two_le_times (hnd : (l.map name).Nodup) (hends : S.Completes n c (l :: ls))
    (hpage : a ∈ S.page n c l) (hnext : S.next n c l = some (key a)) (hall : ∀ l ∈ ls, a ∈ l) :
    2 ≤ S.times n name c (l :: ls) a := by
  have hagain := mem_pages ((completes_of_next hnext).mp hends) hall le_rfl
  have hcount : 0 < S.times n name (key a) ls a :=
    List.count_pos_iff.mpr (List.mem_map_of_mem hagain)
  rw [times_of_next hnext, count_page_of_mem hnd hpage]
  omega

end Count

/-! ### Reading ends -/

variable (S) in
/-- **Reading ends** if no page splits a key and the keys are finitely many in all the lists. -/
theorem exists_completes (hn : 1 ≤ n) {K : Set κ} (hK : K.Finite) {f : ℕ → List α}
    (hkeys : ∀ i, ∀ a ∈ f i, key a ∈ K) (hwhole : ∀ m, S.Whole n c (snapshots f m)) :
    ∃ m, S.Completes n c (snapshots f m) := by
  have hcard : ∀ N, ∀ (c : κ) (f : ℕ → List α), {k ∈ K | c ≤ k}.ncard ≤ N →
      (∀ i, ∀ a ∈ f i, key a ∈ K) → (∀ m, S.Whole n c (snapshots f m)) →
      ∃ m, S.Completes n c (snapshots f m) := by
    intro N
    induction N with
    | zero =>
      intro c f hN hkeys hwhole
      have hfin : {k ∈ K | c ≤ k}.Finite := hK.subset fun k hk => hk.1
      have hempty := (Set.ncard_eq_zero hfin).mp (Nat.le_zero.mp hN)
      have hlast : S.next n c (f 0) = none := by
        rw [Option.eq_none_iff_forall_ne_some]
        intro c' hnext
        obtain ⟨a, ha⟩ := exists_mem_page hn hnext
        obtain ⟨hmem, hc⟩ := mem_of_mem_page ha
        exact Set.eq_empty_iff_forall_notMem.mp hempty (key a) ⟨hkeys 0 a hmem, hc⟩
      exact ⟨0, (completes_of_last hlast).mpr rfl⟩
    | succ N ih =>
      intro c f hN hkeys hwhole
      cases hnext : S.next n c (f 0) with
      | none => exact ⟨0, (completes_of_last hnext).mpr rfl⟩
      | some c' =>
        have hstep : ∀ m, ¬ S.Splits n c (f 0) ∧
            S.Whole n c' (snapshots (fun i => f (i + 1)) m) := by
          intro m
          have h := hwhole (m + 1)
          rw [snapshots_succ] at h
          exact (whole_of_next hnext).mp h
        -- the keys of the page are left behind
        have hlt : {k ∈ K | c' ≤ k}.ncard < {k ∈ K | c ≤ k}.ncard := by
          obtain ⟨a, ha⟩ := exists_mem_page hn hnext
          obtain ⟨hmem, hc⟩ := mem_of_mem_page ha
          apply Set.ncard_lt_ncard _ (hK.subset fun k hk => hk.1)
          rw [Set.ssubset_iff_of_subset]
          · exact ⟨key a, ⟨hkeys 0 a hmem, hc⟩, fun h =>
              absurd h.2 (not_le.mpr (key_lt_next (hstep 0).1 hnext ha))⟩
          · exact fun k hk => ⟨hk.1, (le_next hn hnext).trans hk.2⟩
        obtain ⟨m, hm⟩ := ih c' (fun i => f (i + 1)) (by omega) (fun i => hkeys (i + 1))
          fun m => (hstep m).2
        refine ⟨m + 1, ?_⟩
        rw [snapshots_succ]
        exact (completes_of_next hnext).mpr hm
  exact hcard _ c f le_rfl hkeys hwhole

/-! ### One list -/

/-- The keys from a key on, in order. -/
def keys (S : Sorter key) (c : κ) (l : List α) : List κ := (S.onward c l).map key

/-- Two neighbours of one key, the first of them at the end of a page. -/
def Tied (n : ℕ) (keys : List κ) : Prop :=
  ∃ k t, 1 ≤ k ∧ keys[k * n - 1]? = some t ∧ keys[k * n]? = some t

theorem pairwise_keys : (S.keys c l).Pairwise (· ≤ ·) :=
  List.pairwise_map.mpr pairwise_onward

theorem next_eq : S.next n c l = (S.keys c l)[n]? := by
  rw [next, keys, List.getElem?_map]

theorem splits_iff (hn : 1 ≤ n) :
    S.Splits n c l ↔ ∃ t, (S.keys c l)[n - 1]? = some t ∧ (S.keys c l)[n]? = some t := by
  constructor
  · rintro ⟨a, ha, hnext⟩
    rw [next_eq] at hnext
    obtain ⟨hlt, heq⟩ := List.getElem?_eq_some_iff.mp hnext
    have hle : (S.keys c l)[n - 1] ≤ (S.keys c l)[n] :=
      List.pairwise_iff_getElem.mp pairwise_keys _ _ _ hlt (by omega)
    obtain ⟨i, hi, rfl⟩ := List.getElem_of_mem ha
    have hin : i < n := lt_of_lt_of_le hi (List.length_take_le ..)
    have hlen : i < (S.keys c l).length := hin.trans hlt
    have hge : key (S.page n c l)[i] ≤ (S.keys c l)[n - 1] := by
      have hkey : key (S.page n c l)[i] = (S.keys c l)[i] := by
        simp only [page, keys, List.getElem_take, List.getElem_map]
      rw [hkey]
      rcases Nat.lt_or_eq_of_le (Nat.le_sub_one_of_lt hin) with hlt' | rfl
      · exact List.pairwise_iff_getElem.mp pairwise_keys _ _ _ _ hlt'
      · exact le_rfl
    refine ⟨_, List.getElem?_eq_some_iff.mpr ⟨by omega, ?_⟩, hnext⟩
    exact le_antisymm (heq ▸ hle) hge
  · rintro ⟨t, hlast, hnext⟩
    obtain ⟨hlt, rfl⟩ := List.getElem?_eq_some_iff.mp hlast
    have hlen : n - 1 < (S.onward c l).length := by
      rwa [keys, List.length_map] at hlt
    have hkey : (S.keys c l)[n - 1] = key (S.onward c l)[n - 1] := List.getElem_map ..
    refine ⟨(S.onward c l)[n - 1], ?_, next_eq.trans (hkey ▸ hnext)⟩
    exact List.mem_take_iff_getElem.mpr ⟨n - 1, by omega, rfl⟩

/-- The keys of the next page are what the page leaves of them. -/
theorem keys_of_next (hwhole : ¬ S.Splits n c l) (hn : 1 ≤ n) (hnext : S.next n c l = some c') :
    S.keys c' l = (S.keys c l).drop n := by
  have hle : c ≤ c' := le_next hn hnext
  have hfilter : (S.keys c l).drop n = (S.keys c l).filter fun t => c' ≤ t := by
    have htake : ((S.keys c l).take n).filter (fun t => decide (c' ≤ t)) = [] := by
      rw [List.filter_eq_nil_iff]
      intro t ht
      rw [keys, ← List.map_take] at ht
      obtain ⟨a, ha, rfl⟩ := List.mem_map.mp ht
      rw [decide_eq_true_eq, not_le]
      exact key_lt_next hwhole hnext ha
    have hdrop : ((S.keys c l).drop n).filter (fun t => decide (c' ≤ t)) =
        (S.keys c l).drop n := by
      rw [List.filter_eq_self]
      intro t ht
      rw [keys, ← List.map_drop] at ht
      obtain ⟨a, ha, rfl⟩ := List.mem_map.mp ht
      obtain ⟨-, -, -, hge⟩ := exists_of_next hnext
      exact decide_eq_true (hge a ha)
    conv_rhs => rw [← List.take_append_drop n (S.keys c l)]
    rw [List.filter_append, htake, hdrop, List.nil_append]
  have hperm : (S.keys c' l).Perm ((S.keys c l).filter fun t => c' ≤ t) := by
    refine ((S.perm _).map key).trans ?_
    refine List.Perm.trans ?_ (((S.perm _).map key).filter _).symm
    rw [List.filter_map, List.filter_filter]
    refine List.Perm.of_eq (congrArg (List.map key) (List.filter_congr fun a _ => ?_))
    rw [Function.comp_apply, Bool.eq_iff_iff, Bool.and_eq_true, decide_eq_true_eq,
      decide_eq_true_eq]
    exact ⟨fun h => ⟨h, hle.trans h⟩, And.left⟩
  rw [hfilter]
  exact List.Perm.eq_of_pairwise' pairwise_keys (pairwise_keys.filter _) hperm

/-- From behind a page, the ends of the pages are one page nearer. -/
theorem getElem?_drop_page (ks : List κ) {k : ℕ} (hk : 1 ≤ k) (hn : 1 ≤ n) :
    (ks.drop n)[k * n - 1]? = ks[(k + 1) * n - 1]? ∧ (ks.drop n)[k * n]? = ks[(k + 1) * n]? := by
  have hpos : 1 ≤ k * n := Nat.mul_pos hk hn
  have hmul : (k + 1) * n = n + k * n := by ring
  rw [List.getElem?_drop, List.getElem?_drop, hmul, Nat.add_sub_assoc hpos]
  exact ⟨rfl, rfl⟩

theorem tied_iff (hn : 1 ≤ n) :
    Tied n (S.keys c l) ↔ S.Splits n c l ∨ Tied n ((S.keys c l).drop n) := by
  rw [splits_iff hn]
  constructor
  · rintro ⟨k, t, hk, hend, hnext⟩
    rcases Nat.lt_or_eq_of_le hk with hlt | rfl
    · obtain ⟨k, rfl⟩ := Nat.exists_eq_add_of_le' hk
      have hk' : 1 ≤ k := by omega
      obtain ⟨hend', hnext'⟩ := getElem?_drop_page (S.keys c l) hk' hn
      exact .inr ⟨k, t, hk', hend'.trans hend, hnext'.trans hnext⟩
    · rw [Nat.one_mul] at hend hnext
      exact .inl ⟨t, hend, hnext⟩
  · rintro (⟨t, hend, hnext⟩ | ⟨k, t, hk, hend, hnext⟩)
    · exact ⟨1, t, le_rfl, by rwa [Nat.one_mul], by rwa [Nat.one_mul]⟩
    · obtain ⟨hend', hnext'⟩ := getElem?_drop_page (S.keys c l) hk hn
      exact ⟨k + 1, t, by omega, hend'.symm.trans hend, hnext'.symm.trans hnext⟩

/-- Of one list no page splits a key if there is no tie. -/
theorem whole_of_not_tied (hn : 1 ≤ n) (hls : ∀ l' ∈ ls, l' = l)
    (htied : ¬ Tied n (S.keys c l)) : S.Whole n c ls := by
  induction ls generalizing c with
  | nil => trivial
  | cons l' ls ih =>
    obtain rfl := hls l' List.mem_cons_self
    rw [tied_iff hn, not_or] at htied
    cases hnext : S.next n c l' with
    | none =>
      refine ⟨htied.1, ?_⟩
      rw [hnext]
      trivial
    | some c' =>
      rw [whole_of_next hnext]
      refine ⟨htied.1, ih (fun l hl => hls l (List.mem_cons_of_mem l' hl)) ?_⟩
      rw [keys_of_next htied.1 hn hnext]
      exact htied.2

/-- There is no tie in a list that is read to its end, each entry once. -/
theorem not_tied_of_times {ι : Type*} [BEq ι] [LawfulBEq ι] {name : α → ι} (hn : 1 ≤ n)
    (hnd : (l.map name).Nodup) (hls : ∀ l' ∈ ls, l' = l) (hends : S.Completes n c ls)
    (hone : ∀ a ∈ l, c ≤ key a → S.times n name c ls a = 1) : ¬ Tied n (S.keys c l) := by
  induction ls generalizing c with
  | nil => cases hends
  | cons l' ls ih =>
    obtain rfl := hls l' List.mem_cons_self
    have hls' := fun l hl => hls l (List.mem_cons_of_mem l' hl)
    have hwhole : ¬ S.Splits n c l' := by
      rintro ⟨a, ha, hnext⟩
      obtain ⟨hal, hc⟩ := mem_of_mem_page ha
      have htwo := two_le_times hnd hends ha hnext fun l hl => hls' l hl ▸ hal
      rw [hone a hal hc] at htwo
      omega
    rw [tied_iff hn, not_or]
    refine ⟨hwhole, ?_⟩
    cases hnext : S.next n c l' with
    | none =>
      rw [next_eq, List.getElem?_eq_none_iff] at hnext
      rw [List.drop_eq_nil_of_le hnext]
      rintro ⟨k, t, -, -, hnil⟩
      cases hnil
    | some c' =>
      rw [← keys_of_next hwhole hn hnext]
      refine ih hls' ((completes_of_next hnext).mp hends) fun a hal hc => ?_
      have hpage : a ∉ S.page n c l' := fun hpage =>
        absurd hc (not_le.mpr (key_lt_next hwhole hnext hpage))
      have htimes := hone a hal ((le_next hn hnext).trans hc)
      rw [times_of_next hnext, count_page_of_not_mem hnd hal hpage, Nat.zero_add] at htimes
      exact htimes

/-- **One list**: reading ends and reads each entry once exactly if there is no tie. -/
theorem reads_iff {ι : Type*} [BEq ι] [LawfulBEq ι] {name : α → ι} (hn : 1 ≤ n)
    (hnd : (l.map name).Nodup) :
    (∃ m, S.Completes n c (snapshots (fun _ => l) m) ∧
      ∀ a ∈ l, c ≤ key a → S.times n name c (snapshots (fun _ => l) m) a = 1) ↔
      ¬ Tied n (S.keys c l) := by
  have hls : ∀ m, ∀ l' ∈ snapshots (fun _ => l) m, l' = l := by
    intro m l' hl'
    obtain ⟨-, -, rfl⟩ := List.mem_map.mp hl'
    rfl
  constructor
  · rintro ⟨m, hends, hone⟩
    exact not_tied_of_times hn hnd (hls m) hends hone
  · intro htied
    have hwhole := fun m => whole_of_not_tied hn (hls m) htied
    obtain ⟨m, hends⟩ := exists_completes S hn (List.finite_toSet (l.map key))
      (fun _ a ha => List.mem_map_of_mem ha) hwhole
    refine ⟨m, hends, fun a ha hc => count_pages hn ?_ hends (hwhole m) ?_ hc⟩
    · exact fun l' hl' => hls m l' hl' ▸ hnd
    · exact fun l' hl' => hls m l' hl' ▸ ha

end Sorter

end Lopata

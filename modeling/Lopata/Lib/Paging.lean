import Mathlib.Data.List.Basic
import Mathlib.Data.List.Nodup
import Mathlib.Tactic.Ring

/-!
# Paging by Offset

A list is read page by page: each page is the window of `m` entries at an offset that grows by
`m`. The list may be another one for each page. Reading ends at the first list that the next
offset has reached the end of.

An entry that is in all the lists is read once, unless a change of the list between two pages
moves it across the offset. An entry that the offset passes so is skipped, an entry that the
offset falls behind is read again.

## Main results

* `ends_iff`: reading ends exactly when at some page the offset has caught up with the length.
* `count_windows`: an entry is read exactly once if it crosses the offset both ways equally often.
* `ungrouped_iff`: the groups are each read by one page at most if no two pages share a group.
* `pagesOf_windows_replicate`: the same for one list, by the positions of its entries.
-/

namespace Lopata

variable {κ : Type*}

/-- The entries of one page. -/
def window (m c : ℕ) (l : List κ) : List κ :=
  (l.drop c).take m

/-- The pages read from a sequence of lists. -/
def windows (m : ℕ) : ℕ → List (List κ) → List (List κ)
  | _, [] => []
  | c, l :: ls => window m c l :: windows m (c + m) ls

/-- Reading ends with the last of the lists. -/
def Ends (m : ℕ) : ℕ → List (List κ) → Prop
  | _, [] => False
  | c, l :: ls => if l.length ≤ c + m then ls = [] else Ends m (c + m) ls

instance Ends.decidable (m : ℕ) : (c : ℕ) → (ls : List (List κ)) → Decidable (Ends m c ls)
  | _, [] => inferInstanceAs (Decidable False)
  | c, l :: ls =>
      have := Ends.decidable m (c + m) ls
      inferInstanceAs (Decidable (if l.length ≤ c + m then ls = [] else Ends m (c + m) ls))

/-! ### Reading ends -/

/-- The lists of the first pages. -/
def snapshots (f : ℕ → List κ) (n : ℕ) : List (List κ) :=
  (List.range (n + 1)).map f

theorem snapshots_succ (f : ℕ → List κ) (n : ℕ) :
    snapshots f (n + 1) = f 0 :: snapshots (fun i => f (i + 1)) n := by
  rw [snapshots, List.range_succ_eq_map, List.map_cons, List.map_map]
  rfl

/-- **Reading ends** exactly when some page is the last of its list. -/
theorem ends_iff {m c : ℕ} {f : ℕ → List κ} :
    (∃ n, Ends m c (snapshots f n)) ↔ ∃ i, (f i).length ≤ c + (i + 1) * m := by
  constructor
  · rintro ⟨n, hn⟩
    induction n generalizing c f with
    | zero =>
      by_cases hlen : (f 0).length ≤ c + m
      · exact ⟨0, by omega⟩
      · have hn : if (f 0).length ≤ c + m then ([] : List (List κ)) = [] else False := hn
        rw [if_neg hlen] at hn
        exact hn.elim
    | succ n ih =>
      rw [snapshots_succ] at hn
      by_cases hlen : (f 0).length ≤ c + m
      · exact ⟨0, by omega⟩
      · rw [Ends, if_neg hlen] at hn
        obtain ⟨i, hi⟩ := ih hn
        refine ⟨i + 1, hi.trans (Nat.le_of_eq ?_)⟩
        ring
  · rintro ⟨i, hi⟩
    induction i generalizing c f with
    | zero =>
      refine ⟨0, ?_⟩
      show if (f 0).length ≤ c + m then ([] : List (List κ)) = [] else False
      rw [if_pos (by omega)]
    | succ i ih =>
      by_cases hlen : (f 0).length ≤ c + m
      · refine ⟨0, ?_⟩
        show if (f 0).length ≤ c + m then ([] : List (List κ)) = [] else False
        rw [if_pos hlen]
      · obtain ⟨n, hn⟩ := ih (c := c + m) (f := fun i => f (i + 1))
          (hi.trans (Nat.le_of_eq (by ring)))
        refine ⟨n + 1, ?_⟩
        rw [snapshots_succ, Ends, if_neg hlen]
        exact hn

/-! ### Entries are read once -/

section Entries

variable [BEq κ] [LawfulBEq κ]

/-- How often the offset passes the entry between two pages (`false`), or falls behind it again
(`true`). -/
def crossings (passed : Bool) (m : ℕ) (k : κ) : ℕ → List (List κ) → ℕ
  | c, l :: l' :: ls =>
      (if decide (l.idxOf k < c + m) = passed ∧ decide (l'.idxOf k < c + m) = !passed then 1
        else 0) + crossings passed m k (c + m) (l' :: ls)
  | _, _ => 0

/-- An entry is in the window that its position is in. -/
theorem mem_window_iff {m c : ℕ} {k : κ} {l : List κ} (hl : l.Nodup) (hk : k ∈ l) :
    k ∈ window m c l ↔ c ≤ l.idxOf k ∧ l.idxOf k < c + m := by
  have hpos := List.idxOf_lt_length_of_mem hk
  rw [window, List.mem_take_iff_getElem]
  constructor
  · rintro ⟨i, hi, heq⟩
    rw [List.length_drop] at hi
    have hidx : l.idxOf k = c + i := by
      rw [← heq, List.getElem_drop, List.Nodup.idxOf_getElem hl]
    omega
  · rintro ⟨hle, hlt⟩
    refine ⟨l.idxOf k - c, ?_, ?_⟩
    · rw [List.length_drop]
      omega
    · rw [List.getElem_drop]
      simp only [Nat.add_sub_cancel' hle, List.getElem_idxOf]

theorem count_window {m c : ℕ} {k : κ} {l : List κ} (hl : l.Nodup) (hk : k ∈ l) :
    (window m c l).count k = if c ≤ l.idxOf k ∧ l.idxOf k < c + m then 1 else 0 := by
  have hnd : (window m c l).Nodup :=
    ((List.take_sublist m _).trans (List.drop_sublist c l)).nodup hl
  by_cases hmem : k ∈ window m c l
  · rw [List.count_eq_one_of_mem hnd hmem, if_pos ((mem_window_iff hl hk).mp hmem)]
  · rw [List.count_eq_zero_of_not_mem hmem, if_neg fun h => hmem ((mem_window_iff hl hk).mpr h)]

/-- From an offset on, an entry is read as often as the offset passes it on a page: once more than
the offset falls behind it between pages, less the times it passes it there. -/
theorem count_windows_cons {m : ℕ} {k : κ} {c : ℕ} {l : List κ} {ls : List (List κ)}
    (hnd : ∀ l' ∈ l :: ls, l'.Nodup) (hmem : ∀ l' ∈ l :: ls, k ∈ l') (hends : Ends m c (l :: ls)) :
    ((windows m c (l :: ls)).flatten).count k + crossings false m k c (l :: ls) =
      (if l.idxOf k < c then 0 else 1) + crossings true m k c (l :: ls) := by
  induction ls generalizing c l with
  | nil =>
    have hlast : l.length ≤ c + m := by
      by_contra hlen
      rw [Ends, if_neg hlen] at hends
      exact hends
    have hk := hmem l List.mem_cons_self
    have hpos := List.idxOf_lt_length_of_mem hk
    rw [windows, windows, List.flatten_cons, List.flatten_nil, List.append_nil,
      count_window (hnd l List.mem_cons_self) hk]
    simp only [crossings]
    split <;> split <;> omega
  | cons l' ls ih =>
    have hrest : Ends m (c + m) (l' :: ls) := by
      rw [Ends] at hends
      split at hends
      · cases hends
      · exact hends
    have htail := ih (fun x hx => hnd x (List.mem_cons_of_mem l hx))
      (fun x hx => hmem x (List.mem_cons_of_mem l hx)) hrest
    rw [windows, List.flatten_cons, List.count_append,
      count_window (hnd l List.mem_cons_self) (hmem l List.mem_cons_self), crossings, crossings]
    by_cases hbefore : l.idxOf k < c + m
    · by_cases hpassed : l'.idxOf k < c + m <;> simp [hbefore, hpassed] at htail ⊢ <;>
        split <;> split <;> omega
    · by_cases hpassed : l'.idxOf k < c + m <;> simp [hbefore, hpassed] at htail ⊢ <;>
        split <;> omega

/-- **An entry is read exactly once** if between the pages the offset passes it as often as it
falls behind it. -/
theorem count_windows {m : ℕ} {k : κ} {ls : List (List κ)} (hnd : ∀ l ∈ ls, l.Nodup)
    (hmem : ∀ l ∈ ls, k ∈ l) (hends : Ends m 0 ls) :
    ((windows m 0 ls).flatten).count k = 1 ↔
      crossings false m k 0 ls = crossings true m k 0 ls := by
  cases ls with
  | nil => exact hends.elim
  | cons l ls =>
    have hcount := count_windows_cons hnd hmem hends
    rw [if_neg (Nat.not_lt_zero _)] at hcount
    omega

end Entries

/-! ### Groups are read once -/

/-- No two pages have entries of one group. -/
def Ungrouped {γ : Type*} (group : κ → Option γ) (pages : List (List κ)) : Prop :=
  pages.Pairwise fun w w' => ∀ k ∈ w, ∀ k' ∈ w', group k = group k' → group k = none

instance {γ : Type*} [DecidableEq γ] (group : κ → Option γ) (pages : List (List κ)) :
    Decidable (Ungrouped group pages) :=
  inferInstanceAs (Decidable (List.Pairwise _ pages))

section Groups

variable {γ : Type*} [DecidableEq γ] {group : κ → Option γ} {pages : List (List κ)} {g : γ}

/-- How many pages have entries of a group. -/
def pagesOf (group : κ → Option γ) (g : γ) (pages : List (List κ)) : ℕ :=
  pages.countP fun w => w.any fun k => group k = some g

theorem pagesOf_cons (w : List κ) :
    pagesOf group g (w :: pages) =
      pagesOf group g pages + if ∃ k ∈ w, group k = some g then 1 else 0 := by
  rw [pagesOf, List.countP_cons]
  simp only [List.any_eq_true, decide_eq_true_eq]
  rfl

theorem pagesOf_pos_iff : 0 < pagesOf group g pages ↔ ∃ w ∈ pages, ∃ k ∈ w, group k = some g := by
  rw [pagesOf, List.countP_pos_iff]
  simp only [List.any_eq_true, decide_eq_true_eq]

/-- **No group is read by two pages** exactly if no two pages have entries of one group. -/
theorem ungrouped_iff : Ungrouped group pages ↔ ∀ g, pagesOf group g pages ≤ 1 := by
  induction pages with
  | nil => exact ⟨fun _ _ => Nat.zero_le _, fun _ => List.Pairwise.nil⟩
  | cons w pages ih =>
    rw [Ungrouped, List.pairwise_cons]
    constructor
    · rintro ⟨hw, hpages⟩ g
      have hle := ih.mp hpages g
      rw [pagesOf_cons]
      split
      · next hread =>
          obtain ⟨k, hk, hg⟩ := hread
          have hzero : ¬ 0 < pagesOf group g pages := by
            rw [pagesOf_pos_iff]
            rintro ⟨w', hw', k', hk', hg'⟩
            cases hg.symm.trans (hw w' hw' k hk k' hk' (hg.trans hg'.symm))
          omega
      · omega
    · intro hle
      refine ⟨fun w' hw' k hk k' hk' heq => ?_, ih.mpr fun g => ?_⟩
      · cases hg : group k with
        | none => rfl
        | some g =>
          have hpos : 0 < pagesOf group g pages :=
            pagesOf_pos_iff.mpr ⟨w', hw', k', hk', heq.symm.trans hg⟩
          have hone := hle g
          rw [pagesOf_cons, if_pos ⟨k, hk, hg⟩] at hone
          omega
      · have hone := hle g
        rw [pagesOf_cons] at hone
        omega

theorem countP_le_one_iff {ι : Type*} {P : ι → Bool} {l : List ι} (hl : l.Nodup) :
    l.countP P ≤ 1 ↔ ∀ i ∈ l, ∀ j ∈ l, P i → P j → i = j := by
  induction l with
  | nil => simp
  | cons a l ih =>
    rw [List.nodup_cons] at hl
    rw [List.countP_cons]
    by_cases ha : P a = true
    · rw [if_pos ha]
      have hzero : l.countP P + 1 ≤ 1 ↔ ∀ i ∈ l, ¬ P i = true := by
        rw [← List.countP_eq_zero]
        omega
      rw [hzero]
      constructor
      · intro hnone i hi j hj hPi hPj
        rcases List.mem_cons.mp hi with rfl | hi
        · rcases List.mem_cons.mp hj with rfl | hj
          · rfl
          · exact absurd hPj (hnone j hj)
        · exact absurd hPi (hnone i hi)
      · intro hall i hi hPi
        have heq := hall i (List.mem_cons_of_mem a hi) a List.mem_cons_self hPi ha
        exact hl.1 (heq ▸ hi)
    · rw [if_neg ha, Nat.add_zero, ih hl.2]
      constructor
      · intro hall i hi j hj hPi hPj
        refine hall i ?_ j ?_ hPi hPj
        · exact (List.mem_cons.mp hi).resolve_left fun heq => ha (heq ▸ hPi)
        · exact (List.mem_cons.mp hj).resolve_left fun heq => ha (heq ▸ hPj)
      · exact fun hall i hi j hj =>
          hall i (List.mem_cons_of_mem a hi) j (List.mem_cons_of_mem a hj)

end Groups

/-! ### One list, and offsets that are named -/

section Jumps

variable {next : ℕ → Option ℕ} {m c : ℕ} {l : List κ}

/-- The offsets of the pages of a list, when the offset of each page is named by the last one. -/
def Jumps (next : ℕ → Option ℕ) (m : ℕ) (l : List κ) : ℕ → List ℕ → Prop
  | _, [] => False
  | c, c' :: cs =>
      c' = c ∧ if l.length ≤ c + m then cs = [] else ∃ c₁, next c = some c₁ ∧ Jumps next m l c₁ cs

/-- The entries on the pages. -/
def reads (m : ℕ) (l : List κ) (cs : List ℕ) : List (List κ) :=
  cs.map fun c => window m c l

theorem Jumps.unique {cs cs' : List ℕ} (h : Jumps next m l c cs) (h' : Jumps next m l c cs') :
    cs = cs' := by
  induction cs generalizing c cs' with
  | nil => exact h.elim
  | cons d cs ih =>
    cases cs' with
    | nil => exact h'.elim
    | cons d' cs' =>
      obtain ⟨rfl, h⟩ := h
      obtain ⟨rfl, h'⟩ := h'
      split at h
      · next hlast =>
          rw [if_pos hlast] at h'
          rw [h, h']
      · next hmore =>
          rw [if_neg hmore] at h'
          obtain ⟨c₁, hnext, h⟩ := h
          obtain ⟨c₂, hnext', h'⟩ := h'
          obtain rfl := Option.some.inj (hnext.symm.trans hnext')
          rw [ih h h']

/-- Offsets that grow by `m` read the windows of the list. -/
theorem jumps_windows (hnext : ∀ c c', next c = some c' → c' = c + m) {cs : List ℕ}
    (h : Jumps next m l c cs) :
    reads m l cs = windows m c (List.replicate cs.length l) ∧
      Ends m c (List.replicate cs.length l) := by
  induction cs generalizing c with
  | nil => exact h.elim
  | cons d cs ih =>
    obtain ⟨rfl, h⟩ := h
    rw [reads, List.map_cons, List.length_cons, List.replicate_succ, windows, Ends]
    split at h
    · next hlast =>
        subst h
        rw [if_pos hlast]
        exact ⟨rfl, rfl⟩
    · next hmore =>
        obtain ⟨c₁, hc, h⟩ := h
        obtain rfl := hnext _ _ hc
        obtain ⟨hreads, hends⟩ := ih h
        rw [if_neg hmore]
        exact ⟨congrArg _ hreads, hends⟩

theorem length_le_of_ends {r : ℕ} (h : Ends m c (List.replicate r l)) : l.length ≤ c + r * m := by
  induction r generalizing c with
  | zero => exact h.elim
  | succ r ih =>
    rw [List.replicate_succ, Ends] at h
    split at h
    · next hlast =>
        have : m ≤ (r + 1) * m := Nat.le_mul_of_pos_left m (Nat.succ_pos r)
        omega
    · have := ih h
      rw [Nat.succ_mul]
      omega

theorem windows_replicate (r : ℕ) :
    windows m c (List.replicate r l) = (List.range r).map fun i => window m (c + i * m) l := by
  induction r generalizing c with
  | zero => rfl
  | succ r ih =>
    rw [List.replicate_succ, windows, ih, List.range_succ_eq_map, List.map_cons, List.map_map]
    refine congrArg₂ List.cons (by simp) (List.map_congr_left fun i _ => ?_)
    show window m (c + m + i * m) l = window m (c + (i + 1) * m) l
    congr 1
    ring

/-- Such offsets can be named as long as they are below a bound. -/
theorem exists_jumps_iff {B : ℕ} (hm : 0 < m) (hnext : ∀ c, next c = if c + m < B then some (c + m)
      else none) :
    (∃ cs, Jumps next m l c cs) ↔ ∀ i, c + (i + 1) * m < l.length → c + (i + 1) * m < B := by
  constructor
  · rintro ⟨cs, h⟩
    induction cs generalizing c with
    | nil => exact h.elim
    | cons d cs ih =>
      obtain ⟨rfl, h⟩ := h
      intro i hi
      split at h
      · next hlast =>
          have : m ≤ (i + 1) * m := Nat.le_mul_of_pos_left m (Nat.succ_pos i)
          omega
      · obtain ⟨c₁, hc, h⟩ := h
        rw [hnext] at hc
        obtain ⟨hlt, hc⟩ := Option.ite_none_right_eq_some.mp hc
        obtain rfl := Option.some.inj hc
        cases i with
        | zero => omega
        | succ i =>
          have := ih h i (by rw [Nat.succ_mul] at hi ⊢; rw [Nat.succ_mul] at hi; omega)
          rw [Nat.succ_mul] at this ⊢
          rw [Nat.succ_mul]
          omega
  · intro hall
    induction hn : l.length - c using Nat.strongRecOn generalizing c with
    | ind n ih =>
      by_cases hlast : l.length ≤ c + m
      · exact ⟨[c], rfl, by rw [if_pos hlast]⟩
      · have hlt := hall 0 (by omega)
        obtain ⟨cs, hcs⟩ := ih (l.length - (c + m)) (by omega) (c := c + m) (fun i hi => by
          have := hall (i + 1) (by rw [Nat.succ_mul]; omega)
          rw [Nat.succ_mul] at this
          omega) rfl
        refine ⟨c :: cs, rfl, ?_⟩
        rw [if_neg hlast]
        refine ⟨c + m, ?_, hcs⟩
        rw [hnext, if_pos (by omega)]

variable [BEq κ] [LawfulBEq κ] {k : κ}

omit [LawfulBEq κ] in
/-- An entry of one list keeps its position. -/
theorem crossings_replicate (passed : Bool) (r : ℕ) :
    crossings passed m k c (List.replicate r l) = 0 := by
  induction r generalizing c with
  | zero => rfl
  | succ r ih =>
    cases r with
    | zero => rfl
    | succ r =>
      have hnot : ¬ (decide (l.idxOf k < c + m) = passed ∧
          decide (l.idxOf k < c + m) = !passed) := by
        rintro ⟨rfl, hnot⟩
        cases hlt : decide (l.idxOf k < c + m) <;> simp [hlt] at hnot
      have hrest := ih (c := c + m)
      rw [List.replicate_succ] at hrest
      rw [List.replicate_succ, List.replicate_succ, crossings, if_neg hnot, hrest]

/-- Every entry is on exactly one page of them. -/
theorem count_windows_replicate {r : ℕ} (hl : l.Nodup) (hk : k ∈ l)
    (h : Ends m 0 (List.replicate r l)) :
    ((windows m 0 (List.replicate r l)).flatten).count k = 1 := by
  refine (count_windows ?_ ?_ h).mpr ?_
  · exact fun l' hl' => (List.eq_of_mem_replicate hl').symm ▸ hl
  · exact fun l' hl' => (List.eq_of_mem_replicate hl').symm ▸ hk
  · rw [crossings_replicate, crossings_replicate]

/-- A group is on one page of them if its entries have their positions on one. -/
theorem pagesOf_windows_replicate {γ : Type*} [DecidableEq γ] (group : κ → Option γ) {g : γ}
    {r : ℕ} (hm : 0 < m) (hl : l.Nodup) (h : Ends m 0 (List.replicate r l)) :
    pagesOf group g (windows m 0 (List.replicate r l)) ≤ 1 ↔
      ∀ k ∈ l, ∀ k' ∈ l, group k = some g → group k' = some g →
        l.idxOf k / m = l.idxOf k' / m := by
  have hlen := length_le_of_ends h
  have hmem : ∀ {k i}, k ∈ l → (k ∈ window m (0 + i * m) l ↔ l.idxOf k / m = i) := by
    intro k i hk
    rw [mem_window_iff hl hk, Nat.zero_add, Nat.div_eq_iff hm]
    omega
  have hpage : ∀ {k}, k ∈ l → l.idxOf k / m < r := by
    intro k hk
    have := List.idxOf_lt_length_of_mem hk
    rw [Nat.div_lt_iff_lt_mul hm]
    omega
  rw [windows_replicate, pagesOf, List.countP_map, countP_le_one_iff List.nodup_range]
  simp only [Function.comp, List.any_eq_true, decide_eq_true_eq, List.mem_range]
  constructor
  · intro hall k hk k' hk' hg hg'
    refine hall _ (hpage hk) _ (hpage hk') ⟨k, (hmem hk).mpr rfl, hg⟩ ⟨k', (hmem hk').mpr rfl, hg'⟩
  · rintro hall i - j - ⟨k, hk, hg⟩ ⟨k', hk', hg'⟩
    have hkl : k ∈ l := List.mem_of_mem_drop (List.mem_of_mem_take hk)
    have hkl' : k' ∈ l := List.mem_of_mem_drop (List.mem_of_mem_take hk')
    rw [← (hmem hkl).mp hk, ← (hmem hkl').mp hk']
    exact hall k hkl k' hkl' hg hg'

end Jumps

end Lopata

import Mathlib.Data.List.Sort
import Mathlib.Order.Bounds.Basic

/-!
# The First Rows by a Key

`ORDER BY key LIMIT n` sorts the rows of a table by a key, rows of one key in table order, and
keeps the first `n`. Whether a row is among them is decided by how many rows are ahead of it:
those with a smaller key and those with the same key that come earlier in the table.

## Main results

* `idxOf_insertionSort`: the place of an element in the sorted list is the number of elements
  ahead of it.
* `mem_firstBy_iff`: a row is selected exactly when fewer than `n` rows are ahead of it.
* `insertionSort_filter`: filtering and sorting commute.
* `alike_iff`: two lists are sorted to the same list exactly when they have the same elements of
  each key, in the same order.
* `filter_take_eq_take_filter_iff`: when a filter may be applied behind the limit.
* `take_filter_eq_iff`: two predicates select the same first rows of a list exactly when the rows on
  which they differ stand behind `n` selected ones.
-/

namespace Lopata

variable {α β : Type*} [LinearOrder β] {key : α → β} {l : List α} {a x : α} {n : ℤ}

/-- `LIMIT n`: a negative number sets no limit. -/
def limit (n : ℤ) (l : List α) : List α :=
  if n < 0 then l else l.take n.toNat

/-- `ORDER BY key LIMIT n`. -/
def firstBy (key : α → β) (n : ℤ) (l : List α) : List α :=
  limit n (l.insertionSort fun a b => key a ≤ key b)

/-- The first rows are rows. -/
theorem mem_of_mem_firstBy (h : x ∈ firstBy key n l) : x ∈ l := by
  simp only [firstBy, limit] at h
  split at h
  · exact (List.mem_insertionSort _).mp h
  · exact (List.mem_insertionSort _).mp (List.mem_of_mem_take h)

/-- No row is selected twice. -/
theorem nodup_firstBy (h : l.Nodup) : (firstBy key n l).Nodup := by
  have hsorted := (List.perm_insertionSort (fun a b => key a ≤ key b) l).nodup_iff.mpr h
  simp only [firstBy, limit]
  split
  · exact hsorted
  · exact (List.take_sublist _ _).nodup hsorted

/-! ### Lists without repetition in order -/

/-- An element of an increasing list stands behind as many as are smaller. -/
theorem getElem?_eq_some_iff_of_pairwise_lt {l : List β} (h : l.Pairwise (· < ·)) {k : ℕ} {x : β} :
    l[k]? = some x ↔ x ∈ l ∧ l.countP (· < x) = k := by
  induction l generalizing k with
  | nil => simp
  | cons a l ih =>
    obtain ⟨hfirst, hrest⟩ := List.pairwise_cons.mp h
    have hcount : l.countP (· < a) = 0 := by
      rw [List.countP_eq_zero]
      intro y hy
      simpa using (hfirst y hy).le
    cases k with
    | zero =>
      rw [List.getElem?_cons_zero, Option.some.injEq]
      constructor
      · rintro rfl
        exact ⟨List.mem_cons_self, by simp [hcount]⟩
      · rintro ⟨hmem, hzero⟩
        rcases List.mem_cons.mp hmem with rfl | hmem
        · rfl
        · simp [hfirst x hmem] at hzero
    | succ k =>
      rw [List.getElem?_cons_succ, ih hrest]
      constructor
      · rintro ⟨hmem, hk⟩
        exact ⟨List.mem_cons_of_mem a hmem, by simp [hfirst x hmem, hk]⟩
      · rintro ⟨hmem, hk⟩
        rcases List.mem_cons.mp hmem with rfl | hmem
        · simp [hcount] at hk
        · exact ⟨hmem, by simpa [hfirst x hmem] using hk⟩

/-- The last element of an increasing list is the greatest one. -/
theorem isGreatest_of_getLast?_eq_some {l : List β} (h : l.Pairwise (· < ·)) {x : β}
    (hlast : l.getLast? = some x) : IsGreatest {y | y ∈ l} x := by
  obtain ⟨init, rfl⟩ := List.getLast?_eq_some_iff.mp hlast
  obtain ⟨-, -, hbefore⟩ := List.pairwise_append.mp h
  refine ⟨by simp, fun y hy => ?_⟩
  rcases List.mem_append.mp hy with hy | hy
  · exact (hbefore y hy x (List.mem_singleton_self x)).le
  · exact (List.mem_singleton.mp hy).le

/-! ### How many rows are ahead -/

/-- The part of a sorted list an element is put behind. -/
theorem length_takeWhile_of_sorted (h : l.Pairwise fun a b => key a ≤ key b) :
    (l.takeWhile fun b => ¬ key a ≤ key b).length = l.countP fun y => key y < key a := by
  induction l with
  | nil => rfl
  | cons b l ih =>
    obtain ⟨hb, hl⟩ := List.pairwise_cons.mp h
    by_cases hab : key a ≤ key b
    · have hnone : (b :: l).countP (fun y => key y < key a) = 0 := by
        rw [List.countP_eq_zero]
        intro y hy
        rcases List.mem_cons.mp hy with rfl | hy
        · simpa using hab
        · simpa using hab.trans (hb y hy)
      rw [hnone, List.takeWhile_cons_of_neg (by simpa using hab), List.length_nil]
    · have hlt : key b < key a := not_le.mp hab
      rw [List.takeWhile_cons_of_pos (by simpa using hab), List.length_cons, ih hl,
        List.countP_cons_of_pos (by simpa using hlt)]

/-- A sorted list is cut at the key: what stands in front of `a` has a smaller key. -/
theorem mem_takeWhile_iff_of_sorted (h : l.Pairwise fun a b => key a ≤ key b) (hx : x ∈ l) :
    x ∈ l.takeWhile (fun b => ¬ key a ≤ key b) ↔ ¬ key a ≤ key x := by
  constructor
  · intro hmem
    simpa using List.all_eq_true.mp List.all_takeWhile x hmem
  · intro hax
    induction l with
    | nil => cases hx
    | cons b l ih =>
      obtain ⟨hb, hl⟩ := List.pairwise_cons.mp h
      have hab : ¬ key a ≤ key b := by
        rcases List.mem_cons.mp hx with rfl | hmem
        · exact hax
        · exact fun hle => hax (hle.trans (hb x hmem))
      rw [List.takeWhile_cons_of_pos (by simpa using hab)]
      rcases List.mem_cons.mp hx with rfl | hmem
      · exact List.mem_cons_self
      · exact List.mem_cons_of_mem b (ih hl hmem)

/-! ### The filter and the order -/

/-- An element that is filtered out is inserted into the list that is filtered. -/
theorem filter_orderedInsert (p : α → Bool) (h : l.Pairwise fun a b => key a ≤ key b) :
    (l.orderedInsert (fun a b => key a ≤ key b) a).filter p =
      if p a then (l.filter p).orderedInsert (fun a b => key a ≤ key b) a else l.filter p := by
  induction l with
  | nil =>
    cases hpa : p a <;> simp [hpa]
  | cons b l ih =>
    obtain ⟨hb, hl⟩ := List.pairwise_cons.mp h
    rw [List.orderedInsert_cons]
    split
    · next hab =>
        cases hpa : p a
        · rw [List.filter_cons_of_neg (by simp [hpa]), if_neg (by simp)]
        · -- everything in the rest is behind `a`
          have hall : ∀ c ∈ (b :: l).filter p, key a ≤ key c := by
            intro c hc
            rcases List.mem_cons.mp (List.mem_of_mem_filter hc) with rfl | hc
            · exact hab
            · exact hab.trans (hb c hc)
          rw [List.filter_cons_of_pos hpa, if_pos rfl]
          cases hrest : (b :: l).filter p with
          | nil => rfl
          | cons c rest =>
            rw [List.orderedInsert_cons, if_pos (hall c (hrest ▸ List.mem_cons_self))]
    · next hab =>
        cases hpb : p b
        · rw [List.filter_cons_of_neg (by simp [hpb]), List.filter_cons_of_neg (by simp [hpb]),
            ih hl]
        · rw [List.filter_cons_of_pos hpb, List.filter_cons_of_pos hpb, ih hl,
            List.orderedInsert_cons, if_neg hab]
          split <;> rfl

/-- `WHERE` before `ORDER BY`, or after it. -/
theorem insertionSort_filter (p : α → Bool) :
    (l.filter p).insertionSort (fun a b => key a ≤ key b) =
      (l.insertionSort fun a b => key a ≤ key b).filter p := by
  induction l with
  | nil => rfl
  | cons a l ih =>
    rw [List.insertionSort_cons, filter_orderedInsert p (List.pairwise_insertionSort _ l), ← ih,
      List.filter_cons]
    split
    · rw [List.insertionSort_cons]
    · rfl

/-! ### Lists that are sorted alike -/

/-- The same elements of each key, in the same order. -/
def Alike (key : α → β) (l l' : List α) : Prop :=
  ∀ k, l.filter (fun a => key a = k) = l'.filter fun a => key a = k

namespace Alike

variable {l' m : List α}

theorem refl (l : List α) : Alike key l l := fun _ => rfl

theorem symm (h : Alike key l l') : Alike key l' l := fun k => (h k).symm

theorem trans (h : Alike key l l') (h' : Alike key l' m) : Alike key l m :=
  fun k => (h k).trans (h' k)

theorem append_right (h : Alike key l l') (m : List α) : Alike key (l ++ m) (l' ++ m) := by
  intro k
  rw [List.filter_append, List.filter_append, h k]

theorem filter (h : Alike key l l') (p : α → Bool) : Alike key (l.filter p) (l'.filter p) := by
  intro k
  rw [List.filter_comm, h k, List.filter_comm]

theorem mem_iff (h : Alike key l l') : x ∈ l ↔ x ∈ l' := by
  have hx := congrArg (x ∈ ·) (h (key x))
  simpa using hx

/-- Sorting keeps the order within a key. -/
theorem insertionSort (l : List α) :
    Alike key (l.insertionSort fun a b => key a ≤ key b) l := by
  intro k
  rw [← insertionSort_filter]
  refine List.Pairwise.insertionSort_eq (List.pairwise_of_forall_mem_list fun a ha b hb => ?_)
  have hak : key a = k := by simpa using (List.mem_filter.mp ha).2
  have hbk : key b = k := by simpa using (List.mem_filter.mp hb).2
  exact (hak.trans hbk.symm).le

/-- The first elements of two lists in order have the same key. -/
theorem key_le {y : α} (h : Alike key (x :: l) (y :: l'))
    (hl' : (y :: l').Pairwise fun a b => key a ≤ key b) : key y ≤ key x := by
  rcases List.mem_cons.mp (h.mem_iff.mp List.mem_cons_self) with heq | hmem
  · rw [heq]
  · exact (List.pairwise_cons.mp hl').1 x hmem

/-- Lists in order that are alike are equal. -/
theorem eq_of_sorted (h : Alike key l l') (hl : l.Pairwise fun a b => key a ≤ key b)
    (hl' : l'.Pairwise fun a b => key a ≤ key b) : l = l' := by
  induction l generalizing l' with
  | nil =>
    cases l' with
    | nil => rfl
    | cons y l' => exact absurd (h.mem_iff.mpr List.mem_cons_self) List.not_mem_nil
  | cons x l ih =>
    cases l' with
    | nil => exact absurd (h.mem_iff.mp List.mem_cons_self) List.not_mem_nil
    | cons y l' =>
      have hkey : key y = key x := le_antisymm (h.key_le hl') (h.symm.key_le hl)
      have hfirst := h (key x)
      rw [List.filter_cons_of_pos (by simp), List.filter_cons_of_pos (by simp [hkey])] at hfirst
      obtain ⟨rfl, -⟩ := List.cons.inj hfirst
      refine congrArg (x :: ·) (ih (fun k => ?_) hl.of_cons hl'.of_cons)
      have hk := h k
      by_cases hxk : key x = k
      · rw [List.filter_cons_of_pos (by simpa using hxk),
          List.filter_cons_of_pos (by simpa using hxk)] at hk
        exact (List.cons.inj hk).2
      · rwa [List.filter_cons_of_neg (by simpa using hxk),
          List.filter_cons_of_neg (by simpa using hxk)] at hk

end Alike

/-- What a stable sort can tell apart. -/
theorem alike_iff {l' : List α} :
    Alike key l l' ↔ (l.insertionSort fun a b => key a ≤ key b) =
      l'.insertionSort fun a b => key a ≤ key b := by
  constructor
  · intro h
    exact (((Alike.insertionSort l).trans h).trans (Alike.insertionSort l').symm).eq_of_sorted
      (List.pairwise_insertionSort _ _) (List.pairwise_insertionSort _ _)
  · intro h
    have hl : Alike key (l.insertionSort fun a b => key a ≤ key b) l := Alike.insertionSort l
    rw [h] at hl
    exact hl.symm.trans (Alike.insertionSort l')

/-! ### The limit -/

/-- **The limit before the filter.** Taking the first `n` elements and then those with `q` gives the
first `n` elements with `p` exactly when no other element with `q` is among the first `n`, and these
all have `p` or nothing behind them has. -/
theorem filter_take_eq_take_filter_iff {p q : α → Bool} {n : ℕ} (hpq : ∀ a, p a → q a) :
    (l.take n).filter q = (l.filter p).take n ↔
      (∀ a ∈ l.take n, q a → p a) ∧ ((∀ a ∈ l.take n, p a) ∨ ∀ a ∈ l.drop n, ¬ p a) := by
  have hsplit : l.filter p = (l.take n).filter p ++ (l.drop n).filter p := by
    rw [← List.filter_append, List.take_append_drop]
  have hlen : ((l.take n).filter p).length ≤ n :=
    (List.length_filter_le _ _).trans (List.length_take_le _ _)
  -- the first `n` elements are exhausted by their own filter, or nothing follows
  have hfirst : (l.filter p).take n = (l.take n).filter p ↔
      (∀ a ∈ l.take n, p a) ∨ ∀ a ∈ l.drop n, ¬ p a := by
    constructor
    · intro heq
      by_cases hall : ∀ a ∈ l.take n, p a
      · exact .inl hall
      · refine .inr fun a ha hpa => ?_
        have hlt : ((l.take n).filter p).length < n := by
          have := (List.length_filter_lt_length_iff_exists (l := l.take n) (p := p)).mpr
            (by simpa using hall)
          exact this.trans_le (List.length_take_le _ _)
        have hpos : 0 < ((l.drop n).filter p).length :=
          List.length_pos_of_mem (List.mem_filter.mpr ⟨ha, hpa⟩)
        have := congrArg List.length heq
        rw [hsplit, List.length_take, List.length_append] at this
        omega
    · rintro (hall | hnone)
      · rw [hsplit, List.filter_eq_self.mpr (by simpa using hall)]
        by_cases hn : n ≤ l.length
        · rw [List.take_append_of_le_length (by rw [List.length_take]; omega),
            List.take_of_length_le (List.length_take_le _ _)]
        · rw [List.drop_eq_nil_of_le (by omega), List.filter_nil, List.append_nil,
            List.take_of_length_le (List.length_take_le _ _)]
      · have hnil : (l.drop n).filter p = [] := List.filter_eq_nil_iff.mpr hnone
        rw [hsplit, hnil, List.append_nil, List.take_of_length_le hlen]
  constructor
  · intro heq
    have hqp : ∀ a ∈ l.take n, q a → p a := by
      intro a ha hq
      have := List.mem_of_mem_take (heq ▸ List.mem_filter.mpr ⟨ha, hq⟩)
      exact (List.mem_filter.mp this).2
    have hsame : (l.take n).filter q = (l.take n).filter p :=
      List.filter_congr fun a ha => Bool.eq_iff_iff.mpr ⟨hqp a ha, hpq a⟩
    exact ⟨hqp, hfirst.mp (heq.symm.trans hsame)⟩
  · rintro ⟨hqp, hrest⟩
    have hsame : (l.take n).filter q = (l.take n).filter p :=
      List.filter_congr fun a ha => Bool.eq_iff_iff.mpr ⟨hqp a ha, hpq a⟩
    rw [hsame, hfirst.mpr hrest]

/-! ### The rank of a row -/

variable [DecidableEq α]

/-- The number of elements ahead of `x`: those with a smaller key, and those with the same key
that come before it. -/
def rank (key : α → β) : List α → α → ℕ
  | [], _ => 0
  | a :: l, x =>
      if a = x then l.countP fun y => key y < key x
      else (if key a ≤ key x then 1 else 0) + rank key l x

/-- The place of an element in the sorted list. -/
theorem idxOf_insertionSort (hnd : l.Nodup) (hx : x ∈ l) :
    (l.insertionSort fun a b => key a ≤ key b).idxOf x = rank key l x := by
  induction l with
  | nil => cases hx
  | cons a l ih =>
    obtain ⟨ha, hl⟩ := List.nodup_cons.mp hnd
    have hsorted : (l.insertionSort fun a b => key a ≤ key b).Pairwise
        fun a b => key a ≤ key b := List.pairwise_insertionSort _ l
    have hperm := List.perm_insertionSort (fun a b => key a ≤ key b) l
    rw [List.insertionSort_cons_eq_take_drop, rank]
    by_cases hax : a = x
    · -- the new element stands behind the elements with a smaller key
      subst hax
      have hnot : a ∉ (l.insertionSort fun a b => key a ≤ key b).takeWhile
          fun b => ¬ key a ≤ key b := fun hmem =>
        ha ((List.mem_insertionSort _).mp ((List.takeWhile_sublist _).subset hmem))
      rw [if_pos rfl, List.idxOf_append_of_notMem hnot, List.idxOf_cons_self, Nat.add_zero,
        length_takeWhile_of_sorted hsorted, hperm.countP_eq]
    · have hmem : x ∈ l := (List.mem_cons.mp hx).resolve_left (Ne.symm hax)
      have hmem' : x ∈ l.insertionSort fun a b => key a ≤ key b :=
        (List.mem_insertionSort _).mpr hmem
      have hcut := mem_takeWhile_iff_of_sorted (a := a) hsorted hmem'
      have hidx := ih hl hmem
      rw [← List.takeWhile_append_dropWhile (p := fun b => decide ¬ key a ≤ key b)
        (l := l.insertionSort fun a b => key a ≤ key b)] at hidx
      rw [if_neg hax]
      by_cases hle : key a ≤ key x
      · -- the new element is put in front of `x`
        have hnot := fun hin => hcut.mp hin hle
        rw [List.idxOf_append_of_notMem hnot] at hidx
        rw [List.idxOf_append_of_notMem hnot, List.idxOf_cons_ne _ hax, if_pos hle]
        omega
      · have hin := hcut.mpr hle
        rw [List.idxOf_append_of_mem hin] at hidx
        rw [List.idxOf_append_of_mem hin, if_neg hle, hidx, Nat.zero_add]

/-- **Selection by rank.** A row is among the first `n` exactly when fewer than `n` rows are
ahead of it. -/
theorem mem_firstBy_iff (hnd : l.Nodup) :
    x ∈ firstBy key n l ↔ x ∈ l ∧ (n < 0 ∨ (rank key l x : ℤ) < n) := by
  have hmem : x ∈ l.insertionSort (fun a b => key a ≤ key b) ↔ x ∈ l := List.mem_insertionSort _
  simp only [firstBy, limit]
  split
  · next hn =>
      rw [hmem]
      exact ⟨fun h => ⟨h, .inl hn⟩, And.left⟩
  · next hn =>
      constructor
      · intro h
        have hx := hmem.mp (List.mem_of_mem_take h)
        rw [List.mem_take_iff_idxOf_lt (hmem.mpr hx), idxOf_insertionSort hnd hx] at h
        exact ⟨hx, .inr (by omega)⟩
      · rintro ⟨hx, hrank⟩
        rw [List.mem_take_iff_idxOf_lt (hmem.mpr hx), idxOf_insertionSort hnd hx]
        omega

/-! ### The first rows of two selections -/

omit [DecidableEq α] in
/-- **The first selected rows.** Two predicates select the same `n` first rows exactly when every row
on which they differ stands behind `n` rows that are selected. -/
theorem take_filter_eq_iff {p q : α → Bool} {n : ℕ} (hnd : l.Nodup) :
    (l.filter p).take n = (l.filter q).take n ↔
      ∀ front a rest, l = front ++ a :: rest → p a ≠ q a → n ≤ front.countP q := by
  induction l generalizing n with
  | nil =>
    refine iff_of_true rfl fun front a rest heq => ?_
    cases (List.append_eq_nil_iff.mp heq.symm).2
  | cons b l ih =>
    obtain ⟨hb, hl⟩ := List.nodup_cons.mp hnd
    -- the first row of the list, or one behind it
    have hcons : (∀ front a rest, b :: l = front ++ a :: rest → p a ≠ q a → n ≤ front.countP q) ↔
        (p b ≠ q b → n = 0) ∧ ∀ front a rest, l = front ++ a :: rest → p a ≠ q a →
          n ≤ (b :: front).countP q := by
      constructor
      · intro hall
        refine ⟨fun hne => Nat.le_zero.mp (hall [] b l rfl hne), ?_⟩
        rintro front a rest rfl hne
        exact hall (b :: front) a rest rfl hne
      · rintro ⟨hfirst, hlater⟩ front a rest heq hne
        cases front with
        | nil =>
          obtain ⟨rfl, rfl⟩ := List.cons.inj heq
          exact (hfirst hne).le
        | cons c front =>
          obtain ⟨rfl, rfl⟩ := List.cons.inj heq
          exact hlater front a rest rfl hne
    have hnot : ∀ (r : α → Bool), b ∉ l.filter r := fun r hmem => hb (List.mem_of_mem_filter hmem)
    rw [hcons]
    cases hp : p b <;> cases hq : q b
    · simp [hp, hq, ih hl]
    · -- the second selection starts with a row the first one does not have
      cases n with
      | zero => simp
      | succ n =>
        refine iff_of_false (fun heq => ?_) fun hboth => by simpa using hboth.1
        rw [List.filter_cons_of_neg (by simp [hp]), List.filter_cons_of_pos hq,
          List.take_succ_cons] at heq
        exact hnot p (List.mem_of_mem_take (heq ▸ List.mem_cons_self))
    · cases n with
      | zero => simp
      | succ n =>
        refine iff_of_false (fun heq => ?_) fun hboth => by simpa using hboth.1
        rw [List.filter_cons_of_pos hp, List.filter_cons_of_neg (by simp [hq]),
          List.take_succ_cons] at heq
        exact hnot q (List.mem_of_mem_take (heq ▸ List.mem_cons_self))
    · cases n with
      | zero => simp
      | succ n => simp [hp, hq, ih hl]

end Lopata

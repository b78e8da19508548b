import Mathlib.Data.List.Basic
import Mathlib.Data.List.Infix
import Mathlib.Data.List.TakeWhile

/-!
# Searching and Replacing

Regular expressions that are sequences of literals and runs of a class of characters, with the
backtracking search for their matches, and the replacement of a literal.

## Main results

* `matchAt_skip`, `matchAt_capture`: a run that is ended by a character of no run is taken whole.
* `matchAll_of_clash`: the search goes on behind a text in which no match can start.
* `replaceAll_flatMap`: of a text that is written character by character, one way of writing is
  replaced by another.
* `occurrences_append`: a text stands in two texts where it starts in the one or in the other.
-/

namespace Lopata

variable {α : Type} [DecidableEq α]

/-! ### Texts that differ -/

/-- Two texts are different at a place both of them have. -/
def Clash (a b : List α) : Prop := ¬ a <+: b ∧ ¬ b <+: a

instance (a b : List α) : Decidable (Clash a b) := inferInstanceAs (Decidable (_ ∧ _))

omit [DecidableEq α] in
/-- What is behind it makes no difference. -/
theorem Clash.not_prefix_append {a b : List α} (h : Clash a b) (rest : List α) :
    ¬ a <+: b ++ rest := fun hprefix =>
  (List.prefix_or_prefix_of_prefix hprefix (List.prefix_append b rest)).elim h.1 h.2

/-- A text starts nowhere in another one, whatever is behind that. -/
def ClashAll (a b : List α) : Prop := ∀ t ∈ b.tails, t = [] ∨ Clash a t

instance (a b : List α) : Decidable (ClashAll a b) :=
  inferInstanceAs (Decidable (∀ t ∈ b.tails, _))

omit [DecidableEq α] in
theorem ClashAll.tail {a b : List α} {c : α} (h : ClashAll a (c :: b)) : ClashAll a b :=
  fun t ht => h t (List.mem_cons_of_mem _ ht)

omit [DecidableEq α] in
theorem ClashAll.head {a b : List α} {c : α} (h : ClashAll a (c :: b)) : Clash a (c :: b) :=
  (h _ List.mem_cons_self).resolve_left (List.cons_ne_nil c b)

omit [DecidableEq α] in
theorem clashAll_singleton {a : List α} {c d : α} (h : c ≠ d) : ClashAll (c :: a) [d] := by
  intro t ht
  rcases List.mem_cons.mp ht with rfl | ht
  · exact .inr ⟨fun hp => h (List.cons_prefix_cons.mp hp).1,
      fun hp => h (List.cons_prefix_cons.mp hp).1.symm⟩
  · exact .inl (List.mem_singleton.mp ht)

/-! ### Replacing a literal -/

/-- `text.replace(/pattern/g, replacement)` for a literal pattern that is not empty. -/
def replaceAll (pattern replacement : List α) : List α → List α
  | [] => []
  | c :: rest =>
      if pattern <+: c :: rest then
        replacement ++ replaceAll pattern replacement (rest.drop (pattern.length - 1))
      else c :: replaceAll pattern replacement rest
termination_by text => text.length
decreasing_by
  all_goals simp only [List.length_cons, List.length_drop]
  all_goals omega

theorem replaceAll_pattern {pattern : List α} (replacement : List α) (hne : pattern ≠ [])
    (rest : List α) :
    replaceAll pattern replacement (pattern ++ rest) =
      replacement ++ replaceAll pattern replacement rest := by
  obtain ⟨c, p, rfl⟩ := List.exists_cons_of_ne_nil hne
  rw [List.cons_append, replaceAll, if_pos ⟨rest, rfl⟩, List.length_cons, Nat.add_sub_cancel,
    List.drop_left]

theorem replaceAll_of_clash {pattern text : List α} (replacement : List α)
    (h : ClashAll pattern text) (rest : List α) :
    replaceAll pattern replacement (text ++ rest) =
      text ++ replaceAll pattern replacement rest := by
  induction text with
  | nil => rfl
  | cons c text ih =>
    rw [List.cons_append, replaceAll, ← List.cons_append,
      if_neg (h.head.not_prefix_append rest), ih h.tail, List.cons_append]

/-- **Replacing what was written.** Of a text that is written character by character, the characters
that are written as the pattern are written as the replacement instead. -/
theorem replaceAll_flatMap {pattern replacement : List α} (hne : pattern ≠ []) {f g : α → List α}
    (h : ∀ c, f c = pattern ∧ g c = replacement ∨ ClashAll pattern (f c) ∧ g c = f c)
    (text : List α) : replaceAll pattern replacement (text.flatMap f) = text.flatMap g := by
  induction text with
  | nil => rw [List.flatMap_nil, List.flatMap_nil, replaceAll]
  | cons c text ih =>
    rw [List.flatMap_cons, List.flatMap_cons]
    rcases h c with ⟨hf, hg⟩ | ⟨hclash, hg⟩
    · rw [hf, hg, replaceAll_pattern replacement hne, ih]
    · rw [hg, replaceAll_of_clash replacement hclash, ih]

/-! ### Where a text stands -/

/-- A text starts in the first of two texts, and may end in the second one. -/
def StartsIn (pattern part rest : List α) : Prop :=
  ∃ s, s ≠ [] ∧ s <:+ part ∧ pattern <+: s ++ rest

/-- How often it starts there. -/
def starts (pattern : List α) : List α → List α → ℕ
  | [], _ => 0
  | c :: part, rest =>
      (if pattern <+: c :: part ++ rest then 1 else 0) + starts pattern part rest

/-- How often a text stands in another one. -/
def occurrences (pattern text : List α) : ℕ := starts pattern text []

theorem starts_append (pattern part part' rest : List α) :
    starts pattern (part ++ part') rest =
      starts pattern part (part' ++ rest) + starts pattern part' rest := by
  induction part with
  | nil => rw [List.nil_append, starts, Nat.zero_add]
  | cons c part ih =>
    have hrest : c :: (part ++ part') ++ rest = c :: part ++ (part' ++ rest) := by
      rw [← List.cons_append, List.append_assoc]
    rw [List.cons_append, starts, starts, ih, hrest, Nat.add_assoc]

theorem occurrences_append (pattern part rest : List α) :
    occurrences pattern (part ++ rest) = starts pattern part rest + occurrences pattern rest := by
  rw [occurrences, starts_append, List.append_nil, occurrences]

theorem starts_eq_zero_iff {pattern part rest : List α} :
    starts pattern part rest = 0 ↔ ¬ StartsIn pattern part rest := by
  induction part with
  | nil =>
    refine ⟨fun _ hstarts => ?_, fun _ => rfl⟩
    obtain ⟨s, hne, hs, -⟩ := hstarts
    exact hne (List.suffix_nil.mp hs)
  | cons c part ih =>
    rw [starts, Nat.add_eq_zero_iff, ih, ite_eq_right_iff]
    constructor
    · rintro ⟨hhead, htail⟩ ⟨s, hne, hs, hpattern⟩
      rcases List.suffix_cons_iff.mp hs with rfl | hs
      · exact Nat.one_ne_zero (hhead hpattern)
      · exact htail ⟨s, hne, hs, hpattern⟩
    · intro h
      refine ⟨fun hhead => absurd ⟨_, List.cons_ne_nil c part, List.suffix_rfl, hhead⟩ h, ?_⟩
      rintro ⟨s, hne, hs, hpattern⟩
      exact h ⟨s, hne, hs.trans (List.suffix_cons c part), hpattern⟩

omit [DecidableEq α] in
/-- In a text of other characters than its first it does not start. -/
theorem not_startsIn_of_notMem {c : α} {pattern part : List α} (h : c ∉ part) (rest : List α) :
    ¬ StartsIn (c :: pattern) part rest := by
  rintro ⟨s, hne, hs, hpattern⟩
  obtain ⟨d, s, rfl⟩ := List.exists_cons_of_ne_nil hne
  obtain ⟨rfl, -⟩ := List.cons_prefix_cons.mp hpattern
  exact h (hs.subset List.mem_cons_self)

omit [DecidableEq α] in
theorem StartsIn.tail {pattern part rest : List α} {c : α} (h : StartsIn pattern part rest) :
    StartsIn pattern (c :: part) rest :=
  h.imp fun _ hs => ⟨hs.1, hs.2.1.trans (List.suffix_cons c part), hs.2.2⟩

omit [DecidableEq α] in
/-- Two ways to write a text part by part that differ in one part only. -/
theorem flatMap_eq_flatMap_iff {β : Type} {f g : β → List α} {a : β}
    (h : ∀ b, b ≠ a → f b = g b) (l : List β) :
    l.flatMap f = l.flatMap g ↔ (a ∈ l → f a = g a) := by
  classical
  have hlength : (l.flatMap f).length + l.count a * (g a).length =
      (l.flatMap g).length + l.count a * (f a).length := by
    induction l with
    | nil => rw [List.count_nil, Nat.zero_mul, Nat.zero_mul, List.flatMap_nil, List.flatMap_nil]
    | cons b l ih =>
      rw [List.flatMap_cons, List.flatMap_cons, List.length_append, List.length_append]
      by_cases hb : b = a
      · subst hb
        rw [List.count_cons_self, Nat.succ_mul, Nat.succ_mul]
        omega
      · rw [List.count_cons_of_ne hb, h b hb]
        omega
  constructor
  · intro heq ha
    have hcount := List.count_pos_iff.mpr ha
    have hlen : (f a).length = (g a).length := by
      rw [heq, Nat.add_left_cancel_iff] at hlength
      exact (Nat.eq_of_mul_eq_mul_left hcount hlength).symm
    clear hlength hcount
    induction l with
    | nil => cases ha
    | cons b l ih =>
      rw [List.flatMap_cons, List.flatMap_cons] at heq
      by_cases hb : b = a
      · subst hb
        exact (List.append_inj heq hlen).1
      · rw [h b hb] at heq
        exact ih (List.append_cancel_left heq) ((List.mem_cons.mp ha).resolve_left (Ne.symm hb))
  · intro ha
    refine List.flatMap_congr fun b hb => ?_
    by_cases hba : b = a
    · subst hba
      exact ha hb
    · exact h b hba

/-! ### Searching -/

/-- A part of a regular expression. -/
inductive Atom (α : Type) where
  | literal (text : List α)
  /-- Any number of characters of a class. -/
  | skip (p : α → Bool)
  /-- The same, in a group. -/
  | capture (p : α → Bool)

/-- The match at the start of a text, each run as long as it can be: what the groups matched, and
what is behind the match. -/
def matchAt : List (Atom α) → List α → Option (List (List α) × List α)
  | [], text => some ([], text)
  | .literal l :: atoms, text => if l <+: text then matchAt atoms (text.drop l.length) else none
  | .skip p :: atoms, text =>
      (List.range ((text.takeWhile p).length + 1)).reverse.findSome? fun n =>
        matchAt atoms (text.drop n)
  | .capture p :: atoms, text =>
      (List.range ((text.takeWhile p).length + 1)).reverse.findSome? fun n =>
        (matchAt atoms (text.drop n)).map fun found => (text.take n :: found.1, found.2)

/-- The groups of all matches, each searched for behind the one before. -/
def matchAll (atoms : List (Atom α)) (text : List α) : List (List (List α)) :=
  match matchAt atoms text with
  | some (found, rest) => if rest.length < text.length then found :: matchAll atoms rest else []
  | none =>
      match text with
      | [] => []
      | _ :: text => matchAll atoms text
termination_by text.length

section MatchAt

variable {p : α → Bool} {atoms : List (Atom α)} {part rest l : List α} {c : α}

theorem matchAt_literal (l : List α) (atoms : List (Atom α)) (rest : List α) :
    matchAt (.literal l :: atoms) (l ++ rest) = matchAt atoms rest := by
  rw [matchAt, if_pos (List.prefix_append l rest), List.drop_left]

/-- The last place of a search downwards, if it fails at no other. -/
theorem findSome?_range_reverse {β : Type} {f : ℕ → Option β} {n : ℕ}
    (h : ∀ m < n, f m = none) : (List.range (n + 1)).reverse.findSome? f = f n := by
  rw [List.range_succ, List.reverse_append, List.reverse_singleton, List.singleton_append,
    List.findSome?_cons]
  cases f n with
  | some b => rfl
  | none =>
    rw [List.findSome?_eq_none_iff]
    intro m hm
    exact h m (List.mem_range.mp (List.mem_reverse.mp hm))

omit [DecidableEq α] in
/-- A run of the class that is followed by another character. -/
theorem takeWhile_run (hpart : ∀ d ∈ part, p d = true) (hc : p c = false) (l : List α) :
    (part ++ c :: l).takeWhile p = part := by
  rw [List.takeWhile_append_of_pos hpart, List.takeWhile_cons_of_neg (by rw [hc]; decide),
    List.append_nil]

/-- Inside a run there is none of the characters behind it. -/
theorem matchAt_literal_drop (hpart : ∀ d ∈ part, p d = true) (hc : p c = false) {m : ℕ}
    (hm : m < part.length) (rest : List α) :
    matchAt (.literal (c :: l) :: atoms) ((part ++ rest).drop m) = none := by
  rw [matchAt, if_neg]
  rw [List.drop_append_of_le_length hm.le, List.drop_eq_getElem_cons hm, List.cons_append]
  intro hprefix
  have hd := hpart _ (List.getElem_mem hm)
  rw [← (List.cons_prefix_cons.mp hprefix).1, hc] at hd
  cases hd

/-- A run that is ended by the literal behind it is taken whole. -/
theorem matchAt_skip (hpart : ∀ d ∈ part, p d = true) (hc : p c = false) (l rest : List α)
    (atoms : List (Atom α)) :
    matchAt (.skip p :: .literal (c :: l) :: atoms) (part ++ (c :: l ++ rest)) =
      matchAt atoms rest := by
  rw [matchAt, List.cons_append, takeWhile_run hpart hc,
    findSome?_range_reverse fun m hm => matchAt_literal_drop hpart hc hm _, List.drop_left,
    ← List.cons_append, matchAt_literal]

theorem matchAt_capture (hpart : ∀ d ∈ part, p d = true) (hc : p c = false) (l rest : List α)
    (atoms : List (Atom α)) :
    matchAt (.capture p :: .literal (c :: l) :: atoms) (part ++ (c :: l ++ rest)) =
      (matchAt atoms rest).map fun found => (part :: found.1, found.2) := by
  have hnone : ∀ m < part.length, ((matchAt (.literal (c :: l) :: atoms)
      ((part ++ (c :: l ++ rest)).drop m)).map fun found =>
        ((part ++ (c :: l ++ rest)).take m :: found.1, found.2)) = none := by
    intro m hm
    rw [matchAt_literal_drop hpart hc hm, Option.map_none]
  rw [matchAt]
  rw [List.cons_append, takeWhile_run hpart hc, ← List.cons_append, findSome?_range_reverse hnone,
    List.drop_left, List.take_left, matchAt_literal]

end MatchAt

section MatchAll

variable {atoms : List (Atom α)} {text rest : List α} {found : List (List α)}

theorem matchAll_of_match (h : matchAt atoms text = some (found, rest))
    (hlt : rest.length < text.length) : matchAll atoms text = found :: matchAll atoms rest := by
  rw [matchAll.eq_def, h]
  exact if_pos hlt

/-- The search goes on behind a text in which no match can start. -/
theorem matchAll_of_clash {l : List α} (h : ClashAll l text) (rest : List α) :
    matchAll (.literal l :: atoms) (text ++ rest) = matchAll (.literal l :: atoms) rest := by
  induction text with
  | nil => rfl
  | cons c text ih =>
    have hnone : matchAt (.literal l :: atoms) (c :: text ++ rest) = none :=
      if_neg (h.head.not_prefix_append rest)
    rw [matchAll.eq_def, hnone]
    exact ih h.tail

end MatchAll

end Lopata

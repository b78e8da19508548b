import Mathlib.Data.List.Infix

/-!
# Lexical Paths

An absolute path is the list of its components from the root. Joining text to a path resolves
its components one by one, as POSIX normalisation does without looking at a disk: empty
components and `.` stay, `..` goes up (and stays at the root), anything else goes down.

## Main results

* `Path.join_eq_append`: text without a `..` component is appended, its plain components in
  order.
* `Path.prefix_join`: such text never leaves the directory it is joined to.
* `Path.length_segments_le_append`, `Path.getLast?_of_length_segments`: how many components are
  not empty grows with the text.
-/

namespace Lopata

/-- A component of a path. -/
abbrev Name := List Char

/-- An absolute path, from the root. -/
abbrev Path := List Name

namespace Path

/-- The component that stays where it is. -/
def here : Name := ['.']

/-- The component that goes up. -/
def parent : Name := ['.', '.']

/-- The components of a text. -/
def components (text : List Char) : List Name :=
  text.splitOn '/'

/-- The components that name something. -/
def IsPlain (n : Name) : Prop :=
  n ≠ [] ∧ n ≠ here ∧ n ≠ parent

instance (n : Name) : Decidable (IsPlain n) :=
  inferInstanceAs (Decidable (n ≠ [] ∧ n ≠ here ∧ n ≠ parent))

/-- Resolve one component. -/
def enter (p : Path) (n : Name) : Path :=
  if n = parent then p.dropLast else if n = [] ∨ n = here then p else p ++ [n]

/-- Join a text to a path. -/
def join (p : Path) (text : List Char) : Path :=
  (components text).foldl enter p

/-- Everything from the root of a subtree down. -/
def Within (root p : Path) : Prop :=
  root <+: p

instance (root p : Path) : Decidable (Within root p) :=
  inferInstanceAs (Decidable (root <+: p))

@[simp] theorem Within.refl (p : Path) : Within p p :=
  List.prefix_refl p

theorem Within.trans {p q r : Path} (h : Within p q) (h' : Within q r) : Within p r :=
  List.IsPrefix.trans h h'

@[simp] theorem within_append (p q : Path) : Within p (p ++ q) :=
  List.prefix_append p q

/-- The parent of a path strictly below a root is below the root. -/
theorem Within.dropLast {root p : Path} (h : Within root p) (hne : p ≠ root) :
    Within root p.dropLast := by
  obtain ⟨q, rfl⟩ := h
  have hq : q ≠ [] := by
    rintro rfl
    exact hne (List.append_nil root)
  rw [List.dropLast_append_of_ne_nil hq]
  exact within_append root q.dropLast

/-- A component of a text is a piece of it. -/
theorem infix_of_mem_components {text n : List Char} (h : n ∈ components text) :
    n <:+: text := by
  have hsub : ∀ ns : List Name, n ∈ ns → n <:+: ['/'].intercalate ns := by
    intro ns hn
    induction ns with
    | nil => cases hn
    | cons m ns ih =>
      cases ns with
      | nil =>
        obtain rfl := List.mem_singleton.mp hn
        simp
      | cons m' ns =>
        rw [List.intercalate_cons_cons]
        rcases List.mem_cons.mp hn with rfl | hn
        · exact ⟨[], ['/'] ++ ['/'].intercalate (m' :: ns), by simp⟩
        · exact (ih hn).trans (List.suffix_append _ _).isInfix
  have hmem := hsub _ h
  rwa [components, List.intercalate_splitOn] at hmem

theorem parent_not_mem_components {text : List Char} (h : ¬ parent <:+: text) :
    parent ∉ components text :=
  fun hmem => h (infix_of_mem_components hmem)

theorem components_nil : components [] = [[]] :=
  List.splitOn_nil _

theorem components_separator (text : List Char) :
    components ('/' :: text) = [] :: components text := by
  rw [components, List.splitOn_cons_eq_if_modifyHead, if_pos (beq_self_eq_true _)]
  rfl

theorem components_cons {c : Char} (hc : c ≠ '/') (text : List Char) :
    components (c :: text) = (components text).modifyHead (c :: ·) := by
  rw [components, List.splitOn_cons_eq_if_modifyHead, if_neg (by simpa using hc)]
  rfl

/-- The components of a text that goes on behind a separator. -/
theorem components_append_separator (text rest : List Char) :
    components (text ++ '/' :: rest) = components text ++ components rest :=
  List.splitOn_append_cons_self _ _

/-- A piece without separators lies in one component. -/
theorem exists_infix_component {text n : List Char} (hsep : '/' ∉ n) (h : n <:+: text) :
    ∃ m ∈ components text, n <:+: m := by
  -- the piece that starts the text starts its first component
  have hpre : ∀ (text n : List Char), '/' ∉ n → n <+: text →
      ∃ m ms, components text = m :: ms ∧ n <+: m := by
    intro text
    induction text with
    | nil =>
      intro n _ hn
      exact ⟨[], [], components_nil, hn⟩
    | cons c text ih =>
      intro n hsep hn
      cases n with
      | nil =>
        obtain ⟨m, ms, hcomp⟩ := List.exists_cons_of_ne_nil (List.splitOn_ne_nil '/' (c :: text))
        exact ⟨m, ms, hcomp, List.nil_prefix⟩
      | cons d n =>
        obtain ⟨rfl, hrest⟩ := List.cons_prefix_cons.mp hn
        rw [List.mem_cons, not_or] at hsep
        obtain ⟨m, ms, hcomp, hm⟩ := ih n hsep.2 hrest
        refine ⟨d :: m, ms, ?_, List.cons_prefix_cons.mpr ⟨rfl, hm⟩⟩
        rw [components_cons (Ne.symm hsep.1), hcomp]
        rfl
  induction text with
  | nil => exact ⟨[], by simp [components_nil], h⟩
  | cons c text ih =>
    rcases List.infix_cons_iff.mp h with hhead | htail
    · obtain ⟨m, ms, hcomp, hm⟩ := hpre _ _ hsep hhead
      exact ⟨m, hcomp ▸ List.mem_cons_self, hm.isInfix⟩
    · obtain ⟨m, hmem, hm⟩ := ih htail
      by_cases hc : c = '/'
      · subst hc
        exact ⟨m, components_separator text ▸ List.mem_cons_of_mem _ hmem, hm⟩
      · rw [components_cons hc]
        cases hcomp : components text with
        | nil => exact absurd hcomp (List.splitOn_ne_nil _ _)
        | cons m' ms =>
          rw [hcomp] at hmem
          rcases List.mem_cons.mp hmem with rfl | hmem
          · exact ⟨c :: m, List.mem_cons_self, hm.trans (List.suffix_cons c m).isInfix⟩
          · exact ⟨m, List.mem_cons_of_mem _ hmem, hm⟩

/-! ### Segments -/

/-- The components that are not empty. -/
def segments (text : List Char) : List Name :=
  (components text).filter (· ≠ [])

theorem segments_nil : segments [] = [] := by
  rw [segments, components_nil]
  rfl

/-- Behind a separator the segments go on. -/
theorem segments_append_separator (text rest : List Char) :
    segments (text ++ '/' :: rest) = segments text ++ segments rest := by
  rw [segments, components_append_separator, List.filter_append]
  rfl

/-- A text without segments is empty or ends with a separator. -/
theorem getLast?_of_segments_eq_nil {text : List Char} (h : segments text = []) :
    text = [] ∨ text.getLast? = some '/' := by
  by_contra hnot
  obtain ⟨hne, hlast⟩ := not_or.mp hnot
  obtain ⟨before, c, rfl⟩ := (List.eq_nil_or_concat text).resolve_left hne
  rw [List.concat_eq_append] at h hlast
  have hc : '/' ∉ [c] := by
    rintro hmem
    obtain rfl := List.mem_singleton.mp hmem
    exact hlast (List.getLast?_concat)
  obtain ⟨m, hm, hsub⟩ := exists_infix_component hc (List.suffix_append before [c]).isInfix
  have hplain : m ≠ [] := by
    rintro rfl
    cases List.eq_nil_of_infix_nil hsub
  exact List.filter_eq_nil_iff.mp h m hm (decide_eq_true hplain)

theorem length_filter_cons_le {m m' : Name} {ms ms' : List Name} (hne : m ≠ [] → m' ≠ [])
    (hle : (ms.filter (· ≠ [])).length ≤ (ms'.filter (· ≠ [])).length) :
    ((m :: ms).filter (· ≠ [])).length ≤ ((m' :: ms').filter (· ≠ [])).length := by
  by_cases hm : m = []
  · rw [List.filter_cons_of_neg (by simpa using hm)]
    exact hle.trans ((List.sublist_cons_self m' ms').filter _).length_le
  · rw [List.filter_cons_of_pos (by simpa using hm),
      List.filter_cons_of_pos (by simpa using hne hm)]
    exact Nat.succ_le_succ hle

/-- A text has at least the segments of what it starts with. -/
theorem length_segments_le_append (text rest : List Char) :
    (segments text).length ≤ (segments (text ++ rest)).length := by
  -- the first component can only get longer, and the later ones more
  have hstep : ∃ m ms m' ms', components text = m :: ms ∧ components (text ++ rest) = m' :: ms' ∧
      (m ≠ [] → m' ≠ []) ∧ (ms.filter (· ≠ [])).length ≤ (ms'.filter (· ≠ [])).length := by
    induction text with
    | nil =>
      obtain ⟨m', ms', hcomp⟩ := List.exists_cons_of_ne_nil (List.splitOn_ne_nil '/' rest)
      exact ⟨[], [], m', ms', components_nil, hcomp, fun h => absurd rfl h, Nat.zero_le _⟩
    | cons c text ih =>
      obtain ⟨m, ms, m', ms', hcomp, hcomp', hne, hle⟩ := ih
      rw [List.cons_append]
      by_cases hc : c = '/'
      · subst hc
        refine ⟨[], m :: ms, [], m' :: ms', ?_, ?_, id, ?_⟩
        · rw [components_separator, hcomp]
        · rw [components_separator, hcomp']
        · exact length_filter_cons_le hne hle
      · refine ⟨c :: m, ms, c :: m', ms', ?_, ?_, fun _ => List.cons_ne_nil _ _, hle⟩
        · rw [components_cons hc, hcomp]
          rfl
        · rw [components_cons hc, hcomp']
          rfl
  obtain ⟨m, ms, m', ms', hcomp, hcomp', hne, hle⟩ := hstep
  rw [segments, segments, hcomp, hcomp']
  exact length_filter_cons_le hne hle

/-- What adds no segment behind a separator ends with a separator. -/
theorem getLast?_of_length_segments {text rest : List Char}
    (hlast : text.getLast? = some '/')
    (hlen : (segments (text ++ rest)).length = (segments text).length) :
    (text ++ rest).getLast? = some '/' := by
  obtain ⟨before, rfl⟩ := List.getLast?_eq_some_iff.mp hlast
  rw [List.append_assoc, List.singleton_append, segments_append_separator,
    segments_append_separator, List.length_append, List.length_append, segments_nil] at hlen
  have hnone : segments rest = [] := by
    rw [← List.length_eq_zero_iff]
    simpa using hlen
  rw [List.getLast?_append]
  rcases getLast?_of_segments_eq_nil hnone with rfl | hrest
  · simp
  · rw [hrest]
    rfl

/-! ### Joining -/

/-- Resolving components none of which goes up appends the plain ones. -/
theorem foldl_enter_eq_append (p : Path) {ns : List Name} (h : parent ∉ ns) :
    ns.foldl enter p = p ++ ns.filter IsPlain := by
  induction ns generalizing p with
  | nil => simp
  | cons n ns ih =>
    rw [List.mem_cons, not_or] at h
    obtain ⟨hn, hns⟩ := h
    rw [List.foldl_cons, ih _ hns, enter, if_neg (Ne.symm hn)]
    by_cases hskip : n = [] ∨ n = here
    · have hplain : ¬ IsPlain n := fun hp => hskip.elim hp.1 hp.2.1
      rw [if_pos hskip, List.filter_cons_of_neg (by simpa using hplain)]
    · obtain ⟨hempty, hhere⟩ := not_or.mp hskip
      have hplain : IsPlain n := ⟨hempty, hhere, Ne.symm hn⟩
      rw [if_neg hskip, List.filter_cons_of_pos (by simpa using hplain), List.append_assoc]
      rfl

/-- **Text without `..` is appended.** -/
theorem join_eq_append (p : Path) {text : List Char} (h : parent ∉ components text) :
    join p text = p ++ (components text).filter IsPlain :=
  foldl_enter_eq_append p h

/-- Text without `..` stays within the directory it is joined to. -/
theorem prefix_join (p : Path) {text : List Char} (h : parent ∉ components text) :
    Within p (join p text) := by
  rw [join_eq_append p h]
  exact within_append p _

/-- A single plain component goes one down. -/
theorem join_of_not_mem (p : Path) {n : Name} (hsep : '/' ∉ n) (hplain : IsPlain n) :
    join p n = p ++ [n] := by
  have hcomp : components n = [n] := List.splitOn_eq_singleton hsep
  obtain ⟨hempty, hhere, hparent⟩ := hplain
  simp [join, hcomp, enter, hempty, hhere, hparent]

end Path

end Lopata

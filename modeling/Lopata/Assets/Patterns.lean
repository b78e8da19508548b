import Lopata.Assets.Redirects

/-!
# Patterns of Headers and of Redirects

The rules of `_headers` and of `_redirects` are read with two translations of one pattern language.
They differ in a colon without a name behind it: `matchPattern` takes it for a placeholder,
`matchRedirectPattern` for a colon.

## Main results

* `isSome_exec_iff`: the search for a match finds one whenever there is one.
* `patterns_agree_iff`: the two agree on the patterns in which each colon has a name behind it.
-/

namespace Lopata.Assets

/-- The parts of a pattern of `_headers`. -/
def headerPieces : Text → List Piece
  | [] => []
  | '*' :: rest => .splat :: headerPieces rest
  | ':' :: rest =>
      .placeholder (rest.takeWhile isWordChar) :: headerPieces (rest.dropWhile isWordChar)
  | c :: rest => .literal c :: headerPieces rest
termination_by text => text.length
decreasing_by
  all_goals have := (List.dropWhile_suffix isWordChar (l := rest)).length_le
  all_goals simp only [List.length_cons]
  all_goals omega

def matchPattern (pattern pathname : Text) : Bool :=
  (exec (headerPieces pattern) pathname).isSome

/-! ### What parts match -/

/-- The texts that parts match: a splat any text of one line, a placeholder a piece of a path. -/
inductive Matches : List Piece → Text → Prop where
  | nil : Matches [] []
  | literal (c : Char) {ps : List Piece} {text : Text} (h : Matches ps text) :
      Matches (.literal c :: ps) (c :: text)
  | splat {part : Text} (hpart : ∀ c ∈ part, isLineEnd c = false) {ps : List Piece} {text : Text}
      (h : Matches ps text) : Matches (.splat :: ps) (part ++ text)
  | placeholder (name : Text) {part : Text} (hne : part ≠ []) (hpart : ∀ c ∈ part, c ≠ '/')
      {ps : List Piece} {text : Text} (h : Matches ps text) :
      Matches (.placeholder name :: ps) (part ++ text)

/-- What is taken of the start of a text whose characters satisfy a predicate satisfies it. -/
theorem forall_mem_take {p : Char → Bool} {text : Text} {n : ℕ}
    (hn : n ≤ (text.takeWhile p).length) : ∀ c ∈ text.take n, p c = true := by
  intro c hc
  have htext : n ≤ text.length := hn.trans (List.takeWhile_prefix p).length_le
  have hpre : text.take n <+: text.takeWhile p :=
    List.prefix_of_prefix_length_le (List.take_prefix n text) (List.takeWhile_prefix p)
      (by rwa [List.length_take, Nat.min_eq_left htext])
  exact List.mem_takeWhile_imp (hpre.subset hc)

theorem length_le_length_takeWhile {p : Char → Bool} {part : Text} (text : Text)
    (hpart : ∀ c ∈ part, p c = true) :
    part.length ≤ ((part ++ text).takeWhile p).length := by
  rw [List.takeWhile_append_of_pos hpart, List.length_append]
  exact Nat.le_add_right _ _

/-- **The search for a match** finds one whenever there is one. -/
theorem isSome_exec_iff {ps : List Piece} {text : Text} :
    (exec ps text).isSome = true ↔ Matches ps text := by
  constructor
  · intro h
    induction ps generalizing text with
    | nil =>
      rw [exec] at h
      split at h
      · next hnil => exact hnil ▸ .nil
      · cases h
    | cons p ps ih =>
      cases p with
      | literal c =>
        rw [exec] at h
        split at h
        · next hhead =>
            obtain ⟨rest, rfl⟩ := List.head?_eq_some_iff.mp hhead
            exact .literal c (ih h)
        · cases h
      | splat =>
        rw [exec, List.findSome?_isSome_iff] at h
        obtain ⟨n, hn, h⟩ := h
        rw [List.mem_reverse, List.mem_range] at hn
        rw [Option.isSome_map] at h
        rw [← List.take_append_drop n text]
        refine .splat (fun c hc => ?_) (ih h)
        have hline := forall_mem_take (Nat.le_of_lt_succ hn) c hc
        simpa using hline
      | placeholder name =>
        rw [exec, List.findSome?_isSome_iff] at h
        obtain ⟨n, hn, h⟩ := h
        rw [List.mem_reverse, List.mem_range] at hn
        rw [Option.isSome_map] at h
        have htext := hn.trans_le
          (List.takeWhile_prefix (l := text) fun c => decide (c ≠ '/')).length_le
        rw [← List.take_append_drop (n + 1) text]
        refine .placeholder name ?_ (fun c hc => ?_) (ih h)
        · intro hnil
          rw [List.take_eq_nil_iff] at hnil
          rcases hnil with hzero | rfl
          · exact Nat.succ_ne_zero n hzero
          · exact absurd htext (Nat.not_lt_zero n)
        · have hpiece := forall_mem_take hn c hc
          simpa using hpiece
  · intro h
    induction h with
    | nil => rfl
    | literal c h ih => simpa [exec] using ih
    | @splat part hpart ps text h ih =>
      rw [exec, List.findSome?_isSome_iff]
      refine ⟨part.length, ?_, ?_⟩
      · rw [List.mem_reverse, List.mem_range, Nat.lt_succ_iff]
        exact length_le_length_takeWhile text fun c hc => by simp [hpart c hc]
      · rw [Option.isSome_map, List.drop_left]
        exact ih
    | @placeholder name part hne hpart ps text h ih =>
      obtain ⟨n, hn⟩ : ∃ n, part.length = n + 1 :=
        Nat.exists_eq_succ_of_ne_zero fun hzero => hne (List.length_eq_zero_iff.mp hzero)
      rw [exec, List.findSome?_isSome_iff]
      refine ⟨n, ?_, ?_⟩
      · rw [List.mem_reverse, List.mem_range, Nat.lt_iff_add_one_le, ← hn]
        exact length_le_length_takeWhile text fun c hc => by simp [hpart c hc]
      · rw [Option.isSome_map, ← hn, List.drop_left]
        exact ih

/-- A text that parts match has their characters. -/
theorem mem_of_matches {ps : List Piece} {text : Text} (h : Matches ps text) {c : Char}
    (hc : .literal c ∈ ps) : c ∈ text := by
  induction h with
  | nil => cases hc
  | literal d h ih =>
    rcases List.mem_cons.mp hc with heq | hc
    · exact Piece.literal.inj heq ▸ List.mem_cons_self
    · exact List.mem_cons_of_mem d (ih hc)
  | splat hpart h ih =>
    rcases List.mem_cons.mp hc with heq | hc
    · cases heq
    · exact List.mem_append_right _ (ih hc)
  | placeholder name hne hpart h ih =>
    rcases List.mem_cons.mp hc with heq | hc
    · cases heq
    · exact List.mem_append_right _ (ih hc)

/-- A text that parts match, without other characters than theirs but for one. -/
def sample : List Piece → Text
  | [] => []
  | .literal c :: ps => c :: sample ps
  | .splat :: ps => sample ps
  | .placeholder _ :: ps => 'a' :: sample ps

theorem matches_sample (ps : List Piece) : Matches ps (sample ps) := by
  induction ps with
  | nil => exact .nil
  | cons p ps ih =>
    cases p with
    | literal c => exact .literal c ih
    | splat =>
      have hnone : ∀ c ∈ ([] : Text), isLineEnd c = false :=
        fun _ hc => absurd hc List.not_mem_nil
      exact .splat hnone ih
    | placeholder name =>
      have hpart : ∀ c ∈ ['a'], c ≠ '/' := by
        intro c hc
        rw [List.mem_singleton.mp hc]
        decide
      exact .placeholder name (List.cons_ne_nil _ _) hpart ih

theorem mem_sample {ps : List Piece} {c : Char} (hc : c ∈ sample ps) :
    c = 'a' ∨ .literal c ∈ ps := by
  induction ps with
  | nil => cases hc
  | cons p ps ih =>
    cases p with
    | literal d =>
      rcases List.mem_cons.mp hc with rfl | hc
      · exact .inr List.mem_cons_self
      · exact (ih hc).imp_right (List.mem_cons_of_mem _)
    | splat => exact (ih hc).imp_right (List.mem_cons_of_mem _)
    | placeholder name =>
      rcases List.mem_cons.mp hc with rfl | hc
      · exact .inl rfl
      · exact (ih hc).imp_right (List.mem_cons_of_mem _)

/-! ### Colons -/

/-- A colon of the pattern has no name behind it. -/
def BareColon (pattern : Text) : Prop :=
  ∃ rest, ':' :: rest <:+ pattern ∧ rest.takeWhile isWordChar = []

theorem BareColon.of_suffix {p q : Text} (h : BareColon p) (hp : p <:+ q) : BareColon q :=
  h.imp fun _ hrest => ⟨hrest.1.trans hp, hrest.2⟩

/-- A colon in a text that starts with word characters is behind them. -/
theorem suffix_dropWhile {rest text : Text} (h : ':' :: rest <:+ text) :
    ':' :: rest <:+ text.dropWhile isWordChar := by
  induction text with
  | nil => exact h
  | cons c text ih =>
    by_cases hc : isWordChar c = true
    · rw [List.dropWhile_cons_of_pos hc]
      rcases List.suffix_cons_iff.mp h with heq | h
      · obtain ⟨rfl, -⟩ := List.cons.inj heq
        cases hc
      · exact ih h
    · rw [List.dropWhile_cons_of_neg hc]
      exact h

/-- Without such a colon the two translations are one. -/
theorem headerPieces_eq_pieces {pattern : Text} (h : ¬ BareColon pattern) :
    headerPieces pattern = pieces pattern := by
  induction pattern using pieces.induct with
  | case1 => rw [headerPieces, pieces]
  | case2 rest ih =>
    rw [headerPieces, pieces, ih fun hbare => h (hbare.of_suffix (List.suffix_cons _ _))]
  | case3 rest hname ih => exact absurd ⟨rest, List.suffix_rfl, hname⟩ h
  | case4 rest hname ih =>
    rw [headerPieces, pieces, if_neg hname, ih fun hbare => h (hbare.of_suffix
      ((List.dropWhile_suffix isWordChar).trans (List.suffix_cons _ _)))]
  | case5 c rest hstar hcolon ih =>
    rw [headerPieces, pieces, ih fun hbare => h (hbare.of_suffix (List.suffix_cons _ _))]
    · exact hstar
    · exact hcolon
    · exact hstar
    · exact hcolon

theorem literal_mem_pieces {pattern : Text} (h : BareColon pattern) :
    .literal ':' ∈ pieces pattern := by
  obtain ⟨after, hafter, hname⟩ := h
  induction pattern using pieces.induct with
  | case1 => exact absurd hafter (by simp)
  | case2 rest ih =>
    rw [pieces]
    rcases List.suffix_cons_iff.mp hafter with heq | hafter
    · cases (List.cons.inj heq).1
    · exact List.mem_cons_of_mem _ (ih hafter)
  | case3 rest hrest ih =>
    rw [pieces, if_pos hrest]
    exact List.mem_cons_self
  | case4 rest hrest ih =>
    rw [pieces, if_neg hrest]
    rcases List.suffix_cons_iff.mp hafter with heq | hafter
    · obtain ⟨-, rfl⟩ := List.cons.inj heq
      exact absurd hname hrest
    · exact List.mem_cons_of_mem _ (ih (suffix_dropWhile hafter))
  | case5 c rest hstar hcolon ih =>
    rw [pieces]
    · rcases List.suffix_cons_iff.mp hafter with heq | hafter
      · exact absurd (List.cons.inj heq).1.symm hcolon
      · exact List.mem_cons_of_mem _ (ih hafter)
    · exact hstar
    · exact hcolon

theorem literal_notMem_headerPieces (pattern : Text) : .literal ':' ∉ headerPieces pattern := by
  induction pattern using headerPieces.induct with
  | case1 => simp [headerPieces]
  | case2 rest ih => simpa [headerPieces] using ih
  | case3 rest ih => simpa [headerPieces] using ih
  | case4 c rest hstar hcolon ih =>
    rw [headerPieces]
    · intro hmem
      rcases List.mem_cons.mp hmem with heq | hmem
      · exact hcolon (Piece.literal.inj heq).symm
      · exact ih hmem
    · exact hstar
    · exact hcolon

theorem isSome_matchRedirectPattern {pattern pathname : Text} :
    (matchRedirectPattern pattern pathname).isSome = true ↔ Matches (pieces pattern) pathname := by
  rw [matchRedirectPattern, Option.isSome_map, isSome_exec_iff]

/-- **The two translations** agree on the patterns in which each colon has a name behind it. -/
theorem patterns_agree_iff (pattern : Text) :
    (∀ pathname, matchPattern pattern pathname = true ↔
      (matchRedirectPattern pattern pathname).isSome = true) ↔ ¬ BareColon pattern := by
  constructor
  · intro hagree hbare
    have hmatch : matchPattern pattern (sample (headerPieces pattern)) = true :=
      isSome_exec_iff.mpr (matches_sample _)
    -- the colon that `matchRedirectPattern` looks for is not in the sample
    have hcolon := mem_of_matches (isSome_matchRedirectPattern.mp ((hagree _).mp hmatch))
      (literal_mem_pieces hbare)
    rcases mem_sample hcolon with ha | hliteral
    · cases ha
    · exact literal_notMem_headerPieces pattern hliteral
  · intro h pathname
    rw [isSome_matchRedirectPattern, matchPattern, isSome_exec_iff, headerPieces_eq_pieces h]

theorem patterns_disagree :
    ¬ (matchPattern "/a/:".toList "/a/b".toList = true ↔
      (matchRedirectPattern "/a/:".toList "/a/b".toList).isSome = true) := by
  have hheader : headerPieces "/a/:".toList =
      [.literal '/', .literal 'a', .literal '/', .placeholder []] := by
    simp [headerPieces]
  have hredirect : pieces "/a/:".toList =
      [.literal '/', .literal 'a', .literal '/', .literal ':'] := by
    simp [pieces]
  rw [matchPattern, matchRedirectPattern, Option.isSome_map, hheader, hredirect]
  decide

end Lopata.Assets

import Lopata.Assets.Redirects
import Lopata.Lib.Search

/-!
# Substituting Captured Texts

The texts that a pattern captured are put into the target one name after the other, each into the
text that the one before it left.

## Main results

* `substitutesAtOnce_iff`: when this puts each text where the target has its placeholder, and
  nothing else anywhere.
* `not_substitutesAtOnce`: a name that another one starts with is put in its place.
-/

namespace Lopata.Assets

/-! ### Targets -/

/-- A part of a target. -/
inductive Part where
  | char (c : Char)
  | name (n : Text)
  deriving DecidableEq

/-- The parts of a target; a name is as long as it can be. -/
def parts : Text → List Part
  | [] => []
  | ':' :: rest =>
      if rest.takeWhile isWordChar = [] then .char ':' :: parts rest
      else .name (rest.takeWhile isWordChar) :: parts (rest.dropWhile isWordChar)
  | c :: rest => .char c :: parts rest
termination_by text => text.length
decreasing_by
  all_goals have := (List.dropWhile_suffix isWordChar (l := rest)).length_le
  all_goals simp only [List.length_cons]
  all_goals omega

/-- What was captured under a name, at last. -/
def capturedAs (name : Text) (found : List (Text × Text)) : Option Text :=
  found.foldl (fun last p => if p.1 = name then some p.2 else last) none

/-- A placeholder whose name nothing was captured under stays. -/
def Part.fill (found : List (Text × Text)) : Part → Text
  | .char c => [c]
  | .name n => (capturedAs n found).getD (':' :: n)

/-- The target with all captured texts put in at once. -/
def fill (found : List (Text × Text)) (target : Text) : Text :=
  (parts target).flatMap (Part.fill found)

theorem fill_nil (target : Text) : fill [] target = target := by
  rw [fill]
  induction target using parts.induct with
  | case1 => rw [parts, List.flatMap_nil]
  | case2 rest hname ih => rw [parts, if_pos hname, List.flatMap_cons, ih, Part.fill]; rfl
  | case3 rest hname ih =>
    rw [parts, if_neg hname, List.flatMap_cons, ih, Part.fill]
    exact congrArg (':' :: ·) List.takeWhile_append_dropWhile
  | case4 c rest hcolon ih =>
    rw [parts, List.flatMap_cons, ih, Part.fill]
    · rfl
    · exact hcolon

/-! ### Captured texts -/

theorem capturedAs_append (name : Text) (found : List (Text × Text)) (p : Text × Text) :
    capturedAs name (found ++ [p]) = if p.1 = name then some p.2 else capturedAs name found := by
  rw [capturedAs, List.foldl_append, List.foldl_cons, List.foldl_nil]
  rfl

/-- Among different names the order makes no difference. -/
theorem capturedAs_eq_some_iff {found : List (Text × Text)} (hnodup : (found.map (·.1)).Nodup)
    {name text : Text} : capturedAs name found = some text ↔ (name, text) ∈ found := by
  induction found using List.reverseRecOn with
  | nil => simp [capturedAs]
  | append_singleton found p ih =>
    rw [List.map_append, List.nodup_append'] at hnodup
    obtain ⟨hfound, -, hdisjoint⟩ := hnodup
    rw [capturedAs_append, List.mem_append, List.mem_singleton]
    split
    · next hname =>
        constructor
        · intro heq
          exact .inr (Prod.ext hname.symm (Option.some.inj heq).symm)
        · rintro (hmem | rfl)
          · exact absurd (List.mem_map_of_mem hmem) fun hmem =>
              hdisjoint hmem (hname ▸ List.mem_singleton_self p.1)
          · rfl
    · next hname =>
        rw [ih hfound]
        refine ⟨.inl, ?_⟩
        rintro (hmem | rfl)
        · exact hmem
        · exact absurd rfl hname

theorem capturedAs_congr {found found' : List (Text × Text)} (hperm : found.Perm found')
    (hnodup : (found.map (·.1)).Nodup) (name : Text) :
    capturedAs name found = capturedAs name found' := by
  refine Option.ext fun text => ?_
  rw [capturedAs_eq_some_iff hnodup,
    capturedAs_eq_some_iff ((hperm.map _).nodup_iff.mp hnodup), hperm.mem_iff]

/-! ### The object of the captured texts -/

/-- The name of a property that cannot be set to a text. -/
def proto : Text := "__proto__".toList

theorem setProperty_proto (result : List (Text × Text)) (value : Text) :
    setProperty result proto value = result := if_pos rfl

theorem setProperty_of_ne {name : Text} (hname : name ≠ proto) (result : List (Text × Text))
    (value : Text) :
    setProperty result name value =
      if result.any (·.1 = name) then
        result.map fun p => if p.1 = name then (name, value) else p
      else result ++ [(name, value)] := if_neg hname

theorem keys_setProperty (result : List (Text × Text)) (name value : Text) :
    (setProperty result name value).map (·.1) =
      if name = proto ∨ name ∈ result.map (·.1) then result.map (·.1)
      else result.map (·.1) ++ [name] := by
  have hany : result.any (·.1 = name) = true ↔ name ∈ result.map (·.1) := by
    simp only [List.any_eq_true, decide_eq_true_eq, List.mem_map]
  by_cases hproto : name = proto
  · rw [if_pos (.inl hproto), hproto, setProperty_proto]
  · rw [setProperty_of_ne hproto]
    by_cases hmem : name ∈ result.map (·.1)
    · rw [if_pos (hany.mpr hmem), if_pos (.inr hmem), List.map_map]
      refine List.map_congr_left fun p _ => ?_
      rw [Function.comp_apply]
      split
      · next hname => exact hname.symm
      · rfl
    · rw [if_neg (mt hany.mp hmem), if_neg (not_or.mpr ⟨hproto, hmem⟩), List.map_append]
      rfl

theorem nodup_setProperty {result : List (Text × Text)} (h : (result.map (·.1)).Nodup)
    (name value : Text) : ((setProperty result name value).map (·.1)).Nodup := by
  rw [keys_setProperty]
  split
  · exact h
  · next hname =>
      rw [not_or] at hname
      exact List.nodup_append'.mpr ⟨h, List.nodup_singleton name,
        List.disjoint_singleton.mpr hname.2⟩

theorem mem_setProperty {result : List (Text × Text)} {name value : Text} (hname : name ≠ proto)
    {p : Text × Text} :
    p ∈ setProperty result name value ↔ p = (name, value) ∨ p.1 ≠ name ∧ p ∈ result := by
  rw [setProperty_of_ne hname]
  split
  · next hany =>
      rw [List.any_eq_true] at hany
      obtain ⟨q, hq, hqname⟩ := hany
      rw [List.mem_map]
      constructor
      · rintro ⟨r, hr, rfl⟩
        by_cases hrname : r.1 = name
        · rw [if_pos hrname]
          exact .inl rfl
        · rw [if_neg hrname]
          exact .inr ⟨hrname, hr⟩
      · rintro (rfl | ⟨hpname, hp⟩)
        · exact ⟨q, hq, if_pos (of_decide_eq_true hqname)⟩
        · exact ⟨p, hp, if_neg hpname⟩
  · next hany =>
      rw [List.mem_append, List.mem_singleton]
      have hfree : p ∈ result → p.1 ≠ name := fun hp hpname =>
        hany (List.any_eq_true.mpr ⟨p, hp, decide_eq_true hpname⟩)
      exact ⟨fun h => h.elim (fun hp => .inr ⟨hfree hp, hp⟩) .inl,
        fun h => h.elim .inr fun hp => .inl hp.2⟩

theorem capturedAs_setProperty {result : List (Text × Text)} (h : (result.map (·.1)).Nodup)
    {name value : Text} (hname : name ≠ proto) (other : Text) :
    capturedAs other (setProperty result name value) =
      if name = other then some value else capturedAs other result := by
  refine Option.ext fun text => ?_
  rw [capturedAs_eq_some_iff (nodup_setProperty h name value), mem_setProperty hname]
  by_cases hother : name = other
  · subst hother
    simp [eq_comm]
  · rw [if_neg hother, capturedAs_eq_some_iff h]
    simp [Ne.symm hother]

/-- The object of what was captured. -/
def objectOf (found : List (Text × Text)) : List (Text × Text) :=
  found.foldl (fun result p => setProperty result p.1 p.2) []

theorem objectOf_append (found : List (Text × Text)) (p : Text × Text) :
    objectOf (found ++ [p]) = setProperty (objectOf found) p.1 p.2 := by
  rw [objectOf, List.foldl_append, List.foldl_cons, List.foldl_nil]
  rfl

theorem nodup_objectOf (found : List (Text × Text)) : ((objectOf found).map (·.1)).Nodup := by
  induction found using List.reverseRecOn with
  | nil => exact List.nodup_nil
  | append_singleton found p ih =>
    rw [objectOf_append]
    exact nodup_setProperty ih p.1 p.2

theorem mem_keys_objectOf {found : List (Text × Text)} {name : Text}
    (h : name ∈ (objectOf found).map (·.1)) : name ∈ found.map (·.1) := by
  induction found using List.reverseRecOn with
  | nil => exact h
  | append_singleton found p ih =>
    rw [objectOf_append, keys_setProperty] at h
    rw [List.map_append, List.mem_append]
    split at h
    · exact .inl (ih h)
    · exact (List.mem_append.mp h).imp_left ih

/-- The object has the texts captured last, but for one name. -/
theorem capturedAs_objectOf (found : List (Text × Text)) (name : Text) :
    capturedAs name (objectOf found) = if name = proto then none else capturedAs name found := by
  induction found using List.reverseRecOn with
  | nil => simp [objectOf, capturedAs]
  | append_singleton found p ih =>
    rw [objectOf_append, capturedAs_append]
    by_cases hp : p.1 = proto
    · rw [hp, setProperty_proto, ih]
      by_cases hname : name = proto
      · rw [if_pos hname, if_pos hname]
      · rw [if_neg hname, if_neg hname, if_neg (Ne.symm hname)]
    · rw [capturedAs_setProperty (nodup_objectOf found) hp, ih]
      by_cases hname : name = proto
      · rw [if_pos hname, if_pos hname, if_neg fun heq => hp (heq.trans hname)]
      · rw [if_neg hname, if_neg hname]

theorem perm_entriesOf (object : List (Text × Text)) : (entriesOf object).Perm object :=
  ((List.perm_insertionSort _ _).append_right _).trans (List.filter_append_perm _ object)

theorem nodup_entries (found : List (Text × Text)) :
    ((entriesOf (objectOf found)).map (·.1)).Nodup :=
  ((perm_entriesOf _).map _).nodup_iff.mpr (nodup_objectOf found)

theorem capturedAs_entries (found : List (Text × Text)) (name : Text) :
    capturedAs name (entriesOf (objectOf found)) =
      if name = proto then none else capturedAs name found := by
  rw [capturedAs_congr (perm_entriesOf _) (nodup_entries found), capturedAs_objectOf]

/-! ### Names -/

theorem isWordChar_colon : isWordChar ':' = false := by decide

theorem colon_notMem_takeWhile (text : Text) : ':' ∉ text.takeWhile isWordChar := fun hmem =>
  Bool.false_ne_true (isWordChar_colon.symm.trans (List.mem_takeWhile_imp hmem))

theorem colon_notMem_of_pieces {pattern name : Text} (h : .placeholder name ∈ pieces pattern) :
    ':' ∉ name := by
  induction pattern using pieces.induct with
  | case1 => simp [pieces] at h
  | case2 rest ih =>
    rw [pieces] at h
    rcases List.mem_cons.mp h with heq | h
    · cases heq
    · exact ih h
  | case3 rest hname ih =>
    rw [pieces, if_pos hname] at h
    rcases List.mem_cons.mp h with heq | h
    · cases heq
    · exact ih h
  | case4 rest hname ih =>
    rw [pieces, if_neg hname] at h
    rcases List.mem_cons.mp h with heq | h
    · exact Piece.placeholder.inj heq ▸ colon_notMem_takeWhile rest
    · exact ih h
  | case5 c rest hstar hcolon ih =>
    rw [pieces] at h
    · rcases List.mem_cons.mp h with heq | h
      · cases heq
      · exact ih h
    · exact hstar
    · exact hcolon

/-- The names of captured texts are those of the pattern. -/
theorem mem_names_of_exec {ps : List Piece} {text : Text} {found : List (Text × Text)}
    (h : exec ps text = some found) {name : Text} (hname : name ∈ found.map (·.1)) :
    name = "splat".toList ∨ .placeholder name ∈ ps := by
  induction ps generalizing text found with
  | nil =>
    rw [exec] at h
    split at h
    · rw [← Option.some.inj h] at hname
      cases hname
    · cases h
  | cons p ps ih =>
    cases p with
    | literal c =>
      rw [exec] at h
      split at h
      · exact (ih h hname).imp_right (List.mem_cons_of_mem _)
      · cases h
    | splat =>
      rw [exec] at h
      obtain ⟨n, -, h⟩ := List.exists_of_findSome?_eq_some h
      obtain ⟨found, hfound, rfl⟩ := Option.map_eq_some_iff.mp h
      rcases List.mem_cons.mp hname with rfl | hname
      · exact .inl rfl
      · exact (ih hfound hname).imp_right (List.mem_cons_of_mem _)
    | placeholder n =>
      rw [exec] at h
      obtain ⟨n, -, h⟩ := List.exists_of_findSome?_eq_some h
      obtain ⟨found, hfound, rfl⟩ := Option.map_eq_some_iff.mp h
      rcases List.mem_cons.mp hname with rfl | hname
      · exact .inr List.mem_cons_self
      · exact (ih hfound hname).imp_right (List.mem_cons_of_mem _)

theorem colon_notMem_of_entries {pattern pathname : Text} {found : List (Text × Text)}
    (h : exec (pieces pattern) pathname = some found) {p : Text × Text}
    (hp : p ∈ entriesOf (objectOf found)) : ':' ∉ p.1 := by
  have hname : p.1 ∈ (objectOf found).map (·.1) :=
    List.mem_map_of_mem ((perm_entriesOf _).mem_iff.mp hp)
  rcases mem_names_of_exec h (mem_keys_objectOf hname) with hsplat | hpiece
  · rw [hsplat]
    decide
  · exact colon_notMem_of_pieces hpiece

/-! ### Replacement patterns -/

/-- A `$` of the text is followed by a character that it names the match, or what is around it,
with, or by another `$`. -/
def HasPattern (value : Text) : Prop :=
  ∃ d, ['$', d] <:+: value ∧ (d = '$' ∨ d = '&' ∨ d.toNat = 96 ∨ d.toNat = 39)

theorem HasPattern.of_infix {value value' : Text} (h : HasPattern value) (hv : value <:+: value') :
    HasPattern value' :=
  h.imp fun _ hd => ⟨hd.1.trans hv, hd.2⟩

theorem not_hasPattern_of_length {value : Text} (h : value.length < 2) : ¬ HasPattern value := by
  rintro ⟨d, hd, -⟩
  exact absurd hd.length_le (Nat.not_le_of_lt h)

theorem expand_of_not_hasPattern {value : Text} (h : ¬ HasPattern value)
    (matched before after : Text) : expand matched before after value = value := by
  induction value using expand.induct with
  | case1 => rfl
  | case2 c => rfl
  | case3 c d rest hc ih =>
    rw [expand, if_pos hc, ih fun hrest => h (hrest.of_infix (List.suffix_cons _ _).isInfix)]
  | case4 c rest hc ih =>
    exact absurd ⟨'$', ⟨[], rest, by rw [not_not.mp hc]; rfl⟩, .inl rfl⟩ h
  | case5 c rest hc hd ih =>
    exact absurd ⟨'&', ⟨[], rest, by rw [not_not.mp hc]; rfl⟩, .inr (.inl rfl)⟩ h
  | case6 c d rest hc hdollar hamp htick ih =>
    exact absurd ⟨d, ⟨[], rest, by rw [not_not.mp hc]; rfl⟩, .inr (.inr (.inl htick))⟩ h
  | case7 c d rest hc hdollar hamp htick hquote ih =>
    exact absurd ⟨d, ⟨[], rest, by rw [not_not.mp hc]; rfl⟩, .inr (.inr (.inr hquote))⟩ h
  | case8 c d rest hc hdollar hamp htick hquote ih =>
    rw [expand, if_neg hc, if_neg hdollar, if_neg hamp, if_neg htick, if_neg hquote,
      ih fun hrest => h (hrest.of_infix (List.suffix_cons _ _).isInfix), not_not.mp hc]

/-- A pattern is at the start of a text or behind it. -/
theorem HasPattern.tail {c d : Char} {rest : Text} (h : HasPattern (c :: d :: rest))
    (hhead : ¬ (c = '$' ∧ (d = '$' ∨ d = '&' ∨ d.toNat = 96 ∨ d.toNat = 39))) :
    HasPattern (d :: rest) := by
  obtain ⟨e, he, hspecial⟩ := h
  rcases List.infix_cons_iff.mp he with hstart | hinfix
  · obtain ⟨hc, hstart⟩ := List.cons_prefix_cons.mp hstart
    obtain ⟨rfl, -⟩ := List.cons_prefix_cons.mp hstart
    exact absurd ⟨hc.symm, hspecial⟩ hhead
  · exact ⟨e, hinfix, hspecial⟩

/-- Where there is nothing to be named, a pattern makes a text shorter. -/
theorem length_expand_nil (value : Text) :
    (expand [] [] [] value).length ≤ value.length ∧
      (HasPattern value → (expand [] [] [] value).length < value.length) := by
  induction value using expand.induct with
  | case1 => exact ⟨le_rfl, fun h => absurd h (not_hasPattern_of_length (by decide))⟩
  | case2 c => exact ⟨le_rfl, fun h => absurd h (not_hasPattern_of_length Nat.one_lt_two)⟩
  | case3 c d rest hc ih =>
    rw [expand, if_pos hc]
    exact ⟨Nat.succ_le_succ ih.1,
      fun h => Nat.succ_lt_succ (ih.2 (h.tail fun hhead => hc hhead.1))⟩
  | case4 c rest hc ih =>
    rw [expand, if_neg hc, if_pos rfl]
    exact ⟨(Nat.succ_le_succ ih.1).trans (Nat.le_succ _),
      fun _ => Nat.lt_succ_of_le (Nat.succ_le_succ ih.1)⟩
  | case5 c rest hc hd ih =>
    rw [expand, if_neg hc, if_neg hd, if_pos rfl, List.nil_append]
    exact ⟨ih.1.trans (Nat.le_add_right _ 2),
      fun _ => Nat.lt_succ_of_le (ih.1.trans (Nat.le_succ _))⟩
  | case6 c d rest hc hdollar hamp htick ih =>
    rw [expand, if_neg hc, if_neg hdollar, if_neg hamp, if_pos htick, List.nil_append]
    exact ⟨ih.1.trans (Nat.le_add_right _ 2),
      fun _ => Nat.lt_succ_of_le (ih.1.trans (Nat.le_succ _))⟩
  | case7 c d rest hc hdollar hamp htick hquote ih =>
    rw [expand, if_neg hc, if_neg hdollar, if_neg hamp, if_neg htick, if_pos hquote,
      List.nil_append]
    exact ⟨ih.1.trans (Nat.le_add_right _ 2),
      fun _ => Nat.lt_succ_of_le (ih.1.trans (Nat.le_succ _))⟩
  | case8 c d rest hc hdollar hamp htick hquote ih =>
    rw [expand, if_neg hc, if_neg hdollar, if_neg hamp, if_neg htick, if_neg hquote]
    exact ⟨Nat.succ_le_succ ih.1, fun h => Nat.succ_lt_succ (ih.2 (h.tail fun hhead =>
      hhead.2.elim hdollar fun h => h.elim hamp fun h => h.elim htick hquote))⟩

/-- **Replacements.** A text is put in as it is, whatever is around, if it has no pattern. -/
theorem expand_eq_self_iff {value : Text} :
    (∀ matched before after, expand matched before after value = value) ↔ ¬ HasPattern value := by
  constructor
  · intro h hpattern
    exact absurd (congrArg List.length (h [] [] [])) ((length_expand_nil value).2 hpattern).ne
  · intro h matched before after
    exact expand_of_not_hasPattern h matched before after

/-! ### One replacement -/

variable {key value before text rest : Text} {done : List (Text × Text)}

theorem replaceFrom_of_not_startsIn (h : ¬ StartsIn (':' :: key) text rest) :
    replaceFrom key value before (text ++ rest) =
      text ++ replaceFrom key value (before ++ text) rest := by
  induction text generalizing before with
  | nil => rw [List.nil_append, List.append_nil, List.nil_append]
  | cons c text ih =>
    have hhead : ¬ (c = ':' ∧ key <+: text ++ rest) := by
      rintro ⟨rfl, hkey⟩
      exact h ⟨_, List.cons_ne_nil ':' text, List.suffix_rfl,
        List.cons_prefix_cons.mpr ⟨rfl, hkey⟩⟩
    rw [List.cons_append, replaceFrom, if_neg hhead, ih (mt StartsIn.tail h), List.append_assoc,
      List.singleton_append, List.cons_append]

theorem replaceFrom_key :
    replaceFrom key value before (':' :: key ++ rest) =
      expand (':' :: key) before rest value ++
        replaceFrom key value (before ++ ':' :: key) rest := by
  rw [List.cons_append, replaceFrom, if_pos ⟨rfl, List.prefix_append key rest⟩, List.drop_left]

/-- Of the parts of a target, with the texts of `done` put in, only the placeholders `:key` have
`:key` start in them. -/
def Apart (key : Text) (done : List (Text × Text)) (ps : List Part) : Prop :=
  ∀ p rest, p :: rest <:+ ps → p ≠ .name key →
    ¬ StartsIn (':' :: key) (p.fill done) (rest.flatMap (Part.fill done))

theorem Apart.tail {p : Part} {ps : List Part} (h : Apart key done (p :: ps)) :
    Apart key done ps :=
  fun q rest hsuffix => h q rest (hsuffix.trans (List.suffix_cons p ps))

theorem fill_name (h : capturedAs key done = none) : (Part.name key).fill done = ':' :: key := by
  rw [Part.fill, h, Option.getD_none]

theorem fill_append_of_ne {p : Part} (h : p ≠ .name key) :
    p.fill (done ++ [(key, value)]) = p.fill done := by
  cases p with
  | char c => rfl
  | name n =>
    rw [Part.fill, Part.fill, capturedAs_append,
      if_neg fun heq => h (congrArg Part.name heq.symm)]

theorem fill_append_name :
    (Part.name key).fill (done ++ [(key, value)]) = value := by
  rw [Part.fill, capturedAs_append, if_pos rfl, Option.getD_some]

/-- **One replacement** puts one more text in at once, if it is clear what it replaces. -/
theorem replaceFrom_flatMap_fill {ps : List Part} (hkey : capturedAs key done = none)
    (hapart : Apart key done ps) (hplain : .name key ∈ ps → ¬ HasPattern value) :
    replaceFrom key value before (ps.flatMap (Part.fill done)) =
      ps.flatMap (Part.fill (done ++ [(key, value)])) := by
  induction ps generalizing before with
  | nil => rw [List.flatMap_nil, List.flatMap_nil, replaceFrom]
  | cons p ps ih =>
    have htail := fun before => @ih before hapart.tail fun hmem =>
      hplain (List.mem_cons_of_mem _ hmem)
    rw [List.flatMap_cons, List.flatMap_cons]
    by_cases hp : p = .name key
    · subst hp
      rw [fill_name hkey, replaceFrom_key, fill_append_name, htail,
        expand_of_not_hasPattern (hplain List.mem_cons_self)]
    · rw [replaceFrom_of_not_startsIn (hapart p ps List.suffix_rfl hp), fill_append_of_ne hp,
        htail]

/-! ### Counting placeholders -/

theorem starts_key (hcolon : ':' ∉ key) (rest : Text) :
    starts (':' :: key) (':' :: key) rest = 1 := by
  rw [starts, if_pos (List.prefix_append _ rest),
    starts_eq_zero_iff.mpr (not_startsIn_of_notMem hcolon rest)]

theorem count_le_occurrences (hkey : capturedAs key done = none) (hcolon : ':' ∉ key)
    (ps : List Part) :
    ps.count (.name key) ≤ occurrences (':' :: key) (ps.flatMap (Part.fill done)) := by
  induction ps with
  | nil => exact Nat.zero_le _
  | cons p ps ih =>
    rw [List.flatMap_cons, occurrences_append]
    by_cases hp : p = .name key
    · subst hp
      rw [List.count_cons_self, fill_name hkey, starts_key hcolon, Nat.add_comm]
      exact Nat.add_le_add_left ih 1
    · rw [List.count_cons_of_ne hp]
      exact ih.trans (Nat.le_add_left _ _)

/-- A name stands in the text as often as the target has its placeholder if it is clear where. -/
theorem occurrences_eq_count_iff (hkey : capturedAs key done = none) (hcolon : ':' ∉ key)
    (ps : List Part) :
    occurrences (':' :: key) (ps.flatMap (Part.fill done)) = ps.count (.name key) ↔
      Apart key done ps := by
  induction ps with
  | nil =>
    refine ⟨fun _ p rest hsuffix => ?_, fun _ => rfl⟩
    cases List.suffix_nil.mp hsuffix
  | cons p ps ih =>
    rw [List.flatMap_cons, occurrences_append]
    by_cases hp : p = .name key
    · subst hp
      rw [List.count_cons_self, fill_name hkey, starts_key hcolon, Nat.add_comm,
        Nat.add_right_cancel_iff, ih]
      refine ⟨fun h q rest hsuffix hq => ?_, Apart.tail⟩
      rcases List.suffix_cons_iff.mp hsuffix with heq | hsuffix
      · exact absurd (List.cons.inj heq).1 hq
      · exact h q rest hsuffix hq
    · rw [List.count_cons_of_ne hp]
      have hle := count_le_occurrences hkey hcolon ps
      constructor
      · intro h q rest hsuffix hq
        rcases List.suffix_cons_iff.mp hsuffix with heq | hsuffix
        · obtain ⟨rfl, rfl⟩ := List.cons.inj heq
          exact starts_eq_zero_iff.mp (by omega)
        · exact ih.mp (by omega) q rest hsuffix hq
      · intro h
        rw [starts_eq_zero_iff.mpr (h p ps List.suffix_rfl hp), Nat.zero_add]
        exact ih.mpr h.tail

/-! ### All replacements -/

/-- The loop over the entries puts all captured texts in at once. -/
structure SubstitutesAtOnce (target : Text) (found entries : List (Text × Text)) : Prop where
  /-- Each placeholder is replaced by the text it captured. -/
  location : substitute target entries = fill found target
  /-- When its turn comes, `:name` stands in the text as often as the target has the placeholder:
  it is spelled neither by a captured text nor by a longer name. -/
  placed : ∀ done p rest, entries = done ++ p :: rest →
    occurrences (':' :: p.1) (substitute target done) = (parts target).count (.name p.1)
  /-- A captured text that is put in is no replacement pattern. -/
  verbatim : ∀ done p rest, entries = done ++ p :: rest →
    0 < occurrences (':' :: p.1) (substitute target done) →
      ∀ matched before after, expand matched before after p.2 = p.2

/-- It is clear what each captured text replaces. -/
structure Unambiguous (target : Text) (found entries : List (Text × Text)) : Prop where
  /-- No captured text with a placeholder in the target has a replacement pattern. -/
  plain : ∀ p ∈ entries, .name p.1 ∈ parts target → ¬ HasPattern p.2
  /-- With the texts before it put in, `:name` starts in no other part of the target. -/
  apart : ∀ done p rest, entries = done ++ p :: rest → Apart p.1 done (parts target)
  /-- What `:__proto__` captured is not there to be put in. -/
  settable : .name proto ∈ parts target → ∀ text, capturedAs proto found = some text →
    text = ':' :: proto

theorem substitute_append (target : Text) (done : List (Text × Text)) (p : Text × Text) :
    substitute target (done ++ [p]) = replaceFrom p.1 p.2 [] (substitute target done) := by
  rw [substitute, List.foldl_append, List.foldl_cons, List.foldl_nil]
  rfl

/-- With different names, nothing was captured before under the next one. -/
theorem capturedAs_of_nodup {entries done rest : List (Text × Text)} {p : Text × Text}
    (hnodup : (entries.map (·.1)).Nodup) (h : entries = done ++ p :: rest) :
    capturedAs p.1 done = none := by
  rw [h, List.map_append, List.nodup_append'] at hnodup
  obtain ⟨hdone, -, hdisjoint⟩ := hnodup
  refine Option.eq_none_iff_forall_ne_some.mpr fun text htext => ?_
  rw [capturedAs_eq_some_iff hdone] at htext
  exact hdisjoint (List.mem_map_of_mem htext) List.mem_cons_self

/-- **The loop.** As long as it is clear what each text replaces, the texts so far are put in. -/
theorem substitute_eq_fill {target : Text} {entries : List (Text × Text)}
    (hnodup : (entries.map (·.1)).Nodup)
    (h : ∀ done p rest, entries = done ++ p :: rest → substitute target done = fill done target →
      Apart p.1 done (parts target) ∧ (.name p.1 ∈ parts target → ¬ HasPattern p.2)) :
    ∀ done rest, entries = done ++ rest → substitute target done = fill done target := by
  intro done
  induction done using List.reverseRecOn with
  | nil => exact fun _ _ => (fill_nil target).symm
  | append_singleton done p ih =>
    intro rest hentries
    rw [List.append_assoc, List.singleton_append] at hentries
    have hdone := ih (p :: rest) hentries
    obtain ⟨hapart, hplain⟩ := h done p rest hentries hdone
    rw [substitute_append, hdone, fill,
      replaceFrom_flatMap_fill (capturedAs_of_nodup hnodup hentries) hapart hplain, fill]

/-- What the entries leave out of the captured texts. -/
theorem fill_entries_iff {found : List (Text × Text)} {target : Text} :
    fill (entriesOf (objectOf found)) target = fill found target ↔
      (.name proto ∈ parts target → ∀ text, capturedAs proto found = some text →
        text = ':' :: proto) := by
  have hother : ∀ p, p ≠ Part.name proto →
      Part.fill (entriesOf (objectOf found)) p = p.fill found := by
    intro p hp
    cases p with
    | char c => rfl
    | name n =>
      rw [Part.fill, Part.fill, capturedAs_entries, if_neg fun heq => hp (congrArg Part.name heq)]
  rw [fill, fill, flatMap_eq_flatMap_iff hother]
  refine imp_congr_right fun _ => ?_
  rw [Part.fill, Part.fill, capturedAs_entries, if_pos rfl, Option.getD_none]
  cases capturedAs proto found with
  | none => simp
  | some text => simp [eq_comm]

/-- **Substitution.** The captured texts are put in at once exactly when it is clear what each of
them replaces. -/
theorem substitutesAtOnce_iff {pattern pathname target : Text} {found entries : List (Text × Text)}
    (hfound : exec (pieces pattern) pathname = some found)
    (hentries : matchRedirectPattern pattern pathname = some entries) :
    SubstitutesAtOnce target found entries ↔ Unambiguous target found entries := by
  obtain rfl : entriesOf (objectOf found) = entries := by
    rw [matchRedirectPattern, hfound] at hentries
    exact Option.some.inj hentries
  have hnodup := nodup_entries found
  have hcount : ∀ done p rest, entriesOf (objectOf found) = done ++ p :: rest →
      (occurrences (':' :: p.1) (fill done target) = (parts target).count (.name p.1) ↔
        Apart p.1 done (parts target)) := fun done p rest hsplit =>
    occurrences_eq_count_iff (capturedAs_of_nodup hnodup hsplit)
      (colon_notMem_of_entries hfound (hsplit ▸ List.mem_append_right _ List.mem_cons_self)) _
  constructor
  · intro h
    have hstep : ∀ done p rest, entriesOf (objectOf found) = done ++ p :: rest →
        substitute target done = fill done target →
          Apart p.1 done (parts target) ∧ (.name p.1 ∈ parts target → ¬ HasPattern p.2) := by
      intro done p rest hsplit hdone
      have hplaced := h.placed done p rest hsplit
      refine ⟨(hcount done p rest hsplit).mp (hdone ▸ hplaced), fun hmem => ?_⟩
      exact expand_eq_self_iff.mp (h.verbatim done p rest hsplit
        (hplaced ▸ List.count_pos_iff.mpr hmem))
    have hloop := substitute_eq_fill hnodup hstep
    refine ⟨fun p hp => ?_, fun done p rest hsplit => ?_, ?_⟩
    · obtain ⟨done, rest, hsplit⟩ := List.append_of_mem hp
      exact (hstep done p rest hsplit (hloop done (p :: rest) hsplit)).2
    · exact (hstep done p rest hsplit (hloop done (p :: rest) hsplit)).1
    · rw [← fill_entries_iff, ← h.location, hloop _ [] (List.append_nil _).symm]
  · intro h
    have hstep : ∀ done p rest, entriesOf (objectOf found) = done ++ p :: rest →
        substitute target done = fill done target →
          Apart p.1 done (parts target) ∧ (.name p.1 ∈ parts target → ¬ HasPattern p.2) :=
      fun done p rest hsplit _ => ⟨h.apart done p rest hsplit,
        h.plain p (hsplit ▸ List.mem_append_right _ List.mem_cons_self)⟩
    have hloop := substitute_eq_fill hnodup hstep
    have hplaced : ∀ done p rest, entriesOf (objectOf found) = done ++ p :: rest →
        occurrences (':' :: p.1) (substitute target done) = (parts target).count (.name p.1) := by
      intro done p rest hsplit
      rw [hloop done (p :: rest) hsplit]
      exact (hcount done p rest hsplit).mpr (h.apart done p rest hsplit)
    refine ⟨?_, hplaced, fun done p rest hsplit hpos => ?_⟩
    · rw [hloop _ [] (List.append_nil _).symm]
      exact fill_entries_iff.mpr h.settable
    · rw [hplaced done p rest hsplit, List.count_pos_iff] at hpos
      exact expand_eq_self_iff.mpr
        (h.plain p (hsplit ▸ List.mem_append_right _ List.mem_cons_self) hpos)

theorem substitutesAtOnce_iff_sample :
    SubstitutesAtOnce "/new/:splat".toList
        [("id".toList, "7".toList), ("splat".toList, "a/b".toList)]
        [("id".toList, "7".toList), ("splat".toList, "a/b".toList)] ↔
      Unambiguous "/new/:splat".toList
        [("id".toList, "7".toList), ("splat".toList, "a/b".toList)]
        [("id".toList, "7".toList), ("splat".toList, "a/b".toList)] := by
  have hpieces : pieces "/:id/*".toList =
      [.literal '/', .placeholder "id".toList, .literal '/', .splat] := by
    simp [pieces, isWordChar]
  have hfound : exec (pieces "/:id/*".toList) "/7/a/b".toList =
      some [("id".toList, "7".toList), ("splat".toList, "a/b".toList)] := by
    rw [hpieces]
    decide
  have hentries : matchRedirectPattern "/:id/*".toList "/7/a/b".toList =
      some [("id".toList, "7".toList), ("splat".toList, "a/b".toList)] := by
    rw [matchRedirectPattern, hfound]
    decide
  exact substitutesAtOnce_iff hfound hentries

/-- `:a` is replaced in `:ab`. -/
theorem not_substitutesAtOnce :
    exec (pieces "/:a/:ab".toList) "/1/2".toList =
        some [(['a'], ['1']), ("ab".toList, ['2'])] ∧
      matchRedirectPattern "/:a/:ab".toList "/1/2".toList =
        some [(['a'], ['1']), ("ab".toList, ['2'])] ∧
      substitute "/:ab".toList [(['a'], ['1']), ("ab".toList, ['2'])] = "/1b".toList ∧
      fill [(['a'], ['1']), ("ab".toList, ['2'])] "/:ab".toList = "/2".toList ∧
      ¬ SubstitutesAtOnce "/:ab".toList [(['a'], ['1']), ("ab".toList, ['2'])]
        [(['a'], ['1']), ("ab".toList, ['2'])] := by
  have hpieces : pieces "/:a/:ab".toList =
      [.literal '/', .placeholder ['a'], .literal '/', .placeholder "ab".toList] := by
    simp [pieces, isWordChar]
  have hfound : exec (pieces "/:a/:ab".toList) "/1/2".toList =
      some [(['a'], ['1']), ("ab".toList, ['2'])] := by
    rw [hpieces]
    decide
  have hlocation : substitute "/:ab".toList [(['a'], ['1']), ("ab".toList, ['2'])] =
      "/1b".toList := by
    simp [substitute, replaceFrom, expand]
  have hfill : fill [(['a'], ['1']), ("ab".toList, ['2'])] "/:ab".toList = "/2".toList := by
    simp [fill, parts, isWordChar, Part.fill, capturedAs]
  refine ⟨hfound, ?_, hlocation, hfill, fun h => ?_⟩
  · rw [matchRedirectPattern, hfound]
    decide
  · have heq := h.location
    rw [hlocation, hfill] at heq
    exact absurd heq (by decide)

end Lopata.Assets

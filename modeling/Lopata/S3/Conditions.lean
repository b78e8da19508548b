import Lopata.S3.Put

/-!
# Conditional Requests

The conditions of a request as RFC 7232 has them, and what `parseConditional` and
`evaluateConditional` make of their headers. The tags are those of the grammar: a list of entity
tags, with blanks and empty elements as a recipient has to accept them, or `*`. A date is a text,
and if it is an HTTP-date, its seconds; otherwise the RFC ignores the header.

They differ in five ways: a date is looked at although the tags next to it take its place, a weak
tag is no tag, a list is cut at each comma, also at one in a tag, `*` is taken for the wildcard also
where it is a tag, and a date is what `Date` can read.

## Main definitions

* `Conditions.decision`: the decision of section 6 of the RFC.
* `Conditions.Decided`: when the code comes to the same decision.
* `Conditions.Plain`: requests without any of the five.

## Main results

* `evaluateConditional_iff`: the code decides as the RFC exactly for requests that are `Decided`.
* `Conditions.Plain.decided`: plain requests are.
-/

namespace Lopata.S3

open R2 (Text Etag Time Fields)

/-- The answer, by what the first two steps, the third and the fourth come to. -/
def Method.answer (method : Method) (failed noneFailed unmodified : Bool) : ConditionalResult :=
  if failed then .preconditionFailed
  else if noneFailed then
    match method with
    | .read => .notModified
    | .write => .preconditionFailed
  else if unmodified then .notModified
  else .pass

/-! ### Header values -/

/-- `etagc`. -/
def isTagChar (c : Char) : Bool :=
  c.toNat = 0x21 || (0x23 ≤ c.toNat && c.toNat ≤ 0x7E) || (0x80 ≤ c.toNat && c.toNat ≤ 0xFF)

/-- `entity-tag`. -/
structure EntityTag where
  weak : Bool
  tag : Text
  valid : tag.all isTagChar = true

def EntityTag.text (t : EntityTag) : Text :=
  (if t.weak then ['W', '/'] else []) ++ '"' :: t.tag ++ ['"']

/-- An element of a list, with the blanks around it; it may be empty. -/
structure TagElement where
  before : Text
  tag : Option EntityTag
  after : Text
  blank : ((before ++ after).all fun c => c = ' ' || c = '\t') = true

def TagElement.text (e : TagElement) : Text :=
  e.before ++ (e.tag.map EntityTag.text).getD [] ++ e.after

/-- The value of `If-Match` or `If-None-Match`. -/
inductive TagHeader where
  | any
  | list (elements : List TagElement) (nonempty : elements.filterMap TagElement.tag ≠ [])

namespace TagHeader

def text : TagHeader → Text
  | .any => ['*']
  | .list elements _ => List.intercalate [','] (elements.map TagElement.text)

/-- Strong comparison. -/
def strong (etag : Etag) : TagHeader → Bool
  | .any => true
  | .list elements _ => (elements.filterMap TagElement.tag).any fun t => !t.weak && t.tag = etag

/-- Weak comparison. -/
def weak (etag : Etag) : TagHeader → Bool
  | .any => true
  | .list elements _ => (elements.filterMap TagElement.tag).any fun t => t.tag = etag

/-- What is between two commas, but for white space and quotes, is the tag or `*`. -/
def listed (etag : Etag) (h : TagHeader) : Bool :=
  (etagList h.text).any fun t => t = ['*'] || t = etag

end TagHeader

/-- The value of `If-Modified-Since` or `If-Unmodified-Since`. -/
structure DateHeader (dates : Dates) where
  text : Text
  /-- None if the text is no HTTP-date. -/
  date : Option ℤ
  parses : ∀ seconds ∈ date, text ≠ [] ∧ dates.parse text = some (seconds * 1000)

/-- What `Date` makes of it. -/
def DateHeader.time {dates : Dates} (h : DateHeader dates) : Option Time :=
  if h.text = [] then none else dates.parse h.text

/-- The conditions of a request. -/
structure Conditions (dates : Dates) where
  ifMatch : Option TagHeader
  ifNoneMatch : Option TagHeader
  ifModifiedSince : Option (DateHeader dates)
  ifUnmodifiedSince : Option (DateHeader dates)

namespace Conditions

variable {dates : Dates}

/-- The headers of a request with these conditions. -/
structure SentIn (c : Conditions dates) (headers : Fields) : Prop where
  ifMatch : header headers "if-match" = c.ifMatch.map TagHeader.text
  ifNoneMatch : header headers "if-none-match" = c.ifNoneMatch.map TagHeader.text
  ifModifiedSince : header headers "if-modified-since" = c.ifModifiedSince.map DateHeader.text
  ifUnmodifiedSince : header headers "if-unmodified-since" = c.ifUnmodifiedSince.map DateHeader.text

variable (c : Conditions dates) (etag : Etag) (lastModified : ℤ) (method : Method)

/-! ### The decision of the RFC -/

/-- The first two steps: `If-Unmodified-Since` is ignored if there is `If-Match`. -/
def fails : Bool :=
  match c.ifMatch with
  | some h => !h.strong etag
  | none => (c.ifUnmodifiedSince.bind DateHeader.date).any fun seconds => seconds < lastModified

/-- The third step. -/
def noneFails : Bool :=
  c.ifNoneMatch.any fun h => h.weak etag

/-- The fourth step, for reads without `If-None-Match`. -/
def notModified : Bool :=
  c.ifNoneMatch.isNone && method = .read &&
    (c.ifModifiedSince.bind DateHeader.date).any fun seconds => lastModified ≤ seconds

/-- Section 6 of the RFC. -/
def decision : ConditionalResult :=
  method.answer (c.fails etag lastModified) (c.noneFails etag) (c.notModified lastModified method)

/-! ### What the code looks at -/

/-- `If-Match` or `If-Unmodified-Since` fails, each by itself. -/
def stops : Bool :=
  c.ifMatch.any (fun h => !h.listed etag) ||
    (c.ifUnmodifiedSince.bind DateHeader.time).any fun time => time < lastModified * 1000

/-- The tag is listed in `If-None-Match`. -/
def noneListed : Bool :=
  c.ifNoneMatch.any fun h => h.listed etag

/-- `If-Modified-Since`, also next to `If-None-Match`. -/
def stale : Bool :=
  method = .read && (c.ifModifiedSince.bind DateHeader.time).any fun time =>
    lastModified * 1000 ≤ time

/-- The request is one on which the code and the RFC come to the same decision. -/
def Decided : Prop :=
  if c.stops etag lastModified then
    c.fails etag lastModified ∨ method = .write ∧ c.noneFails etag
  else if c.fails etag lastModified then method = .write ∧ c.noneListed etag
  else if c.noneListed etag then c.noneFails etag
  else (c.noneFails etag || c.notModified lastModified method) = c.stale lastModified method

end Conditions

/-! ### The headers -/

theorem EntityTag.text_ne_nil (t : EntityTag) : t.text ≠ [] := by
  simp [text]

/-- A value with a tag is not empty. -/
theorem intercalate_ne_nil {pieces : List Text} {piece : Text} (hmem : piece ∈ pieces)
    (hpiece : piece ≠ []) : List.intercalate [','] pieces ≠ [] := by
  induction pieces with
  | nil => cases hmem
  | cons p pieces ih =>
    cases pieces with
    | nil =>
      obtain rfl := List.mem_singleton.mp hmem
      simpa [List.intercalate] using hpiece
    | cons q pieces => simp [List.intercalate]

theorem TagHeader.text_ne_nil (h : TagHeader) : h.text ≠ [] := by
  cases h with
  | any => exact List.cons_ne_nil _ _
  | list elements nonempty =>
    obtain ⟨tag, htag⟩ := List.exists_mem_of_ne_nil _ nonempty
    obtain ⟨element, helement, heq⟩ := List.mem_filterMap.mp htag
    refine intercalate_ne_nil (List.mem_map_of_mem helement) fun hnil => ?_
    have := (List.append_eq_nil_iff.mp (List.append_eq_nil_iff.mp hnil).1).2
    rw [heq] at this
    exact tag.text_ne_nil this

/-! ### Plain lists -/

/-- No tag of the list has a comma in it or is `"*"`. -/
def TagHeader.Plain : TagHeader → Prop
  | .any => True
  | .list elements _ => ∀ e ∈ elements, ∀ t ∈ e.tag, ',' ∉ t.tag ∧ t.tag ≠ ['*']

theorem EntityTag.unquote_strong (tag : Text) : unquote ('"' :: tag ++ ['"']) = tag := by
  simp [unquote]

/-- The quote at the start of a weak tag stays: it is not at the start of the text. -/
theorem EntityTag.unquote_weak (tag : Text) :
    unquote ('W' :: '/' :: '"' :: tag ++ ['"']) = 'W' :: '/' :: '"' :: tag := by
  have hlast : ('W' :: '/' :: '"' :: tag ++ ['"']).getLast? = some '"' := List.getLast?_concat
  have hdrop : ('W' :: '/' :: '"' :: tag ++ ['"']).dropLast = 'W' :: '/' :: '"' :: tag :=
    List.dropLast_concat
  have hhead : ('W' :: '/' :: '"' :: tag ++ ['"']).head? ≠ some '"' := by simp
  rw [unquote, if_neg hhead]
  exact (if_pos hlast).trans hdrop

theorem EntityTag.head?_text (t : EntityTag) : ∀ c ∈ t.text.head?, isSpace c = false := by
  rcases t with ⟨_ | _, tag, _⟩
  all_goals
    rintro c ⟨⟩
    decide

theorem EntityTag.getLast?_text (t : EntityTag) : ∀ c ∈ t.text.getLast?, isSpace c = false := by
  rw [text, List.getLast?_concat]
  rintro c ⟨⟩
  decide

theorem TagElement.blank_iff (e : TagElement) {c : Char} (hc : c ∈ e.before ∨ c ∈ e.after) :
    c = ' ' ∨ c = '\t' := by
  simpa using List.all_eq_true.mp e.blank c (List.mem_append.mpr hc)

/-- The blanks around a tag are no part of what is compared. -/
theorem TagElement.trim_text (e : TagElement) :
    trim e.text = (e.tag.map EntityTag.text).getD [] := by
  have hspace : ∀ {c : Char}, c = ' ' ∨ c = '\t' → isSpace c = true := by
    rintro c (rfl | rfl) <;> decide
  refine trim_append (fun c hc => hspace (e.blank_iff (.inl hc)))
    (fun c hc => hspace (e.blank_iff (.inr hc))) ?_ ?_
  all_goals
    cases e.tag with
    | none => simp
    | some t => first | exact t.head?_text | exact t.getLast?_text

/-- An element of a plain list is listed if it is the strong tag. -/
theorem TagElement.listed_iff (e : TagElement) {etag : Etag} (hplain : ∀ t ∈ e.tag, t.tag ≠ ['*'])
    (hetag : etag ≠ [] ∧ '"' ∉ etag) :
    unquote (trim e.text) = ['*'] ∨ unquote (trim e.text) = etag ↔
      ∃ t ∈ e.tag, t.weak = false ∧ t.tag = etag := by
  rw [e.trim_text]
  cases htag : e.tag with
  | none =>
    have hnil : unquote [] = [] := rfl
    simp [hnil, Ne.symm hetag.1]
  | some t =>
    have hstar := hplain t htag
    rcases t with ⟨_ | _, tag, hvalid⟩
    · simp only [Option.map_some, Option.getD_some, EntityTag.text, Bool.false_eq_true, if_false,
        List.nil_append, EntityTag.unquote_strong]
      simp [show tag ≠ ['*'] from hstar]
    · have hquote : 'W' :: '/' :: '"' :: tag ≠ etag := fun h => hetag.2 (h ▸ by simp)
      have hunquote := EntityTag.unquote_weak tag
      simp only [List.cons_append] at hunquote
      simp [EntityTag.text, hunquote, hquote]

/-- There is a comma in an element only if there is one in its tag. -/
theorem TagElement.comma_notMem (e : TagElement) (hplain : ∀ t ∈ e.tag, ',' ∉ t.tag) :
    ',' ∉ e.text := by
  have hblank : ∀ {c : Char}, c = ' ' ∨ c = '\t' → c ≠ ',' := by
    rintro c (rfl | rfl) <;> decide
  intro hmem
  rcases List.mem_append.mp hmem with hmem | hafter
  · rcases List.mem_append.mp hmem with hbefore | htag
    · exact hblank (e.blank_iff (.inl hbefore)) rfl
    · cases heq : e.tag with
      | none => simp [heq] at htag
      | some t =>
        have := hplain t heq
        rcases t with ⟨_ | _, tag, _⟩ <;> simp_all [EntityTag.text]
  · exact hblank (e.blank_iff (.inr hafter)) rfl

/-- In a plain list the code finds the strong tags. -/
theorem TagHeader.listed_eq_strong {h : TagHeader} (hplain : h.Plain) {etag : Etag}
    (hetag : etag ≠ [] ∧ '"' ∉ etag) : h.listed etag = h.strong etag := by
  cases h with
  | any => rfl
  | list elements nonempty =>
    have hcomma : ∀ text ∈ elements.map TagElement.text, ',' ∉ text := by
      intro text htext
      obtain ⟨e, he, rfl⟩ := List.mem_map.mp htext
      exact e.comma_notMem fun t ht => (hplain e he t ht).1
    have hsome : elements.map TagElement.text ≠ [] := by
      rintro hnil
      exact nonempty (by rw [List.map_eq_nil_iff.mp hnil, List.filterMap_nil])
    rw [listed, etagList, text, List.splitOn_intercalate _ hcomma hsome, strong, Bool.eq_iff_iff]
    simp only [List.any_map, List.any_filterMap, List.any_eq_true, Function.comp_apply,
      Bool.or_eq_true, decide_eq_true_eq]
    refine exists_congr fun e => and_congr_right fun he => ?_
    rw [e.listed_iff (fun t ht => (hplain e he t ht).2) hetag]
    cases e.tag <;> simp

section Decision

variable {dates : Dates} {c : Conditions dates} {headers : Fields}

/-- The lists of tags that the code compares with. -/
theorem presentHeader_tags {name : String} {h : Option TagHeader}
    (hsent : header headers name = h.map TagHeader.text) :
    (presentHeader headers name).map etagList = h.map fun h => etagList h.text := by
  rw [presentHeader, hsent]
  cases h with
  | none => rfl
  | some h => simp [Option.filter, h.text_ne_nil]

/-- The dates that the code compares with. -/
theorem presentHeader_date {name : String} {h : Option (DateHeader dates)}
    (hsent : header headers name = h.map DateHeader.text) :
    (presentHeader headers name).bind dates.parse = h.bind DateHeader.time := by
  rw [presentHeader, hsent]
  cases h with
  | none => rfl
  | some h => by_cases hnil : h.text = [] <;> simp [Option.filter, DateHeader.time, hnil]

/-- `evaluateConditional` has the same steps, with its own reading of the headers. -/
theorem evaluateConditional_eq (hsent : c.SentIn headers) (etag : Etag) (uploaded : Time)
    (method : Method) :
    evaluateConditional (parseConditional dates headers) etag uploaded method =
      method.answer (c.stops etag (uploaded / 1000)) (c.noneListed etag)
        (c.stale (uploaded / 1000) method) := by
  unfold evaluateConditional parseConditional
  rw [presentHeader_tags hsent.ifMatch, presentHeader_tags hsent.ifNoneMatch,
    presentHeader_date hsent.ifModifiedSince, presentHeader_date hsent.ifUnmodifiedSince]
  simp only [Option.any_map, Method.answer, Conditions.stops, Conditions.noneListed,
    Conditions.stale, Bool.or_eq_true, Bool.and_eq_true, decide_eq_true_eq]
  -- The two conditions that answer 412 are one in `stops`.
  rw [ite_or]
  rfl

/-- When two outcomes of the steps have the same answer. -/
theorem Method.answer_eq_iff (method : Method) {failed noneFailed unmodified failed' noneFailed'
      unmodified' : Bool}
    (hread : unmodified = true → method = .read)
    (hread' : unmodified' = true → method = .read ∧ noneFailed = false) :
    method.answer failed noneFailed unmodified = method.answer failed' noneFailed' unmodified' ↔
      if failed then failed' ∨ method = .write ∧ noneFailed'
      else if failed' then method = .write ∧ noneFailed
      else if noneFailed then noneFailed'
      else (noneFailed' || unmodified') = unmodified := by
  cases method <;> cases failed <;> cases failed' <;> cases noneFailed <;> cases noneFailed' <;>
    simp_all [answer]
  all_goals cases unmodified <;> cases unmodified' <;> decide

/-- `If-Modified-Since` counts for reads only. -/
theorem Conditions.read_of_stale {lastModified : ℤ} {method : Method}
    (h : c.stale lastModified method = true) : method = .read := by
  simp only [stale, Bool.and_eq_true, decide_eq_true_eq] at h
  exact h.1

/-- For the RFC it does so only without `If-None-Match`. -/
theorem Conditions.of_notModified {lastModified : ℤ} {method : Method} (etag : Etag)
    (h : c.notModified lastModified method = true) :
    method = .read ∧ c.noneListed etag = false := by
  simp only [notModified, Bool.and_eq_true, decide_eq_true_eq, Option.isNone_iff_eq_none] at h
  obtain ⟨⟨hnone, hread⟩, -⟩ := h
  refine ⟨hread, ?_⟩
  rw [noneListed, hnone, Option.any_none]

/-- A date of the RFC is the same for `Date`. -/
theorem DateHeader.time_of_date {h : DateHeader dates} {seconds : ℤ}
    (hdate : h.date = some seconds) : h.time = some (seconds * 1000) := by
  obtain ⟨hne, hparse⟩ := h.parses seconds hdate
  rw [time, if_neg hne, hparse]

theorem Conditions.any_time_eq {d : Option (DateHeader dates)}
    (hdate : ∀ h ∈ d, h.date.isSome = true) (p : Time → Bool) :
    (d.bind DateHeader.time).any p =
      (d.bind DateHeader.date).any fun seconds => p (seconds * 1000) := by
  cases d with
  | none => rfl
  | some h =>
    obtain ⟨seconds, hseconds⟩ := Option.isSome_iff_exists.mp (hdate h rfl)
    rw [Option.bind_some, Option.bind_some, hseconds, h.time_of_date hseconds]
    rfl

/-- Plain lists of tags, none of them the weak one, and HTTP-dates, each with no tags next to it
that take its place. -/
structure Conditions.Plain (c : Conditions dates) (etag : Etag) : Prop where
  ifMatch : ∀ h ∈ c.ifMatch, h.Plain
  ifNoneMatch : ∀ h ∈ c.ifNoneMatch, h.Plain ∧ h.weak etag = h.strong etag
  ifModifiedSince : ∀ h ∈ c.ifModifiedSince, c.ifNoneMatch = none ∧ h.date.isSome = true
  ifUnmodifiedSince : ∀ h ∈ c.ifUnmodifiedSince, c.ifMatch = none ∧ h.date.isSome = true

section Plain

variable {etag : Etag} {lastModified : ℤ} {method : Method}

theorem Conditions.Plain.stops_eq (hplain : c.Plain etag) (hetag : etag ≠ [] ∧ '"' ∉ etag) :
    c.stops etag lastModified = c.fails etag lastModified := by
  rw [stops, fails, any_time_eq fun h hh => (hplain.ifUnmodifiedSince h hh).2]
  cases hmatch : c.ifMatch with
  | none => simp [Int.mul_lt_mul_right]
  | some h =>
    have hnone : c.ifUnmodifiedSince = none := by
      by_contra hsome
      obtain ⟨date, hdate⟩ := Option.ne_none_iff_exists'.mp hsome
      rw [(hplain.ifUnmodifiedSince date hdate).1] at hmatch
      cases hmatch
    simp [hnone, TagHeader.listed_eq_strong (hplain.ifMatch h hmatch) hetag]

theorem Conditions.Plain.noneListed_eq (hplain : c.Plain etag)
    (hetag : etag ≠ [] ∧ '"' ∉ etag) : c.noneListed etag = c.noneFails etag := by
  rw [noneListed, noneFails]
  cases hmatch : c.ifNoneMatch with
  | none => rfl
  | some h =>
    obtain ⟨hlist, hweak⟩ := hplain.ifNoneMatch h hmatch
    rw [Option.any_some, Option.any_some, TagHeader.listed_eq_strong hlist hetag, hweak]

theorem Conditions.Plain.stale_eq (hplain : c.Plain etag) :
    c.stale lastModified method = c.notModified lastModified method := by
  rw [stale, notModified, any_time_eq fun h hh => (hplain.ifModifiedSince h hh).2]
  cases hdate : c.ifModifiedSince with
  | none => simp
  | some h => simp [(hplain.ifModifiedSince h hdate).1, Int.mul_le_mul_right]

end Plain

/-- **Conditional requests.** Whatever conditions are sent, `evaluateConditional` decides as the RFC
does exactly if the request is `Decided`. -/
theorem evaluateConditional_iff (dates : Dates) (c : Conditions dates) (headers : Fields)
    (hsent : c.SentIn headers) (etag : Etag) (uploaded : Time) (method : Method) :
    evaluateConditional (parseConditional dates headers) etag uploaded method =
        c.decision etag (uploaded / 1000) method ↔
      c.Decided etag (uploaded / 1000) method := by
  rw [evaluateConditional_eq hsent]
  exact method.answer_eq_iff Conditions.read_of_stale (Conditions.of_notModified etag)

/-- Plain conditions are decided, for an etag as the buckets make them. -/
theorem Conditions.Plain.decided {etag : Etag} (hplain : c.Plain etag)
    (hetag : etag ≠ [] ∧ '"' ∉ etag) (lastModified : ℤ) (method : Method) :
    c.Decided etag lastModified method := by
  refine (method.answer_eq_iff read_of_stale (of_notModified etag)).mp ?_
  rw [hplain.stops_eq hetag, hplain.noneListed_eq hetag, hplain.stale_eq]

end Decision

/-- `If-None-Match` with one tag. -/
def noneMatch (dates : Dates) (weak : Bool) : Conditions dates where
  ifMatch := none
  ifNoneMatch := some (.list [⟨[], some ⟨weak, ['a'], by decide⟩, [], by decide⟩] (by simp))
  ifModifiedSince := none
  ifUnmodifiedSince := none

/-- A platform that reads no date. -/
def noDates : Dates := ⟨fun _ => none, fun _ => []⟩

theorem noneMatch_sentIn (weak : Bool) : (noneMatch noDates weak).SentIn
    [("if-none-match".toList, (if weak then ['W', '/'] else []) ++ ['"', 'a', '"'])] := by
  constructor <;> cases weak <;> decide

/-- `If-None-Match: "a"` on a read of the object with the etag `a`: not modified. -/
theorem evaluateConditional_strong :
    evaluateConditional (parseConditional noDates [("if-none-match".toList, ['"', 'a', '"'])]) ['a']
        0 .read =
      (noneMatch noDates false).decision ['a'] (0 / 1000) .read :=
  (evaluateConditional_iff noDates _ _ (noneMatch_sentIn false) ['a'] 0 .read).mpr
    (by unfold Conditions.Decided; decide)

/-- `If-None-Match: W/"a"` is passed over: the object is sent again. -/
theorem not_decided :
    ¬ ∀ (dates : Dates) (c : Conditions dates) (headers : Fields), c.SentIn headers →
      ∀ (etag : Etag) (uploaded : Time) (method : Method),
        evaluateConditional (parseConditional dates headers) etag uploaded method =
          c.decision etag (uploaded / 1000) method := by
  intro h
  have := h noDates _ _ (noneMatch_sentIn true) ['a'] 0 .read
  revert this
  decide

end Lopata.S3

import Lopata.Lib.Json
import Lopata.Lib.Search

/-!
# Object Tags in XML

`taggingXml` writes the tags of an object, `parseTaggingXml` reads them from the body of a request
with a regular expression and then replaces the entities, one kind after the other.

## Main results

* `decodeXmlEntities_escapeXML`: the entities of an escaped text are replaced by what they stand
  for.
* `parseTaggingXml_taggingXml`: the tags are read back.
-/

open Lopata.JsString (literal)

namespace Lopata.S3

structure Tag where
  key : JsString
  value : JsString
  deriving DecidableEq, Repr

/-! ### Entities -/

/-- The entity of a character. -/
def escapeUnit (u : UInt16) : JsString :=
  if u = 60 then literal "&lt;"
  else if u = 62 then literal "&gt;"
  else if u = 38 then literal "&amp;"
  else if u = 39 then literal "&apos;"
  else if u = 34 then literal "&quot;"
  else [u]

def escapeXML (str : JsString) : JsString := str.flatMap escapeUnit

def decodeXmlEntities (s : JsString) : JsString :=
  let s := replaceAll (literal "&lt;") (literal "<") s
  let s := replaceAll (literal "&gt;") (literal ">") s
  let s := replaceAll (literal "&quot;") [34] s
  let s := replaceAll (literal "&apos;") (literal "'") s
  replaceAll (literal "&amp;") (literal "&") s

/-! ### Documents -/

/-- The document up to its first tag. -/
def taggingHead : JsString :=
  literal "<?xml version=\"1.0\" encoding=\"UTF-8\"?>\n" ++
    literal "<Tagging xmlns=\"http://s3.amazonaws.com/doc/2006-03-01/\">\n  <TagSet>\n"

def taggingTail : JsString := literal "\n  </TagSet>\n</Tagging>"

def tagXml (t : Tag) : JsString :=
  literal "    <Tag><Key>" ++ escapeXML t.key ++ literal "</Key><Value>" ++
    escapeXML t.value ++ literal "</Value></Tag>"

def taggingXml (tags : List Tag) : JsString :=
  taggingHead ++ List.intercalate (literal "\n") (tags.map tagXml) ++ taggingTail

/-- `\s`. -/
def isSpaceUnit (u : UInt16) : Bool := isSpace (Char.ofNat u.toNat)

/-- `[^<]`. -/
def isContent (u : UInt16) : Bool := u ≠ 60

/-- The regular expression of a tag. -/
def tagAtoms : List (Atom UInt16) :=
  [.literal (literal "<Tag>"), .skip isSpaceUnit, .literal (literal "<Key>"), .capture isContent,
    .literal (literal "</Key>"), .skip isSpaceUnit, .literal (literal "<Value>"),
    .capture isContent, .literal (literal "</Value>"), .skip isSpaceUnit,
    .literal (literal "</Tag>")]

def parseTaggingXml (body : JsString) : List Tag :=
  (matchAll tagAtoms body).map fun found =>
    ⟨decodeXmlEntities (found.getD 0 []), decodeXmlEntities (found.getD 1 [])⟩

/-! ### Entities are replaced -/

/-- The characters that have an entity. -/
def specials : List UInt16 := [60, 62, 38, 39, 34]

/-- A character written as its entity, unless that has been replaced. -/
def escapeBut (done : List UInt16) (u : UInt16) : JsString := if u ∈ done then [u] else escapeUnit u

theorem escapeUnit_of_notMem {u : UInt16} (h : u ∉ specials) : escapeUnit u = [u] := by
  simp only [specials, List.mem_cons, List.not_mem_nil, or_false, not_or] at h
  rw [escapeUnit, if_neg h.1, if_neg h.2.1, if_neg h.2.2.1, if_neg h.2.2.2.1, if_neg h.2.2.2.2]

/-- An entity is found in no other one. -/
theorem clashAll_escapeUnit {c d : UInt16} (hd : d ∈ specials) (hc : c ∈ specials) (hne : c ≠ d) :
    ClashAll (escapeUnit d) (escapeUnit c) := by
  have hall : (specials.all fun d => specials.all fun c =>
      c = d ∨ ClashAll (escapeUnit d) (escapeUnit c)) = true := by decide
  have hpair := List.all_eq_true.mp (List.all_eq_true.mp hall d hd) c hc
  exact (of_decide_eq_true hpair).resolve_left hne

/-- An entity is found in no character, if the ampersands are replaced last. -/
theorem clashAll_escapeBut {c d : UInt16} {done : List UInt16} (hd : d ∈ specials)
    (hamp : 38 ∉ done) (hne : c ≠ d) : ClashAll (escapeUnit d) (escapeBut done c) := by
  obtain ⟨l, hl⟩ : ∃ l, escapeUnit d = 38 :: l := by
    have hall : (specials.all fun d => (escapeUnit d).head? = some 38) = true := by decide
    exact List.head?_eq_some_iff.mp (of_decide_eq_true (List.all_eq_true.mp hall d hd))
  by_cases hc : c ∈ specials ∧ c ∉ done
  · rw [escapeBut, if_neg hc.2]
    exact clashAll_escapeUnit hd hc.1 hne
  · have hself : escapeBut done c = [c] := by
      unfold escapeBut
      split
      · rfl
      · next hdone => exact escapeUnit_of_notMem fun hmem => hc ⟨hmem, hdone⟩
    rw [hself, hl]
    refine clashAll_singleton ?_
    rintro rfl
    exact hc ⟨by decide, hamp⟩

/-- One kind of entity is replaced. -/
theorem replaceAll_entity {d : UInt16} {done : List UInt16} (hd : d ∈ specials) (hamp : 38 ∉ done)
    (hnot : d ∉ done) (s : JsString) :
    replaceAll (escapeUnit d) [d] (s.flatMap (escapeBut done)) =
      s.flatMap (escapeBut (d :: done)) := by
  have hne : escapeUnit d ≠ [] := by
    have hall : (specials.all fun d => escapeUnit d ≠ []) = true := by decide
    exact of_decide_eq_true (List.all_eq_true.mp hall d hd)
  refine replaceAll_flatMap hne (fun c => ?_) s
  by_cases hc : c = d
  · subst hc
    exact .inl ⟨if_neg hnot, if_pos List.mem_cons_self⟩
  · refine .inr ⟨clashAll_escapeBut hd hamp hc, ?_⟩
    simp only [escapeBut, List.mem_cons, hc, false_or]

/-- **Entities** are replaced by what they stand for. -/
theorem decodeXmlEntities_escapeXML (s : JsString) : decodeXmlEntities (escapeXML s) = s := by
  have hstart : escapeXML s = s.flatMap (escapeBut []) :=
    List.flatMap_congr fun c _ => (if_neg List.not_mem_nil).symm
  have hlt := @replaceAll_entity 60 [] (by decide) (by decide) (by decide) s
  have hgt := @replaceAll_entity 62 [60] (by decide) (by decide) (by decide) s
  have hquot := @replaceAll_entity 34 [62, 60] (by decide) (by decide) (by decide) s
  have hapos :=
    @replaceAll_entity 39 [34, 62, 60] (by decide) (by decide) (by decide) s
  have hamp :=
    @replaceAll_entity 38 [39, 34, 62, 60] (by decide) (by decide) (by decide) s
  have hend : ∀ c ∈ s, escapeBut [38, 39, 34, 62, 60] c = [c] := by
    intro c _
    unfold escapeBut
    split
    · rfl
    · next hc =>
        refine escapeUnit_of_notMem fun hmem => hc ?_
        simp only [specials, List.mem_cons, List.not_mem_nil, or_false] at hmem ⊢
        tauto
  have hstages : decodeXmlEntities (escapeXML s) =
      replaceAll (escapeUnit 38) [38] (replaceAll (escapeUnit 39) [39]
        (replaceAll (escapeUnit 34) [34] (replaceAll (escapeUnit 62) [62]
          (replaceAll (escapeUnit 60) [60] (escapeXML s))))) := rfl
  rw [hstages, hstart, hlt, hgt, hquot, hapos, hamp, List.flatMap_congr hend,
    List.flatMap_singleton']

/-! ### Tags are found -/

theorem isContent_of_mem_escapeXML {s : JsString} : ∀ u ∈ escapeXML s, isContent u = true := by
  intro u hu
  obtain ⟨c, -, hu⟩ := List.mem_flatMap.mp hu
  by_cases hc : c ∈ specials
  · have hall : (specials.all fun c => (escapeUnit c).all isContent) = true := by decide
    exact List.all_eq_true.mp (List.all_eq_true.mp hall c hc) u hu
  · rw [escapeUnit_of_notMem hc, List.mem_singleton] at hu
    subst hu
    refine decide_eq_true fun heq => hc ?_
    rw [heq]
    decide

/-- A tag of two texts without `<`, from its first element on. -/
def tagOf (k v rest : JsString) : JsString :=
  literal "<Tag>" ++ ([] ++ (literal "<Key>" ++ (k ++ (literal "</Key>" ++ ([] ++
    (literal "<Value>" ++ (v ++ (literal "</Value>" ++ ([] ++ (literal "</Tag>" ++ rest))))))))))

theorem matchAt_tagAtoms {k v : JsString} (hk : ∀ u ∈ k, isContent u = true)
    (hv : ∀ u ∈ v, isContent u = true) (rest : JsString) :
    matchAt tagAtoms (tagOf k v rest) = some ([k, v], rest) := by
  have hnil : ∀ u ∈ ([] : JsString), isSpaceUnit u = true := fun u hu => absurd hu List.not_mem_nil
  have hspace : isSpaceUnit 60 = false := by decide
  have hcontent : isContent 60 = false := by decide
  have hend : ∀ text, matchAt (tagAtoms.drop 9) ([] ++ (literal "</Tag>" ++ text)) =
      some ([], text) := fun text => matchAt_skip hnil hspace (literal "/Tag>") text []
  have hvalue : ∀ text, matchAt (tagAtoms.drop 7) (v ++ (literal "</Value>" ++ text)) =
      (matchAt (tagAtoms.drop 9) text).map fun found => (v :: found.1, found.2) := fun text =>
    matchAt_capture hv hcontent (literal "/Value>") text _
  have hopen : ∀ text, matchAt (tagAtoms.drop 5) ([] ++ (literal "<Value>" ++ text)) =
      matchAt (tagAtoms.drop 7) text := fun text =>
    matchAt_skip hnil hspace (literal "Value>") text _
  have hkey : ∀ text, matchAt (tagAtoms.drop 3) (k ++ (literal "</Key>" ++ text)) =
      (matchAt (tagAtoms.drop 5) text).map fun found => (k :: found.1, found.2) := fun text =>
    matchAt_capture hk hcontent (literal "/Key>") text _
  have hstart : ∀ text, matchAt (tagAtoms.drop 1) ([] ++ (literal "<Key>" ++ text)) =
      matchAt (tagAtoms.drop 3) text := fun text => matchAt_skip hnil hspace (literal "Key>") text _
  have htag : ∀ text, matchAt tagAtoms (literal "<Tag>" ++ text) =
      matchAt (tagAtoms.drop 1) text := fun text => matchAt_literal _ _ text
  rw [tagOf, htag, hstart, hkey, hopen, hvalue, hend]
  rfl

/-- A written tag is found, and the search goes on behind it. -/
theorem matchAll_tagXml (t : Tag) (rest : JsString) :
    matchAll tagAtoms (tagXml t ++ rest) =
      [escapeXML t.key, escapeXML t.value] :: matchAll tagAtoms rest := by
  have hxml : tagXml t ++ rest =
      literal "    " ++ tagOf (escapeXML t.key) (escapeXML t.value) rest := by
    simp only [tagXml, tagOf, List.append_assoc, List.nil_append]
    rfl
  have hindent : ClashAll (literal "<Tag>") (literal "    ") := by decide
  have hlt : rest.length < (tagOf (escapeXML t.key) (escapeXML t.value) rest).length := by
    simp only [tagOf, List.length_append]
    have htag : (literal "<Tag>").length = 5 := rfl
    omega
  have hskip : matchAll tagAtoms (tagXml t ++ rest) =
      matchAll tagAtoms (tagOf (escapeXML t.key) (escapeXML t.value) rest) :=
    hxml ▸ matchAll_of_clash hindent _
  rw [hskip, matchAll_of_match
    (matchAt_tagAtoms isContent_of_mem_escapeXML isContent_of_mem_escapeXML rest) hlt]

theorem matchAll_skip {text : JsString} (h : ClashAll (literal "<Tag>") text) (rest : JsString) :
    matchAll tagAtoms (text ++ rest) = matchAll tagAtoms rest :=
  matchAll_of_clash h rest

theorem matchAll_taggingTail : matchAll tagAtoms taggingTail = [] := by
  have htail : ClashAll (literal "<Tag>") taggingTail := by decide
  rw [← List.append_nil taggingTail, matchAll_skip htail, matchAll.eq_def]
  rfl

/-- The tags of a document. -/
theorem matchAll_tags (tags : List Tag) :
    matchAll tagAtoms (List.intercalate (literal "\n") (tags.map tagXml) ++ taggingTail) =
      tags.map fun t => [escapeXML t.key, escapeXML t.value] := by
  have hline : ClashAll (literal "<Tag>") (literal "\n") := by decide
  induction tags with
  | nil => exact matchAll_taggingTail
  | cons t tags ih =>
    cases tags with
    | nil =>
      rw [List.map_singleton, List.intercalate_singleton, matchAll_tagXml,
        matchAll_taggingTail, List.map_singleton]
    | cons t' tags =>
      rw [List.map_cons, List.map_cons, List.intercalate_cons_cons, List.append_assoc,
        List.append_assoc, matchAll_tagXml, matchAll_skip hline, ← List.map_cons, ih]
      rfl

/-- **Object tags** are read back. -/
theorem parseTaggingXml_taggingXml (tags : List Tag) :
    parseTaggingXml (taggingXml tags) = tags := by
  have hhead : ClashAll (literal "<Tag>") taggingHead := by decide
  rw [parseTaggingXml, taggingXml, List.append_assoc, matchAll_skip hhead, matchAll_tags,
    List.map_map]
  refine (List.map_congr_left fun t _ => ?_).trans (List.map_id tags)
  simp only [Function.comp_apply, List.getD_cons_zero, List.getD_cons_succ,
    decodeXmlEntities_escapeXML, id]

end Lopata.S3

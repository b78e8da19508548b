import Mathlib.Data.List.Basic
import Mathlib.Data.UInt
import Mathlib.Tactic.NormNum

/-!
# Elements of DER

An element is a tag, the length of its content and the content. The length stands in one octet
below 128, and else as the number of its octets, of which there are as few as possible.

## Main results

* `read_eq_some_iff`: reading an element is reading its length, and splitting what is behind it.
* `readLength_short`, `readLength_long`: the two forms of a length.
-/

namespace Lopata.Der

abbrev Bytes := List UInt8

/-- The number of octets in base 256, the most significant first. -/
def bigEndian (octets : Bytes) : ℕ :=
  octets.foldl (fun n b => 256 * n + b.toNat) 0

/-- The length in front of some bytes, and the bytes behind it; none if there is none, it is
indefinite, or it takes more octets than it needs. -/
def readLength : Bytes → Option (ℕ × Bytes)
  | [] => none
  | b :: rest =>
      if b.toNat < 0x80 then some (b.toNat, rest)
      else
        let count := b.toNat - 0x80
        let n := bigEndian (rest.take count)
        if count ≤ rest.length ∧ count < 0x7f ∧ 0x80 ≤ n ∧ 256 ^ (count - 1) ≤ n then
          some (n, rest.drop count)
        else none

/-- The tag and the content of the first element, and the bytes behind it. -/
def read : Bytes → Option (UInt8 × Bytes × Bytes)
  | [] => none
  | tag :: rest => do
      let (n, rest) ← readLength rest
      if n ≤ rest.length then some (tag, rest.take n, rest.drop n) else none

/-- Bytes are the elements of a list, one behind the other. -/
inductive Elements : Bytes → List (UInt8 × Bytes) → Prop
  | nil : Elements [] []
  | cons {bytes content rest : Bytes} {tag : UInt8} {elements : List (UInt8 × Bytes)}
      (hread : read bytes = some (tag, content, rest)) (hrest : Elements rest elements) :
      Elements bytes ((tag, content) :: elements)

/-- The content of the tag is made of elements. -/
def IsConstructed (tag : UInt8) : Prop := tag.toNat / 32 % 2 = 1

/-- Bytes are elements, and so is the content of each that is made of elements. -/
inductive WellFormed : Bytes → Prop
  | nil : WellFormed []
  | cons {bytes content rest : Bytes} {tag : UInt8}
      (hread : read bytes = some (tag, content, rest))
      (hcontent : IsConstructed tag → WellFormed content) (hrest : WellFormed rest) :
      WellFormed bytes

variable {bytes content rest : Bytes} {tag b : UInt8} {n : ℕ}

theorem readLength_short (b : UInt8) (rest : Bytes) (h : b.toNat < 0x80) :
    readLength (b :: rest) = some (b.toNat, rest) :=
  if_pos h

/-- A length in as many octets as it needs. -/
theorem readLength_long (b : UInt8) (octets rest : Bytes) (hb : b.toNat = 0x80 + octets.length)
    (hcount : octets.length < 0x7f) (hlong : 0x80 ≤ bigEndian octets)
    (hleast : 256 ^ (octets.length - 1) ≤ bigEndian octets) :
    readLength (b :: (octets ++ rest)) = some (bigEndian octets, rest) := by
  have hnot : ¬ b.toNat < 0x80 := by omega
  have hsub : b.toNat - 0x80 = octets.length := by omega
  have htake : (octets ++ rest).take octets.length = octets := List.take_left
  have hle : octets.length ≤ (octets ++ rest).length := by
    rw [List.length_append]
    omega
  rw [readLength, if_neg hnot]
  simp only [hsub, htake]
  rw [if_pos ⟨hle, hcount, hlong, hleast⟩, List.drop_left]

/-- What is read of a length in several octets. -/
theorem eq_of_readLength {behind : Bytes} (octets : Bytes) (hb : b.toNat = 0x80 + octets.length)
    (h : readLength (b :: (octets ++ rest)) = some (n, behind)) :
    n = bigEndian octets ∧ behind = rest := by
  have hnot : ¬ b.toNat < 0x80 := by omega
  have hsub : b.toNat - 0x80 = octets.length := by omega
  have htake : (octets ++ rest).take octets.length = octets := List.take_left
  rw [readLength, if_neg hnot] at h
  simp only [hsub, htake] at h
  obtain ⟨-, h⟩ := Option.ite_none_right_eq_some.mp h
  obtain ⟨hn, hbehind⟩ := Prod.mk.inj (Option.some.inj h)
  rw [List.drop_left] at hbehind
  exact ⟨hn.symm, hbehind.symm⟩

/-- The octets of a length: one below 128, or one that says how many are behind it. -/
def IsLength (b : UInt8) (octets : Bytes) : Prop :=
  b.toNat < 0x80 ∧ octets = [] ∨ b.toNat = 0x80 + octets.length

/-- A length that is read is in its octets. -/
theorem exists_isLength {behind : Bytes} (h : readLength bytes = some (n, behind)) :
    ∃ b octets, IsLength b octets ∧ bytes = b :: (octets ++ behind) := by
  cases bytes with
  | nil => cases h
  | cons b rest =>
    rw [readLength] at h
    split at h
    · next hshort =>
        obtain ⟨-, rfl⟩ := Prod.mk.inj (Option.some.inj h)
        exact ⟨b, [], .inl ⟨hshort, rfl⟩, rfl⟩
    · next hlong =>
        obtain ⟨⟨hle, -⟩, h⟩ := Option.ite_none_right_eq_some.mp h
        obtain ⟨-, rfl⟩ := Prod.mk.inj (Option.some.inj h)
        refine ⟨b, rest.take (b.toNat - 0x80), .inr ?_, by rw [List.take_append_drop]⟩
        rw [List.length_take, Nat.min_eq_left hle]
        omega

/-- A length below 128 has one octet. -/
theorem eq_of_readLength_short {behind : Bytes} (h : readLength bytes = some (n, behind))
    (hn : n < 0x80) : bytes = UInt8.ofNat n :: behind := by
  cases bytes with
  | nil => cases h
  | cons b rest =>
    rw [readLength] at h
    split at h
    · obtain ⟨rfl, rfl⟩ := Prod.mk.inj (Option.some.inj h)
      rw [UInt8.ofNat_toNat]
    · obtain ⟨⟨-, -, hlong, -⟩, h⟩ := Option.ite_none_right_eq_some.mp h
      obtain ⟨rfl, -⟩ := Prod.mk.inj (Option.some.inj h)
      omega

theorem bigEndian_pair (x y : UInt8) : bigEndian [x, y] = 256 * x.toNat + y.toNat := by
  rw [bigEndian, List.foldl_cons, List.foldl_cons, List.foldl_nil, Nat.mul_zero, Nat.zero_add]

/-- An element is read if its length is. -/
theorem read_of_readLength {rest' : Bytes} (hlength : readLength bytes = some (n, content ++ rest'))
    (hn : content.length = n) : read (tag :: bytes) = some (tag, content, rest') := by
  subst hn
  have hle : content.length ≤ (content ++ rest').length := by
    rw [List.length_append]
    omega
  rw [read, hlength]
  show (if content.length ≤ (content ++ rest').length then _ else none) = _
  rw [if_pos hle, List.take_left, List.drop_left]

/-- An element whose length has one octet. -/
theorem read_short (content : Bytes) {rest' : Bytes} (hb : b.toNat = content.length)
    (h : content.length < 0x80) :
    read (tag :: b :: (content ++ rest')) = some (tag, content, rest') :=
  read_of_readLength (readLength_short _ _ (by omega)) hb.symm

theorem exists_of_read {rest' : Bytes} (h : read (tag :: bytes) = some (b, content, rest')) :
    b = tag ∧ readLength bytes = some (content.length, content ++ rest') := by
  obtain ⟨⟨n, behind⟩, hlength, h⟩ := Option.bind_eq_some_iff.mp h
  obtain ⟨hle, h⟩ := Option.ite_none_right_eq_some.mp h
  obtain ⟨htag, hpair⟩ := Prod.mk.inj (Option.some.inj h)
  obtain ⟨rfl, rfl⟩ := Prod.mk.inj hpair
  rw [List.length_take, Nat.min_eq_left hle, List.take_append_drop]
  exact ⟨htag.symm, hlength⟩

/-- An element with short content has one octet for its length. -/
theorem eq_of_read_short {rest' : Bytes} (h : read bytes = some (tag, content, rest'))
    (hshort : content.length < 0x80) :
    bytes = tag :: UInt8.ofNat content.length :: (content ++ rest') := by
  cases bytes with
  | nil => cases h
  | cons t bytes =>
    obtain ⟨rfl, hlength⟩ := exists_of_read h
    rw [eq_of_readLength_short hlength hshort]

/-- Of one element there is its length in front of the content. -/
theorem Elements.exists_isLength (h : Elements bytes [(tag, content)]) :
    ∃ b octets, IsLength b octets ∧ bytes = tag :: b :: (octets ++ content) := by
  cases h with
  | cons hread hrest =>
    cases hrest
    cases bytes with
    | nil => cases hread
    | cons t bytes =>
      obtain ⟨rfl, hlength⟩ := exists_of_read hread
      obtain ⟨b, octets, hform, rfl⟩ := Der.exists_isLength hlength
      exact ⟨b, octets, hform, by rw [List.append_nil]⟩

/-- An element has at least two octets. -/
theorem Elements.two_mul_length_le {elements : List (UInt8 × Bytes)}
    (h : Elements bytes elements) : 2 * elements.length ≤ bytes.length := by
  induction h with
  | nil => exact Nat.le_refl 0
  | @cons bytes content rest tag elements hread hrest ih =>
    cases bytes with
    | nil => cases hread
    | cons t bytes =>
      obtain ⟨-, hlength⟩ := exists_of_read hread
      obtain ⟨b, octets, -, rfl⟩ := Der.exists_isLength hlength
      simp only [List.length_cons, List.length_append]
      omega

theorem Elements.exists_of_cons {elements : List (UInt8 × Bytes)}
    (h : Elements bytes ((tag, content) :: elements)) :
    ∃ rest, read bytes = some (tag, content, rest) ∧ Elements rest elements := by
  cases h with
  | cons hread hrest => exact ⟨_, hread, hrest⟩

theorem Elements.eq_nil (h : Elements bytes []) : bytes = [] := by
  cases h
  rfl

end Lopata.Der

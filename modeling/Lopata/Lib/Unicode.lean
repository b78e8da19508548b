import Mathlib.Data.Char
import Mathlib.Data.List.Lex
import Mathlib.Order.Lattice
import Lopata.Lib.Text

/-!
# The Encodings of Strings

A string is a list of UTF-16 code units, a text a list of characters: how texts are compared, and
which strings are written of characters.

## Main results

* `prefix_iff_of_succ`: the texts that start with a text are those up to the next one.
* `encodeUtf16_decodeUtf16_iff`: the strings that are written of characters are the well formed
  ones.
-/

namespace Lopata

/-! ### Orders -/

section Order

variable {α : Type} [LinearOrder α]

theorem append_lt_append_iff {s a b : List α} : s ++ a < s ++ b ↔ a < b := by
  induction s with
  | nil => exact Iff.rfl
  | cons x s ih => simp [ih]

theorem append_le_append_iff {s a b : List α} : s ++ a ≤ s ++ b ↔ a ≤ b := by
  rw [← not_lt, ← not_lt, append_lt_append_iff]

/-- The lists that start with a list are those up to the next one of its length. -/
theorem prefix_iff_of_succ {s key : List α} {c c' : α} (hsucc : ∀ d, d < c' ↔ d ≤ c) :
    s ++ [c] <+: key ↔ s ++ [c] ≤ key ∧ key < s ++ [c'] := by
  induction s generalizing key with
  | nil =>
    cases key with
    | nil => simp
    | cons d key =>
      have hnil : ¬ key < [] := List.not_lt_nil key
      rw [List.nil_append, List.nil_append, List.cons_prefix_cons, ← not_lt,
        List.cons_lt_cons_iff, List.cons_lt_cons_iff]
      simp only [hnil, and_false, or_false, hsucc, List.nil_prefix, and_true, not_lt]
      exact le_antisymm_iff
  | cons x s ih =>
    cases key with
    | nil => simp
    | cons d key =>
      rw [List.cons_append, List.cons_append, List.cons_prefix_cons, ← not_lt,
        List.cons_lt_cons_iff, List.cons_lt_cons_iff, ih]
      rcases lt_trichotomy x d with hlt | rfl | hgt
      · simp [hlt.ne, hlt.ne', hlt.not_gt]
      · simp
      · simp [hgt.ne, hgt.ne', hgt]

end Order

theorem char_lt_iff {c d : Char} : c < d ↔ c.toNat < d.toNat := Iff.rfl

/-! ### UTF-16 -/

theorem toNat_charOfNat {n : ℕ} (h : n.isValidChar) : (Char.ofNat n).toNat = n := by
  rw [Char.ofNat, dif_pos h]
  exact UInt32.toNat_ofNatLT ..

/-- `isWellFormed()`: no surrogate is without its other half. -/
def isWellFormed : List UInt16 → Bool
  | [] => true
  | [u] => !isHighSurrogate u && !isLowSurrogate u
  | u :: v :: rest =>
      if isHighSurrogate u && isLowSurrogate v then isWellFormed rest
      else !isHighSurrogate u && !isLowSurrogate u && isWellFormed (v :: rest)

theorem isHighSurrogate_iff {u : UInt16} :
    isHighSurrogate u = true ↔ 0xD800 ≤ u.toNat ∧ u.toNat < 0xDC00 := by
  simp [isHighSurrogate]

theorem isLowSurrogate_iff {u : UInt16} :
    isLowSurrogate u = true ↔ 0xDC00 ≤ u.toNat ∧ u.toNat < 0xE000 := by
  simp [isLowSurrogate]

theorem toNat_singleUnit {u : UInt16} (h : u.toNat < 0xD800 ∨ 0xE000 ≤ u.toNat) :
    (singleUnit u).toNat = u.toNat := by
  have hu := u.toNat_lt
  have hsurrogate : ¬ (isHighSurrogate u || isLowSurrogate u) = true := by
    rw [Bool.or_eq_true, isHighSurrogate_iff, isLowSurrogate_iff]
    omega
  have hvalid : u.toNat.isValidChar := by
    unfold Nat.isValidChar
    omega
  rw [singleUnit, if_neg hsurrogate, toNat_charOfNat hvalid]

theorem singleUnit_of_surrogate {u : UInt16} (h : 0xD800 ≤ u.toNat) (h' : u.toNat < 0xE000) :
    singleUnit u = replacement := by
  rw [singleUnit, if_pos]
  rw [Bool.or_eq_true, isHighSurrogate_iff, isLowSurrogate_iff]
  omega

/-- A code unit in no pair is a character of one code unit, itself unless it is a surrogate. -/
theorem charUnits_singleUnit (u : UInt16) : ∃ v, charUnits (singleUnit u) = [v] ∧
    (v = u ↔ (!isHighSurrogate u && !isLowSurrogate u) = true) := by
  have hu := u.toNat_lt
  rw [singleUnit]
  split
  · next h =>
      refine ⟨0xFFFD, rfl, iff_of_false ?_ ?_⟩
      · rintro rfl
        cases h
      · rw [← Bool.not_or, h]
        exact Bool.false_ne_true
  · next h =>
      have hvalid : u.toNat.isValidChar := by
        rw [Bool.or_eq_true, isHighSurrogate_iff, isLowSurrogate_iff] at h
        unfold Nat.isValidChar
        omega
      refine ⟨u, ?_, iff_of_true rfl ?_⟩
      · rw [charUnits, toNat_charOfNat hvalid, if_pos hu, UInt16.ofNat_toNat]
      · rw [← Bool.not_or, Bool.not_eq_true', ← Bool.not_eq_true]
        exact h

/-- The two halves of a pair are the code units of their character. -/
theorem charUnits_pair {u v : UInt16} (hu : isHighSurrogate u = true)
    (hv : isLowSurrogate v = true) :
    charUnits (Char.ofNat (0x10000 + (u.toNat - 0xD800) * 0x400 + (v.toNat - 0xDC00))) =
      [u, v] := by
  rw [isHighSurrogate_iff] at hu
  rw [isLowSurrogate_iff] at hv
  have hvalid : (0x10000 + (u.toNat - 0xD800) * 0x400 + (v.toNat - 0xDC00)).isValidChar := by
    unfold Nat.isValidChar
    omega
  have hfirst : 0xD800 + (0x10000 + (u.toNat - 0xD800) * 0x400 + (v.toNat - 0xDC00) - 0x10000) /
      0x400 = u.toNat := by omega
  have hsecond : 0xDC00 + (0x10000 + (u.toNat - 0xD800) * 0x400 + (v.toNat - 0xDC00) - 0x10000) %
      0x400 = v.toNat := by omega
  rw [charUnits, toNat_charOfNat hvalid, if_neg (by omega), hfirst, hsecond, UInt16.ofNat_toNat,
    UInt16.ofNat_toNat]

theorem encodeUtf16_cons (c : Char) (text : List Char) :
    encodeUtf16 (c :: text) = charUnits c ++ encodeUtf16 text := List.flatMap_cons

/-- **Strings and characters.** A string is what is written of its characters exactly if it is well
formed. -/
theorem encodeUtf16_decodeUtf16_iff {s : List UInt16} :
    encodeUtf16 (decodeUtf16 s) = s ↔ isWellFormed s = true := by
  fun_induction isWellFormed s with
  | case1 => exact iff_of_true rfl rfl
  | case2 u =>
    obtain ⟨v, hunits, hv⟩ := charUnits_singleUnit u
    rw [decodeUtf16, encodeUtf16_cons, hunits, ← hv]
    exact List.singleton_inj
  | case3 u v rest h ih =>
    rw [decodeUtf16, if_pos h, encodeUtf16_cons]
    rw [Bool.and_eq_true] at h
    rw [charUnits_pair h.1 h.2]
    exact (List.append_right_inj [u, v]).trans ih
  | case4 u v rest h ih =>
    obtain ⟨v', hunits, hv'⟩ := charUnits_singleUnit u
    rw [decodeUtf16, if_neg h, encodeUtf16_cons, hunits, Bool.and_eq_true]
    exact List.cons_eq_cons.trans (and_congr hv' ih)

theorem decodeUtf16_encodeUtf16_append (text : List Char) (s : List UInt16) :
    decodeUtf16 (encodeUtf16 text ++ s) = text ++ decodeUtf16 s := by
  induction text with
  | nil => rfl
  | cons c text ih =>
    rw [encodeUtf16_cons, List.append_assoc, decodeUtf16_charUnits, ih, List.cons_append]

theorem encodeUtf16_append (a b : List Char) :
    encodeUtf16 (a ++ b) = encodeUtf16 a ++ encodeUtf16 b := List.flatMap_append

/-- The units of a character: one that is no surrogate, or a pair. -/
theorem charUnits_cases (c : Char) :
    (∃ u, charUnits c = [u] ∧ u.toNat = c.toNat ∧ isHighSurrogate u = false ∧
        isLowSurrogate u = false) ∨
      ∃ u v, charUnits c = [u, v] ∧ isHighSurrogate u = true ∧ isLowSurrogate v = true ∧
        c.toNat = 0x10000 + (u.toNat - 0xD800) * 0x400 + (v.toNat - 0xDC00) := by
  have hvalid : c.toNat < 0xD800 ∨ 0xDFFF < c.toNat ∧ c.toNat < 0x110000 := c.valid
  rw [charUnits]
  split
  · next h =>
      have hunit : (UInt16.ofNat c.toNat).toNat = c.toNat := by
        rw [UInt16.toNat_ofNat']
        exact Nat.mod_eq_of_lt h
      refine .inl ⟨_, rfl, hunit, ?_, ?_⟩
      · rw [← Bool.not_eq_true, isHighSurrogate_iff, hunit]
        omega
      · rw [← Bool.not_eq_true, isLowSurrogate_iff, hunit]
        omega
  · next h =>
      have hfirst : (UInt16.ofNat (0xD800 + (c.toNat - 0x10000) / 0x400)).toNat =
          0xD800 + (c.toNat - 0x10000) / 0x400 := by
        rw [UInt16.toNat_ofNat']
        exact Nat.mod_eq_of_lt (by omega)
      have hsecond : (UInt16.ofNat (0xDC00 + (c.toNat - 0x10000) % 0x400)).toNat =
          0xDC00 + (c.toNat - 0x10000) % 0x400 := by
        rw [UInt16.toNat_ofNat']
        exact Nat.mod_eq_of_lt (by omega)
      refine .inr ⟨_, _, rfl, ?_, ?_, ?_⟩
      · rw [isHighSurrogate_iff, hfirst]
        omega
      · rw [isLowSurrogate_iff, hsecond]
        omega
      · rw [hfirst, hsecond]
        omega

/-- The start of the string of a text is a text, if it does not end within a pair. -/
theorem exists_of_append_eq_encodeUtf16 {s t : List UInt16} {text : List Char}
    (h : s ++ t = encodeUtf16 text) (hend : ∀ u ∈ s.getLast?, isHighSurrogate u = false) :
    ∃ a b, text = a ++ b ∧ s = encodeUtf16 a ∧ t = encodeUtf16 b := by
  induction text generalizing s with
  | nil =>
    obtain ⟨rfl, rfl⟩ := List.append_eq_nil_iff.mp h
    exact ⟨[], [], rfl, rfl, rfl⟩
  | cons c text ih =>
    by_cases hnil : s = []
    · subst hnil
      exact ⟨[], c :: text, rfl, rfl, h⟩
    rw [encodeUtf16_cons] at h
    have hsplit : ∀ s', s = charUnits c ++ s' →
        ∃ a b, c :: text = a ++ b ∧ s = encodeUtf16 a ∧ t = encodeUtf16 b := by
      rintro s' rfl
      rw [List.append_assoc, List.append_right_inj] at h
      obtain ⟨a, b, rfl, rfl, rfl⟩ := ih h fun u hu => hend u (by
        rw [List.getLast?_append, Option.mem_def.mp hu]
        rfl)
      exact ⟨c :: a, b, rfl, (encodeUtf16_cons c a).symm, rfl⟩
    obtain ⟨x, s, rfl⟩ := List.exists_cons_of_ne_nil hnil
    rcases charUnits_cases c with ⟨u, hunits, -⟩ | ⟨u, v, hunits, hu, -⟩
    · rw [hunits, List.cons_append, List.singleton_append, List.cons.injEq] at h
      exact hsplit s (by rw [hunits, h.1]; rfl)
    · rw [hunits, List.cons_append, List.cons_append, List.cons.injEq] at h
      cases s with
      | nil => exact absurd hu (h.1 ▸ (Bool.not_eq_true _).mpr (hend x rfl))
      | cons y s =>
        have hy := (List.cons.inj h.2).1
        exact hsplit s (by rw [hunits, h.1, hy]; rfl)

/-- In the string of a text, the second half of a pair is behind the first. -/
theorem isLowSurrogate_of_append {s t : List UInt16} {u v : UInt16} {text : List Char}
    (h : s ++ u :: v :: t = encodeUtf16 text) (hu : isHighSurrogate u = true) :
    isLowSurrogate v = true := by
  induction text generalizing s with
  | nil => exact absurd h (List.append_ne_nil_of_right_ne_nil s (List.cons_ne_nil _ _))
  | cons c text ih =>
    rw [encodeUtf16_cons] at h
    rcases charUnits_cases c with ⟨a, hunits, -, ha, -⟩ | ⟨a, b, hunits, ha, hb, -⟩
    · rw [hunits, List.singleton_append] at h
      cases s with
      | nil =>
        rw [(List.cons.inj h).1, ha] at hu
        cases hu
      | cons x s => exact ih (List.cons.inj h).2
    · rw [hunits, List.cons_append, List.singleton_append] at h
      cases s with
      | nil => exact (List.cons.inj (List.cons.inj h).2).1 ▸ hb
      | cons x s =>
        cases s with
        | nil =>
          rw [isHighSurrogate_iff, (List.cons.inj (List.cons.inj h).2).1] at hu
          rw [isLowSurrogate_iff] at hb
          omega
        | cons y s => exact ih (List.cons.inj (List.cons.inj h).2).2

end Lopata

import Mathlib.Tactic.FinCases
import Mathlib.Tactic.IntervalCases
import Lopata.Analytics.Printing

/-!
# How an Emitted Expression Is Read

What stands behind a part of an emitted text is a space, a comma or a closing parenthesis, and each
of them ends a number, a word and a text in quotes. So the parts are read one by one, and the whole
is read as it is meant, unless a number is infinite, a text has a character 0, a name has a quote,
or a minus sign stands in front of another one.

## Main results

* `Emitted`: the expressions that `emit` puts together.
* `readsIff_emitted`: when such an expression is read as it is meant.
-/

namespace Lopata.Analytics

/-! ### Edges -/

/-- What ends each lexeme. -/
def IsEdge (c : Char) : Prop := c = ' ' ∨ c = ')' ∨ c = ','

/-- A text is read as some lexemes, whatever stands behind it, exactly if a condition holds. -/
abbrev ReadsIff (text : List Char) (ts : List Lexeme) (ok : Prop) : Prop :=
  sqliteLexer.ReadsIff IsEdge text ts ok

theorem lex_nil : sqliteLexer.lex [] = some [] := rfl

theorem closes_word (read : List Char) :
    sqliteLexer.Closes IsEdge (.word read) (.word read) :=
  ⟨rfl, by rintro c (rfl | rfl | rfl) <;> rfl⟩

theorem closes_numeral {part : NumeralPart} (read : List Char)
    (hpart : part = .whole ∨ part = .fraction ∨ part = .power) :
    sqliteLexer.Closes IsEdge (.numeral part read) (.numeral read) := by
  rcases hpart with rfl | rfl | rfl <;> exact ⟨rfl, by rintro c (rfl | rfl | rfl) <;> rfl⟩

theorem closes_stringEnd (read : List Char) :
    sqliteLexer.Closes IsEdge (.stringEnd read) (.string read) :=
  ⟨rfl, by rintro c (rfl | rfl | rfl) <;> rfl⟩

theorem closes_quotedEnd (read : List Char) :
    sqliteLexer.Closes IsEdge (.quotedEnd read) (.quoted read) :=
  ⟨rfl, by rintro c (rfl | rfl | rfl) <;> rfl⟩

/-! ### Words -/

theorem walk_column : ∀ name ∈ tableColumns,
    sqliteLexer.walk .start name.toList = some ([], .word name.toList) := by
  decide

theorem readsIff_column {name : String} (h : name ∈ tableColumns) :
    ReadsIff name.toList [word name] True :=
  (Lexer.reads_of_closes lex_nil (walk_column name h) (closes_word _)).iff

/-! ### Numbers -/

theorem mem_digits {c : Char} (h : c.isDigit = true) : c ∈ "0123456789".toList := by
  have hn : 48 ≤ c.toNat ∧ c.toNat ≤ 57 := by
    simpa [Char.isDigit, UInt32.le_iff_toNat_le] using h
  obtain ⟨n, hc⟩ : ∃ n, n = c.toNat := ⟨_, rfl⟩
  rw [← Char.ofNat_toNat c, ← hc]
  rw [← hc] at hn
  obtain ⟨hlow, hhigh⟩ := hn
  interval_cases n <;> decide

/-- A digit begins a number and goes on with one. -/
theorem step_digit {c : Char} (h : c.isDigit = true) (read : List Char) :
    lexStep .start c = some ([], .numeral .whole [c]) ∧
      lexStep (.numeral .whole read) c = some ([], .numeral .whole (read ++ [c])) ∧
      lexStep (.numeral .fraction read) c = some ([], .numeral .fraction (read ++ [c])) ∧
      lexStep (.numeral .sign read) c = some ([], .numeral .power (read ++ [c])) ∧
      lexStep (.numeral .power read) c = some ([], .numeral .power (read ++ [c])) := by
  have hc := mem_digits h
  fin_cases hc <;> exact ⟨rfl, rfl, rfl, rfl, rfl⟩

theorem walk_digits {digits : List Char} (hne : digits ≠ [])
    (h : ∀ c ∈ digits, c.isDigit = true) :
    sqliteLexer.walk .start digits = some ([], .numeral .whole digits) := by
  obtain ⟨d, ds, rfl⟩ := List.exists_cons_of_ne_nil hne
  obtain ⟨hd, hds⟩ := List.forall_mem_cons.mp h
  have hfirst : sqliteLexer.walk .start [d] = some ([], .numeral .whole [d]) := by
    rw [Lexer.walk, show sqliteLexer.step .start d = _ from (step_digit hd []).1]
    rfl
  exact Lexer.walk_append_of_silent (a := [d]) hfirst
    (Lexer.walk_collect (LexState.numeral .whole) [d] fun read c hc =>
      (step_digit (hds c hc) read).2.1)

theorem walk_fraction {digits : List Char} (read : List Char)
    (h : ∀ c ∈ digits, c.isDigit = true) :
    sqliteLexer.walk (.numeral .whole read) ('.' :: digits) =
      some ([], .numeral .fraction (read ++ '.' :: digits)) := by
  have hrest := Lexer.walk_collect (L := sqliteLexer) (.numeral .fraction) (read ++ ['.'])
    fun read c hc => (step_digit (h c hc) read).2.2.1
  have hpoint : sqliteLexer.walk (.numeral .whole read) ['.'] =
      some ([], .numeral .fraction (read ++ ['.'])) := rfl
  rw [← List.singleton_append, Lexer.walk_append_of_silent hpoint hrest, List.append_assoc]

theorem walk_exponent {part : NumeralPart} (hpart : part = .whole ∨ part = .fraction)
    (read : List Char) (e : ℤ) :
    sqliteLexer.walk (.numeral part read) (Double.exponentText e) =
      some ([], .numeral .power (read ++ Double.exponentText e)) := by
  obtain ⟨d, ds, hdigits⟩ :=
    List.exists_cons_of_ne_nil (Nat.toDigits_ne_nil (b := 10) (n := e.natAbs))
  obtain ⟨hd, hds⟩ := List.forall_mem_cons.mp (hdigits ▸ (toDigits_spec e.natAbs).1)
  obtain ⟨sign, hsign, hexp⟩ : ∃ sign, (sign = '-' ∨ sign = '+') ∧
      Double.exponentText e = ['e', sign, d] ++ ds := by
    refine ⟨if e < 0 then '-' else '+', ?_, by rw [Double.exponentText, hdigits]; rfl⟩
    split_ifs
    · exact .inl rfl
    · exact .inr rfl
  have hopen : sqliteLexer.walk (.numeral part read) ['e', sign] =
      some ([], .numeral .sign (read ++ ['e', sign])) := by
    rcases hpart with rfl | rfl <;> rcases hsign with rfl | rfl <;>
      simp [Lexer.walk, sqliteLexer, lexStep, numeralStep, Char.isDigit]
  have hfirst : sqliteLexer.walk (.numeral .sign (read ++ ['e', sign])) [d] =
      some ([], .numeral .power (read ++ ['e', sign] ++ [d])) := by
    rw [Lexer.walk, show sqliteLexer.step (.numeral .sign (read ++ ['e', sign])) d = _ from
      (step_digit hd _).2.2.2.1]
    rfl
  have hrest := Lexer.walk_collect (L := sqliteLexer) (.numeral .power)
    (read ++ ['e', sign] ++ [d]) fun read c hc => (step_digit (hds c hc) read).2.2.2.2
  have hall := Lexer.walk_append_of_silent (Lexer.walk_append_of_silent hopen hfirst) hrest
  rw [hexp]
  simpa using hall

/-- The parts that a number can end with. -/
def NumeralPart.IsEnd (part : NumeralPart) : Prop :=
  part = .whole ∨ part = .fraction ∨ part = .power

theorem walk_layout {digits : List Char} (n : ℤ) (hne : digits ≠ [])
    (h : ∀ c ∈ digits, c.isDigit = true) : ∃ part : NumeralPart, part.IsEnd ∧
      sqliteLexer.walk .start (Double.layout digits n) =
        some ([], .numeral part (Double.layout digits n)) := by
  have hzeros (k : ℕ) : ∀ c ∈ List.replicate k '0', c.isDigit = true := fun c hc =>
    List.eq_of_mem_replicate hc ▸ rfl
  have htake (k : ℕ) : ∀ c ∈ digits.take k, c.isDigit = true := fun c hc =>
    h c (List.mem_of_mem_take hc)
  have hdrop (k : ℕ) : ∀ c ∈ digits.drop k, c.isDigit = true := fun c hc =>
    h c (List.mem_of_mem_drop hc)
  have htakeNe {k : ℕ} (hk : 0 < k) : digits.take k ≠ [] := by
    rw [Ne, List.take_eq_nil_iff]
    exact fun hor => hor.elim (fun hzero => absurd hzero hk.ne') hne
  rw [Double.layout]
  split_ifs with hwhole hpoint hsmall hone
  · exact ⟨.whole, .inl rfl, walk_digits (by simp [hne])
      (List.forall_mem_append.mpr ⟨h, hzeros _⟩)⟩
  · exact ⟨.fraction, .inr (.inl rfl), Lexer.walk_append_of_silent
      (walk_digits (htakeNe (by omega)) (htake _)) (walk_fraction _ (hdrop _))⟩
  · exact ⟨.fraction, .inr (.inl rfl), Lexer.walk_append_of_silent (a := ['0']) rfl
      (walk_fraction ['0'] (List.forall_mem_append.mpr ⟨hzeros _, h⟩))⟩
  · exact ⟨.power, .inr (.inr rfl), Lexer.walk_append_of_silent (walk_digits hne h)
      (walk_exponent (.inl rfl) digits _)⟩
  · have hfraction := Lexer.walk_append_of_silent (walk_digits (htakeNe one_pos) (htake 1))
      (walk_fraction _ (hdrop 1))
    exact ⟨.power, .inr (.inr rfl), Lexer.walk_append_of_silent hfraction
      (walk_exponent (.inr rfl) _ _)⟩

/-- A number that is not negative begins with a digit. -/
theorem walk_textNonneg {q : ℚ} (hq : 0 ≤ q) : ∃ part : NumeralPart, part.IsEnd ∧
    sqliteLexer.walk .start (Double.textNonneg q) =
      some ([], .numeral part (Double.textNonneg q)) := by
  rw [Double.textNonneg]
  split_ifs with hzero
  · exact ⟨.whole, .inl rfl, rfl⟩
  · obtain ⟨s, k, hdigits, -⟩ := Double.shortest_spec (lt_of_le_of_ne hq (Ne.symm hzero))
    rw [hdigits]
    exact walk_layout _ Nat.toDigits_ne_nil (toDigits_spec s).1

/-- A minus sign is a lexeme of its own. -/
theorem ne_nil_of_minus {c : Char} {out : List Lexeme × LexState}
    (h : lexStep (.operator '-') c = some out) : out.1 ≠ [] := by
  simp only [lexStep] at h
  split_ifs at h
  · exact Option.some.inj h ▸ (List.cons_ne_nil _ _)
  · obtain ⟨begun, -, rfl⟩ := Option.map_eq_some_iff.mp h
    exact List.cons_ne_nil _ _

/-- What a text begins with that is read as one number. -/
theorem head_of_walk {text : List Char} {part : NumeralPart}
    (hwalk : sqliteLexer.walk .start text = some ([], .numeral part text)) :
    ∃ c cs, text = c :: cs ∧ c ≠ '-' := by
  cases text with
  | nil => cases hwalk
  | cons c cs =>
    refine ⟨c, cs, rfl, ?_⟩
    rintro rfl
    cases cs with
    | nil => cases hwalk
    | cons d ds =>
      obtain ⟨out, hout, hwalk⟩ := Option.bind_eq_some_iff.mp hwalk
      obtain rfl := Option.some.inj hout
      obtain ⟨next, hnext, hwalk⟩ := Option.map_eq_some_iff.mp hwalk
      obtain ⟨out, hout, hnext⟩ := Option.bind_eq_some_iff.mp hnext
      obtain ⟨last, -, rfl⟩ := Option.map_eq_some_iff.mp hnext
      have hnil := (Prod.ext_iff.mp hwalk).1
      simp only [List.nil_append, List.append_eq_nil_iff] at hnil
      exact ne_nil_of_minus hout hnil.1

/-! ### The minus sign -/

/-- A minus sign in front of another character is a lexeme of its own. -/
theorem lex_minus {c : Char} {cs : List Char} (hc : c ≠ '-') :
    sqliteLexer.lex ('-' :: c :: cs) = (sqliteLexer.lex (c :: cs)).map ([symbol "-"] ++ ·) := by
  have hstep : lexStep (.operator '-') c =
      (lexStep .start c).map fun out => (symbol "-" :: out.1, out.2) := by
    simp only [lexStep]
    by_cases hnul : c.toNat = 0
    · rw [if_pos hnul, if_pos hnul]
      rfl
    · have hdouble : ¬ doubleOperators.contains ['-', c] = true := by simp [doubleOperators]
      rw [if_neg hnul, if_neg hnul, if_neg hdouble, if_neg (by simp [hc]), if_neg (by decide)]
      rfl
  have hfirst : sqliteLexer.walk .start ['-'] = some ([], .operator '-') := rfl
  rw [← List.singleton_append, Lexer.lex, Lexer.lexFrom_append,
    show sqliteLexer.walk sqliteLexer.start ['-'] = _ from hfirst, Option.bind_some,
    Lexer.lexFrom_of_ends hstep, Option.map_map]
  congr 1

/-- An opener of a comment is not read. -/
theorem misreads_minus {a : List Char} {ts : List Lexeme} :
    sqliteLexer.Misreads IsEdge ('-' :: '-' :: a) ts :=
  Lexer.misreads_of_walk rfl

/-- A minus sign in front of what does not begin with one. -/
theorem readsIff_minus {a : List Char} {ts : List Lexeme} {ok : Prop}
    (ha : ∃ c cs, a = c :: cs ∧ c ≠ '-') (h : ReadsIff a ts ok) :
    ReadsIff ('-' :: a) ([symbol "-"] ++ ts) ok := by
  obtain ⟨c, cs, rfl, hc⟩ := ha
  exact h.behind (a := ['-']) fun rest => lex_minus hc

theorem readsIff_textNonneg {q : ℚ} (hq : 0 ≤ q) :
    ReadsIff (Double.textNonneg q) [.numeral (Double.textNonneg q)] True := by
  obtain ⟨part, hpart, hwalk⟩ := walk_textNonneg hq
  exact (Lexer.reads_of_closes lex_nil hwalk (closes_numeral _ hpart)).iff

theorem head_textNonneg {q : ℚ} (hq : 0 ≤ q) :
    ∃ c cs, Double.textNonneg q = c :: cs ∧ c ≠ '-' := by
  obtain ⟨part, -, hwalk⟩ := walk_textNonneg hq
  exact head_of_walk hwalk

/-- A number is not read as one if it is infinite. -/
theorem readsIff_number (x : Double) :
    ReadsIff x.text (numberLexemes x) (∃ q h, x = .finite q h) := by
  cases x with
  | finite q h =>
    refine Lexer.ReadsIff.congr ?_ (A := True) ⟨fun _ => ⟨q, h, rfl⟩, fun _ => trivial⟩
    by_cases hneg : q < 0
    · have hnonneg : 0 ≤ -q := by linarith
      have htext : (Double.finite q h).text = '-' :: Double.textNonneg (-q) := by
        rw [Double.text, if_pos hneg]
      rw [numberLexemes, htext, List.head?_cons, if_pos rfl]
      exact readsIff_minus (head_textNonneg hnonneg) (readsIff_textNonneg hnonneg)
    · have hnonneg : 0 ≤ q := not_lt.mp hneg
      obtain ⟨c, cs, hhead, hc⟩ := head_textNonneg hnonneg
      have htext : (Double.finite q h).text = Double.textNonneg q := by
        rw [Double.text, if_neg hneg]
      rw [numberLexemes, htext, if_neg (by rw [hhead]; simpa using hc)]
      exact readsIff_textNonneg hnonneg
  | infinite negative =>
    have hwalk : sqliteLexer.walk .start "Infinity".toList =
        some ([], .word "Infinity".toList) := rfl
    have hword : ReadsIff "Infinity".toList [word "Infinity"] True :=
      (Lexer.reads_of_closes lex_nil hwalk (closes_word _)).iff
    refine Lexer.ReadsIff.congr (Lexer.Misreads.iff ?_) (by simp)
    cases negative with
    | false => exact (hword.reads trivial).misreads rfl (by decide)
    | true =>
      have hminus := readsIff_minus ⟨'I', _, rfl, by decide⟩ hword
      exact (hminus.reads trivial).misreads rfl (by decide)

/-! ### Texts in quotes -/

/-- No character of a text is 0. -/
def Nulless (text : List Char) : Prop := ∀ c ∈ text, c.toNat ≠ 0

theorem walk_doubleQuotes {text : List Char} (h : Nulless text) (read : List Char) :
    sqliteLexer.walk (.string read) (doubleQuotes text) = some ([], .string (read ++ text)) := by
  induction text generalizing read with
  | nil => rw [List.append_nil]; rfl
  | cons c cs ih =>
    obtain ⟨hc, hcs⟩ := List.forall_mem_cons.mp h
    have hfirst : sqliteLexer.walk (.string read)
        (if c = '\'' then ['\'', '\''] else [c]) = some ([], .string (read ++ [c])) := by
      split_ifs with hquote
      · rw [hquote]
        rfl
      · simp [Lexer.walk, sqliteLexer, lexStep, hc, hquote]
    have hall := Lexer.walk_append_of_silent hfirst (ih hcs _)
    rw [doubleQuotes, List.flatMap_cons]
    rw [List.append_assoc] at hall
    exact hall

/-- A character 0 is not read. -/
theorem walk_of_null {text : List Char} (h : ∃ c ∈ text, c.toNat = 0) (s : LexState) :
    sqliteLexer.walk s text = none := by
  induction text generalizing s with
  | nil => simp at h
  | cons c cs ih =>
    rw [Lexer.walk]
    by_cases hc : c.toNat = 0
    · rw [show sqliteLexer.step s c = none from if_pos hc]
      rfl
    · have hcs : ∃ c ∈ cs, c.toNat = 0 := by
        obtain ⟨d, hd, hnul⟩ := h
        rcases List.mem_cons.mp hd with rfl | hd
        · exact absurd hnul hc
        · exact ⟨d, hd, hnul⟩
      cases sqliteLexer.step s c with
      | none => rfl
      | some out => rw [Option.bind_some, ih hcs]; rfl

theorem mem_doubleQuotes {text : List Char} {c : Char} (h : c ∈ text) : c ∈ doubleQuotes text := by
  refine List.mem_flatMap.mpr ⟨c, h, ?_⟩
  split_ifs <;> simp [*]

theorem readsIff_quoteStr (s : String) :
    ReadsIff (quoteStr s) [.string s.toList] (Nulless s.toList) := by
  constructor
  · intro h
    have hinner : sqliteLexer.walk .start ('\'' :: doubleQuotes s.toList) =
        some ([], .string s.toList) :=
      Lexer.walk_append_of_silent (a := ['\'']) rfl (walk_doubleQuotes h [])
    have hclose : sqliteLexer.walk (.string s.toList) ['\''] = some ([], .stringEnd s.toList) := rfl
    exact Lexer.reads_of_closes lex_nil (Lexer.walk_append_of_silent hinner hclose)
      (closes_stringEnd _)
  · intro h
    simp only [Nulless, not_forall, not_not] at h
    obtain ⟨c, hc, hnul⟩ := h
    refine Lexer.misreads_of_walk (walk_of_null ⟨c, ?_, hnul⟩ _)
    exact List.mem_cons_of_mem _ (List.mem_append_left _ (mem_doubleQuotes hc))

/-! ### Names in quotes -/

theorem digitChar_ne {n : ℕ} (h : n < 16) :
    (Nat.digitChar n).toNat ≠ 0 ∧ Nat.digitChar n ≠ '"' := by
  interval_cases n <;> decide

/-- Only a quote is written with one. -/
theorem of_mem_escapeChar {c d : Char} (hc : c ≠ '"') (hd : d ∈ escapeChar c) :
    d.toNat ≠ 0 ∧ d ≠ '"' := by
  simp only [escapeChar, if_neg hc] at hd
  split_ifs at hd with h₁ h₂ h₃ h₄ h₅ h₆ h₇
  case pos | pos | pos | pos | pos | pos =>
    simp only [List.mem_cons, List.not_mem_nil, or_false] at hd
    rcases hd with rfl | rfl <;> decide
  · simp only [List.mem_cons, List.not_mem_nil, or_false] at hd
    rcases hd with rfl | rfl | rfl | rfl | rfl | rfl
    · decide
    · decide
    · decide
    · decide
    · exact digitChar_ne (by omega)
    · exact digitChar_ne (by omega)
  · rw [List.mem_singleton.mp hd]
    exact ⟨by omega, hc⟩

theorem walk_escape {name : List Char} (h : '"' ∉ name) (read : List Char) :
    sqliteLexer.walk (.quoted read) (name.flatMap escapeChar) =
      some ([], .quoted (read ++ name.flatMap escapeChar)) := by
  refine Lexer.walk_collect LexState.quoted read fun read d hd => ?_
  obtain ⟨c, hc, hd⟩ := List.mem_flatMap.mp hd
  obtain ⟨hnul, hquote⟩ := of_mem_escapeChar (fun heq => h (heq ▸ hc)) hd
  simp [sqliteLexer, lexStep, hnul, hquote]

/-- A name that is being read stays at the beginning of what it is read as. -/
theorem first_of_quoted {cs : List Char} {s : LexState} {read : List Char} {t : Lexeme}
    {ts : List Lexeme} (hs : s = .quoted read ∨ s = .quotedEnd read)
    (h : sqliteLexer.lexFrom s cs = some (t :: ts)) : ∃ more, t = .quoted (read ++ more) := by
  induction cs generalizing s read with
  | nil =>
    rcases hs with rfl | rfl
    · cases h
    · refine ⟨[], ?_⟩
      rw [List.append_nil]
      exact (List.cons.inj (Option.some.inj h)).1.symm
  | cons c cs ih =>
    obtain ⟨out, hout, h⟩ := Option.bind_eq_some_iff.mp h
    obtain ⟨us, hus, h⟩ := Option.map_eq_some_iff.mp h
    have hstep : lexStep s c = some out := hout
    rcases hs with rfl | rfl
    · simp only [lexStep] at hstep
      split_ifs at hstep
      · obtain rfl := Option.some.inj hstep
        exact ih (.inr rfl) (hus.trans (congrArg some h))
      · obtain rfl := Option.some.inj hstep
        obtain ⟨more, rfl⟩ := ih (.inl rfl) (hus.trans (congrArg some h))
        exact ⟨c :: more, by rw [List.append_assoc]; rfl⟩
    · simp only [lexStep] at hstep
      split_ifs at hstep
      · obtain rfl := Option.some.inj hstep
        obtain ⟨more, rfl⟩ := ih (.inl rfl) (hus.trans (congrArg some h))
        exact ⟨c :: more, by rw [List.append_assoc]; rfl⟩
      · obtain ⟨begun, -, rfl⟩ := Option.map_eq_some_iff.mp hstep
        refine ⟨[], ?_⟩
        rw [List.append_nil]
        exact (List.cons.inj h).1.symm

theorem head_escapeChar (c : Char) : ∃ d ds, escapeChar c = d :: ds ∧ d ≠ '"' := by
  rw [escapeChar]
  split_ifs with hc
  case neg => exact ⟨c, [], rfl, hc⟩
  all_goals exact ⟨'\\', _, rfl, by decide⟩

/-- A quote in a name ends it, or it goes on behind its end. -/
theorem misreads_output {before after : List Char} (h : '"' ∉ before) :
    sqliteLexer.Misreads IsEdge
      ('"' :: ((before ++ '"' :: after).flatMap escapeChar ++ ['"']))
      [.quoted ((before ++ '"' :: after).flatMap escapeChar)] := by
  have hwalk : sqliteLexer.walk .start ('"' :: before.flatMap escapeChar ++ ['\\', '"']) =
      some ([], .quotedEnd (before.flatMap escapeChar ++ ['\\'])) :=
    Lexer.walk_append_of_silent (Lexer.walk_append_of_silent (a := ['"']) rfl (walk_escape h []))
      rfl
  intro rest us hrest heq
  have hsplit : (before ++ '"' :: after).flatMap escapeChar =
      before.flatMap escapeChar ++ ['\\', '"'] ++ after.flatMap escapeChar := by
    rw [List.flatMap_append, List.flatMap_cons, List.append_assoc]
    rfl
  have htext : '"' :: ((before ++ '"' :: after).flatMap escapeChar ++ ['"']) ++ rest =
      '"' :: before.flatMap escapeChar ++ ['\\', '"'] ++
        (after.flatMap escapeChar ++ '"' :: rest) := by
    rw [hsplit]
    simp
  rw [htext, Lexer.lex, Lexer.lexFrom_append,
    show sqliteLexer.walk sqliteLexer.start _ = _ from hwalk, Option.bind_some] at heq
  obtain ⟨ts, hts, heq⟩ := Option.map_eq_some_iff.mp heq
  obtain rfl : ts = _ := heq
  rw [hsplit] at hts
  cases after with
  | nil =>
    obtain ⟨out, hout, hts⟩ := Option.bind_eq_some_iff.mp hts
    obtain rfl := Option.some.inj hout
    obtain ⟨ts, hts, heq⟩ := Option.map_eq_some_iff.mp hts
    obtain rfl : ts = _ := heq
    cases rest with
    | nil => cases hts
    | cons c cs =>
      have hstep : lexStep (.quoted (before.flatMap escapeChar ++ ['\\'] ++ ['"'])) c =
          some ([], .quoted (before.flatMap escapeChar ++ ['\\'] ++ ['"'] ++ [c])) := by
        rcases hrest c rfl with rfl | rfl | rfl <;> rfl
      obtain ⟨out, hout, hts⟩ := Option.bind_eq_some_iff.mp hts
      obtain rfl := Option.some.inj (hstep.symm.trans hout)
      obtain ⟨ts, hts, heq⟩ := Option.map_eq_some_iff.mp hts
      obtain rfl : ts = _ := heq
      obtain ⟨more, hmore⟩ := first_of_quoted (.inl rfl) hts
      have hlen := congrArg List.length (Lexeme.quoted.inj hmore)
      simp at hlen
  | cons d ds =>
    obtain ⟨e, es, hescape, he⟩ := head_escapeChar d
    rw [List.flatMap_cons, hescape] at hts
    obtain ⟨out, hout, hts⟩ := Option.bind_eq_some_iff.mp hts
    obtain ⟨us, -, heq⟩ := Option.map_eq_some_iff.mp hts
    have hstep : lexStep (.quotedEnd (before.flatMap escapeChar ++ ['\\'])) e = some out := hout
    simp only [lexStep, if_neg he] at hstep
    split_ifs at hstep
    obtain ⟨begun, -, rfl⟩ := Option.map_eq_some_iff.mp hstep
    have hlen := congrArg List.length (Lexeme.quoted.inj (List.cons.inj heq).1)
    simp at hlen

/-- A name is not read as one if it has a quote. -/
theorem readsIff_output (name : String) :
    ReadsIff ('"' :: (escapeName name ++ ['"'])) [.quoted (escapeName name)]
      ('"' ∉ name.toList) := by
  constructor
  · intro h
    have hinner : sqliteLexer.walk .start ('"' :: escapeName name) =
        some ([], .quoted (escapeName name)) :=
      Lexer.walk_append_of_silent (a := ['"']) rfl (walk_escape h [])
    have hclose : sqliteLexer.walk (.quoted (escapeName name)) ['"'] =
        some ([], .quotedEnd (escapeName name)) := rfl
    exact Lexer.reads_of_closes lex_nil (Lexer.walk_append_of_silent hinner hclose)
      (closes_quotedEnd _)
  · intro h
    obtain ⟨before, after, hname, hbefore⟩ := List.eq_append_cons_of_mem (not_not.mp h)
    rw [escapeName, hname]
    exact misreads_output hbefore

/-! ### Emitted expressions -/

/-- The operators of SQLite that are put. -/
def sqliteOps : List String :=
  ["AND", "OR", "=", "!=", "<", "<=", ">", ">=", "+", "-", "*", "/", "%", "||"]

/-- The functions of SQLite that are called, other than `COUNT`. -/
def sqliteFns : List String :=
  ["COALESCE", "SUM", "AVG", "MIN", "MAX", "strftime", "ABS", "ROUND", "MIN2", "MAX2", "LENGTH",
    "LOWER", "UPPER"]

def sqliteTypes : List String := ["INTEGER", "REAL", "TEXT"]

/-- The expressions that `emit` puts together. -/
inductive Emitted : Sql → Prop
  | number (x : Double) : Emitted (.number x)
  | decimal (n : ℕ) : Emitted (.decimal n)
  | text (value : String) : Emitted (.text value)
  | star : Emitted .star
  | column {name : String} (hname : name ∈ tableColumns) : Emitted (.column name)
  | output (name : String) : Emitted (.output name)
  | paren {e : Sql} (he : Emitted e) : Emitted (.paren e)
  | unary (op : String) {e : Sql} (he : Emitted e) : Emitted (.unary op e)
  | binary {op : String} {l r : Sql} (hop : op ∈ sqliteOps) (hl : Emitted l) (hr : Emitted r) :
      Emitted (.binary op l r)
  | chain {op : String} {l r : Sql} (hop : op ∈ sqliteOps) (hl : Emitted l) (hr : Emitted r) :
      Emitted (.chain op l r)
  | isIn (negate : Bool) {e : Sql} {list : List Sql} (he : Emitted e)
      (hlist : ∀ item ∈ list, Emitted item) : Emitted (.isIn negate e list)
  | like (negate : Bool) {e pattern : Sql} (he : Emitted e) (hpattern : Emitted pattern) :
      Emitted (.like negate e pattern)
  | between (negate : Bool) {e low high : Sql} (he : Emitted e) (hlow : Emitted low)
      (hhigh : Emitted high) : Emitted (.between negate e low high)
  | isNull (negate : Bool) {e : Sql} (he : Emitted e) : Emitted (.isNull negate e)
  | countAll : Emitted (.call "COUNT" [.star])
  | call {name : String} {args : List Sql} (hname : name ∈ sqliteFns)
      (hargs : ∀ arg ∈ args, Emitted arg) : Emitted (.call name args)
  | countDistinct {e : Sql} (he : Emitted e) : Emitted (.countDistinct e)
  | cast {type : String} {e : Sql} (htype : type ∈ sqliteTypes) (he : Emitted e) :
      Emitted (.cast type e)
  | caseWhen {c a b : Sql} (hc : Emitted c) (ha : Emitted a) (hb : Emitted b) :
      Emitted (.caseWhen c a b)

def isFinite : Double → Bool
  | .finite .. => true
  | .infinite _ => false

def isNegative : Double → Bool
  | .finite q _ => q < 0
  | .infinite negative => negative

namespace Sql

/-- The text of an expression begins with a minus sign. -/
def beginsMinus : Sql → Bool
  | .number x => isNegative x
  | .chain _ l _ => beginsMinus l
  | _ => false

mutual

/-- An expression is read as the lexemes that are meant. -/
def lexical : Sql → Bool
  | .number x => isFinite x
  | .text value => value.toList.all (·.toNat ≠ 0)
  | .output name => !name.toList.contains '"'
  | .decimal _ | .star | .column _ => true
  | .paren e | .isNull _ e | .countDistinct e | .cast _ e => lexical e
  | .unary op e => lexical e && (op = "NOT" || !beginsMinus e)
  | .binary _ l r | .chain _ l r | .like _ l r => lexical l && lexical r
  | .isIn _ e list => lexical e && lexicalAll list
  | .between _ a b c | .caseWhen a b c => lexical a && (lexical b && lexical c)
  | .call _ args => lexicalAll args

def lexicalAll : List Sql → Bool
  | [] => true
  | e :: es => lexical e && lexicalAll es

end

theorem printAll_eq_map (list : List Sql) : printAll list = list.map print := by
  induction list with
  | nil => rfl
  | cons e es ih => rw [printAll, ih, List.map_cons]

theorem lexemesAll_eq_map (list : List Sql) : lexemesAll list = list.map lexemes := by
  induction list with
  | nil => rfl
  | cons e es ih => rw [lexemesAll, ih, List.map_cons]

theorem lexicalAll_iff {list : List Sql} : lexicalAll list ↔ ∀ e ∈ list, lexical e := by
  induction list with
  | nil => simp [lexicalAll]
  | cons e es ih => rw [lexicalAll, Bool.and_eq_true, ih, List.forall_mem_cons]

end Sql

/-! ### How they are read -/

theorem head?_text (x : Double) : ∃ c cs, x.text = c :: cs ∧ (c = '-' ↔ isNegative x = true) := by
  cases x with
  | finite q h =>
    by_cases hneg : q < 0
    · exact ⟨'-', Double.textNonneg (-q), by rw [Double.text, if_pos hneg],
        by simp [isNegative, hneg]⟩
    · obtain ⟨c, cs, hhead, hc⟩ := head_textNonneg (not_lt.mp hneg)
      exact ⟨c, cs, by rw [Double.text, if_neg hneg, hhead], by simp [isNegative, hneg, hc]⟩
  | infinite negative =>
    cases negative with
    | false => exact ⟨'I', _, rfl, by decide⟩
    | true => exact ⟨'-', _, rfl, by decide⟩

theorem head_of_any {text : List Char} (h : text.head?.any (· ≠ '-') = true) :
    ∃ c cs, text = c :: cs ∧ c ≠ '-' := by
  cases text with
  | nil => cases h
  | cons c cs => exact ⟨c, cs, rfl, by simpa using h⟩

theorem begin_name : (∀ name ∈ tableColumns, name.toList.head?.any (· ≠ '-') = true) ∧
    ∀ name ∈ sqliteFns, name.toList.head?.any (· ≠ '-') = true := by
  decide

/-- What the text of an emitted expression begins with. -/
theorem head_print {sql : Sql} (h : Emitted sql) :
    ∃ c cs, sql.print = c :: cs ∧ (c = '-' ↔ sql.beginsMinus = true) := by
  induction h with
  | number x => exact head?_text x
  | @chain op l r _ _ _ ihl _ =>
    obtain ⟨c, cs, hhead, hc⟩ := ihl
    exact ⟨c, cs ++ (spaced op ++ r.print), congrArg (· ++ (spaced op ++ r.print)) hhead, hc⟩
  | decimal n =>
    obtain ⟨d, ds, hdigits⟩ := List.exists_cons_of_ne_nil (Nat.toDigits_ne_nil (b := 10) (n := n))
    have hd := (toDigits_spec n).1 d (hdigits ▸ List.mem_cons_self)
    refine ⟨d, ds ++ ".0".toList, congrArg (· ++ ".0".toList) hdigits, ?_⟩
    simp [Sql.beginsMinus, (digit_not_space hd).2.1]
  | column hname =>
    obtain ⟨c, cs, hhead, hc⟩ := head_of_any (begin_name.1 _ hname)
    exact ⟨c, cs, hhead, by simp [Sql.beginsMinus, hc]⟩
  | @call name args hname =>
    obtain ⟨c, cs, hhead, hc⟩ := head_of_any (begin_name.2 _ hname)
    have hrest := congrArg
      (· ++ "(".toList ++ (", ".toList.intercalate (Sql.printAll args) ++ ")".toList)) hhead
    exact ⟨c, _, hrest, by simp [Sql.beginsMinus, hc]⟩
  | unary op =>
    by_cases hop : op = "NOT"
    · subst hop
      exact ⟨'(', _, rfl, by simp [Sql.beginsMinus]⟩
    · exact ⟨'(', _, congrArg (· ++ _) (if_neg hop), by simp [Sql.beginsMinus]⟩
  | paren | binary | isIn | like | between | isNull | caseWhen =>
    exact ⟨'(', _, rfl, by simp [Sql.beginsMinus]⟩
  | countAll | countDistinct | cast => exact ⟨'C', _, rfl, by simp [Sql.beginsMinus]⟩
  | text => exact ⟨'\'', _, rfl, by simp [Sql.beginsMinus]⟩
  | star => exact ⟨'*', _, rfl, by simp [Sql.beginsMinus]⟩
  | output => exact ⟨'"', _, rfl, by simp [Sql.beginsMinus]⟩

theorem walk_spaced : ∀ op ∈ sqliteOps,
    sqliteLexer.walk .start (spaced op) = some ([operatorLexeme op], .start) := by
  decide

theorem walk_call : ∀ name ∈ sqliteFns, sqliteLexer.walk .start (name.toList ++ "(".toList) =
    some ([word name, symbol "("], .start) := by
  decide

theorem walk_cast : ∀ type ∈ sqliteTypes,
    sqliteLexer.walk .start (" AS ".toList ++ type.toList ++ ")".toList) =
      some ([word "AS", word type, symbol ")"], .start) := by
  decide

theorem readsIff_close : ReadsIff ")".toList [symbol ")"] True := (Lexer.reads_of_walk rfl).iff

/-- An expression in front of a fixed text. -/
theorem readsIff_last {a : List Char} {c : Char} {cs : List Char} {ts us : List Lexeme} {ok : Prop}
    (h : ReadsIff a ts ok) (hc : IsEdge c)
    (hwalk : sqliteLexer.walk .start (c :: cs) = some (us, .start)) :
    ReadsIff (a ++ (c :: cs)) (ts ++ us) ok :=
  (h.seq (Lexer.reads_of_walk hwalk).iff ⟨c, cs, rfl, hc⟩).congr (and_iff_left trivial)

theorem and_and_iff {a b c : Bool} :
    (a = true ∧ b = true ∧ c = true) ↔ (a && (b && c)) = true := by
  rw [Bool.and_eq_true, Bool.and_eq_true]

theorem readsIff_list {list : List Sql}
    (h : ∀ item ∈ list, ReadsIff item.print item.lexemes (item.lexical = true)) :
    ReadsIff (", ".toList.intercalate (Sql.printAll list))
      ([symbol ","].intercalate (Sql.lexemesAll list)) (Sql.lexicalAll list = true) := by
  rw [Sql.printAll_eq_map, Sql.lexemesAll_eq_map]
  exact (Lexer.ReadsIff.join ⟨',', _, rfl, .inr (.inr rfl)⟩ rfl h).congr Sql.lexicalAll_iff.symm

/-- An emitted expression is read as it is meant exactly if it is lexical. -/
theorem readsIff_emitted {sql : Sql} (h : Emitted sql) :
    ReadsIff sql.print sql.lexemes (sql.lexical = true) := by
  have hspace : IsEdge ' ' := .inl rfl
  have hclose : IsEdge ')' := .inr (.inl rfl)
  induction h with
  | number x =>
    refine (readsIff_number x).congr ?_
    cases x with
    | finite q h => exact ⟨fun _ => rfl, fun _ => ⟨q, h, rfl⟩⟩
    | infinite negative => simp [Sql.lexical, isFinite]
  | decimal n =>
    have hdigits := walk_digits (Nat.toDigits_ne_nil (b := 10) (n := n)) (toDigits_spec n).1
    have hpoint := walk_fraction (Nat.toDigits 10 n)
      (List.forall_mem_singleton.mpr (show '0'.isDigit = true from rfl))
    have hreads := Lexer.reads_of_closes lex_nil (Lexer.walk_append_of_silent hdigits hpoint)
      (closes_numeral _ (.inr (.inl rfl)))
    exact hreads.iff.congr (by simp [Sql.lexical])
  | text value =>
    refine (readsIff_quoteStr value).congr ?_
    simp [Nulless, Sql.lexical]
  | star =>
    have hreads : ReadsIff ['*'] [symbol "*"] True := (Lexer.reads_of_walk rfl).iff
    exact hreads.congr (by simp [Sql.lexical])
  | column hname => exact (readsIff_column hname).congr (by simp [Sql.lexical])
  | output name =>
    refine (readsIff_output name).congr ?_
    simp [Sql.lexical]
  | paren _ ih => exact (readsIff_last ih hclose rfl).opens rfl
  | @unary op e he ih =>
    by_cases hop : op = "NOT"
    · subst hop
      refine Lexer.ReadsIff.congr ((readsIff_last ih hclose rfl).opens rfl) ?_
      simp [Sql.lexical]
    · obtain ⟨c, cs, hhead, hc⟩ := head_print he
      have hprint : (Sql.unary op e).print = ['('] ++ ('-' :: (e.print ++ ")".toList)) :=
        congrArg (· ++ (e.print ++ ")".toList)) (if_neg hop)
      have hlexemes : (Sql.unary op e).lexemes =
          [symbol "("] ++ ([symbol "-"] ++ (e.lexemes ++ [symbol ")"])) := by
        rw [Sql.lexemes, if_neg hop]
        rfl
      rw [hprint, hlexemes]
      by_cases hminus : e.beginsMinus = true
      · obtain rfl := hc.mpr hminus
        rw [hhead]
        refine Lexer.ReadsIff.congr (Lexer.Misreads.iff misreads_minus) ?_ |>.opens rfl
        simp [Sql.lexical, hop, hminus]
      · have hhead' : ∃ c cs, e.print ++ ")".toList = c :: cs ∧ c ≠ '-' :=
          ⟨c, cs ++ ")".toList, by rw [hhead]; rfl, fun heq => hminus (hc.mp heq)⟩
        refine (readsIff_minus hhead' (readsIff_last ih hclose rfl)).congr ?_ |>.opens rfl
        simp [Sql.lexical, hop, hminus]
  | binary hop _ _ ihl ihr =>
    refine (Lexer.ReadsIff.then ihl hspace (walk_spaced _ hop)
      (readsIff_last ihr hclose rfl)).congr ?_ |>.opens rfl
    rw [Sql.lexical, Bool.and_eq_true]
  | chain hop _ _ ihl ihr =>
    refine (Lexer.ReadsIff.then ihl hspace (walk_spaced _ hop) ihr).congr ?_
    rw [Sql.lexical, Bool.and_eq_true]
  | @isIn negate e list _ _ ih ihlist =>
    have hclosed := readsIff_last (readsIff_list ihlist) hclose
      (show sqliteLexer.walk .start "))".toList =
        some ([symbol ")", symbol ")"], .start) from rfl)
    refine Lexer.ReadsIff.opens rfl (Lexer.ReadsIff.congr ?_ (Bool.and_eq_true ..).symm.to_iff)
    cases negate <;> exact ih.then hspace rfl hclosed
  | like negate _ _ ih ihpattern =>
    refine Lexer.ReadsIff.opens rfl (Lexer.ReadsIff.congr ?_ (Bool.and_eq_true ..).symm.to_iff)
    cases negate <;> exact ih.then hspace rfl (readsIff_last ihpattern hclose rfl)
  | between negate _ _ _ ih ihlow ihhigh =>
    have hbounds := ihlow.then hspace (show sqliteLexer.walk .start " AND ".toList =
      some ([word "AND"], .start) from rfl) (readsIff_last ihhigh hclose
        (show sqliteLexer.walk .start ")".toList = some ([symbol ")"], .start) from rfl))
    refine Lexer.ReadsIff.opens rfl (Lexer.ReadsIff.congr ?_ and_and_iff)
    cases negate <;> exact ih.then hspace rfl hbounds
  | isNull negate _ ih =>
    cases negate <;> exact (readsIff_last ih hspace rfl).opens rfl
  | countAll =>
    have hreads : ReadsIff "COUNT(*)".toList
        [word "COUNT", symbol "(", symbol "*", symbol ")"] True :=
      (Lexer.reads_of_walk rfl).iff
    exact hreads.congr (by simp [Sql.lexical, Sql.lexicalAll])
  | call hname _ ihargs =>
    exact (readsIff_last (readsIff_list ihargs) hclose rfl).opens (walk_call _ hname)
  | countDistinct _ ih => exact (readsIff_last ih hclose rfl).opens rfl
  | cast htype _ ih => exact (readsIff_last ih hspace (walk_cast _ htype)).opens rfl
  | caseWhen _ _ _ ihc iha ihb =>
    have helse := iha.then hspace (show sqliteLexer.walk .start " ELSE ".toList =
      some ([word "ELSE"], .start) from rfl) (readsIff_last ihb hspace
        (show sqliteLexer.walk .start " END)".toList =
          some ([word "END", symbol ")"], .start) from rfl))
    refine Lexer.ReadsIff.opens rfl (Lexer.ReadsIff.congr ?_ and_and_iff)
    exact ihc.then hspace rfl helse

end Lopata.Analytics

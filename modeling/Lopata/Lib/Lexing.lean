import Mathlib.Data.List.Basic

/-!
# Lexers and What Is Printed

A lexer reads a text character by character and gives lexemes as soon as they end. A printed text is
read as the lexemes that were meant, whatever stands behind it, as long as that begins with an edge:
a character that ends each lexeme. Texts with this property are put together piece by piece.

## Main results

* `lex_append`: a text in two parts.
* `ReadsIff.opens`, `ReadsIff.seq`, `ReadsIff.join`: the rules for what is put together.
-/

namespace Lopata

/-- A lexer: a character may end lexemes and leads to another state, or is not allowed. -/
structure Lexer (σ τ : Type*) where
  start : σ
  step : σ → Char → Option (List τ × σ)
  finish : σ → Option (List τ)

namespace Lexer

variable {σ τ : Type*} (L : Lexer σ τ)

/-- The lexemes of a text, from a state on. -/
def lexFrom : σ → List Char → Option (List τ)
  | s, [] => L.finish s
  | s, c :: cs => (L.step s c).bind fun out => (lexFrom out.2 cs).map (out.1 ++ ·)

def lex (text : List Char) : Option (List τ) := L.lexFrom L.start text

/-- The lexemes that have ended in a text, and the state behind it. -/
def walk : σ → List Char → Option (List τ × σ)
  | s, [] => some ([], s)
  | s, c :: cs => (L.step s c).bind fun out => (walk out.2 cs).map fun next =>
      (out.1 ++ next.1, next.2)

theorem lexFrom_append (s : σ) (a b : List Char) : L.lexFrom s (a ++ b) =
    (L.walk s a).bind fun out => (L.lexFrom out.2 b).map (out.1 ++ ·) := by
  induction a generalizing s with
  | nil =>
    rw [List.nil_append, walk, Option.bind_some]
    cases L.lexFrom s b <;> rfl
  | cons c cs ih =>
    rw [List.cons_append, lexFrom, walk]
    cases L.step s c with
    | none => rfl
    | some out =>
      simp only [Option.bind_some, ih]
      cases L.walk out.2 cs with
      | none => rfl
      | some next =>
        simp only [Option.bind_some, Option.map_some, Option.map_map]
        congr 1
        funext ts
        exact (List.append_assoc ..).symm

theorem walk_append (s : σ) (a b : List Char) : L.walk s (a ++ b) =
    (L.walk s a).bind fun out => (L.walk out.2 b).map fun next => (out.1 ++ next.1, next.2) := by
  induction a generalizing s with
  | nil =>
    rw [List.nil_append, walk, Option.bind_some]
    cases L.walk s b <;> rfl
  | cons c cs ih =>
    rw [List.cons_append, walk, walk]
    cases L.step s c with
    | none => rfl
    | some out =>
      simp only [Option.bind_some, ih]
      cases L.walk out.2 cs with
      | none => rfl
      | some next =>
        simp only [Option.bind_some, Option.map_some, Option.map_map]
        congr 1
        funext last
        exact Prod.ext (List.append_assoc ..).symm rfl

variable {L} in
/-- Two parts of a text in which no lexeme ends. -/
theorem walk_append_of_silent {s s₁ s₂ : σ} {a b : List Char} (ha : L.walk s a = some ([], s₁))
    (hb : L.walk s₁ b = some ([], s₂)) : L.walk s (a ++ b) = some ([], s₂) := by
  rw [walk_append, ha, Option.bind_some, hb]
  rfl

variable {L} in
/-- The characters of one lexeme are collected. -/
theorem walk_collect (state : List Char → σ) {cs : List Char} (read : List Char)
    (h : ∀ read, ∀ c ∈ cs, L.step (state read) c = some ([], state (read ++ [c]))) :
    L.walk (state read) cs = some ([], state (read ++ cs)) := by
  induction cs generalizing read with
  | nil => rw [walk, List.append_nil]
  | cons c cs ih =>
    obtain ⟨hc, hcs⟩ : L.step (state read) c = some ([], state (read ++ [c])) ∧
        ∀ read, ∀ d ∈ cs, L.step (state read) d = some ([], state (read ++ [d])) :=
      ⟨h read c List.mem_cons_self, fun read d hd => h read d (List.mem_cons_of_mem c hd)⟩
    rw [walk, hc, Option.bind_some, ih _ hcs, Option.map_some, List.append_assoc]
    rfl

/-! ### Printed texts -/

section Reads

variable (edge : Char → Prop)

/-- Nothing, or a text that begins with an edge. -/
def Bounded (rest : List Char) : Prop := ∀ c ∈ rest.head?, edge c

/-- A text is read as some lexemes. -/
def Reads (a : List Char) (ts : List τ) : Prop :=
  ∀ rest, Bounded edge rest → L.lex (a ++ rest) = (L.lex rest).map (ts ++ ·)

/-- A text is not read as some lexemes. -/
def Misreads (a : List Char) (ts : List τ) : Prop :=
  ∀ rest us, Bounded edge rest → L.lex (a ++ rest) ≠ some (ts ++ us)

/-- A text is read as some lexemes exactly if a condition holds. -/
structure ReadsIff (a : List Char) (ts : List τ) (ok : Prop) : Prop where
  reads : ok → L.Reads edge a ts
  misreads : ¬ ok → L.Misreads edge a ts

variable {L edge} {a b : List Char} {ts us : List τ} {A B : Prop}

theorem Reads.iff (h : L.Reads edge a ts) : L.ReadsIff edge a ts True :=
  ⟨fun _ => h, fun hno => absurd trivial hno⟩

theorem reads_nil : L.Reads edge [] [] := by
  intro rest _
  rw [List.nil_append]
  cases L.lex rest <;> rfl

/-- What is read as other lexemes, as many as are meant. -/
theorem Reads.misreads (h : L.Reads edge a us) (hlen : ts.length = us.length) (hne : ts ≠ us) :
    L.Misreads edge a ts := by
  intro rest vs hrest heq
  rw [h rest hrest] at heq
  obtain ⟨ws, -, hsame⟩ := Option.map_eq_some_iff.mp heq
  exact hne (List.append_inj_left hsame hlen.symm).symm

theorem Misreads.iff (h : L.Misreads edge a ts) : L.ReadsIff edge a ts False :=
  ⟨fun hno => absurd hno not_false, fun _ => h⟩

theorem misreads_of_walk (hwalk : L.walk L.start a = none) : L.Misreads edge a ts := by
  intro rest us _ heq
  rw [lex, lexFrom_append, hwalk] at heq
  cases heq

/-- A character that ends a lexeme begins what stands behind it. -/
theorem lexFrom_of_ends {s : σ} {t : τ} {c : Char} {cs : List Char}
    (h : L.step s c = (L.step L.start c).map fun out => (t :: out.1, out.2)) :
    L.lexFrom s (c :: cs) = (L.lex (c :: cs)).map ([t] ++ ·) := by
  rw [lex, lexFrom, lexFrom, h]
  cases L.step L.start c with
  | none => rfl
  | some out =>
    simp only [Option.map_some, Option.bind_some, Option.map_map]
    congr 1

variable (L edge) in
/-- A state in which an edge ends a lexeme. -/
def Closes (s : σ) (t : τ) : Prop :=
  L.finish s = some [t] ∧
    ∀ c, edge c → L.step s c = (L.step L.start c).map fun out => (t :: out.1, out.2)

/-- A text whose last lexeme is ended by what stands behind it. -/
theorem reads_of_closes {s : σ} {t : τ} (hend : L.lex [] = some [])
    (hwalk : L.walk L.start a = some (ts, s)) (hs : L.Closes edge s t) :
    L.Reads edge a (ts ++ [t]) := by
  intro rest hrest
  rw [lex, lexFrom_append, hwalk, Option.bind_some]
  cases rest with
  | nil =>
    rw [hend, lexFrom, hs.1]
    simp
  | cons c cs =>
    rw [lexFrom_of_ends (hs.2 c (hrest c rfl)), Option.map_map]
    congr 1
    funext vs
    exact (List.append_assoc ..).symm

/-- The whole text is read so exactly if the condition holds. -/
theorem ReadsIff.lex_eq_iff (h : L.ReadsIff edge a ts A) (hend : L.lex [] = some []) :
    L.lex a = some ts ↔ A := by
  have hnil : Bounded edge [] := fun _ hc => by cases hc
  constructor
  · intro hlex
    by_contra hno
    refine h.misreads hno [] [] hnil ?_
    rwa [List.append_nil, List.append_nil]
  · intro hok
    have hreads := h.reads hok [] hnil
    rwa [List.append_nil, hend, Option.map_some, List.append_nil] at hreads

theorem ReadsIff.congr (h : L.ReadsIff edge a ts A) (hiff : A ↔ B) : L.ReadsIff edge a ts B :=
  ⟨fun hok => h.reads (hiff.mpr hok), fun hno => h.misreads (mt hiff.mp hno)⟩

theorem lex_of_walk (hwalk : L.walk L.start a = some (ts, L.start)) (rest : List Char) :
    L.lex (a ++ rest) = (L.lex rest).map (ts ++ ·) := by
  rw [lex, lexFrom_append, hwalk]
  rfl

theorem reads_of_walk (hwalk : L.walk L.start a = some (ts, L.start)) : L.Reads edge a ts :=
  fun rest _ => lex_of_walk hwalk rest

/-- A text in front whose lexemes end where the other text begins. -/
theorem ReadsIff.behind
    (hfront : ∀ rest, L.lex (a ++ (b ++ rest)) = (L.lex (b ++ rest)).map (ts ++ ·))
    (h : L.ReadsIff edge b us B) : L.ReadsIff edge (a ++ b) (ts ++ us) B := by
  constructor
  · intro hok rest hrest
    rw [List.append_assoc, hfront, h.reads hok rest hrest, Option.map_map]
    congr 1
    funext vs
    exact (List.append_assoc ..).symm
  · intro hno rest vs hrest heq
    rw [List.append_assoc, hfront, List.append_assoc] at heq
    obtain ⟨ws, hws, hsame⟩ := Option.map_eq_some_iff.mp heq
    obtain rfl := List.append_cancel_left hsame
    exact h.misreads hno rest vs hrest hws

/-- A text in front that ends with its last lexeme. -/
theorem ReadsIff.opens (hwalk : L.walk L.start a = some (ts, L.start))
    (h : L.ReadsIff edge b us B) : L.ReadsIff edge (a ++ b) (ts ++ us) B :=
  h.behind fun rest => lex_of_walk hwalk (b ++ rest)

/-- Two texts, of which the second one begins with an edge. -/
theorem ReadsIff.seq (ha : L.ReadsIff edge a ts A) (hb : L.ReadsIff edge b us B)
    (hedge : ∃ c cs, b = c :: cs ∧ edge c) : L.ReadsIff edge (a ++ b) (ts ++ us) (A ∧ B) := by
  have hbounded (rest : List Char) : Bounded edge (b ++ rest) := by
    obtain ⟨c, cs, rfl, hc⟩ := hedge
    intro d hd
    obtain rfl := Option.some.inj hd
    exact hc
  constructor
  · rintro ⟨hA, hB⟩ rest hrest
    rw [List.append_assoc, ha.reads hA _ (hbounded rest), hb.reads hB rest hrest, Option.map_map]
    congr 1
    funext vs
    exact (List.append_assoc ..).symm
  · intro hno rest vs hrest heq
    rw [List.append_assoc, List.append_assoc] at heq
    by_cases hA : A
    · rw [ha.reads hA _ (hbounded rest)] at heq
      obtain ⟨ws, hws, hsame⟩ := Option.map_eq_some_iff.mp heq
      obtain rfl := List.append_cancel_left hsame
      exact hb.misreads (fun hB => hno ⟨hA, hB⟩) rest vs hrest hws
    · exact ha.misreads hA _ _ (hbounded rest) heq

/-- Two texts with one between them that begins with an edge. -/
theorem ReadsIff.then {c : Char} {cs : List Char} {vs : List τ} (ha : L.ReadsIff edge a ts A)
    (hc : edge c) (hwalk : L.walk L.start (c :: cs) = some (vs, L.start))
    (hb : L.ReadsIff edge b us B) :
    L.ReadsIff edge (a ++ (c :: cs ++ b)) (ts ++ (vs ++ us)) (A ∧ B) :=
  ha.seq (hb.opens hwalk) ⟨c, cs ++ b, rfl, hc⟩

/-- Texts with a separator between them that begins with an edge. -/
theorem ReadsIff.join {ι : Type*} {separator : List Char} {separators : List τ}
    {text : ι → List Char} {lexemes : ι → List τ} {ok : ι → Prop} {l : List ι}
    (hedge : ∃ c cs, separator = c :: cs ∧ edge c)
    (hwalk : L.walk L.start separator = some (separators, L.start))
    (h : ∀ i ∈ l, L.ReadsIff edge (text i) (lexemes i) (ok i)) :
    L.ReadsIff edge (separator.intercalate (l.map text)) (separators.intercalate (l.map lexemes))
      (∀ i ∈ l, ok i) := by
  induction l with
  | nil => exact reads_nil.iff.congr (by simp)
  | cons i l ih =>
    obtain ⟨hi, hl⟩ := List.forall_mem_cons.mp h
    cases l with
    | nil => exact (by simpa using hi)
    | cons j l =>
      obtain ⟨c, cs, rfl, hc⟩ := hedge
      have hrest := (ih hl).opens hwalk
      have hall := (hi.seq hrest ⟨c, _, rfl, hc⟩).congr List.forall_mem_cons.symm
      simp only [List.map_cons, List.intercalate_cons_cons, List.append_assoc] at hall ⊢
      exact hall

end Reads

end Lexer

end Lopata

import Mathlib.Data.List.MinMax
import Mathlib.Data.List.Pairwise
import Mathlib.Data.List.Sort
import Mathlib.Data.Prod.Lex
import Lopata.Routing.Pattern

/-!
# The Route Dispatcher

`RouteDispatcher` keeps the routes of the auxiliary workers, sorts them by how specific they are
when it is next asked, and gives a request to the first route that matches.

## Main results

* `specificity_le_iff`: the comparison that sorts the routes is the order of a key.
* `resolve_mostSpecific`: without host patterns and with wildcards at the end only, a request goes
  to the exactly equal pattern, else to the matching pattern with the longest literal prefix, else
  to the fallback, and the order of registration does not show.
* `routes_addAll`: routes with distinct patterns are all registered, in every order of the workers.
-/

namespace Lopata.Routing

/-! ### Entries -/

/-- A registered route; `hasWildcardHost` is computed from the host patterns. -/
structure RouteEntry (M : Type) where
  pattern : Text
  workerName : Text
  manager : M
  hostPatterns : Option (List Text)
  head : pattern.head? = some '/'
  deriving DecidableEq

variable {M : Type}

def RouteEntry.hasWildcardHost (r : RouteEntry M) : Bool :=
  Routing.hasWildcardHost r.hostPatterns

/-- Whether the pattern has a wildcard. -/
def RouteEntry.hasWild (r : RouteEntry M) : Bool := '*' ∈ r.pattern

/-- Whether a separator is in front of the wildcard. -/
def RouteEntry.slashStar (r : RouteEntry M) : Bool := "/*".toList <:+ r.pattern

/-- The comparison of `ensureSorted`: the more specific route comes first. -/
def specificity (a b : RouteEntry M) : ℤ :=
  if a.hasWild ≠ b.hasWild then if a.hasWild then 1 else -1
  else if (segmentCount b.pattern : ℤ) - segmentCount a.pattern ≠ 0 then
    (segmentCount b.pattern : ℤ) - segmentCount a.pattern
  else if a.slashStar ≠ b.slashStar then if a.slashStar then -1 else 1
  else if a.hasWildcardHost ≠ b.hasWildcardHost then if a.hasWildcardHost then 1 else -1
  else (length16 b.pattern : ℤ) - length16 a.pattern

/-- What the routes are sorted by. -/
def RouteEntry.key (r : RouteEntry M) : Bool ×ₗ ℤ ×ₗ Bool ×ₗ Bool ×ₗ ℤ :=
  toLex (r.hasWild, toLex (-(segmentCount r.pattern : ℤ), toLex (!r.slashStar,
    toLex (r.hasWildcardHost, -(length16 r.pattern : ℤ)))))

/-- One place of a comparison: it decides if the two values differ. -/
theorem comparison_le_iff {α β : Type} [LinearOrder α] [LE β] {x y : α} {u v : β} {p : Prop}
    [Decidable p] {c rest : ℤ} (hp : p ↔ x ≠ y) (hc : x ≠ y → (c ≤ 0 ↔ x < y))
    (hrest : rest ≤ 0 ↔ u ≤ v) :
    (if p then c else rest) ≤ 0 ↔ toLex (x, u) ≤ toLex (y, v) := by
  rw [Prod.Lex.toLex_le_toLex]
  by_cases hxy : x = y
  · subst hxy
    rw [if_neg fun h => hp.mp h rfl, hrest]
    exact ⟨fun h => .inr ⟨rfl, h⟩, fun h => h.elim (absurd · (lt_irrefl x)) And.right⟩
  · rw [if_pos (hp.mpr hxy), hc hxy]
    exact ⟨.inl, fun h => h.elim id fun h => absurd h.1 hxy⟩

theorem specificity_le_iff (a b : RouteEntry M) : specificity a b ≤ 0 ↔ a.key ≤ b.key := by
  -- false comes before true
  have hflag : ∀ x y : Bool, x ≠ y → ((if x then (1 : ℤ) else -1) ≤ 0 ↔ x < y) := by decide
  refine comparison_le_iff Iff.rfl (hflag _ _) (comparison_le_iff ?_ ?_
    (comparison_le_iff ?_ ?_ (comparison_le_iff Iff.rfl (hflag _ _) ?_)))
  · omega
  · intro _
    omega
  · rw [ne_eq, ne_eq, Bool.not_inj_iff]
  · intro hne
    cases ha : a.slashStar <;> cases hb : b.slashStar <;> simp_all
  · omega

theorem specificity_trans {a b c : RouteEntry M} (hab : specificity a b ≤ 0)
    (hbc : specificity b c ≤ 0) : specificity a c ≤ 0 := by
  rw [specificity_le_iff] at *
  exact hab.trans hbc

theorem specificity_total (a b : RouteEntry M) : specificity a b ≤ 0 ∨ specificity b a ≤ 0 := by
  rw [specificity_le_iff, specificity_le_iff]
  exact le_total _ _

instance : IsTrans (RouteEntry M) fun a b => specificity a b ≤ 0 :=
  ⟨fun _ _ _ => specificity_trans⟩

instance : Std.Total fun a b : RouteEntry M => specificity a b ≤ 0 :=
  ⟨specificity_total⟩

/-! ### The dispatcher -/

/-- Two entries without host patterns do not have the same pattern. -/
def Apart (a b : RouteEntry M) : Prop :=
  a.hostPatterns = none → b.hostPatterns = none → a.pattern ≠ b.pattern

theorem Apart.symm {a b : RouteEntry M} (h : Apart a b) : Apart b a :=
  fun hb ha heq => h ha hb heq.symm

instance : Std.Symm (Apart (M := M)) :=
  ⟨fun _ _ => Apart.symm⟩

structure RouteDispatcher (M : Type) where
  routes : List (RouteEntry M)
  sorted : Bool
  fallback : M
  ordered : sorted = true → routes.Pairwise fun a b => specificity a b ≤ 0
  apart : routes.Pairwise Apart

/-- An entry of `routes` in a configuration. -/
structure Route where
  pattern : Text
  customDomain : Bool := false

namespace RouteDispatcher

/-- `new RouteDispatcher(fallback)`. -/
def new (fallback : M) : RouteDispatcher M where
  routes := []
  sorted := true
  fallback := fallback
  ordered _ := List.Pairwise.nil
  apart := List.Pairwise.nil

variable (d : RouteDispatcher M)

/-- Drop the routes of a worker. -/
def removeWorkerRoutes (workerName : Text) : RouteDispatcher M where
  routes := d.routes.filter fun r => r.workerName ≠ workerName
  sorted := d.sorted
  fallback := d.fallback
  ordered h := (d.ordered h).filter _
  apart := d.apart.filter _

/-- No routes are sorted. -/
def markEmpty : RouteDispatcher M where
  routes := d.routes
  sorted := d.sorted || d.routes = []
  fallback := d.fallback
  ordered h := by
    rcases Bool.or_eq_true_iff.mp h with h | h
    · exact d.ordered h
    · rw [of_decide_eq_true h]
      exact List.Pairwise.nil
  apart := d.apart

/-- Whether a pattern without host patterns is registered. -/
def registered (pattern : Text) (hostPatterns : Option (List Text)) : Bool :=
  d.routes.any fun r => r.pattern = pattern && r.hostPatterns.isNone && hostPatterns.isNone

/-- Register an entry that no other one stands in the way of. -/
def push (r : RouteEntry M) (h : d.registered r.pattern r.hostPatterns = false) :
    RouteDispatcher M where
  routes := d.routes ++ [r]
  sorted := false
  fallback := d.fallback
  ordered h := by cases h
  apart := by
    refine List.pairwise_append.mpr ⟨d.apart, List.pairwise_singleton _ _, fun a ha b hb => ?_⟩
    obtain rfl := List.mem_singleton.mp hb
    intro hahost hrhost hpattern
    have hnot := List.any_eq_false.mp h a ha
    simp [hpattern, hahost, hrhost] at hnot

/-- One turn of the loop of `addRoutes`. -/
def addRoute (manager : M) (workerName : Text) (hostPatterns : Option (List Text))
    (d : RouteDispatcher M) (route : Route) : RouteDispatcher M :=
  if route.customDomain then d
  else if trim route.pattern = [] then d
  else
    let entry : RouteEntry M := ⟨extractPathPattern route.pattern, workerName, manager, hostPatterns,
      extractPathPattern_head _⟩
    if h : d.registered entry.pattern entry.hostPatterns = false then d.push entry h else d

/-- `addRoutes`; no routes in a configuration are none. -/
def addRoutes (routes : Option (List Route)) (manager : M) (workerName : Text)
    (hostPatterns : Option (List Text)) : RouteDispatcher M :=
  match routes with
  | none => d
  | some routes =>
      routes.foldl (addRoute manager workerName hostPatterns)
        (if d.routes = [] then d.removeWorkerRoutes workerName
          else (d.removeWorkerRoutes workerName).markEmpty)

/-- `addHostWorker`. -/
def addHostWorker (manager : M) (workerName : Text) (hostPatterns : List Text) :
    RouteDispatcher M :=
  (d.removeWorkerRoutes workerName).push ⟨"/*".toList, workerName, manager, some hostPatterns, rfl⟩
    (by simp [registered])

/-- `ensureSorted`. -/
def ensureSorted : RouteDispatcher M where
  routes :=
    if d.sorted then d.routes else d.routes.insertionSort fun a b => specificity a b ≤ 0
  sorted := true
  fallback := d.fallback
  ordered _ := by
    split
    · next h => exact d.ordered h
    · exact List.pairwise_insertionSort _ _
  apart := by
    split
    · exact d.apart
    · exact ((List.perm_insertionSort _ _).pairwise_iff Apart.symm).mpr d.apart

/-- Whether an entry takes a request. -/
def takes (pathname : Text) (hostname : Option Text) (r : RouteEntry M) : Bool :=
  (match r.hostPatterns with
    | none => true
    | some hostPatterns => hostname.any fun hostname => hostPatterns.any (matchHost hostname)) &&
    matchRoute pathname r.pattern

/-- The worker a request goes to, and the dispatcher, whose routes are sorted now. -/
def resolve (pathname : Text) (hostname : Option Text) : M × RouteDispatcher M :=
  match d.ensureSorted.routes.find? (takes pathname hostname) with
  | some r => (r.manager, d.ensureSorted)
  | none => (d.fallback, d.ensureSorted)

end RouteDispatcher

/-! ### The first route that matches -/

/-- In a list in order, the element that is ahead of all others that pass a test is found. -/
theorem find?_eq_some_of_pairwise {α : Type} {R : α → α → Prop} {p : α → Bool} {l : List α} {r : α}
    (hl : l.Pairwise R) (hr : r ∈ l) (hp : p r = true)
    (hbest : ∀ s ∈ l, p s = true → s ≠ r → ¬ R s r) : l.find? p = some r := by
  induction l with
  | nil => cases hr
  | cons s l ih =>
    obtain ⟨hs, hl⟩ := List.pairwise_cons.mp hl
    by_cases hsr : s = r
    · rw [hsr, List.find?_cons_of_pos hp]
    · have hrl : r ∈ l := (List.mem_cons.mp hr).resolve_left (Ne.symm hsr)
      have hps : ¬ p s = true := fun hps =>
        hbest s List.mem_cons_self hps hsr (hs r hrl)
      rw [List.find?_cons_of_neg hps]
      exact ih hl hrl fun t ht => hbest t (List.mem_cons_of_mem _ ht)

/-- A pattern without wildcards comes before one with a wildcard. -/
theorem not_le_of_exact {r s : RouteEntry M} (hr : '*' ∉ r.pattern) (hs : '*' ∈ s.pattern) :
    ¬ specificity s r ≤ 0 := by
  have hrw : r.hasWild = false := decide_eq_false hr
  have hsw : s.hasWild = true := decide_eq_true hs
  simp [specificity, hrw, hsw]

/-- **The longer literal prefix comes first.** -/
theorem not_le_of_prefixed {r s : RouteEntry M} {short long : Text}
    (hr : r.pattern = long ++ ['*']) (hs : s.pattern = short ++ ['*'])
    (hrhost : r.hostPatterns = none) (hshost : s.hostPatterns = none)
    (hpre : short <+: long) (hne : short ≠ long) : ¬ specificity s r ≤ 0 := by
  have hrw : r.hasWild = true := decide_eq_true (by rw [hr]; simp)
  have hsw : s.hasWild = true := decide_eq_true (by rw [hs]; simp)
  have hrh : r.hasWildcardHost = false := by
    rw [RouteEntry.hasWildcardHost, hrhost]
    rfl
  have hsh : s.hasWildcardHost = false := by
    rw [RouteEntry.hasWildcardHost, hshost]
    rfl
  have hlen : length16 s.pattern < length16 r.pattern := by
    have hlt := length16_lt_of_prefixed hpre hne
    rw [hr, hs]
    simp only [length16, encodeUtf16, List.flatMap_append, List.length_append] at hlt ⊢
    omega
  obtain ⟨rest, hrest⟩ := hpre
  have hseg : segmentCount s.pattern ≤ segmentCount r.pattern := by
    rw [hr, hs, segmentCount_wildcard, segmentCount_wildcard, ← hrest]
    exact Path.length_segments_le_append short rest
  -- a separator in front of the shorter wildcard is followed by a segment or by separators
  have hslash : segmentCount r.pattern = segmentCount s.pattern → s.slashStar = true →
      r.slashStar = true := by
    intro heq hslash
    have hlast : short.getLast? = some '/' :=
      slashStar_suffix_iff.mp (hs ▸ of_decide_eq_true hslash)
    refine decide_eq_true ?_
    rw [hr, slashStar_suffix_iff, ← hrest]
    refine Path.getLast?_of_length_segments hlast ?_
    rw [hr, hs, segmentCount_wildcard, segmentCount_wildcard] at heq
    rw [hrest]
    exact heq
  unfold specificity
  rw [hrw, hsw, hrh, hsh, if_neg (fun h => h rfl)]
  split
  · omega
  · next hsegs =>
      have heq : segmentCount r.pattern = segmentCount s.pattern := by omega
      split
      · next hstars =>
          cases hss : s.slashStar with
          | true => exact absurd (hss.trans (hslash heq hss).symm) hstars
          | false => decide
      · rw [if_neg (fun h => h rfl)]
        omega

/-! ### Most specific -/

/-- The route that a request should go to: the one with the exactly equal pattern, or if there is
none, the one that matches with the longest literal prefix. -/
def MostSpecific (routes : List (RouteEntry M)) (pathname : Text) (r : RouteEntry M) : Prop :=
  r ∈ routes ∧ (r.pattern = pathname ∨
    (∀ s ∈ routes, s.pattern ≠ pathname) ∧ matchRoute pathname r.pattern = true ∧
      ∀ s ∈ routes, matchRoute pathname s.pattern = true →
        (literalPrefix s.pattern).length ≤ (literalPrefix r.pattern).length)

theorem exists_mostSpecific {routes : List (RouteEntry M)} {pathname : Text}
    (h : ∃ s ∈ routes, matchRoute pathname s.pattern = true) :
    ∃ r, MostSpecific routes pathname r := by
  by_cases hexact : ∃ r ∈ routes, r.pattern = pathname
  · obtain ⟨r, hr, hpattern⟩ := hexact
    exact ⟨r, hr, .inl hpattern⟩
  · obtain ⟨s, hs, hmatch⟩ := h
    cases hmax : (routes.filter fun s => matchRoute pathname s.pattern).argmax
        fun s => (literalPrefix s.pattern).length with
    | none =>
      rw [List.argmax_eq_none, List.filter_eq_nil_iff] at hmax
      exact absurd hmatch (hmax s hs)
    | some r =>
      obtain ⟨hr, hrmatch⟩ := List.mem_filter.mp (List.argmax_mem hmax)
      refine ⟨r, hr, .inr ⟨fun s hs heq => hexact ⟨s, hs, heq⟩, hrmatch, fun s hs hsmatch => ?_⟩⟩
      have hmem : s ∈ routes.filter fun s => matchRoute pathname s.pattern :=
        List.mem_filter.mpr ⟨hs, hsmatch⟩
      exact List.le_of_mem_argmax (f := fun s : RouteEntry M => (literalPrefix s.pattern).length)
        hmem hmax

variable {d : RouteDispatcher M} {pathname : Text} {hostname : Option Text} {r s : RouteEntry M}

/-- Distinct routes have distinct patterns. -/
theorem pattern_ne (hunhosted : ∀ r ∈ d.routes, r.hostPatterns = none) (hr : r ∈ d.routes)
    (hs : s ∈ d.routes) (hne : s ≠ r) : s.pattern ≠ r.pattern :=
  d.apart.forall hs hr hne (hunhosted s hs) (hunhosted r hr)

/-- What is in front of the wildcard of a route starts with a separator. -/
theorem literalPrefix_head (htrailing : TrailingOnly s.pattern) (hwild : '*' ∈ s.pattern) :
    (literalPrefix s.pattern).head? = some '/' := by
  have hhead := s.head
  rw [htrailing.eq_of_mem hwild] at hhead
  cases hliteral : literalPrefix s.pattern with
  | nil =>
    rw [hliteral] at hhead
    exact absurd hhead (by decide)
  | cons c rest =>
    rw [hliteral] at hhead
    exact hhead

/-- A route that matches is exactly equal, or its literal prefix starts the path or is the root. -/
theorem matchRoute_cases (htrailing : TrailingOnly s.pattern)
    (hmatch : matchRoute pathname s.pattern = true) :
    s.pattern = pathname ∧ '*' ∉ s.pattern ∨
      ∃ literal, s.pattern = literal ++ ['*'] ∧ literalPrefix s.pattern = literal ∧
        '*' ∉ literal ∧ literal.head? = some '/' ∧ (literal = ['/'] ∨ literal <+: pathname) := by
  by_cases hwild : '*' ∈ s.pattern
  · have hpattern := htrailing.eq_of_mem hwild
    have hhead := literalPrefix_head htrailing hwild
    have hstar : '*' ∉ literalPrefix s.pattern := by
      rw [TrailingOnly, hpattern, List.dropLast_concat] at htrailing
      exact htrailing
    rw [hpattern] at hmatch
    exact .inr ⟨_, hpattern, rfl, hstar, hhead, (matchRoute_wildcard hhead).mp hmatch⟩
  · exact .inl ⟨((matchRoute_exact hwild).mp hmatch).symm, hwild⟩

theorem singleton_prefix {literal : Text} (h : literal.head? = some '/') : ['/'] <+: literal := by
  obtain ⟨rest, rfl⟩ := List.head?_eq_some_iff.mp h
  exact ⟨rest, rfl⟩

/-- The most specific route matches. -/
theorem MostSpecific.matchRoute (htrailing : TrailingOnly r.pattern)
    (h : MostSpecific d.routes pathname r) : matchRoute pathname r.pattern = true := by
  rcases h.2 with heq | hbest
  · by_cases hwild : '*' ∈ r.pattern
    · have hpattern := htrailing.eq_of_mem hwild
      rw [hpattern]
      refine (matchRoute_wildcard (literalPrefix_head htrailing hwild)).mpr (.inr ?_)
      rw [← heq]
      exact ⟨['*'], hpattern.symm⟩
    · exact (matchRoute_exact hwild).mpr heq.symm
  · exact hbest.2.1

/-- **The most specific route is ahead of all others that match.** -/
theorem MostSpecific.not_le (hunhosted : ∀ r ∈ d.routes, r.hostPatterns = none)
    (htrailing : ∀ r ∈ d.routes, TrailingOnly r.pattern) (h : MostSpecific d.routes pathname r)
    (hs : s ∈ d.routes) (hmatch : Routing.matchRoute pathname s.pattern = true) (hne : s ≠ r) :
    ¬ specificity s r ≤ 0 := by
  have hpatterns := pattern_ne hunhosted h.1 hs hne
  have hrmatch := h.matchRoute (htrailing r h.1)
  obtain ⟨hr, hbest⟩ := h
  rcases matchRoute_cases (htrailing r hr) hrmatch with
    ⟨hrexact, hrwild⟩ | ⟨long, hrpattern, hrliteral, hrstar, hrhead, hrprefix⟩
  · rcases matchRoute_cases (htrailing s hs) hmatch with
      ⟨hsexact, -⟩ | ⟨short, hspattern, -, -, -, -⟩
    · exact absurd (hsexact.trans hrexact.symm) hpatterns
    · exact not_le_of_exact hrwild (by rw [hspattern]; simp)
  · rcases matchRoute_cases (htrailing s hs) hmatch with
      ⟨hsexact, hswild⟩ | ⟨short, hspattern, hsliteral, hsstar, hshead, hsprefix⟩
    · -- then the most specific pattern is the path, which has no wildcard
      rcases hbest with heq | hbest
      · exact absurd (hsexact.trans heq.symm) hpatterns
      · exact absurd hsexact (hbest.1 s hs)
    · have hshort : short ≠ long := fun heq => hpatterns (by rw [hspattern, hrpattern, heq])
      refine not_le_of_prefixed hrpattern hspattern (hunhosted r hr) (hunhosted s hs) ?_ hshort
      rcases hsprefix with rfl | hsprefix
      · exact singleton_prefix hrhead
      · rcases hbest with heq | ⟨-, -, hlongest⟩
        · -- the path is the longer pattern, and the shorter prefix has no wildcard
          rw [← heq, hrpattern] at hsprefix
          rcases List.prefix_concat_iff.mp hsprefix with hall | hpre
          · exact absurd (hall ▸ List.mem_append_right _ (List.mem_singleton_self _)) hsstar
          · exact hpre
        · have hlen := hlongest s hs hmatch
          rw [hsliteral, hrliteral] at hlen
          rcases hrprefix with rfl | hrprefix
          · obtain ⟨rest, rfl⟩ := List.head?_eq_some_iff.mp hshead
            have hnil : rest = [] := by
              rw [← List.length_eq_zero_iff]
              simpa using hlen
            exact absurd (hnil ▸ rfl) hshort
          · exact List.prefix_of_prefix_length_le hsprefix hrprefix hlen

/-! ### Resolution -/

@[simp] theorem mem_ensureSorted : r ∈ d.ensureSorted.routes ↔ r ∈ d.routes := by
  unfold RouteDispatcher.ensureSorted
  dsimp only
  split
  · rfl
  · exact List.mem_insertionSort _

/-- Without host patterns, an entry takes what its pattern matches. -/
theorem takes_unhosted (h : r.hostPatterns = none) :
    RouteDispatcher.takes pathname hostname r = matchRoute pathname r.pattern := by
  rw [RouteDispatcher.takes, h]
  rfl

theorem resolve_of_mostSpecific (hunhosted : ∀ r ∈ d.routes, r.hostPatterns = none)
    (htrailing : ∀ r ∈ d.routes, TrailingOnly r.pattern) (h : MostSpecific d.routes pathname r) :
    (d.resolve pathname hostname).1 = r.manager := by
  have hfind : d.ensureSorted.routes.find? (RouteDispatcher.takes pathname hostname) = some r := by
    refine find?_eq_some_of_pairwise (d.ensureSorted.ordered rfl) (mem_ensureSorted.mpr h.1) ?_ ?_
    · rw [takes_unhosted (hunhosted r h.1)]
      exact h.matchRoute (htrailing r h.1)
    · intro s hs htakes hne
      have hs := mem_ensureSorted.mp hs
      rw [takes_unhosted (hunhosted s hs)] at htakes
      exact h.not_le hunhosted htrailing hs htakes hne
  rw [RouteDispatcher.resolve, hfind]

theorem resolve_of_none (hunhosted : ∀ r ∈ d.routes, r.hostPatterns = none)
    (h : ∀ r ∈ d.routes, matchRoute pathname r.pattern = false) :
    (d.resolve pathname hostname).1 = d.fallback := by
  have hfind : d.ensureSorted.routes.find? (RouteDispatcher.takes pathname hostname) = none := by
    rw [List.find?_eq_none]
    intro s hs
    have hs := mem_ensureSorted.mp hs
    rw [takes_unhosted (hunhosted s hs), h s hs]
    exact Bool.false_ne_true
  rw [RouteDispatcher.resolve, hfind]

/-- **Resolution.** Let the registered routes have no host patterns and wildcards at the end only.
A request goes to the worker of the most specific route, which exists if any matches, and else to
the fallback; a dispatcher with the same routes in another order answers the same. -/
theorem resolve_mostSpecific (d : RouteDispatcher M)
    (hunhosted : ∀ r ∈ d.routes, r.hostPatterns = none)
    (htrailing : ∀ r ∈ d.routes, TrailingOnly r.pattern) (pathname : Text)
    (hostname : Option Text) :
    (∀ r, MostSpecific d.routes pathname r → (d.resolve pathname hostname).1 = r.manager) ∧
    ((∃ r ∈ d.routes, matchRoute pathname r.pattern = true) →
      ∃ r, MostSpecific d.routes pathname r) ∧
    ((∀ r ∈ d.routes, matchRoute pathname r.pattern = false) →
      (d.resolve pathname hostname).1 = d.fallback) ∧
    ∀ d' : RouteDispatcher M, d'.fallback = d.fallback →
      (∀ r, r ∈ d'.routes ↔ r ∈ d.routes) →
        (d'.resolve pathname hostname).1 = (d.resolve pathname hostname).1 := by
  refine ⟨fun r hr => resolve_of_mostSpecific hunhosted htrailing hr, exists_mostSpecific,
    resolve_of_none hunhosted, fun d' hfallback hsame => ?_⟩
  have hunhosted' : ∀ r ∈ d'.routes, r.hostPatterns = none := fun r hr =>
    hunhosted r ((hsame r).mp hr)
  by_cases hmatch : ∃ r ∈ d.routes, matchRoute pathname r.pattern = true
  · obtain ⟨r, hr⟩ := exists_mostSpecific hmatch
    have hr' : MostSpecific d'.routes pathname r := by
      simpa only [MostSpecific, hsame] using hr
    rw [resolve_of_mostSpecific hunhosted htrailing hr,
      resolve_of_mostSpecific hunhosted' (fun r hr => htrailing r ((hsame r).mp hr)) hr']
  · have hnone : ∀ r ∈ d.routes, matchRoute pathname r.pattern = false := fun r hr =>
      Bool.eq_false_of_not_eq_true fun hr' => hmatch ⟨r, hr, hr'⟩
    rw [resolve_of_none hunhosted hnone,
      resolve_of_none hunhosted' (fun r hr => hnone r ((hsame r).mp hr)), hfallback]

/-- Three routes whose patterns start alike. -/
def overlapping : RouteDispatcher ℕ :=
  (((RouteDispatcher.new 0).addRoutes (some [⟨"example.com/api*".toList, false⟩]) 1 ['a'] none
    ).addRoutes (some [⟨"example.com/api/*".toList, false⟩]) 2 ['b'] none
    ).addRoutes (some [⟨"example.com/api/users".toList, false⟩]) 3 ['c'] none

/-- They are told apart. -/
theorem resolve_mostSpecific_overlapping :
    (overlapping.resolve "/api/users".toList none).1 = 3 ∧
    (overlapping.resolve "/api/x".toList none).1 = 2 ∧
    (overlapping.resolve "/home".toList none).1 = 0 :=
  have hspec := resolve_mostSpecific overlapping (by decide +kernel) (by decide +kernel)
  ⟨(hspec "/api/users".toList none).1 ⟨"/api/users".toList, ['c'], 3, none, rfl⟩
      ⟨by decide +kernel, .inl rfl⟩,
    (hspec "/api/x".toList none).1 ⟨"/api/*".toList, ['b'], 2, none, rfl⟩
      ⟨by decide +kernel, .inr (by decide +kernel)⟩,
    (hspec "/home".toList none).2.2.1 (by decide +kernel)⟩

/-! ### Registration -/

/-- A call of `addRoutes` without host patterns. -/
structure Registration (M : Type) where
  routes : List Route
  manager : M
  workerName : Text

/-- The routes of a registration that are neither custom domains nor empty. -/
def Registration.entries (reg : Registration M) : List (RouteEntry M) :=
  (reg.routes.filter fun route => !route.customDomain && trim route.pattern ≠ []).map fun route =>
    ⟨extractPathPattern route.pattern, reg.workerName, reg.manager, none,
      extractPathPattern_head _⟩

def addAll (d : RouteDispatcher M) (regs : List (Registration M)) : RouteDispatcher M :=
  regs.foldl (fun d reg => d.addRoutes (some reg.routes) reg.manager reg.workerName none) d

/-- A route whose pattern no other has is registered. -/
theorem routes_foldl_addRoute (manager : M) (workerName : Text) (routes : List Route)
    (d : RouteDispatcher M)
    (hdistinct : ((d.routes ++
      (Registration.mk routes manager workerName).entries).map (·.pattern)).Nodup) :
    (routes.foldl (RouteDispatcher.addRoute manager workerName none) d).routes =
      d.routes ++ (Registration.mk routes manager workerName).entries := by
  induction routes generalizing d with
  | nil => exact (List.append_nil _).symm
  | cons route routes ih =>
    rw [List.foldl_cons]
    by_cases hkeep : (!route.customDomain && decide (trim route.pattern ≠ [])) = true
    · have hentries : (Registration.mk (route :: routes) manager workerName).entries =
          ⟨extractPathPattern route.pattern, workerName, manager, none,
            extractPathPattern_head _⟩ :: (Registration.mk routes manager workerName).entries := by
        rw [Registration.entries, List.filter_cons_of_pos (by simpa using hkeep), List.map_cons]
        rfl
      have hcustom : route.customDomain = false := by
        simpa using (Bool.and_eq_true_iff.mp hkeep).1
      have htrim : trim route.pattern ≠ [] :=
        of_decide_eq_true (Bool.and_eq_true_iff.mp hkeep).2
      have hfree : d.registered (extractPathPattern route.pattern) none = false := by
        rw [RouteDispatcher.registered, List.any_eq_false]
        intro s hs htrue
        have heq : s.pattern = extractPathPattern route.pattern := by
          simp only [Bool.and_eq_true, decide_eq_true_eq] at htrue
          exact htrue.1.1
        rw [hentries, List.map_append, List.nodup_append] at hdistinct
        exact hdistinct.2.2 _ (List.mem_map_of_mem hs) _ List.mem_cons_self heq
      have hadd : RouteDispatcher.addRoute manager workerName none d route =
          d.push ⟨extractPathPattern route.pattern, workerName, manager, none,
            extractPathPattern_head _⟩ hfree := by
        simp only [RouteDispatcher.addRoute, hcustom, htrim, hfree]
        rfl
      rw [hadd, ih, hentries]
      · simp only [RouteDispatcher.push, List.append_assoc, List.singleton_append]
      · rw [hentries] at hdistinct
        simpa only [RouteDispatcher.push, List.append_assoc, List.singleton_append] using
          hdistinct
    · have hentries : (Registration.mk (route :: routes) manager workerName).entries =
          (Registration.mk routes manager workerName).entries := by
        rw [Registration.entries, List.filter_cons_of_neg (by simpa using hkeep)]
        rfl
      have hadd : RouteDispatcher.addRoute manager workerName none d route = d := by
        unfold RouteDispatcher.addRoute
        split
        · rfl
        · next hcustom =>
            rw [if_pos]
            by_contra htrim
            exact hkeep (by simp [hcustom, htrim])
      rw [hentries] at hdistinct ⊢
      rw [hadd]
      exact ih d hdistinct

/-- **Distinct patterns of distinct workers are all registered**, in every order. -/
theorem routes_addAll (fallback : M) (regs : List (Registration M))
    (hworkers : (regs.map (·.workerName)).Nodup)
    (hdistinct : ((regs.flatMap (·.entries)).map (·.pattern)).Nodup) :
    (addAll (RouteDispatcher.new fallback) regs).routes = regs.flatMap (·.entries) := by
  suffices hgeneral : ∀ (regs : List (Registration M)) (d : RouteDispatcher M),
      (regs.map (·.workerName)).Nodup → (∀ r ∈ d.routes, r.workerName ∉ regs.map (·.workerName)) →
      ((d.routes ++ regs.flatMap (·.entries)).map (·.pattern)).Nodup →
      (addAll d regs).routes = d.routes ++ regs.flatMap (·.entries) from
    hgeneral regs (RouteDispatcher.new fallback) hworkers (fun _ hr => by cases hr) hdistinct
  intro regs
  induction regs with
  | nil => exact fun d _ _ _ => (List.append_nil _).symm
  | cons reg regs ih =>
    intro d hworkers hothers hdistinct
    rw [List.map_cons, List.nodup_cons] at hworkers
    have hkept : d.routes.filter (fun r => r.workerName ≠ reg.workerName) = d.routes := by
      rw [List.filter_eq_self]
      intro r hr
      refine decide_eq_true fun heq => hothers r hr ?_
      rw [heq]
      exact List.mem_cons_self
    have hstart : ∀ d' : RouteDispatcher M, d'.routes = d.routes →
        (reg.routes.foldl (RouteDispatcher.addRoute reg.manager reg.workerName none) d').routes =
          d.routes ++ reg.entries := by
      intro d' hd'
      rw [routes_foldl_addRoute, hd']
      rw [hd']
      rw [List.flatMap_cons, ← List.append_assoc, List.map_append] at hdistinct
      exact (List.nodup_append.mp hdistinct).1
    have hadd : (d.addRoutes (some reg.routes) reg.manager reg.workerName none).routes =
        d.routes ++ reg.entries := by
      unfold RouteDispatcher.addRoutes
      dsimp only
      split
      · exact hstart _ hkept
      · exact hstart _ hkept
    have hnext := ih (d.addRoutes (some reg.routes) reg.manager reg.workerName none) hworkers.2
    rw [hadd, List.append_assoc, ← List.flatMap_cons] at hnext
    refine hnext (fun r hr => ?_) hdistinct
    rcases List.mem_append.mp hr with hr | hr
    · exact fun hmem => hothers r hr (List.mem_cons_of_mem _ hmem)
    · obtain ⟨route, -, rfl⟩ := List.mem_map.mp hr
      exact hworkers.1

end Lopata.Routing

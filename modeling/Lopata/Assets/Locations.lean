import Lopata.Assets.Serving
import Lopata.Lib.Url

/-!
# Where Redirects Lead

A redirect names its location in one of two ways: the target of a rule that is an external URL is
sent as it is, anything else is resolved against the origin of the request.

## Main results

* `fetch_redirects_iff`: the locations are those of the redirects that `fetch` answers with.
* `staysOnOrigin_iff`: when no location leads to another origin, but for rules whose target is
  written as an absolute URL.
* `not_staysOnOrigin`: a path that starts with two slashes leads to another host.
-/

namespace Lopata.Assets

open Url

/-! ### Locations -/

/-- The text a location is made of. -/
inductive Location where
  /-- Sent as it is. -/
  | sent (text : Text)
  /-- `new URL(text, url.origin)`. -/
  | resolved (text : Text)

def Location.text : Location → Text
  | sent text | resolved text => text

/-- The first rule that matches, with what it captured. -/
def firstMatch (pathname : Text) : List RedirectRule → Option (RedirectRule × List (Text × Text))
  | [] => none
  | rule :: rules =>
      match matchRedirectPattern rule.source pathname with
      | none => firstMatch pathname rules
      | some found => some (rule, found)

variable (assets : StaticAssets)

namespace StaticAssets

/-- The path is not refused. -/
def Admits (pathname : Text) : Prop :=
  ¬ Path.parent <:+: pathname ∧
    pathText assets.directory <+: pathText (Path.join assets.directory ('.' :: pathname))

/-- A slash is missing at the end. -/
def AddsSlash (pathname : Text) : Prop :=
  assets.Admits pathname ∧ assets.htmlHandling = .forceTrailingSlash ∧
    pathname.getLast? ≠ some '/' ∧ pathname ≠ ['/'] ∧ hasExtension pathname = false

/-- The slash at the end is too many. -/
def DropsSlash (pathname : Text) : Prop :=
  assets.Admits pathname ∧ assets.htmlHandling = .dropTrailingSlash ∧
    pathname.getLast? = some '/' ∧ pathname ≠ ['/']

instance (pathname : Text) : Decidable (assets.Admits pathname) :=
  inferInstanceAs (Decidable (_ ∧ _))

instance (pathname : Text) : Decidable (assets.AddsSlash pathname) :=
  inferInstanceAs (Decidable (_ ∧ _))

instance (pathname : Text) : Decidable (assets.DropsSlash pathname) :=
  inferInstanceAs (Decidable (_ ∧ _))

/-- The redirect for the slash at the end. -/
def htmlRedirect (search pathname : Text) : Option Text :=
  if assets.AddsSlash pathname then some (pathname ++ '/' :: search)
  else if assets.DropsSlash pathname then some (pathname.dropLast ++ search)
  else none

/-- The location of the answer to a decoded path, if that is a redirect, and the rule it comes
from. -/
def redirectionOf (search decoded : Text) : Option (Option RedirectRule × Location) :=
  match firstMatch decoded assets.redirectRules with
  | none => (assets.htmlRedirect search decoded).map fun text => (none, .resolved text)
  | some (rule, found) =>
      let target := substitute rule.target found
      if isExternal target then some (some rule, .sent target)
      else if rule.status = 200 then
        (assets.htmlRedirect search target).map fun text => (some rule, .resolved text)
      else some (some rule, .resolved (target ++ search))

def redirection (pathname search : Text) : Option (Option RedirectRule × Location) :=
  (decodeURIComponent pathname).bind (assets.redirectionOf search)

end StaticAssets

variable {assets} {search pathname text : Text} {status : ℕ}

/-- The rules, by the first of them that matches. -/
theorem applyRedirects_eq (search pathname : Text) (rules : List RedirectRule) :
    applyRedirects search pathname rules =
      match firstMatch pathname rules with
      | none => .unmatched
      | some (rule, found) =>
        if rule.status = 200 then
          if isExternal (substitute rule.target found) then
            .response 302 (substitute rule.target found)
          else .rewritten (substitute rule.target found)
        else .response rule.status (if isExternal (substitute rule.target found) then
          substitute rule.target found else substitute rule.target found ++ search) := by
  induction rules with
  | nil => rfl
  | cons rule rules ih =>
    rw [applyRedirects, firstMatch]
    cases matchRedirectPattern rule.source pathname with
    | none => exact ih
    | some found => rfl

namespace StaticAssets

/-- No file is answered with a redirect. -/
theorem notFound_ne_redirect : assets.notFound pathname ≠ .redirect status text := by
  intro h
  unfold notFound at h
  split at h
  · cases h
  · split at h <;> cases h
  · split at h <;> cases h

theorem serve_eq_redirect_iff :
    assets.serve search pathname = .redirect status text ↔
      status = 307 ∧ assets.htmlRedirect search pathname = some text := by
  rw [serve, htmlRedirect]
  by_cases hparent : Path.parent <:+: pathname
  · simp [hparent, AddsSlash, DropsSlash, Admits]
  by_cases hbelow : pathText assets.directory <+:
      pathText (Path.join assets.directory ('.' :: pathname))
  · have hadmits : assets.Admits pathname := ⟨hparent, hbelow⟩
    rw [if_neg hparent, if_neg (not_not.mpr hbelow)]
    simp only [AddsSlash, DropsSlash, hadmits, true_and]
    split
    · simp [eq_comm]
    split
    · simp [eq_comm]
    · refine iff_of_false (fun h => ?_) fun h => by cases h.2
      split at h
      · cases h
      · exact notFound_ne_redirect h
  · simp [hparent, hbelow, AddsSlash, DropsSlash, Admits]

/-- **Redirects.** The locations are the texts of the redirects that `fetch` answers with. -/
theorem fetch_redirects_iff :
    (∃ status, assets.fetch pathname search = .redirect status text) ↔
      ∃ rule location, assets.redirection pathname search = some (rule, location) ∧
        location.text = text := by
  rw [fetch, redirection]
  cases decodeURIComponent pathname with
  | none => simp
  | some decoded =>
    dsimp only
    rw [applyRedirects_eq, Option.bind_some, redirectionOf]
    cases firstMatch decoded assets.redirectRules with
    | none => simp [serve_eq_redirect_iff, Location.text]
    | some found =>
      dsimp only
      by_cases hstatus : found.1.status = 200
      · by_cases hexternal : isExternal (substitute found.1.target found.2) = true
        · simp [hstatus, hexternal, Location.text]
        · simp [hstatus, hexternal, serve_eq_redirect_iff, Location.text]
      · by_cases hexternal : isExternal (substitute found.1.target found.2) = true
        · simp [hstatus, hexternal, Location.text]
        · simp [hstatus, hexternal, Location.text]

end StaticAssets

/-! ### Origins -/

section Origin

variable {Host : Type} (parseHost : Bool → Text → Option Host) (own : Origin Host)

/-- What a location leads to; there is none if `new URL` throws. -/
def Location.leadsTo : Location → Option (Resolved Host)
  | sent text => some (resolve parseHost own text)
  | resolved text =>
      match resolve parseHost own text with
      | .failure => none
      | r => some r

/-- A target that is written as an absolute URL, in small or in capital letters. -/
def writtenAbsolute (target : Text) : Bool := isExternal (target.map Char.toLower)

/-- The location, if there is one, leads to the origin of the request, unless the target of the
rule it comes from is written as an absolute URL. -/
def LeadsHome (redirection : Option (Option RedirectRule × Location)) : Prop :=
  ∀ rule location, redirection = some (rule, location) →
    rule.all (fun r => !writtenAbsolute r.target) = true →
    ∀ r, location.leadsTo parseHost own = some r → r = .origin own

def StaysOnOrigin (assets : StaticAssets) (pathname search : Text) : Prop :=
  LeadsHome parseHost own (assets.redirection pathname search)

/-- The text keeps to the origin, or it is no URL. -/
def Harmless (text : Text) : Prop :=
  Keeps parseHost own text ∨ resolve parseHost own text = .failure

/-- The text with the slash added or dropped keeps to the origin. -/
def SlashKeeps (assets : StaticAssets) (search pathname : Text) : Prop :=
  (assets.AddsSlash pathname → Harmless parseHost own (pathname ++ '/' :: search)) ∧
    (assets.DropsSlash pathname → Harmless parseHost own (pathname.dropLast ++ search))

/-- The target of a rule with the captured texts keeps to the origin: as it is, with a slash added
or dropped behind a rewrite, or with the query. -/
def TargetKeeps (assets : StaticAssets) (search : Text) (status : ℕ) (target : Text) : Prop :=
  if isExternal target then Keeps parseHost own target
  else if status = 200 then SlashKeeps parseHost own assets search target
  else Harmless parseHost own (target ++ search)

/-- The path, if no rule matches, or else the target of the first rule that does, with the captured
texts, keeps to the origin, unless the target is written as an absolute URL. -/
def KeepsOrigin (assets : StaticAssets) (pathname search : Text) : Prop :=
  ∀ decoded, decodeURIComponent pathname = some decoded →
    (firstMatch decoded assets.redirectRules = none →
      SlashKeeps parseHost own assets search decoded) ∧
    ∀ rule found, firstMatch decoded assets.redirectRules = some (rule, found) →
      writtenAbsolute rule.target = false →
        TargetKeeps parseHost own assets search rule.status (substitute rule.target found)

variable {parseHost own}

theorem leadsTo_sent_iff :
    (∀ r, (Location.sent text).leadsTo parseHost own = some r → r = .origin own) ↔
      Keeps parseHost own text := by
  rw [← resolve_eq_origin_iff]
  exact ⟨fun h => h _ rfl, fun h r hr => Option.some.inj hr ▸ h⟩

theorem leadsTo_resolved_iff :
    (∀ r, (Location.resolved text).leadsTo parseHost own = some r → r = .origin own) ↔
      Harmless parseHost own text := by
  rw [Harmless, ← resolve_eq_origin_iff]
  cases hresolved : resolve parseHost own text with
  | failure => simp [Location.leadsTo, hresolved]
  | null => simp [Location.leadsTo, hresolved]
  | origin o => simp [Location.leadsTo, hresolved]

theorem leadsHome_some_iff {rule : Option RedirectRule} {location : Location} :
    LeadsHome parseHost own (some (rule, location)) ↔
      (rule.all (fun r => !writtenAbsolute r.target) = true →
        ∀ r, location.leadsTo parseHost own = some r → r = .origin own) := by
  constructor
  · exact fun h => h rule location rfl
  · intro h rule' location' heq
    obtain ⟨rfl, rfl⟩ := Prod.mk.inj (Option.some.inj heq)
    exact h

theorem leadsHome_htmlRedirect_iff {rule : Option RedirectRule} :
    LeadsHome parseHost own
        ((assets.htmlRedirect search pathname).map fun text => (rule, .resolved text)) ↔
      (rule.all (fun r => !writtenAbsolute r.target) = true →
        SlashKeeps parseHost own assets search pathname) := by
  have hnone : LeadsHome parseHost own none := fun _ _ h => by cases h
  rw [StaticAssets.htmlRedirect, SlashKeeps]
  by_cases hadds : assets.AddsSlash pathname
  · have hdrops : ¬ assets.DropsSlash pathname := fun h => hadds.2.2.1 h.2.2.1
    simp [hadds, hdrops, leadsHome_some_iff, leadsTo_resolved_iff]
  · by_cases hdrops : assets.DropsSlash pathname
    · simp [hadds, hdrops, leadsHome_some_iff, leadsTo_resolved_iff]
    · simp [hadds, hdrops, hnone]

/-- A rule leads home if its target does, with the captured texts. -/
theorem leadsHome_of_match {decoded : Text} {rule : RedirectRule} {found : List (Text × Text)}
    (h : firstMatch decoded assets.redirectRules = some (rule, found)) :
    LeadsHome parseHost own (assets.redirectionOf search decoded) ↔
      (writtenAbsolute rule.target = false →
        TargetKeeps parseHost own assets search rule.status (substitute rule.target found)) := by
  have hall : (some rule).all (fun r => !writtenAbsolute r.target) = true ↔
      writtenAbsolute rule.target = false := by
    rw [Option.all_some, Bool.not_eq_true']
  rw [StaticAssets.redirectionOf, h, TargetKeeps]
  dsimp only
  split
  · rw [leadsHome_some_iff, hall, leadsTo_sent_iff]
  · split
    · rw [leadsHome_htmlRedirect_iff, hall]
    · rw [leadsHome_some_iff, hall, leadsTo_resolved_iff]

/-- **Staying on the origin.** No location leads to another origin, but for rules whose target is
written as an absolute URL, exactly if what the locations are made of keeps to the origin. -/
theorem staysOnOrigin_iff {Host : Type} (parseHost : Bool → Text → Option Host)
    (own : Origin Host) (assets : StaticAssets) (pathname search : Text) :
    StaysOnOrigin parseHost own assets pathname search ↔
      KeepsOrigin parseHost own assets pathname search := by
  rw [StaysOnOrigin, KeepsOrigin, StaticAssets.redirection]
  cases decodeURIComponent pathname with
  | none => exact iff_of_true (fun _ _ h => by cases h) fun _ h => by cases h
  | some decoded =>
      rw [Option.bind_some]
      simp only [Option.some.injEq, forall_eq']
      cases hmatch : firstMatch decoded assets.redirectRules with
      | none =>
          rw [StaticAssets.redirectionOf, hmatch]
          simp [leadsHome_htmlRedirect_iff]
      | some matched =>
          obtain ⟨rule, found⟩ := matched
          rw [leadsHome_of_match hmatch]
          simp

end Origin

/-- Assets that drop a slash at the end. -/
def plainAssets : StaticAssets where
  directory := ["srv".toList]
  normalized := by decide
  htmlHandling := .dropTrailingSlash
  notFoundHandling := .none
  redirectRules := []
  disk _ := none

/-- The parser of a host that is a name in ASCII. -/
def asciiHost (_ : Bool) (name : Text) : Option Text := some (name.map Char.toLower)

def localOrigin : Origin Text := ⟨.http, "localhost".toList, some 8787⟩

/-- A request of `//evil.test/` is redirected to that host. -/
theorem not_staysOnOrigin :
    plainAssets.redirection "//evil.test/".toList [] =
        some (none, .resolved "//evil.test".toList) ∧
      resolve asciiHost localOrigin "//evil.test".toList =
        .origin ⟨.http, "evil.test".toList, none⟩ ∧
      ¬ StaysOnOrigin asciiHost localOrigin plainAssets "//evil.test/".toList [] := by
  have hredirection : plainAssets.redirection "//evil.test/".toList [] =
      some (none, .resolved "//evil.test".toList) := by
    have hdecoded : decodeURIComponent "//evil.test/".toList = some "//evil.test/".toList := by
      decide +kernel
    have hdrops : plainAssets.DropsSlash "//evil.test/".toList := by decide +kernel
    have hadds : ¬ plainAssets.AddsSlash "//evil.test/".toList := by decide +kernel
    have hmatch : firstMatch "//evil.test/".toList plainAssets.redirectRules = none := rfl
    rw [StaticAssets.redirection, hdecoded, Option.bind_some, StaticAssets.redirectionOf, hmatch]
    dsimp only
    rw [StaticAssets.htmlRedirect, if_neg hadds, if_pos hdrops]
    rfl
  have hresolve : resolve asciiHost localOrigin "//evil.test".toList =
      .origin ⟨.http, "evil.test".toList, none⟩ := by
    decide +kernel
  refine ⟨hredirection, hresolve, fun h => ?_⟩
  have hleads : (Location.resolved "//evil.test".toList).leadsTo asciiHost localOrigin =
      some (.origin ⟨.http, "evil.test".toList, none⟩) := by
    rw [Location.leadsTo, hresolve]
  have heq := h _ _ hredirection rfl _ hleads
  exact absurd heq (by decide)

end Lopata.Assets

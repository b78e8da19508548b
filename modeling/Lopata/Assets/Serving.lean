import Lopata.Assets.Redirects

/-!
# Serving Static Assets

`StaticAssets.fetch` decodes the path of a request, applies the redirect rules, refuses what
contains `..` and what does not resolve into the directory of the assets, and then tries files:
the path itself, its `index.html`, the path with `.html` appended, and on no match the
`index.html` or the nearest `404.html`.

## Main results

* `contained_iff`: the file that is served lies in the directory of the assets, unless the path is
  one that stands for the directory itself, the directory has no `index.html`, and next to it
  there is a file of the directory's name with `.html` appended.
* `serves_beside`: `/%2F.` is such a path.
-/

namespace Lopata.Assets

/-! ### Decoding -/

/-- A piece of an encoded text. -/
inductive Encoded where
  | char (c : Char)
  | byte (b : UInt8)

/-- The pieces; none if a `%` is not followed by two digits. -/
def units : Text → Option (List Encoded)
  | [] => some []
  | '%' :: h :: l :: rest => do
      let high ← hexDigit h
      let low ← hexDigit l
      let rest ← units rest
      return .byte (UInt8.ofNat (high * 16 + low)) :: rest
  | '%' :: _ => none
  | c :: rest => (units rest).map (.char c :: ·)

/-- The next byte of a character, if it may follow. -/
def decodeByte : Option Utf8Pending → UInt8 → Option (Text × Option Utf8Pending)
  | none, b => if (utf8First b).1 = [replacement] then none else some (utf8First b)
  | some p, b =>
      if p.lowerBoundary ≤ b.toNat ∧ b.toNat ≤ p.upperBoundary then some (utf8Byte (some p) b)
      else none

def decodeUnits : Option Utf8Pending → List Encoded → Option Text
  | none, [] => some []
  | some _, [] => none
  | none, .char c :: rest => (decodeUnits none rest).map (c :: ·)
  | some _, .char _ :: _ => none
  | pending, .byte b :: rest => do
      let (text, pending) ← decodeByte pending b
      let rest ← decodeUnits pending rest
      return text ++ rest

/-- `decodeURIComponent`; none if it throws. -/
def decodeURIComponent (text : Text) : Option Text := (units text).bind (decodeUnits none)

/-! ### Paths of files -/

/-- The path of a file; `slash` if its text ends with a separator. -/
structure Target where
  path : Path
  slash : Bool

/-- `path.join(directory, text)`. -/
def joinTarget (directory : Path) (text : Text) : Target :=
  ⟨Path.join directory text, decide (text.getLast? = some '/')⟩

def htmlSuffix : Text := ".html".toList

def indexName : Text := "index.html".toList

/-- `path + '.html'`: of a text that ends with a separator it is a name of its own. -/
def Target.withHtml (t : Target) : Path :=
  match t.slash, t.path.getLast? with
  | false, some last => t.path.dropLast ++ [last ++ htmlSuffix]
  | _, _ => t.path ++ [htmlSuffix]

/-- The text of a path. -/
def pathText (p : Path) : Text :=
  if p = [] then ['/'] else p.flatMap ('/' :: ·)

/-- The text up to the last component: empty, or it ends with the separator in front of it. -/
def beforeLast (text : Text) : Text :=
  ((text.reverse.dropWhile (· = '/')).dropWhile (· ≠ '/')).reverse

/-- `path.posix.dirname`. -/
def dirname (text : Text) : Text :=
  if (beforeLast text).length ≤ 1 then if text.head? = some '/' then ['/'] else ['.']
  else if text.head? = some '/' ∧ (beforeLast text).length = 2 then ['/', '/']
  else (beforeLast text).dropLast

/-- Whether `path.extname` is not empty: the last component has a dot that is not its first
character, and is not `..`. -/
def hasExtension (text : Text) : Bool :=
  let base := ((text.reverse.dropWhile (· = '/')).takeWhile (· ≠ '/')).reverse
  '.' ∈ base.tail && base ≠ Path.parent

/-! ### Assets -/

inductive HtmlHandling where
  | none
  | autoTrailingSlash
  | forceTrailingSlash
  | dropTrailingSlash
  deriving DecidableEq

inductive NotFoundHandling where
  | none
  | notFoundPage
  | singlePageApplication
  deriving DecidableEq

/-- What a path leads to. -/
inductive Kind where
  | file
  | directory
  deriving DecidableEq

/-- The assets; the path of their directory is absolute and normalized, and the disk has no
symbolic links. -/
structure StaticAssets where
  directory : Path
  normalized : ∀ n ∈ directory, Path.IsPlain n
  htmlHandling : HtmlHandling
  notFoundHandling : NotFoundHandling
  redirectRules : List RedirectRule
  disk : Path → Option Kind

inductive Response where
  /-- A percent sequence that cannot be decoded. -/
  | uriError
  | redirect (status : ℕ) (location : Text)
  | badRequest
  | notFound
  | file (path : Path) (status : ℕ)

variable (assets : StaticAssets)

namespace StaticAssets

/-- `Bun.file(path).exists()`. -/
def exists? (t : Target) : Bool := assets.disk t.path = some .file && !t.slash

def isDirectory (p : Path) : Bool := assets.disk p = some .directory

def indexPath : Path := assets.directory ++ [indexName]

/-- Strip the trailing slash, except of the root. -/
def stripSlash (pathname : Text) : Text :=
  if pathname ≠ ['/'] ∧ pathname.getLast? = some '/' then pathname.dropLast else pathname

def resolveFile (pathname : Text) : Option Path :=
  let pathname := stripSlash pathname
  let direct := joinTarget assets.directory pathname
  if assets.exists? direct && !assets.isDirectory direct.path then some direct.path
  else if pathname = ['/'] ∨ pathname = [] then
    if assets.exists? ⟨assets.indexPath, false⟩ then some assets.indexPath else none
  else if assets.htmlHandling = .none then none
  else if assets.exists? ⟨direct.path ++ [indexName], false⟩ then some (direct.path ++ [indexName])
  else if assets.exists? ⟨direct.withHtml, false⟩ then some direct.withHtml
  else none

end StaticAssets

/-! ### Directories end -/

theorem prefix_beforeLast (text : Text) : beforeLast text <+: text := by
  have hsuffix := (List.dropWhile_suffix (fun c : Char => decide (c ≠ '/'))
    (l := text.reverse.dropWhile (· = '/'))).trans (List.dropWhile_suffix _)
  rw [← List.reverse_prefix, List.reverse_reverse] at hsuffix
  exact hsuffix

/-- What is in front of the last component is shorter. -/
theorem length_dirname_lt {text : Text} (hroot : text ≠ ['/']) (hempty : text ≠ [])
    (hdot : dirname text ≠ ['.']) : (dirname text).length < text.length := by
  have hle := (prefix_beforeLast text).length_le
  have hpos := List.length_pos_of_ne_nil hempty
  unfold dirname at hdot ⊢
  split at hdot
  · next hshort =>
      rw [if_pos hshort]
      split at hdot
      · next hhead =>
          rw [if_pos hhead]
          obtain ⟨c, rest, rfl⟩ := List.exists_cons_of_ne_nil hempty
          obtain rfl := Option.some.inj hhead
          have hrest : rest ≠ [] := fun h => hroot (h ▸ rfl)
          have hlen := List.length_pos_of_ne_nil hrest
          simp only [List.length_cons, List.length_nil]
          omega
      · exact absurd rfl hdot
  · next hlong =>
      rw [if_neg hlong]
      split
      · next htwo =>
          -- the separator of the root is no component's end
          have hne : (beforeLast text).length ≠ text.length := by
            intro heq
            have hself := (prefix_beforeLast text).eq_of_length heq
            rw [heq] at htwo
            obtain ⟨c, rest, rfl⟩ := List.exists_cons_of_ne_nil hempty
            obtain ⟨d, rfl⟩ : ∃ d, rest = [d] := by
              rw [← List.length_eq_one_iff]
              simpa using htwo.2
            obtain rfl := Option.some.inj htwo.1
            by_cases hd : d = '/'
            · subst hd
              exact absurd hself (by decide)
            · simp [beforeLast, hd] at hself
          simp only [List.length_cons, List.length_nil]
          omega
      · rw [List.length_dropLast]
        omega

namespace StaticAssets

/-- The loop of `findNearest404`, which ends at the root. -/
def walkUp (dir : Text) : Option Path :=
  let candidate := Path.join (Path.join assets.directory dir) "404.html".toList
  if assets.exists? ⟨candidate, false⟩ then some candidate
  else if dir = ['/'] ∨ dir = [] ∨ dir = ['.'] then none
  else walkUp (dirname dir)
termination_by if dir = ['/'] ∨ dir = [] ∨ dir = ['.'] then 0 else dir.length + 1
decreasing_by
  next hmore =>
    rw [if_neg hmore]
    split
    · omega
    · next hnext =>
        have hlt := length_dirname_lt (fun h => hmore (.inl h)) (fun h => hmore (.inr (.inl h)))
          fun h => hnext (.inr (.inr h))
        omega

def findNearest404 (pathname : Text) : Option Path :=
  assets.walkUp (if pathname.getLast? = some '/' then pathname else dirname pathname)

/-- The answer if no file is found. -/
def notFound (pathname : Text) : Response :=
  match assets.notFoundHandling with
  | .none => .notFound
  | .singlePageApplication =>
      if assets.exists? ⟨assets.indexPath, false⟩ then .file assets.indexPath 200 else .notFound
  | .notFoundPage =>
      match assets.findNearest404 pathname with
      | some path => .file path 404
      | none => .notFound

/-- The part of `fetch` behind the redirect rules. -/
def serve (search pathname : Text) : Response :=
  if Path.parent <:+: pathname then .badRequest
  else if ¬ pathText assets.directory <+:
      pathText (Path.join assets.directory ('.' :: pathname)) then .badRequest
  else if assets.htmlHandling = .forceTrailingSlash ∧ pathname.getLast? ≠ some '/' ∧
      pathname ≠ ['/'] ∧ hasExtension pathname = false then
    .redirect 307 (pathname ++ '/' :: search)
  else if assets.htmlHandling = .dropTrailingSlash ∧ pathname.getLast? = some '/' ∧
      pathname ≠ ['/'] then
    .redirect 307 (pathname.dropLast ++ search)
  else
    match assets.resolveFile pathname with
    | some path => .file path 200
    | none => assets.notFound pathname

/-- `fetch` of a URL with a path and a query. -/
def fetch (pathname search : Text) : Response :=
  match decodeURIComponent pathname with
  | none => .uriError
  | some pathname =>
      match applyRedirects search pathname assets.redirectRules with
      | .response status location => .redirect status location
      | .rewritten pathname => assets.serve search pathname
      | .unmatched => assets.serve search pathname

end StaticAssets

/-! ### Containment -/

/-- The file that is served, if any, lies in the directory of the assets. -/
def Contained (response : Response) : Prop :=
  ∀ path status, response = .file path status → Path.Within assets.directory path

/-- The path that files are looked up under: decoded, and rewritten by the redirect rules. -/
def LooksUp (pathname search : Text) (q : Text) : Prop :=
  ∃ decoded, decodeURIComponent pathname = some decoded ∧
    (applyRedirects search decoded assets.redirectRules = .rewritten q ∨
      applyRedirects search decoded assets.redirectRules = .unmatched ∧ decoded = q)

/-- A path that stands for the directory of the assets, by a last component that is a dot. -/
def NamesDirectory (q : Text) : Prop :=
  q.head? = some '/' ∧ StaticAssets.stripSlash q ≠ [] ∧
    (StaticAssets.stripSlash q).getLast? ≠ some '/' ∧
    ∀ n ∈ Path.components (StaticAssets.stripSlash q), n = [] ∨ n = Path.here

/-- A file next to the directory of the assets that has its name with `.html` appended is found
in place of the directory's `index.html`, which does not exist. -/
def Beside (q : Text) : Prop :=
  NamesDirectory q ∧ assets.directory ≠ [] ∧ assets.htmlHandling ≠ .none ∧
    (assets.htmlHandling = .forceTrailingSlash → q.getLast? = some '/') ∧
    (assets.htmlHandling = .dropTrailingSlash → q.getLast? ≠ some '/') ∧
    assets.disk assets.directory ≠ some .file ∧
    assets.disk assets.indexPath ≠ some .file ∧
    assets.disk (Target.withHtml ⟨assets.directory, false⟩) = some .file

variable {assets}

namespace StaticAssets

/-! #### What is looked up -/

theorem prefix_stripSlash (q : Text) : stripSlash q <+: q := by
  unfold stripSlash
  split
  · exact List.dropLast_prefix q
  · exact List.prefix_refl q

/-- A text is what is stripped of it and at most a slash. -/
theorem stripSlash_eq_or (q : Text) : q = stripSlash q ∨ q = stripSlash q ++ ['/'] := by
  unfold stripSlash
  split
  · next h => exact .inr (List.dropLast_append_getLast? '/' h.2).symm
  · exact .inl rfl

theorem not_infix_parent {text q : Text} (hq : ¬ Path.parent <:+: q) (h : text <+: q) :
    Path.parent ∉ Path.components text :=
  Path.parent_not_mem_components fun hsub => hq (hsub.trans h.isInfix)

variable (assets) in
theorem within_direct {q : Text} (hq : ¬ Path.parent <:+: q) :
    Path.Within assets.directory (joinTarget assets.directory (stripSlash q)).path :=
  Path.prefix_join _ (not_infix_parent hq (prefix_stripSlash q))

/-- `dirname` of a text without `..` has none. -/
theorem not_parent_dirname {text : Text} (h : ¬ Path.parent <:+: text) :
    ¬ Path.parent <:+: dirname text := by
  have hbefore : ¬ Path.parent <:+: beforeLast text := fun hsub =>
    h (hsub.trans (prefix_beforeLast text).isInfix)
  unfold dirname
  split
  · split <;> decide
  · split
    · decide
    · exact fun hsub => hbefore (hsub.trans (List.dropLast_prefix _).isInfix)

theorem within_walkUp {dir : Text} {path : Path} (hdir : ¬ Path.parent <:+: dir)
    (h : assets.walkUp dir = some path) : Path.Within assets.directory path := by
  induction dir using walkUp.induct assets with
  | case1 dir candidate hexists =>
    rw [walkUp, if_pos hexists] at h
    obtain rfl := Option.some.inj h
    exact (Path.prefix_join _ (Path.parent_not_mem_components hdir)).trans
      (Path.prefix_join _ (by decide))
  | case2 dir candidate hexists hroot =>
    rw [walkUp, if_neg hexists, if_pos hroot] at h
    cases h
  | case3 dir candidate hexists hroot ih =>
    rw [walkUp, if_neg hexists, if_neg hroot] at h
    exact ih (not_parent_dirname hdir) h

theorem within_findNearest404 {q : Text} {path : Path} (hq : ¬ Path.parent <:+: q)
    (h : assets.findNearest404 q = some path) : Path.Within assets.directory path := by
  unfold findNearest404 at h
  split at h
  · exact within_walkUp hq h
  · exact within_walkUp (not_parent_dirname hq) h

theorem within_notFound {q : Text} {path : Path} {status : ℕ} (hq : ¬ Path.parent <:+: q)
    (h : assets.notFound q = .file path status) : Path.Within assets.directory path := by
  unfold notFound at h
  split at h
  · cases h
  · split at h
    · obtain ⟨rfl, -⟩ := Response.file.inj h
      exact Path.within_append _ _
    · cases h
  · split at h
    · next found hfound =>
        obtain ⟨rfl, -⟩ := Response.file.inj h
        exact within_findNearest404 hq hfound
    · cases h

/-- Which file a path resolves to. -/
theorem resolveFile_cases {q : Text} {path : Path} (h : assets.resolveFile q = some path) :
    let direct := joinTarget assets.directory (stripSlash q)
    path = direct.path ∨ path = assets.indexPath ∨ path = direct.path ++ [indexName] ∨
      path = direct.withHtml ∧ stripSlash q ≠ ['/'] ∧ stripSlash q ≠ [] ∧
        assets.htmlHandling ≠ .none ∧
        (direct.slash = false → assets.disk direct.path ≠ some .file) ∧
        assets.disk (direct.path ++ [indexName]) ≠ some .file ∧
        assets.disk direct.withHtml = some .file := by
  intro direct
  simp only [resolveFile] at h
  split at h
  · exact .inl (Option.some.inj h).symm
  · next hdirect =>
      split at h
      · split at h
        · exact .inr (.inl (Option.some.inj h).symm)
        · cases h
      · next hroot =>
          rw [not_or] at hroot
          split at h
          · cases h
          · next hhandling =>
              split at h
              · exact .inr (.inr (.inl (Option.some.inj h).symm))
              · next hindex =>
                  split at h
                  · next hhtml =>
                      refine .inr (.inr (.inr ⟨(Option.some.inj h).symm, hroot.1, hroot.2,
                        hhandling, fun hslash hfile => ?_, ?_, ?_⟩))
                      · simp [exists?, isDirectory, direct, hslash, hfile] at hdirect
                      · simpa [exists?] using hindex
                      · simpa [exists?] using hhtml
                  · cases h

end StaticAssets

/-! #### The name with `.html` appended -/

/-- Appended to a path below the directory, or to a text that ends with a separator, the name stays
within. -/
theorem within_withHtml {root : Path} {t : Target} (h : Path.Within root t.path)
    (hbelow : t.slash = true ∨ t.path ≠ root ∨ root = []) : Path.Within root t.withHtml := by
  obtain ⟨below, hpath⟩ := h
  unfold Target.withHtml
  split
  · next last hslash hlast =>
      rw [hslash] at hbelow
      rcases hbelow with hslash' | hne | rfl
      · cases hslash'
      · have hnonempty : below ≠ [] := by
          rintro rfl
          exact hne (by rw [← hpath, List.append_nil])
        rw [← hpath, List.dropLast_append_of_ne_nil hnonempty, List.append_assoc]
        exact Path.within_append _ _
      · exact List.nil_prefix
  · rw [← hpath, List.append_assoc]
    exact Path.within_append _ _

/-- Next to the directory it does not. -/
theorem not_within_beside {root : Path} (hroot : root ≠ []) :
    ¬ Path.Within root (Target.withHtml ⟨root, false⟩) := by
  obtain ⟨before, last, rfl⟩ := (List.eq_nil_or_concat root).resolve_left hroot
  intro hwithin
  simp only [Target.withHtml, List.concat_eq_append, List.getLast?_append, List.getLast?_singleton,
    List.dropLast_concat] at hwithin
  have heq := List.IsPrefix.eq_of_length hwithin (by simp)
  have hlast : last = last ++ htmlSuffix := by simpa using heq
  have hlen := congrArg List.length hlast
  rw [List.length_append] at hlen
  have hsuffix : htmlSuffix.length = 5 := by decide
  omega

/-! #### Paths that stand for the directory -/

/-- A text names the directory it is joined to if no component of it is plain. -/
theorem components_of_joinTarget_eq_self {root : Path} {text : Text}
    (hparent : Path.parent ∉ Path.components text)
    (hself : (joinTarget root text).path = root) :
    ∀ n ∈ Path.components text, n = [] ∨ n = Path.here := by
  intro n hn
  have hfilter : (Path.components text).filter Path.IsPlain = [] := by
    have happend := (Path.join_eq_append root hparent).symm.trans hself
    simpa using happend
  by_contra hnot
  rw [not_or] at hnot
  have hplain : Path.IsPlain n := ⟨hnot.1, hnot.2, fun h => hparent (h ▸ hn)⟩
  exact List.filter_eq_nil_iff.mp hfilter n hn (decide_eq_true hplain)

theorem foldl_enter_eq_self (root : Path) {ns : List Name} (h : ∀ n ∈ ns, n = [] ∨ n = Path.here) :
    ns.foldl Path.enter root = root := by
  have hparent : Path.parent ∉ ns := by
    intro hmem
    rcases h _ hmem with heq | heq <;> exact absurd heq (by decide)
  rw [Path.foldl_enter_eq_append _ hparent, List.filter_eq_nil_iff.mpr, List.append_nil]
  intro n hn hplain
  exact (h n hn).elim (of_decide_eq_true hplain).1 (of_decide_eq_true hplain).2.1

/-- What is stripped of a text is an empty component. -/
theorem mem_components_of_stripSlash {q : Text}
    (h : ∀ n ∈ Path.components (StaticAssets.stripSlash q), n = [] ∨ n = Path.here) :
    ∀ n ∈ Path.components q, n = [] ∨ n = Path.here := by
  intro n hn
  rcases StaticAssets.stripSlash_eq_or q with heq | heq
  · exact h n (heq ▸ hn)
  · rw [heq, Path.components_append_separator, Path.components_nil] at hn
    rcases List.mem_append.mp hn with hn | hn
    · exact h n hn
    · exact .inl (List.mem_singleton.mp hn)

theorem NamesDirectory.not_parent {q : Text} (h : NamesDirectory q) : ¬ Path.parent <:+: q := by
  obtain ⟨-, -, -, hcomp⟩ := h
  intro hparent
  obtain ⟨m, hm, hsub⟩ := Path.exists_infix_component (by decide) hparent
  have hlen := hsub.length_le
  rcases mem_components_of_stripSlash hcomp m hm with rfl | rfl <;> exact absurd hlen (by decide)

theorem NamesDirectory.joinTarget {q : Text} (h : NamesDirectory q) (root : Path) :
    joinTarget root (StaticAssets.stripSlash q) = ⟨root, false⟩ := by
  obtain ⟨-, -, hlast, hcomp⟩ := h
  simp only [Assets.joinTarget, Target.mk.injEq]
  exact ⟨foldl_enter_eq_self root hcomp, decide_eq_false hlast⟩

/-- Behind a dot, such a path resolves to the directory. -/
theorem NamesDirectory.resolve {q : Text} (h : NamesDirectory q) (root : Path) :
    Path.join root ('.' :: q) = root := by
  obtain ⟨hhead, -, -, hcomp⟩ := h
  obtain ⟨rest, rfl⟩ := List.head?_eq_some_iff.mp hhead
  refine foldl_enter_eq_self root fun n hn => ?_
  rw [show ('.' :: '/' :: rest) = ['.'] ++ '/' :: rest from rfl,
    Path.components_append_separator] at hn
  rcases List.mem_append.mp hn with hn | hn
  · exact .inr (List.mem_singleton.mp hn)
  · refine mem_components_of_stripSlash hcomp n ?_
    rw [Path.components_separator]
    exact List.mem_cons_of_mem _ hn

theorem length_pathText_dropLast {root : Path} (hroot : root ≠ [])
    (hplain : ∀ n ∈ root, Path.IsPlain n) :
    (pathText root.dropLast).length < (pathText root).length := by
  obtain ⟨before, last, rfl⟩ := (List.eq_nil_or_concat root).resolve_left hroot
  have hlast : 0 < last.length := by
    refine List.length_pos_of_ne_nil (hplain last ?_).1
    simp
  by_cases hbefore : before = []
  · subst hbefore
    simpa [pathText] using hlast
  · simp [pathText, hbefore]

/-- Without a separator in front, a text of dots goes up behind a dot. -/
theorem head?_of_resolve (hdir : assets.directory ≠ []) {q : Text} (hne : q ≠ [])
    (hcomp : ∀ n ∈ Path.components q, n = [] ∨ n = Path.here)
    (hresolve : pathText assets.directory <+:
      pathText (Path.join assets.directory ('.' :: q))) : q.head? = some '/' := by
  obtain ⟨c, rest, rfl⟩ := List.exists_cons_of_ne_nil hne
  by_contra hhead
  have hc : c ≠ '/' := fun h => hhead (h ▸ rfl)
  obtain ⟨m, ms, hrest⟩ := List.exists_cons_of_ne_nil (List.splitOn_ne_nil '/' rest)
  have hrest : Path.components rest = m :: ms := hrest
  rw [Path.components_cons hc, hrest, List.modifyHead_cons] at hcomp
  have hfirst : c :: m = Path.here := by
    rcases hcomp _ List.mem_cons_self with h | h
    · cases h
    · exact h
  have hup : Path.join assets.directory ('.' :: c :: rest) = assets.directory.dropLast := by
    rw [Path.join, Path.components_cons (by decide), Path.components_cons hc, hrest,
      List.modifyHead_cons, List.modifyHead_cons, hfirst, List.foldl_cons]
    exact foldl_enter_eq_self _ fun n hn => hcomp n (List.mem_cons_of_mem _ hn)
  rw [hup] at hresolve
  have hlen := length_pathText_dropLast hdir assets.normalized
  have hle := hresolve.length_le
  omega

/-- The last component of such a path has no extension. -/
theorem hasExtension_eq_false {q : Text}
    (hcomp : ∀ n ∈ Path.components q, n = [] ∨ n = Path.here) : hasExtension q = false := by
  have hlast : ((q.reverse.dropWhile (· = '/')).takeWhile (· ≠ '/')).reverse <:+: q := by
    have hsub := (List.takeWhile_prefix (fun c : Char => decide (c ≠ '/'))
      (l := q.reverse.dropWhile (· = '/'))).isInfix.trans
        (List.dropWhile_suffix (fun c : Char => decide (c = '/'))).isInfix
    rwa [← List.reverse_infix, List.reverse_reverse] at hsub
  have hsep : '/' ∉ ((q.reverse.dropWhile (· = '/')).takeWhile (· ≠ '/')).reverse := by
    intro hmem
    have htrue := List.mem_takeWhile_imp (List.mem_reverse.mp hmem)
    exact absurd htrue (by decide)
  obtain ⟨m, hm, hsub⟩ := Path.exists_infix_component hsep hlast
  have hshort : m.length ≤ 1 := by
    rcases hcomp m hm with rfl | rfl <;> decide
  have htail : ((q.reverse.dropWhile (· = '/')).takeWhile (· ≠ '/')).reverse.tail = [] := by
    have hle := hsub.length_le
    rw [← List.length_eq_zero_iff, List.length_tail]
    omega
  simp only [hasExtension]
  rw [htail]
  rfl

namespace StaticAssets

/-- What has been checked of a path that a file is served for. -/
theorem serve_cases {search q : Text} {path : Path} {status : ℕ}
    (h : assets.serve search q = .file path status) :
    ¬ Path.parent <:+: q ∧
      pathText assets.directory <+: pathText (Path.join assets.directory ('.' :: q)) ∧
      ¬ (assets.htmlHandling = .forceTrailingSlash ∧ q.getLast? ≠ some '/' ∧ q ≠ ['/'] ∧
        hasExtension q = false) ∧
      ¬ (assets.htmlHandling = .dropTrailingSlash ∧ q.getLast? = some '/' ∧ q ≠ ['/']) ∧
      (assets.resolveFile q = some path ∨ assets.notFound q = .file path status) := by
  unfold serve at h
  split at h
  · cases h
  · next hparent =>
      split at h
      · cases h
      · next hresolve =>
          rw [not_not] at hresolve
          split at h
          · cases h
          · next hforce =>
              split at h
              · cases h
              · next hdrop =>
                  refine ⟨hparent, hresolve, hforce, hdrop, ?_⟩
                  split at h
                  · next found hfound =>
                      obtain ⟨rfl, -⟩ := Response.file.inj h
                      exact .inl hfound
                  · exact .inr h

/-- **A file outside the directory is the one beside it.** -/
theorem within_or_beside {search q : Text} {path : Path} {status : ℕ}
    (h : assets.serve search q = .file path status) :
    Path.Within assets.directory path ∨ Beside assets q := by
  obtain ⟨hparent, hresolve, hforce, hdrop, hfound | hfound⟩ := serve_cases h
  · have hdirect := within_direct assets hparent
    rcases resolveFile_cases hfound with
      rfl | rfl | rfl | ⟨rfl, hroot, hempty, hnone, hfile, hindex, hhtml⟩
    · exact .inl hdirect
    · exact .inl (Path.within_append _ _)
    · exact .inl (hdirect.trans (Path.within_append _ _))
    · by_cases hbelow : (joinTarget assets.directory (stripSlash q)).slash = true ∨
        (joinTarget assets.directory (stripSlash q)).path ≠ assets.directory ∨
        assets.directory = []
      · exact .inl (within_withHtml hdirect hbelow)
      · rw [not_or, not_or, not_not] at hbelow
        obtain ⟨hslash, hself, hdir⟩ := hbelow
        have hslash := Bool.eq_false_of_not_eq_true hslash
        have hlast : (stripSlash q).getLast? ≠ some '/' := of_decide_eq_false hslash
        have hfile := hfile hslash
        have htarget : joinTarget assets.directory (stripSlash q) =
            ⟨assets.directory, false⟩ := congrArg₂ Target.mk hself hslash
        have hcomp := components_of_joinTarget_eq_self
          (not_infix_parent hparent (prefix_stripSlash q)) hself
        have hall := mem_components_of_stripSlash hcomp
        have hne : q ≠ [] := fun h => hempty (List.prefix_nil.mp (h ▸ prefix_stripSlash q))
        rw [htarget] at hfile hindex hhtml
        refine .inr ⟨⟨head?_of_resolve hdir hne hall hresolve, hempty, hlast, hcomp⟩, hdir, hnone,
          fun hmode => ?_, fun hmode hend => ?_, hfile, hindex, hhtml⟩
        · by_contra hend
          refine hforce ⟨hmode, hend, fun h => ?_, hasExtension_eq_false hall⟩
          exact hend (h ▸ rfl)
        · refine hdrop ⟨hmode, hend, fun h => ?_⟩
          subst h
          exact hroot (by decide)
  · exact .inl (within_notFound hparent hfound)

/-- The file beside the directory is served. -/
theorem serve_of_beside (search : Text) {q : Text} (h : Beside assets q) :
    assets.serve search q = .file (Target.withHtml ⟨assets.directory, false⟩) 200 := by
  obtain ⟨hnames, hdir, hnone, hforce, hdrop, hfile, hindex, hhtml⟩ := h
  have hstrip : stripSlash q ≠ ['/'] := fun h => hnames.2.2.1 (h ▸ rfl)
  have hresolve : assets.resolveFile q = some (Target.withHtml ⟨assets.directory, false⟩) := by
    have hplain : assets.disk (assets.directory ++ [indexName]) ≠ some .file := hindex
    simp only [resolveFile, hnames.joinTarget, exists?, hfile, hplain, hhtml, hstrip,
      hnames.2.1, hnone]
    simp
  unfold serve
  rw [if_neg hnames.not_parent, if_neg, if_neg, if_neg, hresolve]
  · rintro ⟨hmode, hend, -⟩
    exact hdrop hmode hend
  · rintro ⟨hmode, hend, -⟩
    exact hend (hforce hmode)
  · rw [not_not, hnames.resolve]

end StaticAssets

/-! ### Main results -/

variable (assets)

/-- What the decoded path of a request leads to. -/
theorem fetch_cases {pathname search : Text} {path : Path} {status : ℕ}
    (h : assets.fetch pathname search = .file path status) :
    ∃ q, LooksUp assets pathname search q ∧ assets.serve search q = .file path status := by
  unfold StaticAssets.fetch at h
  split at h
  · cases h
  · next decoded hdecoded =>
      split at h
      · cases h
      · next q hq => exact ⟨q, ⟨decoded, hdecoded, .inl hq⟩, h⟩
      · next hq => exact ⟨decoded, ⟨decoded, hdecoded, .inr ⟨hq, rfl⟩⟩, h⟩

theorem fetch_of_looksUp {pathname search q : Text} (h : LooksUp assets pathname search q) :
    assets.fetch pathname search = assets.serve search q := by
  obtain ⟨decoded, hdecoded, hq | ⟨hq, rfl⟩⟩ := h
  · rw [StaticAssets.fetch, hdecoded]
    simp only [hq]
  · rw [StaticAssets.fetch, hdecoded]
    simp only [hq]

/-- **Containment.** A request is served from the directory of the assets if and only if the path
it is looked up under does not stand for a directory that has no `index.html` and, next to it, a
file of its name with `.html` appended. -/
theorem contained_iff (pathname search : Text) :
    Contained assets (assets.fetch pathname search) ↔
      ¬ ∃ q, LooksUp assets pathname search q ∧ Beside assets q := by
  constructor
  · rintro hcontained ⟨q, hlooks, hbeside⟩
    have hserve := StaticAssets.serve_of_beside search hbeside
    rw [fetch_of_looksUp assets hlooks] at hcontained
    exact not_within_beside hbeside.2.1 (hcontained _ _ hserve)
  · intro hnone path status hfetch
    obtain ⟨q, hlooks, hserve⟩ := fetch_cases assets hfetch
    exact (StaticAssets.within_or_beside hserve).resolve_right fun hbeside =>
      hnone ⟨q, hlooks, hbeside⟩

/-- The directory `/srv/public` is empty; next to it there is `/srv/public.html`. -/
def besidePublic : StaticAssets where
  directory := ["srv".toList, "public".toList]
  normalized := by decide
  htmlHandling := .autoTrailingSlash
  notFoundHandling := .none
  redirectRules := []
  disk path :=
    if path = ["srv".toList, "public".toList] then some .directory
    else if path = ["srv".toList, "public.html".toList] then some .file
    else none

/-- A request of `/%2F.` is answered with the file next to the directory. -/
theorem serves_beside : ¬ Contained besidePublic (besidePublic.fetch "/%2F.".toList []) := by
  intro hcontained
  have hdecoded : decodeURIComponent "/%2F.".toList = some "//.".toList := by decide +kernel
  have hlooks : LooksUp besidePublic "/%2F.".toList [] "//.".toList :=
    ⟨_, hdecoded, .inr ⟨rfl, rfl⟩⟩
  have hbeside : Beside besidePublic "//.".toList := by
    refine ⟨⟨rfl, ?_, ?_, ?_⟩, ?_, ?_, ?_, ?_, ?_, ?_, ?_⟩ <;> decide +kernel
  have hserve := StaticAssets.serve_of_beside [] hbeside
  rw [fetch_of_looksUp besidePublic hlooks] at hcontained
  exact not_within_beside hbeside.2.1 (hcontained _ _ hserve)

end Lopata.Assets

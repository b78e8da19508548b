import Lopata.Lib.Machine
import Lopata.Watch.ImportGraph

/-!
# The Import Graph Watcher

The watcher holds the modification time of every file of the import graph. A poll compares it with
the disk and asks for a reload if one has changed; after each reload, successful or not, the
callback rescans, which overwrites what the watcher holds. A reload reads the files one by one, and
one that is asked for while another runs is queued, once for all callers. Files are edited at any
time, each time with a modification time that the file has not had. The callbacks of a reload come
before the next poll.

## Main results

* `throughout_noticed_iff`: no edit is missed if and only if at every rescan that leaves no reload
  running or queued each file of the graph has the contents that a reload has read last, and no
  file that is not watched is edited so that a file of the graph has not.
* `not_noticed`: an edit between the read and the rescan is missed, and so is a file that is created
  again after a reload without it.
-/

namespace Lopata.Watch

variable {C : Type}

/-- The contents of a file; none if it does not exist. -/
def contentsOf (disk : Disk C) (file : File) : Option C := (disk.get? file).map (·.contents)

/-- The modification time of a file. -/
def mtimeOf (disk : Disk C) (file : File) : Option ℕ := (disk.get? file).map (·.mtime)

/-- The dev server of one worker. -/
structure Dev (C : Type) where
  disk : Disk C
  /-- The modification times that files have had. -/
  stamps : List (File × ℕ)
  /-- What a reload has read last of a file: its contents, or that it does not exist. -/
  loaded : Table File (Option C)
  /-- What the watcher holds. -/
  mtimes : Table File ℕ
  /-- How many callbacks wait for the reload that runs. -/
  running : Option ℕ
  /-- How many callbacks wait for the reload that is queued. -/
  queued : ℕ
  /-- The callbacks that are about to rescan. -/
  rescans : ℕ

/-- The first reload has begun; the start of the watcher waits for it. -/
def Dev.start (disk : Disk C) : Dev C where
  disk := disk
  stamps := disk.rows.map fun p => (p.1, p.2.mtime)
  loaded := Table.empty
  mtimes := Table.empty
  running := some 1
  queued := 0
  rescans := 0

inductive Label (C : Type) where
  /-- A file is written, or created. -/
  | write (file : File) (contents : C) (mtime : ℕ)
  | delete (file : File)
  /-- The reload that runs reads a file. -/
  | read (file : File)
  /-- The reload that runs succeeds or fails. -/
  | settle
  /-- A callback rescans. -/
  | rescan
  | poll

namespace Dev

variable (graph : Disk C → List File) (s : Dev C)

/-- A poll finds a file of the watcher changed or deleted. -/
def Fires : Prop := ∃ p ∈ s.mtimes.rows, mtimeOf s.disk p.1 ≠ some p.2

instance : Decidable s.Fires :=
  inferInstanceAs (Decidable (∃ p ∈ s.mtimes.rows, mtimeOf s.disk p.1 ≠ some p.2))

/-- `manager.reload()`, called by the watcher. -/
def reload : Dev C :=
  match s.running with
  | none => { s with running := some 1 }
  | some _ => { s with queued := s.queued + 1 }

/-- What the watcher holds after a poll. -/
def polled : Table File ℕ :=
  (s.mtimes.filter fun file _ => (mtimeOf s.disk file).isSome).mapRows fun file mtime =>
    (mtimeOf s.disk file).getD mtime

def poll : Dev C :=
  if s.Fires then { s with mtimes := s.polled }.reload else { s with mtimes := s.polled }

/-- What the watcher holds after a rescan. -/
def scanned : Table File ℕ :=
  (graph s.disk).foldl (fun next file =>
    match mtimeOf s.disk file with
    | some mtime => next.insert file mtime
    | none => next) Table.empty

def rescan : Dev C := { s with mtimes := s.scanned graph, rescans := s.rescans - 1 }

/-- The reload that runs settles, and the queued one begins. -/
def settle (callers : ℕ) : Dev C :=
  { s with
    rescans := s.rescans + callers
    running := if s.queued = 0 then none else some s.queued
    queued := 0 }

/-- A file is written. -/
def write (file : File) (contents : C) (mtime : ℕ) : Dev C :=
  { s with
    disk := s.disk.insert file ⟨contents, mtime⟩
    stamps := (file, mtime) :: s.stamps }

def delete (file : File) : Dev C := { s with disk := s.disk.erase file }

def read (file : File) : Dev C :=
  { s with loaded := s.loaded.insert file (contentsOf s.disk file) }

def step : Dev C → Label C → Option (Dev C)
  | s, .write file contents mtime =>
      if (file, mtime) ∈ s.stamps then none else some (s.write file contents mtime)
  | s, .delete file => some (s.delete file)
  | s, .read file => s.running.map fun _ => s.read file
  | s, .settle => s.running.map s.settle
  | s, .rescan => if s.rescans = 0 then none else some (s.rescan graph)
  | s, .poll => if s.rescans = 0 then some s.poll else none

end Dev

/-! ### Missed edits -/

/-- No reload runs or is queued, and no callback of one is about to rescan. -/
def AtRest (s : Dev C) : Prop := s.running = none ∧ s.queued = 0 ∧ s.rescans = 0

instance (s : Dev C) : Decidable (AtRest s) :=
  inferInstanceAs (Decidable (s.running = none ∧ s.queued = 0 ∧ s.rescans = 0))

/-- The contents of a file are not those that a reload has read last. -/
def Changed (s : Dev C) (file : File) : Prop :=
  ∃ last, s.loaded.get? file = some last ∧ contentsOf s.disk file ≠ last

/-- The watcher holds the modification time that the file has. -/
def UpToDate (s : Dev C) (file : File) : Prop :=
  ∃ mtime, s.mtimes.get? file = some mtime ∧ mtimeOf s.disk file = some mtime

/-- If all is at rest, the watcher does not hold the modification time of any file of the graph that
has changed, and the next poll asks for a reload. -/
def Noticed (graph : Disk C → List File) (s : Dev C) : Prop :=
  AtRest s → ∀ file ∈ graph s.disk, Changed s file → ¬ UpToDate s file ∧ s.Fires

/-- An edit of a file that is not watched leaves no file of the graph changed. -/
def Harmless (graph : Disk C → List File) (s t : Dev C) (file : File) : Prop :=
  AtRest s → s.mtimes.get? file ≠ none ∨ s.Fires ∨ ∀ other ∈ graph t.disk, ¬ Changed t other

/-- The steps by which nothing is missed. -/
def Safe (graph : Disk C → List File) (s : Dev C) : Label C → Prop
  | .write file contents mtime => Harmless graph s (s.write file contents mtime) file
  | .delete file => Harmless graph s (s.delete file) file
  | .rescan => s.running = none → s.queued = 0 → s.rescans = 1 →
      ∀ file ∈ graph s.disk, ¬ Changed s file
  | _ => True

/-! ### Lookups -/

variable {graph : Disk C → List File} {s t : Dev C} {file : File}

theorem mtimeOf_insert (disk : Disk C) (file : File) (source : Source C) (other : File) :
    mtimeOf (disk.insert file source) other =
      if other = file then some source.mtime else mtimeOf disk other := by
  rw [mtimeOf, Table.get?_insert]
  split <;> rfl

theorem mtimeOf_erase (disk : Disk C) (file other : File) :
    mtimeOf (disk.erase file) other = if other = file then none else mtimeOf disk other := by
  rw [mtimeOf, Table.get?_erase]
  split <;> rfl

theorem contentsOf_insert_of_ne (disk : Disk C) {file other : File} (source : Source C)
    (h : other ≠ file) : contentsOf (disk.insert file source) other = contentsOf disk other := by
  rw [contentsOf, Table.get?_insert, if_neg h]
  rfl

theorem contentsOf_erase_of_ne (disk : Disk C) {file other : File} (h : other ≠ file) :
    contentsOf (disk.erase file) other = contentsOf disk other := by
  rw [contentsOf, Table.get?_erase, if_neg h]
  rfl

theorem fires_iff : s.Fires ↔
    ∃ file mtime, s.mtimes.get? file = some mtime ∧ mtimeOf s.disk file ≠ some mtime := by
  constructor
  · rintro ⟨⟨file, mtime⟩, hmem, hne⟩
    exact ⟨file, mtime, Table.mem_rows_iff.mp hmem, hne⟩
  · rintro ⟨file, mtime, hget, hne⟩
    exact ⟨(file, mtime), Table.mem_rows_iff.mpr hget, hne⟩

/-- After a rescan the watcher holds what the disk has of the files of the graph. -/
theorem get?_scanned {mtime : ℕ} :
    (s.scanned graph).get? file = some mtime ↔
      file ∈ graph s.disk ∧ mtimeOf s.disk file = some mtime := by
  suffices hgeneral : ∀ (files : List File) (next : Table File ℕ),
      (files.foldl (fun next file =>
        match mtimeOf s.disk file with
        | some mtime => next.insert file mtime
        | none => next) next).get? file = some mtime ↔
        (file ∈ files ∧ mtimeOf s.disk file = some mtime) ∨
          (file ∉ files ∨ mtimeOf s.disk file = none) ∧ next.get? file = some mtime by
    rw [Dev.scanned, hgeneral, Table.get?_empty]
    simp
  intro files
  induction files with
  | nil => simp
  | cons other files ih =>
    intro next
    rw [List.foldl_cons, ih]
    cases hother : mtimeOf s.disk other with
    | none =>
      by_cases hfile : file = other
      · subst hfile
        simp [hother]
      · simp [hfile]
    | some m =>
      by_cases hfile : file = other
      · subst hfile
        by_cases hmem : file ∈ files <;> simp [hother, hmem]
      · simp [hfile, Table.get?_insert]

/-- A poll brings what the watcher holds up to date. -/
theorem get?_polled {mtime : ℕ} (h : s.polled.get? file = some mtime) :
    mtimeOf s.disk file = some mtime := by
  rw [Dev.polled, Table.get?_mapRows, Table.get?_filter] at h
  obtain ⟨held, hheld, rfl⟩ := Option.map_eq_some_iff.mp h
  obtain ⟨-, hsome⟩ := Option.filter_eq_some_iff.mp hheld
  obtain ⟨mtime, hmtime⟩ := Option.isSome_iff_exists.mp hsome
  rw [hmtime]
  rfl

/-! ### The invariant -/

/-- What holds along a run in which nothing is missed. -/
structure Kept (s : Dev C) : Prop where
  /-- A file that has not been edited since the rescan has the contents that have been read. -/
  upToDate : AtRest s → ∀ file, UpToDate s file → ¬ Changed s file
  held : ∀ file mtime, s.mtimes.get? file = some mtime → (file, mtime) ∈ s.stamps
  stamped : ∀ file mtime, mtimeOf s.disk file = some mtime → (file, mtime) ∈ s.stamps
  queued : s.running = none → s.queued = 0
  callers : ∀ callers, s.running = some callers → callers ≠ 0

theorem kept_start (disk : Disk C) : Kept (Dev.start disk) where
  upToDate h := by cases h.1
  held _ _ h := by cases h
  stamped file mtime h := by
    obtain ⟨source, hsource, rfl⟩ := Option.map_eq_some_iff.mp h
    exact List.mem_map.mpr ⟨(file, source), Table.mem_of_get? hsource, rfl⟩
  queued h := by cases h
  callers callers h := by
    obtain rfl := Option.some.inj h
    decide

theorem noticed_start (graph : Disk C → List File) (disk : Disk C) :
    Noticed graph (Dev.start disk) :=
  fun h => by cases h.1

/-- What an edit does to a file: its modification time is gone, and other files are as before. -/
structure Edits (s t : Dev C) (file : File) : Prop where
  loaded : t.loaded = s.loaded
  mtimes : t.mtimes = s.mtimes
  rest : AtRest t ↔ AtRest s
  gone : ∀ mtime, s.mtimes.get? file = some mtime → mtimeOf t.disk file ≠ some mtime
  others : ∀ other, other ≠ file → contentsOf t.disk other = contentsOf s.disk other ∧
    mtimeOf t.disk other = mtimeOf s.disk other

theorem edits_write (h : Kept s) {contents : C} {mtime : ℕ} (hfresh : (file, mtime) ∉ s.stamps) :
    Edits s (s.write file contents mtime) file where
  loaded := rfl
  mtimes := rfl
  rest := Iff.rfl
  gone held hheld := by
    rw [Dev.write, mtimeOf_insert, if_pos rfl]
    intro heq
    obtain rfl := Option.some.inj heq
    exact hfresh (h.held file _ hheld)
  others other hne :=
    ⟨contentsOf_insert_of_ne _ _ hne, (mtimeOf_insert _ _ _ _).trans (if_neg hne)⟩

theorem edits_delete (s : Dev C) (file : File) : Edits s (s.delete file) file where
  loaded := rfl
  mtimes := rfl
  rest := Iff.rfl
  gone held _ := by
    rw [Dev.delete, mtimeOf_erase, if_pos rfl]
    exact Option.some_ne_none _ ∘ Eq.symm
  others other hne := ⟨contentsOf_erase_of_ne _ hne, (mtimeOf_erase _ _ _).trans (if_neg hne)⟩

/-- An edited file is not up to date, and other files are as before. -/
theorem Edits.upToDate (hedits : Edits s t file) (h : Kept s) (hrest : AtRest t) (other : File)
    (hother : UpToDate t other) : ¬ Changed t other := by
  obtain ⟨mtime, hheld, hmtime⟩ := hother
  rw [hedits.mtimes] at hheld
  by_cases hne : other = file
  · subst hne
    exact absurd hmtime (hedits.gone mtime hheld)
  · obtain ⟨hcontents, hsame⟩ := hedits.others other hne
    rw [hsame] at hmtime
    have hnot := h.upToDate (hedits.rest.mp hrest) other ⟨mtime, hheld, hmtime⟩
    rintro ⟨last, hlast, hchanged⟩
    rw [hedits.loaded] at hlast
    rw [hcontents] at hchanged
    exact hnot ⟨last, hlast, hchanged⟩

/-- After an edit the next poll asks for a reload if the file is watched, or if it would have. -/
theorem Edits.fires_iff (hedits : Edits s t file) :
    t.Fires ↔ s.mtimes.get? file ≠ none ∨ s.Fires := by
  rw [Watch.fires_iff, Watch.fires_iff]
  constructor
  · rintro ⟨other, mtime, hheld, hne⟩
    rw [hedits.mtimes] at hheld
    by_cases hother : other = file
    · subst hother
      exact .inl (by rw [hheld]; exact Option.some_ne_none _)
    · rw [(hedits.others other hother).2] at hne
      exact .inr ⟨other, mtime, hheld, hne⟩
  · rintro (hheld | ⟨other, mtime, hheld, hne⟩)
    · obtain ⟨mtime, hmtime⟩ := Option.ne_none_iff_exists'.mp hheld
      exact ⟨file, mtime, hedits.mtimes ▸ hmtime, hedits.gone mtime hmtime⟩
    · refine ⟨other, mtime, hedits.mtimes ▸ hheld, ?_⟩
      by_cases hother : other = file
      · subst hother
        exact hedits.gone mtime hheld
      · rw [(hedits.others other hother).2]
        exact hne

/-- An edit is noticed exactly if it is harmless. -/
theorem Edits.noticed_iff (hedits : Edits s t file) (h : Kept s) :
    Noticed graph t ↔ Harmless graph s t file := by
  constructor
  · intro hnoticed hrest
    by_contra hnot
    rw [not_or, not_or] at hnot
    obtain ⟨hheld, hfires, hchanged⟩ := hnot
    refine hchanged fun other hother hch => ?_
    have hfired := (hnoticed (hedits.rest.mpr hrest) other hother hch).2
    exact (hedits.fires_iff.mp hfired).elim hheld hfires
  · intro hharmless hrest other hother hchanged
    refine ⟨fun hup => hedits.upToDate h hrest other hup hchanged, ?_⟩
    rw [hedits.fires_iff]
    rcases hharmless (hedits.rest.mp hrest) with hheld | hfires | hnone
    · exact .inl hheld
    · exact .inr hfires
    · exact absurd hchanged (hnone other hother)

/-! ### Steps -/

theorem Kept.write (h : Kept s) {contents : C} {mtime : ℕ} (hfresh : (file, mtime) ∉ s.stamps) :
    Kept (s.write file contents mtime) where
  upToDate hrest other hother := (edits_write h hfresh).upToDate h hrest other hother
  held other m hm := List.mem_cons_of_mem _ (h.held other m hm)
  stamped other m hm := by
    rw [Dev.write, mtimeOf_insert] at hm
    split at hm
    · next heq =>
        obtain rfl := Option.some.inj hm
        rw [heq]
        exact List.mem_cons_self
    · exact List.mem_cons_of_mem _ (h.stamped other m hm)
  queued := h.queued
  callers := h.callers

theorem Kept.delete (h : Kept s) (file : File) : Kept (s.delete file) where
  upToDate hrest other hother := (edits_delete s file).upToDate h hrest other hother
  held := h.held
  stamped other m hm := by
    rw [Dev.delete, mtimeOf_erase] at hm
    split at hm
    · cases hm
    · exact h.stamped other m hm
  queued := h.queued
  callers := h.callers

theorem Kept.read (h : Kept s) {callers : ℕ} (hrunning : s.running = some callers) (file : File) :
    Kept (s.read file) where
  upToDate hrest := by
    have hnone : s.running = none := hrest.1
    rw [hrunning] at hnone
    cases hnone
  held := h.held
  stamped := h.stamped
  queued := h.queued
  callers := h.callers

/-- After a reload has settled, a callback is about to rescan. -/
theorem not_atRest_settle {callers : ℕ} (hcallers : callers ≠ 0) : ¬ AtRest (s.settle callers) := by
  rintro ⟨-, -, hrescans⟩
  exact hcallers (Nat.eq_zero_of_add_eq_zero hrescans).2

theorem Kept.settle (h : Kept s) {callers : ℕ} (hrunning : s.running = some callers) :
    Kept (s.settle callers) where
  upToDate hrest := absurd hrest (not_atRest_settle (h.callers callers hrunning))
  held := h.held
  stamped := h.stamped
  queued _ := rfl
  callers c hc := by
    simp only [Dev.settle] at hc
    split at hc
    · cases hc
    · next hqueued =>
        obtain rfl := Option.some.inj hc
        exact hqueued

theorem Kept.rescan (h : Kept s) (hrescans : s.rescans ≠ 0) (hsafe : Safe graph s .rescan) :
    Kept (s.rescan graph) where
  upToDate := by
    rintro ⟨hrunning, hqueued, hzero⟩ file ⟨mtime, hheld, -⟩
    have hone : s.rescans = 1 := by
      have hzero : s.rescans - 1 = 0 := hzero
      omega
    exact hsafe hrunning hqueued hone file (get?_scanned.mp hheld).1
  held file mtime hheld := h.stamped file mtime (get?_scanned.mp hheld).2
  stamped := h.stamped
  queued := h.queued
  callers := h.callers

/-- A call of `reload` starts one or queues one. -/
theorem not_atRest_reload (s : Dev C) : ¬ AtRest s.reload := by
  rintro ⟨hrunning, hqueued, -⟩
  unfold Dev.reload at hrunning hqueued
  cases hcase : s.running with
  | none =>
    rw [hcase] at hrunning
    cases hrunning
  | some callers =>
    rw [hcase] at hqueued
    cases hqueued

theorem Kept.reload (h : Kept s) {mtimes : Table File ℕ}
    (hheld : ∀ file mtime, mtimes.get? file = some mtime → (file, mtime) ∈ s.stamps) :
    Kept { s with mtimes := mtimes }.reload := by
  have hrest := not_atRest_reload { s with mtimes := mtimes }
  rcases Option.eq_none_or_eq_some s.running with hcase | ⟨callers, hcase⟩
  · have hreload : { s with mtimes := mtimes }.reload =
        { s with mtimes := mtimes, running := some 1 } := by
      simp only [Dev.reload, hcase]
    rw [hreload] at hrest ⊢
    refine ⟨fun h => absurd h hrest, hheld, h.stamped, fun hnone => (by cases hnone), ?_⟩
    intro callers hcallers
    obtain rfl := Option.some.inj hcallers
    decide
  · have hreload : { s with mtimes := mtimes }.reload =
        { s with mtimes := mtimes, queued := s.queued + 1 } := by
      simp only [Dev.reload, hcase]
    rw [hreload] at hrest ⊢
    refine ⟨fun h => absurd h hrest, hheld, h.stamped, fun hnone => ?_, h.callers⟩
    rw [show s.running = none from hnone] at hcase
    cases hcase

/-- A poll that finds nothing changed leaves what the watcher holds. -/
theorem get?_polled_of_not_fires (h : ¬ s.Fires) (file : File) :
    s.polled.get? file = s.mtimes.get? file := by
  rw [Dev.polled, Table.get?_mapRows, Table.get?_filter]
  cases hheld : s.mtimes.get? file with
  | none => rfl
  | some mtime =>
    have hsame : mtimeOf s.disk file = some mtime := by
      by_contra hne
      exact h (fires_iff.mpr ⟨file, mtime, hheld, hne⟩)
    rw [Option.filter_some, hsame]
    rfl

theorem Kept.poll (h : Kept s) : Kept s.poll := by
  have hheld : ∀ file mtime, s.polled.get? file = some mtime → (file, mtime) ∈ s.stamps :=
    fun file mtime hget => h.stamped file mtime (get?_polled hget)
  unfold Dev.poll
  split
  · exact h.reload hheld
  · next hquiet =>
      refine ⟨fun hrest file hup => ?_, hheld, h.stamped, h.queued, h.callers⟩
      obtain ⟨mtime, hget, hmtime⟩ := hup
      have hget : s.polled.get? file = some mtime := hget
      rw [get?_polled_of_not_fires hquiet] at hget
      exact h.upToDate hrest file ⟨mtime, hget, hmtime⟩

/-- **The invariant.** It is kept by the steps by which nothing is missed. -/
theorem Kept.step (h : Kept s) {l : Label C} (hsafe : Safe graph s l)
    (ht : Dev.step graph s l = some t) : Kept t := by
  cases l with
  | write file contents mtime =>
    simp only [Dev.step] at ht
    split at ht
    · cases ht
    · next hfresh => exact Option.some.inj ht ▸ h.write hfresh
  | delete file => exact Option.some.inj ht ▸ h.delete file
  | read file =>
    obtain ⟨callers, hrunning, rfl⟩ := Option.map_eq_some_iff.mp ht
    exact h.read hrunning file
  | settle =>
    obtain ⟨callers, hrunning, rfl⟩ := Option.map_eq_some_iff.mp ht
    exact h.settle hrunning
  | rescan =>
    simp only [Dev.step] at ht
    split at ht
    · cases ht
    · next hrescans => exact Option.some.inj ht ▸ h.rescan hrescans hsafe
  | poll =>
    simp only [Dev.step] at ht
    split at ht
    · exact Option.some.inj ht ▸ h.poll
    · cases ht

/-- A rescan that leaves all at rest misses the files that have changed. -/
theorem noticed_rescan_iff (hrescans : s.rescans ≠ 0) :
    Noticed graph (s.rescan graph) ↔ Safe graph s .rescan := by
  have hquiet : ¬ (s.rescan graph).Fires := by
    rw [fires_iff]
    rintro ⟨file, mtime, hheld, hne⟩
    exact hne (get?_scanned.mp hheld).2
  constructor
  · intro hnoticed hrunning hqueued hone file hfile hchanged
    have hrest : AtRest (s.rescan graph) :=
      ⟨hrunning, hqueued, show s.rescans - 1 = 0 by omega⟩
    exact hquiet (hnoticed hrest file hfile hchanged).2
  · rintro hsafe ⟨hrunning, hqueued, hzero⟩ file hfile hchanged
    have hone : s.rescans = 1 := by
      have hzero : s.rescans - 1 = 0 := hzero
      omega
    exact absurd hchanged (hsafe hrunning hqueued hone file hfile)

/-- **Exactness of the guard.** A step keeps all changes noticed exactly if it is safe. -/
theorem noticed_step_iff (h : Kept s) (hnoticed : Noticed graph s) {l : Label C}
    (ht : Dev.step graph s l = some t) : Noticed graph t ↔ Safe graph s l := by
  cases l with
  | write file contents mtime =>
    simp only [Dev.step] at ht
    split at ht
    · cases ht
    · next hfresh => exact Option.some.inj ht ▸ (edits_write h hfresh).noticed_iff h
  | delete file => exact Option.some.inj ht ▸ (edits_delete s file).noticed_iff h
  | read file =>
    obtain ⟨callers, hrunning, rfl⟩ := Option.map_eq_some_iff.mp ht
    refine iff_of_true (fun hrest => ?_) trivial
    rw [show s.running = none from hrest.1] at hrunning
    cases hrunning
  | settle =>
    obtain ⟨callers, hrunning, rfl⟩ := Option.map_eq_some_iff.mp ht
    exact iff_of_true (fun hrest => absurd hrest (not_atRest_settle (h.callers _ hrunning)))
      trivial
  | rescan =>
    simp only [Dev.step] at ht
    split at ht
    · cases ht
    · next hrescans => exact Option.some.inj ht ▸ noticed_rescan_iff hrescans
  | poll =>
    simp only [Dev.step] at ht
    split at ht
    · obtain rfl := Option.some.inj ht
      refine iff_of_true ?_ trivial
      unfold Dev.poll
      split
      · exact fun hrest => absurd hrest (not_atRest_reload _)
      · next hquiet =>
          exact fun hrest file hfile hchanged =>
            absurd (hnoticed hrest file hfile hchanged).2 hquiet
    · cases ht

/-! ### Main results -/

/-- **No missed reload.** All along a run every change of a file of the import graph is noticed by
the next poll if and only if at each rescan that leaves no reload running or queued every file of
the graph has the contents that a reload has read last, and no edit of a file that is not watched
leaves one that has not. -/
theorem throughout_noticed_iff (project : Project C) (disk : Disk C) (run : List (Label C)) :
    Throughout (Dev.step project.collectImportGraph) (Noticed project.collectImportGraph)
      (Dev.start disk) run ↔
    Along (Dev.step project.collectImportGraph) (Safe project.collectImportGraph)
      (Dev.start disk) run :=
  throughout_iff_along_of_guarded (kept_start disk) (noticed_start _ disk)
    (fun _ _ _ hkept _ hsafe hstep => hkept.step hsafe hstep)
    fun _ _ _ hkept hnoticed hstep => noticed_step_iff hkept hnoticed hstep

/-- A project of one file, which imports nothing. -/
def single : Project ℕ where
  entry := "/app/index.ts".toList
  root := "/app/".toList
  scanImports _ := some []
  resolveSync _ _ _ := none

def singleDisk : Disk ℕ := Table.empty.insert single.entry ⟨0, 0⟩

/-- At rest, a file of the graph has changed and the next poll does not ask for a reload. -/
theorem not_noticed_of_quiet (hrest : AtRest s) (hfile : file ∈ graph s.disk) {last : Option C}
    (hlast : s.loaded.get? file = some last) (hchanged : contentsOf s.disk file ≠ last)
    (hquiet : ¬ s.Fires) : ¬ Noticed graph s :=
  fun h => hquiet (h hrest file hfile ⟨last, hlast, hchanged⟩).2

/-- An edit between the read and the rescan is missed; a file that is deleted, and created again
after a reload has failed without it, is missed as well. -/
theorem not_noticed :
    (∃ s, Reaches (Dev.step single.collectImportGraph) unguarded (Dev.start singleDisk) s ∧
      (contentsOf s.disk single.entry = some 1 ∧ s.loaded.get? single.entry = some (some 0)) ∧
        ¬ Noticed single.collectImportGraph s) ∧
    ∃ s, Reaches (Dev.step single.collectImportGraph) unguarded (Dev.start singleDisk) s ∧
      (contentsOf s.disk single.entry = some 1 ∧ s.loaded.get? single.entry = some none) ∧
        ¬ Noticed single.collectImportGraph s := by
  have hgraph : single.collectImportGraph = fun _ => [single.entry] :=
    funext fun disk => single.collectImportGraph_of_noImports disk fun _ => rfl
  rw [hgraph]
  constructor
  · have hrun : (play (restrict (Dev.step fun _ => [single.entry]) unguarded)
        (Dev.start singleDisk)
        [.read single.entry, .write single.entry 1 1, .settle, .rescan]).any
        (fun s => decide (AtRest s ∧ ¬ s.Fires ∧ contentsOf s.disk single.entry = some 1 ∧
          s.loaded.get? single.entry = some (some 0))) = true := by decide +kernel
    obtain ⟨s, hreach, hs⟩ := exists_reaches_of_play hrun
    obtain ⟨hrest, hquiet, hcontents, hlast⟩ := of_decide_eq_true hs
    refine ⟨s, hreach, ⟨hcontents, hlast⟩,
      not_noticed_of_quiet hrest List.mem_cons_self hlast ?_ hquiet⟩
    rw [hcontents]
    decide
  · have hrun : (play (restrict (Dev.step fun _ => [single.entry]) unguarded)
        (Dev.start singleDisk)
        [.read single.entry, .settle, .rescan, .delete single.entry, .poll, .read single.entry,
          .settle, .rescan, .write single.entry 1 1]).any
        (fun s => decide (AtRest s ∧ ¬ s.Fires ∧ contentsOf s.disk single.entry = some 1 ∧
          s.loaded.get? single.entry = some none)) = true := by decide +kernel
    obtain ⟨s, hreach, hs⟩ := exists_reaches_of_play hrun
    obtain ⟨hrest, hquiet, hcontents, hlast⟩ := of_decide_eq_true hs
    refine ⟨s, hreach, ⟨hcontents, hlast⟩,
      not_noticed_of_quiet hrest List.mem_cons_self hlast ?_ hquiet⟩
    rw [hcontents]
    decide

end Lopata.Watch

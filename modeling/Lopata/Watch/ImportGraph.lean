import Lopata.Lib.Table

/-!
# The Import Graph

The files a worker depends on: its entry, and what the files of the graph import, as far as it
lies in the project and not in a dependency. The imports of a file are found by the transpiler,
which may fail, and resolved against what is on the disk.

## Main results

* `collectImportGraph_of_noImports`: without imports it is the whole graph.
-/

namespace Lopata.Watch

/-- The path of a file. -/
abbrev File := List Char

/-- A file on the disk. -/
structure Source (C : Type) where
  contents : C
  mtime : ℕ

abbrev Disk (C : Type) := Table File (Source C)

/-- A project; `root` is its directory with a separator at the end. -/
structure Project (C : Type) where
  entry : File
  root : File
  /-- `transpiler.scanImports`, none if it throws. -/
  scanImports : C → Option (List File)
  /-- `Bun.resolveSync` of an import from a directory, none if it throws. -/
  resolveSync : Disk C → File → File → Option File

/-- What is behind the last separator. -/
def basename (file : File) : File := (file.reverse.takeWhile (· ≠ '/')).reverse

/-- What is in front of the last separator. -/
def dirname (file : File) : File :=
  let dir := ((file.reverse.dropWhile (· ≠ '/')).drop 1).reverse
  if dir = [] then ['/'] else dir

/-- From the last dot of the name on, if that is not its first character. -/
def extname (file : File) : File :=
  let suffix := ((basename file).reverse.takeWhile (· ≠ '.')).reverse
  if suffix.length + 1 < (basename file).length then '.' :: suffix else []

/-- `SCANNABLE`. -/
def scannable : List File :=
  [".ts".toList, ".tsx".toList, ".js".toList, ".jsx".toList, ".mjs".toList, ".cjs".toList]

variable {C : Type} (project : Project C) (disk : Disk C)

namespace Project

/-- Whether a file is one of the project, and not of a dependency. -/
def isLocal (file : File) : Bool :=
  project.root <+: file && !("/node_modules/".toList <:+: file)

/-- What a file with the given contents pushes, the last one on top. -/
def pushed (file : File) (contents : C) (seen : List File) : List File :=
  (((project.scanImports contents).getD []).filterMap fun path =>
    (project.resolveSync disk path (dirname file)).filter fun resolved =>
      project.isLocal resolved && !seen.contains resolved).reverse

/-- The files on the disk that have not been seen. -/
def unseen (seen : List File) : ℕ := (disk.rows.filter fun p => !seen.contains p.1).length

theorem unseen_le (file : File) (seen : List File) :
    unseen disk (file :: seen) ≤ unseen disk seen := by
  refine List.Sublist.length_le ?_
  rw [show (disk.rows.filter fun p => !(file :: seen).contains p.1) =
    (disk.rows.filter fun p => !seen.contains p.1).filter fun p => p.1 ≠ file by
      rw [List.filter_filter]
      exact List.filter_congr fun p _ => by simp [not_or]]
  exact List.filter_sublist

theorem unseen_lt {file : File} {seen : List File} {source : Source C} (hfile : file ∉ seen)
    (hdisk : disk.get? file = some source) : unseen disk (file :: seen) < unseen disk seen := by
  have hmem : (file, source) ∈ disk.rows.filter fun p => !seen.contains p.1 :=
    List.mem_filter.mpr ⟨Table.mem_of_get? hdisk, by simpa using hfile⟩
  rw [unseen, show (disk.rows.filter fun p => !(file :: seen).contains p.1) =
    (disk.rows.filter fun p => !seen.contains p.1).filter fun p => p.1 ≠ file by
      rw [List.filter_filter]
      exact List.filter_congr fun p _ => by simp [not_or]]
  exact List.length_filter_lt_length_iff_exists.mpr ⟨_, hmem, by simp⟩

/-- The loop of `collectImportGraph`, the files seen last first. -/
def collect : List File → List File → List File
  | [], seen => seen
  | file :: stack, seen =>
      if file ∈ seen then collect stack seen
      else if extname file ∉ scannable then collect stack (file :: seen)
      else
        match _hdisk : disk.get? file with
        | none => collect stack (file :: seen)
        | some source =>
            collect (project.pushed disk file source.contents (file :: seen) ++ stack)
              (file :: seen)
termination_by stack seen => (unseen disk seen, stack.length)
decreasing_by
  · exact Prod.Lex.right _ (Nat.lt_succ_self _)
  · exact Prod.Lex.right' _ (unseen_le disk file seen) (Nat.lt_succ_self _)
  · exact Prod.Lex.right' _ (unseen_le disk file seen) (Nat.lt_succ_self _)
  · next hseen _ => exact Prod.Lex.left _ _ (unseen_lt disk hseen _hdisk)

def collectImportGraph : List File := project.collect disk [project.entry] []

theorem collectImportGraph_of_noImports (h : ∀ contents, project.scanImports contents = some []) :
    project.collectImportGraph disk = [project.entry] := by
  have hpushed : ∀ file contents seen, project.pushed disk file contents seen = [] := by
    intro file contents seen
    rw [pushed, h]
    rfl
  have hend : ∀ seen, project.collect disk [] seen = seen := fun seen => by rw [collect]
  rw [collectImportGraph, collect, if_neg List.not_mem_nil]
  split
  · exact hend _
  · split
    · exact hend _
    · rw [hpushed]
      exact hend _

end Project

end Lopata.Watch

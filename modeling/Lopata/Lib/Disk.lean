import Mathlib.Data.List.Infix
import Lopata.Lib.Path

/-!
# Disks

A disk is a tree of directories and files. A path leads to a directory, to a file or nowhere;
a file is known by a number and keeps its contents under it, so that a file which is open can
still be written after its path has been removed. No two paths lead to one file, and the
numbers of files not created yet are free: both are fields of the structure.

## Main results

* `Disk.contents_openForWriting`, `Disk.contents_write`, `Disk.contents_unlink`,
  `Disk.contents_removeTree`, `Disk.contents_mkdirs`: what a path holds after each operation.
* `Disk.IsHandle`: an open file is led to by its own path only; every operation keeps that.
-/

namespace Lopata

/-- The contents of a file. -/
abbrev Bytes := List UInt8

/-- What a path leads to. -/
inductive Node
  | dir
  | file (ino : ℕ)
  deriving DecidableEq

/-- A tree of directories and files. -/
structure Disk where
  node : Path → Option Node
  data : ℕ → Bytes
  next : ℕ
  /-- No two paths lead to one file. -/
  single : ∀ p q i, node p = some (.file i) → node q = some (.file i) → p = q
  /-- Numbers from `next` on are free. -/
  fresh : ∀ p i, node p = some (.file i) → i < next

namespace Disk

/-- Overwrite from an offset; a gap before it is filled with zeros. -/
def overwrite (old : Bytes) (offset : ℕ) (bytes : Bytes) : Bytes :=
  old.take offset ++ List.replicate (offset - old.length) 0 ++ bytes ++
    old.drop (offset + bytes.length)

/-- Appending is overwriting at the end. -/
@[simp] theorem overwrite_length (old bytes : Bytes) :
    overwrite old old.length bytes = old ++ bytes := by
  simp [overwrite]

/-- The bytes a path leads to. -/
def contents (d : Disk) (p : Path) : Option Bytes :=
  match d.node p with
  | some (.file i) => some (d.data i)
  | some .dir | none => none

/-- A path leads to a directory. -/
def IsDir (d : Disk) (p : Path) : Prop :=
  d.node p = some .dir

/-- A path leads to a file. -/
def IsFile (d : Disk) (p : Path) : Prop :=
  (d.contents p).isSome

instance (d : Disk) (p : Path) : Decidable (d.IsDir p) :=
  inferInstanceAs (Decidable (_ = _))

instance (d : Disk) (p : Path) : Decidable (d.IsFile p) :=
  inferInstanceAs (Decidable (_ = true))

theorem isFile_iff {d : Disk} {p : Path} : d.IsFile p ↔ ∃ i, d.node p = some (.file i) := by
  simp only [IsFile, contents]
  split <;> simp_all

/-- A path leads to a file with these contents. -/
theorem contents_eq_some {d : Disk} {p : Path} {bytes : Bytes} :
    d.contents p = some bytes ↔ ∃ i, d.node p = some (.file i) ∧ d.data i = bytes := by
  simp only [contents]
  split <;> simp_all

/-! ### The operations -/

/-- Create a directory and those above it; refused where one of them is a file. -/
def mkdirs (d : Disk) (p : Path) : Option Disk :=
  if ∃ q ∈ p.inits, d.IsFile q then none
  else some
    { d with
      node := fun q => if q <+: p then some .dir else d.node q
      single := by
        intro q q' i hq hq'
        split at hq
        · cases hq
        · split at hq'
          · cases hq'
          · exact d.single q q' i hq hq'
      fresh := by
        intro q i hq
        split at hq
        · cases hq
        · exact d.fresh q i hq }

/-- Put a new empty file at a path. -/
def create (d : Disk) (p : Path) : Disk where
  node := fun q => if q = p then some (.file d.next) else d.node q
  data := fun i => if i = d.next then [] else d.data i
  next := d.next + 1
  single := by
    intro q q' i hq hq'
    have hold : ∀ r, d.node r = some (.file d.next) → False :=
      fun r hr => (d.fresh r d.next hr).false
    split at hq <;> split at hq'
    · next h h' => exact h.trans h'.symm
    · obtain rfl : d.next = i := by simpa using hq
      exact (hold _ hq').elim
    · obtain rfl : d.next = i := by simpa using hq'
      exact (hold _ hq).elim
    · exact d.single q q' i hq hq'
  fresh := by
    intro q i hq
    split at hq
    · obtain rfl : d.next = i := by simpa using hq
      exact Nat.lt_succ_self _
    · exact Nat.lt_succ_of_lt (d.fresh q i hq)

/-- Replace the contents of a file. -/
def setData (d : Disk) (i : ℕ) (bytes : Bytes) : Disk :=
  { d with data := fun j => if j = i then bytes else d.data j }

/-- Open a file to write it from its start: what it held is gone, and a file that does not
exist is created if its directory does. -/
def openForWriting (d : Disk) (p : Path) : Option (Disk × ℕ) :=
  match d.node p with
  | some .dir => none
  | some (.file i) => some (d.setData i [], i)
  | none => if d.IsDir p.dropLast then some (d.create p, d.next) else none

/-- Write to an open file at an offset. -/
def write (d : Disk) (i : ℕ) (offset : ℕ) (bytes : Bytes) : Disk :=
  d.setData i (overwrite (d.data i) offset bytes)

/-- Remove the paths a predicate selects. -/
def drop (d : Disk) (sel : Path → Prop) [DecidablePred sel] : Disk :=
  { d with
    node := fun q => if sel q then none else d.node q
    single := by
      intro q q' i hq hq'
      split at hq
      · cases hq
      · split at hq'
        · cases hq'
        · exact d.single q q' i hq hq'
    fresh := by
      intro q i hq
      split at hq
      · cases hq
      · exact d.fresh q i hq }

/-- Remove one path. -/
def unlink (d : Disk) (p : Path) : Disk :=
  d.drop (· = p)

/-- Remove a path and all below it. -/
def removeTree (d : Disk) (p : Path) : Disk :=
  d.drop (p <+: ·)

/-! ### What paths hold afterwards -/

section Contents

variable {d d' : Disk} {p q : Path} {i : ℕ} {bytes : Bytes}

theorem mkdirs_eq_some :
    d.mkdirs p = some d' → (∀ q, q <+: p → ¬ d.IsFile q) ∧
      (∀ q, d'.node q = if q <+: p then some .dir else d.node q) ∧
      d'.data = d.data ∧ d'.next = d.next := by
  intro h
  simp only [mkdirs] at h
  split at h
  · cases h
  · next hnone =>
      obtain rfl := Option.some.inj h
      refine ⟨fun q hq hfile => hnone ⟨q, (List.mem_inits q p).mpr hq, hfile⟩, fun q => rfl, rfl, rfl⟩

theorem contents_congr (hnode : d'.node q = d.node q) (hdata : d'.data = d.data) :
    d'.contents q = d.contents q := by
  simp only [contents, hnode, hdata]

/-- Directories come where there were no files. -/
theorem contents_mkdirs (h : d.mkdirs p = some d') (q : Path) :
    d'.contents q = d.contents q := by
  obtain ⟨hfile, hnode, hdata, -⟩ := mkdirs_eq_some h
  by_cases hq : q <+: p
  · have hnone : d.contents q = none := by
      simpa [IsFile] using hfile q hq
    rw [hnone, contents, hnode, if_pos hq]
  · exact contents_congr (by rw [hnode, if_neg hq]) hdata

/-- The file at a path keeps its contents if another file is set. -/
theorem contents_setData (hp : d.node p = some (.file i)) (q : Path) :
    (d.setData i bytes).contents q = if q = p then some bytes else d.contents q := by
  split
  · next heq =>
      rw [heq, contents_eq_some]
      exact ⟨i, hp, if_pos rfl⟩
  · next hne =>
      simp only [contents, setData]
      split
      · next j hj =>
          have hji : j ≠ i := by
            rintro rfl
            exact hne (d.single q p j hj hp)
          rw [if_neg hji]
      · rfl
      · rfl

/-- A file no path leads to. -/
theorem contents_setData_of_forall_ne (h : ∀ q, d.node q ≠ some (.file i)) (q : Path) :
    (d.setData i bytes).contents q = d.contents q := by
  simp only [contents, setData]
  split
  · next j hj =>
      have hji : j ≠ i := by
        rintro rfl
        exact h q hj
      rw [if_neg hji]
  · rfl
  · rfl

theorem contents_create (q : Path) :
    (d.create p).contents q = if q = p then some [] else d.contents q := by
  split
  · next heq =>
      rw [heq, contents_eq_some]
      exact ⟨d.next, if_pos rfl, if_pos rfl⟩
  · next hne =>
      simp only [contents, create, if_neg hne]
      split
      · next j hj =>
          have hlt := d.fresh q j hj
          rw [if_neg hlt.ne]
      · rfl
      · rfl

/-- A file opened for writing is empty, and all others are as before. -/
theorem contents_openForWriting (h : d.openForWriting p = some (d', i)) (q : Path) :
    d'.contents q = if q = p then some [] else d.contents q := by
  simp only [openForWriting] at h
  split at h
  · cases h
  · next j hj =>
      obtain ⟨rfl, rfl⟩ := Prod.mk.inj (Option.some.inj h)
      exact contents_setData hj q
  · split at h
    · obtain ⟨rfl, rfl⟩ := Prod.mk.inj (Option.some.inj h)
      exact contents_create q
    · cases h

/-- Directories stay when a file is opened. -/
theorem isDir_openForWriting (h : d.openForWriting p = some (d', i)) (hq : d.IsDir q) :
    d'.IsDir q := by
  simp only [openForWriting] at h
  split at h
  · cases h
  · obtain ⟨rfl, rfl⟩ := Prod.mk.inj (Option.some.inj h)
    exact hq
  · next hnone =>
      split at h
      · obtain ⟨rfl, rfl⟩ := Prod.mk.inj (Option.some.inj h)
        have hne : q ≠ p := by
          rintro rfl
          cases hnone.symm.trans hq
        exact (if_neg hne).trans hq
      · cases h

theorem contents_drop (sel : Path → Prop) [DecidablePred sel] (q : Path) :
    (d.drop sel).contents q = if sel q then none else d.contents q := by
  by_cases hq : sel q
  · simp [contents, drop, hq]
  · simp [contents, drop, hq]

theorem contents_unlink (q : Path) :
    (d.unlink p).contents q = if q = p then none else d.contents q :=
  contents_drop (· = p) q

theorem contents_removeTree (q : Path) :
    (d.removeTree p).contents q = if p <+: q then none else d.contents q :=
  contents_drop (p <+: ·) q

end Contents

/-! ### Open files -/

/-- An open file is led to by the path it was opened at or, once that is removed, by none. -/
structure IsHandle (d : Disk) (p : Path) (i : ℕ) : Prop where
  path : ∀ q, d.node q = some (.file i) → q = p
  known : i < d.next

section Handles

variable {d d' : Disk} {p q : Path} {i j : ℕ}

theorem IsHandle.of_node (h : d.node p = some (.file i)) : d.IsHandle p i where
  path q hq := d.single q p i hq h
  known := d.fresh p i h

theorem node_openForWriting (h : d.openForWriting p = some (d', i)) :
    d'.node p = some (.file i) := by
  simp only [openForWriting] at h
  split at h
  · cases h
  · next j hj =>
      obtain ⟨rfl, rfl⟩ := Prod.mk.inj (Option.some.inj h)
      exact hj
  · split at h
    · obtain ⟨rfl, rfl⟩ := Prod.mk.inj (Option.some.inj h)
      exact if_pos rfl
    · cases h

/-- A file stays where it is when another is opened. -/
theorem node_openForWriting_of_ne (h : d.openForWriting p = some (d', i)) (hq : q ≠ p) :
    d'.node q = d.node q := by
  simp only [openForWriting] at h
  split at h
  · cases h
  · obtain ⟨rfl, rfl⟩ := Prod.mk.inj (Option.some.inj h)
    rfl
  · split at h
    · obtain ⟨rfl, rfl⟩ := Prod.mk.inj (Option.some.inj h)
      exact if_neg hq
    · cases h

/-- Directories are not made over files. -/
theorem node_mkdirs (h : d.mkdirs p = some d') (hq : d.node q = some (.file i)) :
    d'.node q = some (.file i) := by
  obtain ⟨hfile, hnode, -, -⟩ := mkdirs_eq_some h
  have hout : ¬ q <+: p := fun hin => hfile q hin (isFile_iff.mpr ⟨i, hq⟩)
  rw [hnode, if_neg hout, hq]

/-- A file that has just been opened. -/
theorem isHandle_openForWriting (h : d.openForWriting p = some (d', i)) : d'.IsHandle p i :=
  .of_node (node_openForWriting h)

theorem IsHandle.mkdirs (hi : d.IsHandle p i) (h : d.mkdirs q = some d') : d'.IsHandle p i := by
  obtain ⟨-, hnode, -, hnext⟩ := mkdirs_eq_some h
  refine ⟨fun r hr => ?_, hnext ▸ hi.known⟩
  rw [hnode] at hr
  split at hr
  · cases hr
  · exact hi.path r hr

theorem IsHandle.setData (hi : d.IsHandle p i) (bytes : Bytes) :
    (d.setData j bytes).IsHandle p i :=
  ⟨hi.path, hi.known⟩

theorem IsHandle.write (hi : d.IsHandle p i) (offset : ℕ) (bytes : Bytes) :
    (d.write j offset bytes).IsHandle p i :=
  ⟨hi.path, hi.known⟩

theorem IsHandle.openForWriting (hi : d.IsHandle p i) (h : d.openForWriting q = some (d', j)) :
    d'.IsHandle p i := by
  simp only [Disk.openForWriting] at h
  split at h
  · cases h
  · obtain ⟨rfl, rfl⟩ := Prod.mk.inj (Option.some.inj h)
    exact hi.setData []
  · split at h
    · obtain ⟨rfl, rfl⟩ := Prod.mk.inj (Option.some.inj h)
      refine ⟨fun r hr => ?_, Nat.lt_succ_of_lt hi.known⟩
      have hr : (if r = q then some (Node.file d.next) else d.node r) = some (.file i) := hr
      split at hr
      · have hlt := hi.known
        obtain rfl : d.next = i := by simpa using hr
        omega
      · exact hi.path r hr
    · cases h

theorem IsHandle.drop (hi : d.IsHandle p i) (sel : Path → Prop) [DecidablePred sel] :
    (d.drop sel).IsHandle p i := by
  refine ⟨fun r hr => ?_, hi.known⟩
  have hr : (if sel r then none else d.node r) = some (.file i) := hr
  split at hr
  · cases hr
  · exact hi.path r hr

/-- Nothing a path leads to changes when an open file is written whose path was removed. -/
theorem IsHandle.contents_write_of_node_ne (hi : d.IsHandle p i) (hp : d.node p ≠ some (.file i))
    (offset : ℕ) (bytes : Bytes) (q : Path) :
    (d.write i offset bytes).contents q = d.contents q := by
  refine contents_setData_of_forall_ne (fun r hr => ?_) q
  obtain rfl := hi.path r hr
  exact hp hr

/-- Writing at the end of an open file that its path leads to. -/
theorem contents_write_end {old bytes : Bytes} (hp : d.node p = some (.file i))
    (hold : d.contents p = some old) :
    (d.write i old.length bytes).contents p = some (old ++ bytes) := by
  obtain ⟨j, hj, hdata⟩ := contents_eq_some.mp hold
  obtain rfl : i = j := by simpa [hp] using hj
  rw [Disk.write, contents_setData hp, if_pos rfl, hdata, overwrite_length]

/-- Writing to an open file changes what its path holds only. -/
theorem IsHandle.contents_write (hi : d.IsHandle p i) (offset : ℕ) (bytes : Bytes) (q : Path)
    (hq : q ≠ p) : (d.write i offset bytes).contents q = d.contents q := by
  by_cases hp : d.node p = some (.file i)
  · rw [Disk.write, contents_setData hp, if_neg hq]
  · exact hi.contents_write_of_node_ne hp offset bytes q

end Handles

end Disk

end Lopata

import Lopata.Lib.Script
import Lopata.Lib.Table

/-!
# Migrations of Durable Object Classes

`buildEnv` runs the migrations of the configuration: the rows and the directory of a renamed class
go to its new name, those of a deleted class are deleted, and the tag of the migration is put down
behind all that. Each of these is a statement of its own. A row cannot go where a row with its key
is, and a directory not where there is one with files in it; the statement raises then, and what
was done before it stays done.

## Main results

* `moveRows_eq_none_iff`: where a statement raises.
* `view_finish`: a migration that comes to its end moves and deletes all of the classes.
* `sound_iff`: the migrations take place as a whole or not at all, each once, exactly if a
  statement only raises where the statements of its migration before it have changed nothing.
-/

namespace Lopata.DurableObject.Migrations

abbrev Text := List Char

structure Instance where
  name : Option Text
  createdAt : Text
  deriving DecidableEq, Repr

/-- What is stored of the classes, by the name of the class. -/
structure Stored where
  /-- `do_storage`, by class, id and key. -/
  storage : Table (Text × Text × Text) Text
  /-- `do_alarms`, by class and id. -/
  alarms : Table (Text × Text) ℤ
  /-- `do_instances`, by class and id. -/
  instances : Table (Text × Text) Instance
  /-- The files in the directories of `do-sql`. -/
  dirs : Table Text (List Text)

structure Migration where
  tag : Text
  /-- `from` and `to`. -/
  renamedClasses : Option (List (Text × Text))
  deletedClasses : Option (List Text)

section Statements

variable {κ ρ : Type*} [DecidableEq κ]

/-- The class of a key, renamed. -/
def renameKey (old new : Text) (k : Text × κ) : Text × κ :=
  (if k.1 = old then new else k.1, k.2)

/-- `UPDATE t SET namespace = ? WHERE namespace = ?`; it raises where two rows would get one key. -/
def moveRows (old new : Text) (t : Table (Text × κ) ρ) : Option (Table (Text × κ) ρ) :=
  let rows := t.rows.map fun row => (renameKey old new row.1, row.2)
  if h : (rows.map Prod.fst).Nodup then some ⟨rows, h⟩ else none

/-- `DELETE FROM t WHERE namespace = ?`. -/
def deleteRows (className : Text) (t : Table (Text × κ) ρ) : Table (Text × κ) ρ :=
  t.filter fun k _ => k.1 ≠ className

end Statements

/-- `renameSync`, where the directory exists. -/
def moveDir (old new : Text) (dirs : Table Text (List Text)) : Option (Table Text (List Text)) :=
  match dirs.get? old with
  | none => some dirs
  | some files =>
      if old = new then some dirs
      else if ∃ files ∈ dirs.get? new, files ≠ [] then none
      else some ((dirs.erase old).insert new files)

/-- The statements of a renamed class. -/
def renameClass (old new : Text) : List (Stored → Option Stored) :=
  [fun s => (moveRows old new s.storage).map fun t => { s with storage := t },
   fun s => (moveRows old new s.alarms).map fun t => { s with alarms := t },
   fun s => (moveRows old new s.instances).map fun t => { s with instances := t },
   fun s => (moveDir old new s.dirs).map fun t => { s with dirs := t }]

/-- The statements of a deleted class. -/
def deleteClass (className : Text) : List (Stored → Option Stored) :=
  [fun s => some { s with storage := deleteRows className s.storage },
   fun s => some { s with alarms := deleteRows className s.alarms },
   fun s => some { s with instances := deleteRows className s.instances },
   fun s => some { s with dirs := s.dirs.erase className }]

def Migration.statements (m : Migration) : List (Stored → Option Stored) :=
  (m.renamedClasses.getD []).flatMap (fun c => renameClass c.1 c.2) ++
    (m.deletedClasses.getD []).flatMap deleteClass

def Migration.script (m : Migration) : Tagged Stored Text := (m.tag, m.statements)

/-- The migrations part of `buildEnv`: what it leaves, and whether it came to its end. -/
def buildEnv (migrations : List Migration) (l : Ledger Stored Text) : Ledger Stored Text × Bool :=
  l.applyAll (migrations.map Migration.script)

/-! ### What a migration is for -/

/-- What is stored, by class. -/
structure View where
  storage : Text → Text × Text → Option Text
  alarms : Text → Text → Option ℤ
  instances : Text → Text → Option Instance
  dirs : Text → Option (List Text)

def Stored.view (s : Stored) : View where
  storage c k := s.storage.get? (c, k)
  alarms c k := s.alarms.get? (c, k)
  instances c k := s.instances.get? (c, k)
  dirs c := s.dirs.get? c

section Meaning

variable {ρ : Type*}

/-- All of one class goes to another one. -/
def moved (old new : Text) (f : Text → Option ρ) : Text → Option ρ := fun c =>
  if old = new then f c
  else if c = new then (f old).or (f new)
  else if c = old then none
  else f c

variable {old new c : Text} {f : Text → Option ρ}

theorem moved_self : moved old old f = f := funext fun _ => if_pos rfl

theorem moved_new (h : old ≠ new) : moved old new f new = (f old).or (f new) := by
  rw [moved, if_neg h, if_pos rfl]

theorem moved_old (h : old ≠ new) : moved old new f old = none := by
  rw [moved, if_neg h, if_neg h, if_pos rfl]

theorem moved_of_ne (hold : c ≠ old) (hnew : c ≠ new) : moved old new f c = f c := by
  rw [moved, if_neg hnew, if_neg hold, ite_self]

/-- All of a class is deleted. -/
def removed (className : Text) (f : Text → Option ρ) : Text → Option ρ := fun c =>
  if c = className then none else f c

end Meaning

def View.rename (v : View) (old new : Text) : View where
  storage c k := moved old new (v.storage · k) c
  alarms c k := moved old new (v.alarms · k) c
  instances c k := moved old new (v.instances · k) c
  dirs := moved old new v.dirs

def View.delete (v : View) (className : Text) : View where
  storage c k := removed className (v.storage · k) c
  alarms c k := removed className (v.alarms · k) c
  instances c k := removed className (v.instances · k) c
  dirs := removed className v.dirs

/-- The classes of a migration, renamed and deleted. -/
def Migration.effect (m : Migration) (v : View) : View :=
  (m.deletedClasses.getD []).foldl View.delete
    ((m.renamedClasses.getD []).foldl (fun v c => v.rename c.1 c.2) v)

/-! ### Statements -/

section Rows

variable {κ ρ : Type*} [DecidableEq κ] {t t' : Table (Text × κ) ρ} {old new c : Text} {k : κ}

/-- A row cannot go where there is a row with its key. -/
def Collides (old new : Text) (t : Table (Text × κ) ρ) : Prop :=
  old ≠ new ∧ ∃ k, (t.get? (old, k)).isSome = true ∧ (t.get? (new, k)).isSome = true

theorem mem_keys_iff {κ' ρ' : Type*} [DecidableEq κ'] {t : Table κ' ρ'} {k : κ'} :
    k ∈ t.rows.map Prod.fst ↔ (t.get? k).isSome = true := by
  rw [Option.isSome_iff_exists]
  constructor
  · intro hmem
    obtain ⟨⟨k, r⟩, hrow, rfl⟩ := List.mem_map.mp hmem
    exact ⟨r, Table.mem_rows_iff.mp hrow⟩
  · rintro ⟨r, hget⟩
    exact List.mem_map_of_mem (Table.mem_rows_iff.mpr hget)

omit [DecidableEq κ] in
theorem renameKey_inj {k k' : Text × κ} (h : renameKey old new k = renameKey old new k')
    (hne : k ≠ k') : k.1 = old ∧ k' = (new, k.2) ∨ k'.1 = old ∧ k = (new, k'.2) := by
  obtain ⟨c, k⟩ := k
  obtain ⟨c', k'⟩ := k'
  obtain ⟨hclass, rfl⟩ := Prod.mk.inj h
  have hclasses : c ≠ c' := fun heq => hne (heq ▸ rfl)
  simp only at hclass
  split_ifs at hclass with hold hold' hold'
  · exact absurd (hold.trans hold'.symm) hclasses
  · exact .inl ⟨hold, hclass ▸ rfl⟩
  · exact .inr ⟨hold', hclass ▸ rfl⟩
  · exact absurd hclass hclasses

omit [DecidableEq κ] in
theorem keys_renamed (t : Table (Text × κ) ρ) :
    (t.rows.map fun row => (renameKey old new row.1, row.2)).map Prod.fst =
      (t.rows.map Prod.fst).map (renameKey old new) := by
  rw [List.map_map, List.map_map]
  rfl

/-- The rows of a class can go exactly where no row is in their way. -/
theorem moveRows_eq_none_iff : moveRows old new t = none ↔ Collides old new t := by
  have hnone : moveRows old new t = none ↔
      ¬ ((t.rows.map Prod.fst).map (renameKey old new)).Nodup := by
    rw [← keys_renamed, moveRows]
    exact dite_eq_right_iff.trans ⟨fun h hnodup => (nomatch h hnodup), fun h hnodup =>
      absurd hnodup h⟩
  rw [hnone, List.nodup_map_iff_inj_on t.nodup]
  constructor
  · intro hinj
    push Not at hinj
    obtain ⟨k, hk, k', hk', heq, hne⟩ := hinj
    rw [mem_keys_iff] at hk hk'
    rcases renameKey_inj heq hne with ⟨rfl, rfl⟩ | ⟨rfl, rfl⟩
    · exact ⟨fun h => hne (Prod.ext h rfl), k.2, hk, hk'⟩
    · exact ⟨fun h => hne (Prod.ext h.symm rfl), k'.2, hk', hk⟩
  · rintro ⟨hne, k, hold, hnew⟩ hinj
    have heq := hinj _ (mem_keys_iff.mpr hold) _ (mem_keys_iff.mpr hnew)
      (Prod.ext (by rw [renameKey, renameKey, if_pos rfl, if_neg hne.symm]) rfl)
    exact hne (Prod.mk.inj heq).1

theorem rows_moveRows (h : moveRows old new t = some t') :
    t'.rows = t.rows.map fun row => (renameKey old new row.1, row.2) := by
  rw [moveRows] at h
  split at h
  · rw [← Option.some.inj h]
  · cases h

/-- What is in a table whose rows have been moved. -/
theorem get?_moveRows (h : moveRows old new t = some t') (c : Text) (k : κ) :
    t'.get? (c, k) = moved old new (fun c => t.get? (c, k)) c := by
  have hfree : ¬ Collides old new t := fun hcollides => by
    rw [moveRows_eq_none_iff.mpr hcollides] at h
    cases h
  by_cases hsame : old = new
  · subst hsame
    have hid : ∀ row : (Text × κ) × ρ, (renameKey old old row.1, row.2) = row := by
      rintro ⟨⟨c', k'⟩, r⟩
      rw [renameKey]
      by_cases hc : c' = old <;> simp [hc]
    have htable : t' = t := Table.eq_of_rows_eq (by rw [rows_moveRows h, List.map_congr_left
      fun row _ => hid row, List.map_id'])
    rw [htable, moved_self]
  ext r
  rw [← Table.mem_rows_iff, rows_moveRows h, List.mem_map]
  constructor
  · rintro ⟨⟨⟨c', k'⟩, r'⟩, hrow, heq⟩
    obtain ⟨hkey, rfl⟩ := Prod.mk.inj heq
    obtain ⟨hclass, rfl⟩ := Prod.mk.inj hkey
    have hget := Table.mem_rows_iff.mp hrow
    simp only at hclass ⊢
    by_cases hold : c' = old
    · obtain rfl : new = c := by rwa [if_pos hold] at hclass
      rw [moved_new hsame, ← hold, hget, Option.some_or]
    · obtain rfl : c' = c := by rwa [if_neg hold] at hclass
      by_cases hnew : c' = new
      · have hnone : t.get? (old, k') = none := by
          by_contra hsome
          exact hfree ⟨hsame, k', Option.ne_none_iff_isSome.mp hsome, by rw [← hnew, hget]; rfl⟩
        rw [hnew, moved_new hsame, hnone, Option.none_or, ← hnew, hget]
      · rw [moved_of_ne hold hnew, hget]
  · intro hmoved
    by_cases hnew : c = new
    · rw [hnew, moved_new hsame] at hmoved
      rcases Option.or_eq_some_iff.mp hmoved with hget | ⟨-, hget⟩
      · refine ⟨((old, k), r), Table.mem_rows_iff.mpr hget, ?_⟩
        rw [renameKey, if_pos rfl, hnew]
      · refine ⟨((new, k), r), Table.mem_rows_iff.mpr hget, ?_⟩
        rw [renameKey, if_neg (Ne.symm hsame), hnew]
    · by_cases hold : c = old
      · rw [hold, moved_old hsame] at hmoved
        cases hmoved
      · rw [moved_of_ne hold hnew] at hmoved
        refine ⟨((c, k), r), Table.mem_rows_iff.mpr hmoved, ?_⟩
        rw [renameKey, if_neg hold]

/-- What is in a table without the rows of a class. -/
theorem get?_deleteRows (className c : Text) (k : κ) :
    (deleteRows className t).get? (c, k) = removed className (fun c => t.get? (c, k)) c := by
  rw [deleteRows, Table.get?_filter, removed]
  by_cases hc : c = className
  · rw [if_pos hc]
    cases t.get? (c, k) <;> simp [hc]
  · rw [if_neg hc]
    cases t.get? (c, k) <;> simp [hc]

end Rows

/-! ### Directories -/

section Dirs

variable {old new c : Text} {dirs dirs' : Table Text (List Text)}

theorem get?_moveDir (h : moveDir old new dirs = some dirs') (c : Text) :
    dirs'.get? c = moved old new dirs.get? c := by
  rw [moveDir] at h
  cases hold : dirs.get? old with
  | none =>
    rw [hold] at h
    obtain rfl := Option.some.inj h
    by_cases hsame : old = new
    · rw [hsame, moved_self]
    · by_cases hnew : c = new
      · rw [hnew, moved_new hsame, hold, Option.none_or]
      · by_cases hc : c = old
        · rw [hc, moved_old hsame, hold]
        · rw [moved_of_ne hc hnew]
  | some files =>
    rw [hold] at h
    simp only at h
    split_ifs at h with hsame hfiles
    · obtain rfl := Option.some.inj h
      rw [hsame, moved_self]
    · obtain rfl := Option.some.inj h
      rw [Table.get?_insert, Table.get?_erase]
      by_cases hnew : c = new
      · rw [if_pos hnew, hnew, moved_new hsame, hold, Option.some_or]
      · rw [if_neg hnew]
        by_cases hc : c = old
        · rw [if_pos hc, hc, moved_old hsame]
        · rw [if_neg hc, moved_of_ne hc hnew]

end Dirs

/-! ### Migrations -/

variable {s t : Stored} {old new : Text} {m : Migration}

theorem view_renameClass (h : finish (renameClass old new) s = some t) :
    t.view = s.view.rename old new := by
  obtain ⟨s₁, h₁, h⟩ := Option.bind_eq_some_iff.mp h
  obtain ⟨s₂, h₂, h⟩ := Option.bind_eq_some_iff.mp h
  obtain ⟨s₃, h₃, h⟩ := Option.bind_eq_some_iff.mp h
  obtain ⟨s₄, h₄, h⟩ := Option.bind_eq_some_iff.mp h
  obtain rfl := Option.some.inj h
  obtain ⟨storage, hstorage, rfl⟩ := Option.map_eq_some_iff.mp h₁
  obtain ⟨alarms, halarms, rfl⟩ := Option.map_eq_some_iff.mp h₂
  obtain ⟨instances, hinstances, rfl⟩ := Option.map_eq_some_iff.mp h₃
  obtain ⟨dirs, hdirs, rfl⟩ := Option.map_eq_some_iff.mp h₄
  rw [Stored.view, View.rename]
  congr 1
  · exact funext fun c => funext fun k => get?_moveRows hstorage c k
  · exact funext fun c => funext fun k => get?_moveRows halarms c k
  · exact funext fun c => funext fun k => get?_moveRows hinstances c k
  · exact funext fun c => get?_moveDir hdirs c

theorem view_deleteClass {c : Text} (h : finish (deleteClass c) s = some t) :
    t.view = s.view.delete c := by
  obtain rfl := Option.some.inj h
  rw [Stored.view, View.delete]
  congr 1
  · exact funext fun c' => funext fun k => get?_deleteRows c c' k
  · exact funext fun c' => funext fun k => get?_deleteRows c c' k
  · exact funext fun c' => funext fun k => get?_deleteRows c c' k
  · exact funext fun c' => Table.get?_erase s.dirs c c'

/-- A migration whose statements all go through moves and deletes all of the classes. -/
theorem view_finish (h : finish m.statements s = some t) : t.view = m.effect s.view := by
  rw [Migration.statements, finish_append] at h
  obtain ⟨u, hrenamed, hdeleted⟩ := Option.bind_eq_some_iff.mp h
  rw [Migration.effect, ← finish_flatMap (fun _ _ _ => view_renameClass) hrenamed]
  exact finish_flatMap (fun _ _ _ => view_deleteClass) hdeleted

/-- `buildEnv` comes to a migration in some state. -/
def Reached (migrations : List Migration) (l : Ledger Stored Text) (m : Migration)
    (t : Ledger Stored Text) : Prop :=
  ∃ before behind, migrations = before ++ m :: behind ∧ buildEnv before l = (t, true)

/-- What a migration leaves. -/
def afterwards (m : Migration) (t : Ledger Stored Text) : Ledger Stored Text :=
  (t.apply m.script).1

/-- A migration has taken place: all of the classes is moved or deleted, and the tag is there. -/
structure TakesPlace (m : Migration) (t t' : Ledger Stored Text) : Prop where
  view : t'.state.view = m.effect t.state.view
  tags : t'.tags = t.tags ++ [m.tag]

/-- Migrations take place as a whole or not at all, each tag once, and running them again changes
nothing. -/
structure Sound (migrations : List Migration) (l : Ledger Stored Text) : Prop where
  whole : ∀ m t, Reached migrations l m t →
    afterwards m t = t ∨ m.tag ∉ t.tags ∧ TakesPlace m t (afterwards m t)
  once : ∀ m t, Reached migrations l m t → afterwards m t ≠ t →
    ∀ m' u, m'.tag = m.tag → (afterwards m t).tags ⊆ u.tags → afterwards m' u = u
  again : (buildEnv migrations (buildEnv migrations l).1).1 = (buildEnv migrations l).1

variable {migrations : List Migration} {l : Ledger Stored Text}

theorem reached_of_turn {m' : Tagged Stored Text} {t : Ledger Stored Text}
    (h : l.Turn (migrations.map Migration.script) m' t) :
    ∃ m, m' = m.script ∧ Reached migrations l m t := by
  obtain ⟨before, behind, heq, hbefore⟩ := h
  obtain ⟨before, rest, rfl, rfl, hrest⟩ := List.map_eq_append_iff.mp heq
  obtain ⟨m, behind, rfl, rfl, rfl⟩ := List.map_eq_cons_iff.mp hrest
  exact ⟨m, rfl, before, behind, rfl, hbefore⟩

/-- The migrations are sound exactly if, where a statement of one raises (a row is in the way of
another, or a directory with files in the way of a directory), the statements of that migration
before it have changed nothing. -/
theorem sound_iff (migrations : List Migration) (l : Ledger Stored Text) :
    Sound migrations l ↔
      ∀ m t, Reached migrations l m t → m.tag ∉ t.tags →
        ∀ u, Stuck m.statements t.state u → u = t.state := by
  constructor
  · intro hsound m t hreached hnew u hstuck
    have hafter : afterwards m t = ⟨u, t.tags⟩ :=
      congrArg Prod.fst (Ledger.apply_of_stuck (m := m.script) hnew hstuck)
    rcases hsound.whole m t hreached with hsame | ⟨-, hplace⟩
    · exact congrArg Ledger.state (hafter.symm.trans hsame)
    · rw [hafter] at hplace
      have htags : t.tags = t.tags ++ [m.tag] := hplace.tags
      have hlength := congrArg List.length htags
      rw [List.length_append, List.length_singleton] at hlength
      omega
  · intro hclean
    have hcases : ∀ m t, Reached migrations l m t →
        afterwards m t = t ∨ m.tag ∉ t.tags ∧ TakesPlace m t (afterwards m t) := by
      intro m t hreached
      rcases Ledger.apply_cases t m.script with
        ⟨-, h⟩ | ⟨hnew, s, hfinish, h⟩ | ⟨hnew, s, hstuck, h⟩
      · exact .inl (congrArg Prod.fst h)
      · refine .inr ⟨hnew, ?_⟩
        rw [afterwards, h]
        exact ⟨view_finish hfinish, rfl⟩
      · obtain rfl := hclean m t hreached hnew s hstuck
        exact .inl (congrArg Prod.fst h)
    refine ⟨hcases, fun m t hreached hne m' u htag hsubset => ?_, ?_⟩
    · obtain ⟨-, hplace⟩ := (hcases m t hreached).resolve_left hne
      have hmem : m'.tag ∈ u.tags := by
        refine hsubset ?_
        rw [hplace.tags, htag]
        exact List.mem_append_right _ (List.mem_singleton_self _)
      exact congrArg Prod.fst (Ledger.apply_of_mem (m := m'.script) hmem)
    · refine Ledger.applyAll_idem fun m' t hturn hnew u hstuck => ?_
      obtain ⟨m, rfl, hreached⟩ := reached_of_turn hturn
      exact hclean m t hreached hnew u hstuck

/-- A renamed class whose alarms cannot go to its new name, while its storage can. -/
def collision : Stored where
  storage := ⟨[(("A".toList, "1".toList, "k".toList), "v".toList)], by decide⟩
  alarms := ⟨[(("A".toList, "1".toList), 5), (("B".toList, "1".toList), 6)], by decide⟩
  instances := .empty
  dirs := .empty

def renameAToB : Migration where
  tag := "v1".toList
  renamedClasses := some [("A".toList, "B".toList)]
  deletedClasses := none

/-- The storage has been moved when the alarms raise. -/
theorem not_sound : ¬ Sound [renameAToB] ⟨collision, []⟩ := by
  intro hsound
  have hreached : Reached [renameAToB] ⟨collision, []⟩ renameAToB ⟨collision, []⟩ :=
    ⟨[], [], rfl, rfl⟩
  rcases hsound.whole _ _ hreached with hsame | ⟨-, hplace⟩
  · have hstored := congrArg (fun l => (l.state.storage.rows)) hsame
    exact absurd hstored (by decide)
  · exact absurd hplace.tags (by decide)

end Lopata.DurableObject.Migrations

import Lopata.R2.Filed

/-!
# Independence of Keys

Rows are kept by key, but files by path, and joining a key to the bucket's directory forgets
empty components and `.`; the directory also holds the parts of multipart uploads. What an
operation on one key does to another is what it does to the other's path.

## Main results

* `independent_throughout`: the operations on one key leave what `get` and `head` return for
  another alone as long as none of them reaches the other's path.
* `filePath_inj`: keys whose components are plain names have paths of their own.
* `independent_of_plain`: so they are independent, unless one lies among the part files or an
  `abort` is given something that is not an upload id.
* `not_independent`: a `delete` of `a//b` removes the file of `a/b`.
-/

namespace Lopata.R2

/-- The key whose row the operation writes. -/
def Op.key (op : Op) : Option Key :=
  match op.task with
  | .put key _ | .complete key .. => some key
  | .part .. => none

/-- The operations on one key of a bucket, multipart operations with any upload id, and reads. -/
def Keyed (b : Bucket) (key : Key) (s : State) : Action → Prop
  | .put b' key' _ | .complete b' key' _ _ | .delete b' key'
  | .createMultipartUpload b' key' .. => b' = b ∧ key' = key
  | .uploadPart b' .. | .abort b' _ => b' = b
  | .openFile id | .write id _ | .nextPart id | .copy id _ | .fail id | .commit id .. =>
      ∀ op ∈ s.ops.get? id, op.bucket = b ∧ ∀ key' ∈ op.key, key' = key
  | .get .. | .readBody .. => True

instance (b : Bucket) (key : Key) (s : State) : (a : Action) → Decidable (Keyed b key s a)
  | .put b' key' _ | .complete b' key' _ _ | .delete b' key'
  | .createMultipartUpload b' key' .. => inferInstanceAs (Decidable (b' = b ∧ key' = key))
  | .uploadPart b' .. | .abort b' _ => inferInstanceAs (Decidable (b' = b))
  | .openFile id | .write id _ | .nextPart id | .copy id _ | .fail id | .commit id .. =>
      inferInstanceAs (Decidable
        (∀ op ∈ s.ops.get? id, op.bucket = b ∧ ∀ key' ∈ op.key, key' = key))
  | .get .. | .readBody .. => inferInstanceAs (Decidable True)

/-- The step does not reach the path of the key. -/
def Apart (cfg : Config) (b : Bucket) (key : Key) (s : State) (a : Action) : Prop :=
  ¬ Hits cfg (cfg.filePath b key).path s a

instance (cfg : Config) (b : Bucket) (key : Key) (s : State) (a : Action) :
    Decidable (Apart cfg b key s a) :=
  inferInstanceAs (Decidable (¬ _))

section Frame

variable {cfg : Config} {b : Bucket} {key key' : Key} {s s' : State} {a : Action} {id : ℕ}

/-- The row of another key stays. -/
theorem get?_objects_commit (hne : key' ≠ key) {version : Text} {now : Time}
    (hkeyed : Keyed b key s (.commit id version now))
    (hstep : s.commit cfg id version now = some s') :
    s'.objects.get? (b, key') = s.objects.get? (b, key') := by
  obtain ⟨op, i, hop, -, hcases⟩ := State.commit_cases hstep
  obtain ⟨-, hkey⟩ := hkeyed op hop
  have hinsert : ∀ k row, op.key = some k →
      (s.objects.insert (op.bucket, k) row).get? (b, key') = s.objects.get? (b, key') := by
    intro k row hk
    refine Table.get?_insert_of_ne _ _ fun heq => hne ?_
    exact (Prod.mk.inj heq).2.trans (hkey k hk)
  rcases hcases with ⟨k, options, htask, rfl⟩ | ⟨uid, n, htask, rfl⟩ |
    ⟨k, uid, upload, parts, htask, rfl⟩
  · exact hinsert k _ (by rw [Op.key, htask])
  · rfl
  · show (State.removePartFiles _ _ _ _).objects.get? _ = _
    rw [State.objects_removePartFiles]
    exact hinsert k _ (by rw [Op.key, htask])

theorem objects_delete (s : State) (cfg : Config) (b : Bucket) (key : Key) :
    (s.delete cfg b key).objects = s.objects.erase (b, key) := by
  rcases s.delete_cases cfg b key with ⟨-, heq⟩ | ⟨-, heq | heq⟩ <;> rw [heq] <;> rfl

theorem objects_begin (s : State) (b : Bucket) (task : Task) (file : FilePath) :
    (s.begin b task file).objects = s.objects := by
  rcases s.begin_cases b task file with ⟨-, heq⟩ | ⟨disk, -, -, heq⟩ <;> rw [heq] <;> rfl

theorem get?_objects_step (hne : key' ≠ key) (hkeyed : Keyed b key s a)
    (hstep : step cfg s a = some s') :
    s'.objects.get? (b, key') = s.objects.get? (b, key') := by
  cases a with
  | put b' k options =>
    obtain ⟨-, ⟨-, rfl⟩ | ⟨-, rfl⟩⟩ := State.put_cases hstep
    · rfl
    · rw [objects_begin]
  | uploadPart b' uid n =>
    obtain ⟨upload, -, -, rfl⟩ := State.uploadPart_cases hstep
    rw [objects_begin]
  | complete b' k uid parts =>
    obtain ⟨upload, rows, -, -, -, rfl⟩ := State.complete_cases hstep
    rw [objects_begin]
  | openFile id =>
    obtain ⟨op, -, -, ⟨-, rfl⟩ | ⟨-, -, rfl⟩ | ⟨disk, i, -, -, -, rfl⟩⟩ :=
      State.openFile_cases hstep
    · rfl
    · rfl
    · rfl
  | write id chunk =>
    obtain ⟨op, i, -, -, -, rfl⟩ := State.write_cases hstep
    rfl
  | nextPart id =>
    obtain ⟨op, i, k, uid, upload, parts, row, rest, -, -, -, ⟨-, rfl⟩ | ⟨bytes, -, rfl⟩⟩ :=
      State.nextPart_cases hstep
    · rfl
    · rfl
  | copy id n =>
    obtain ⟨op, i, k, uid, upload, parts, rest, source, -, -, -, rfl⟩ := State.copy_cases hstep
    rfl
  | fail id =>
    obtain ⟨op, i, -, -, rfl⟩ := State.fail_cases hstep
    rfl
  | commit id version now => exact get?_objects_commit hne hkeyed hstep
  | delete b' k =>
    obtain ⟨rfl, rfl⟩ := hkeyed
    obtain rfl := Option.some.inj hstep
    rw [objects_delete, Table.get?_erase, if_neg]
    exact fun heq => hne (Prod.mk.inj heq).2
  | createMultipartUpload b' k httpMetadata customMetadata uid now =>
    obtain ⟨-, -, rfl⟩ := State.createMultipartUpload_cases hstep
    rfl
  | abort b' uid =>
    obtain rfl := Option.some.inj hstep
    show (State.removePartFiles _ _ _ _).objects.get? _ = _
    rw [State.objects_removePartFiles]
    rfl
  | get b' k onlyIf =>
    obtain ⟨-, rfl⟩ := State.handOut_cases hstep
    rfl
  | readBody b' p =>
    obtain ⟨-, -, rfl⟩ := State.readBody_cases hstep
    rfl

/-- One step on a key leaves what is returned for another. -/
theorem get_step (hhandled : Handled s) (hne : key' ≠ key) (hkeyed : Keyed b key s a)
    (hapart : Apart cfg b key' s a) (hstep : step cfg s a = some s') :
    s'.get cfg b key' = s.get cfg b key' ∧ s'.head b key' = s.head b key' := by
  have hrow := get?_objects_step hne hkeyed hstep
  have hbytes := contents_step hhandled hapart hstep
  refine ⟨?_, hrow⟩
  rw [State.get, State.get, hrow, hbytes]

end Frame

/-! ### Plain keys -/

/-- Every component of the key names something. -/
def PlainKey (key : Key) : Prop :=
  ∀ n ∈ Path.components key, Path.IsPlain n

instance (key : Key) : Decidable (PlainKey key) :=
  inferInstanceAs (Decidable (∀ n ∈ Path.components key, _))

section Plain

variable {cfg : Config} {b : Bucket} {key key' : Key} {s : State} {a : Action}

theorem PlainKey.filePath (h : PlainKey key) :
    (cfg.filePath b key).path = cfg.baseDir b ++ Path.components key := by
  have hparent : Path.parent ∉ Path.components key := fun hmem => (h _ hmem).2.2 rfl
  rw [Config.filePath, Path.join_eq_append _ hparent, List.filter_eq_self.mpr]
  exact fun n hn => by simpa using h n hn

/-- **Plain keys have paths of their own.** -/
theorem filePath_inj (h : PlainKey key) (h' : PlainKey key')
    (heq : (cfg.filePath b key).path = (cfg.filePath b key').path) : key = key' := by
  rw [h.filePath, h'.filePath] at heq
  have hcomponents := List.append_cancel_left heq
  have hjoin := congrArg (['/'].intercalate ·) hcomponents
  simpa [Path.components, List.intercalate_splitOn] using hjoin

/-- The key does not lie among the part files. -/
def Outside (key : Key) : Prop :=
  (Path.components key).head? ≠ some multipartDir

instance (key : Key) : Decidable (Outside key) :=
  inferInstanceAs (Decidable (_ ≠ _))

/-- Part files are not the file of a plain key outside, nor around it. -/
theorem not_within_filePath (h : PlainKey key) (hout : Outside key) {p : Path} {id : UploadId}
    (hid : IsUuid id) (hp : Path.Within (cfg.partDir b id).path p) :
    ¬ Path.Within p (cfg.filePath b key).path := by
  intro hin
  have hstarts := Path.Within.trans hp hin
  rw [hid.partDir, h.filePath, Path.Within, List.append_assoc,
    List.prefix_append_right_inj] at hstarts
  refine hout ?_
  obtain ⟨rest, hrest⟩ := hstarts
  rw [← hrest]
  rfl

/-- `abort` is given an upload id. -/
def AbortsUploads (_ : State) : Action → Prop
  | .abort _ id => IsUuid id
  | .put .. | .uploadPart .. | .complete .. | .openFile _ | .write .. | .nextPart _ | .copy ..
  | .fail _ | .commit .. | .delete .. | .createMultipartUpload .. | .get .. | .readBody .. => True

instance (s : State) : (a : Action) → Decidable (AbortsUploads s a)
  | .abort _ id => inferInstanceAs (Decidable (IsUuid id))
  | .put .. | .uploadPart .. | .complete .. | .openFile _ | .write .. | .nextPart _ | .copy ..
  | .fail _ | .commit .. | .delete .. | .createMultipartUpload .. | .get .. | .readBody .. =>
      inferInstanceAs (Decidable True)

/-- The file of an operation on one plain key is not the file of another. -/
theorem file_path_ne (hfiled : Filed cfg s) (h : PlainKey key) (h' : PlainKey key')
    (hne : key' ≠ key) (hout : Outside key') {id : ℕ} {op : Op} (hop : s.ops.get? id = some op)
    (hb : op.bucket = b) (hkey : ∀ k ∈ op.key, k = key) :
    op.file.path ≠ (cfg.filePath b key').path := by
  have hopfiled := hfiled.ops id op hop
  cases htask : op.task with
  | put k options =>
    obtain rfl := hkey k (by rw [Op.key, htask]; rfl)
    rw [(hopfiled.put k options htask).2, hb]
    exact fun heq => hne (filePath_inj h h' heq).symm
  | part uid n =>
    obtain ⟨huuid, -, hfile⟩ := hopfiled.part uid n htask
    intro heq
    have hin : Path.Within (cfg.partFile b uid n).path (cfg.filePath b key').path := by
      rw [← heq, hfile, hb]
      exact Path.Within.refl _
    exact not_within_filePath h' hout huuid (within_partFile n) hin
  | complete k uid upload parts rest source =>
    obtain rfl := hkey k (by rw [Op.key, htask]; rfl)
    rw [(hopfiled.complete _ _ _ _ _ _ htask).1, hb]
    exact fun heq => hne (filePath_inj h h' heq).symm

theorem apart_of_plain (hfiled : Filed cfg s) (h : PlainKey key) (h' : PlainKey key')
    (hne : key' ≠ key) (hout : Outside key') (hkeyed : Keyed b key s a)
    (haborts : AbortsUploads s a) : Apart cfg b key' s a := by
  intro hhits
  cases a with
  | openFile id =>
    obtain ⟨op, hop, heq⟩ := hhits
    obtain ⟨hb, hkey⟩ := hkeyed op hop
    exact file_path_ne hfiled h h' hne hout hop hb hkey heq
  | write id chunk =>
    obtain ⟨op, hop, heq⟩ := hhits
    obtain ⟨hb, hkey⟩ := hkeyed op hop
    exact file_path_ne hfiled h h' hne hout hop hb hkey heq
  | copy id n =>
    obtain ⟨op, hop, heq⟩ := hhits
    obtain ⟨hb, hkey⟩ := hkeyed op hop
    exact file_path_ne hfiled h h' hne hout hop hb hkey heq
  | commit id version now =>
    obtain ⟨op, hop, uid, huid, hin⟩ := hhits
    obtain ⟨hb, -⟩ := hkeyed op hop
    have huuid : IsUuid uid := by
      cases htask : op.task with
      | put k options => simp [Op.completed, htask] at huid
      | part uid' n => simp [Op.completed, htask] at huid
      | complete k uid' upload parts rest source =>
        obtain rfl : uid' = uid := by
          simp only [Op.completed, htask] at huid
          split at huid
          · next heq =>
              obtain ⟨-, rfl, -⟩ := Task.complete.inj heq
              exact Option.some.inj huid
          · cases huid
          · cases huid
          · cases huid
        exact ((hfiled.ops id op hop).complete _ _ _ _ _ _ htask).2.1
    rw [hb] at hin
    exact not_within_filePath h' hout huuid (Path.Within.refl _) hin
  | delete b' k =>
    obtain ⟨rfl, rfl⟩ := hkeyed
    exact hne (filePath_inj h h' hhits).symm
  | abort b' uid =>
    obtain rfl : b' = b := hkeyed
    exact not_within_filePath h' hout haborts (Path.Within.refl _) hhits
  | put b' k options => exact hhits
  | uploadPart b' uid n => exact hhits
  | complete b' k uid parts => exact hhits
  | nextPart id => exact hhits
  | fail id => exact hhits
  | createMultipartUpload b' k httpMetadata customMetadata uid now => exact hhits
  | get b' k onlyIf => exact hhits
  | readBody b' p => exact hhits

end Plain

/-! ### The results -/

/-- **Independence.** From any reachable state, with any calls in flight: along every run of
operations on one key that does not reach the path of another, what `get` and `head` return for
the other stays what it was. -/
theorem independent_throughout (cfg : Config) (b : Bucket) {key key' : Key} (hne : key' ≠ key)
    (disk : Disk) {s : State} (hreach : Reaches (step cfg) unguarded (.start disk) s)
    (as : List Action)
    (hapart : Along (restrict (step cfg) (Keyed b key)) (Apart cfg b key') s as) :
    Throughout (restrict (step cfg) (Keyed b key))
      (fun t => t.get cfg b key' = s.get cfg b key' ∧ t.head b key' = s.head b key') s as := by
  have hhandled := (filed_of_reaches hreach).2
  refine hapart.throughout (J := fun t => Handled t ∧
      t.get cfg b key' = s.get cfg b key' ∧ t.head b key' = s.head b key')
    ⟨hhandled, rfl, rfl⟩ (fun t h => h.2) fun t a u h hok hstep => ?_
  obtain ⟨hkeyed, hstep⟩ := restrict_eq_some.mp hstep
  obtain ⟨hget, hhead⟩ := get_step h.1 hne hkeyed hok hstep
  exact ⟨h.1.step hstep, hget.trans h.2.1, hhead.trans h.2.2⟩

/-- Plain keys do not reach each other's paths. -/
theorem independent_of_plain (cfg : Config) (b : Bucket) {key key' : Key} (hne : key' ≠ key)
    (h : PlainKey key) (h' : PlainKey key') (hout : Outside key') (disk : Disk) {s : State}
    (hreach : Reaches (step cfg) unguarded (.start disk) s) (as : List Action)
    (haborts : Along (restrict (step cfg) (Keyed b key)) AbortsUploads s as) :
    Along (restrict (step cfg) (Keyed b key)) (Apart cfg b key') s as := by
  refine haborts.imp (J := Filed cfg) (filed_of_reaches hreach).1
    (fun t a u ht _ hstep => ht.step (restrict_eq_some.mp hstep).2) fun t a u ht hstep hok => ?_
  exact apart_of_plain ht h h' hne hout (restrict_eq_some.mp hstep).1 hok

/-- A put, an overwrite and a `delete` of `a`. -/
def onlyA : List Action :=
  [.put "b".toList "a".toList {}, .openFile 0, .write 0 [97], .commit 0 [] 0,
    .delete "b".toList "a".toList]

theorem independent_throughout_onlyA :
    Throughout (restrict (step site) (Keyed "b".toList "a".toList))
      (fun t => t.get site "b".toList "a/b".toList =
          (State.start siteDisk).get site "b".toList "a/b".toList ∧
        t.head "b".toList "a/b".toList = (State.start siteDisk).head "b".toList "a/b".toList)
      (.start siteDisk) onlyA :=
  independent_throughout site "b".toList (by decide) siteDisk Reaches.refl onlyA (by decide)

/-- A `delete` of `a//b` removes the file of `a/b`. -/
theorem not_independent :
    ¬ ∀ s t, Reaches (step site) unguarded (.start siteDisk) s →
      Reaches (step site) (Keyed "b".toList "a//b".toList) s t →
        t.get site "b".toList "a/b".toList = s.get site "b".toList "a/b".toList := by
  intro hall
  have hrun : (play (restrict (step site) unguarded) (.start siteDisk)
      [.put "b".toList "a/b".toList {}, .openFile 0, .write 0 [97], .commit 0 [] 0]).any
        (fun s => (s.get site "b".toList "a/b".toList).any (fun p => p.2 = some [97]) &&
          (play (restrict (step site) (Keyed "b".toList "a//b".toList)) s
            [.delete "b".toList "a//b".toList]).any fun t =>
              (t.get site "b".toList "a/b".toList).any fun p => p.2 = none) = true := by
    decide
  obtain ⟨s, hreach, hs⟩ := exists_reaches_of_play hrun
  obtain ⟨hbefore, hplay⟩ := Bool.and_eq_true_iff.mp hs
  obtain ⟨t, hreach', hafter⟩ := exists_reaches_of_play hplay
  have heq := hall s t hreach hreach'
  rw [heq] at hafter
  simp only [Option.any_eq_true, decide_eq_true_eq] at hbefore hafter
  obtain ⟨p, hp, hsome⟩ := hbefore
  obtain ⟨q, hq, hnone⟩ := hafter
  obtain rfl : p = q := Option.some.inj (hp.symm.trans hq)
  cases hsome.symm.trans hnone

end Lopata.R2

import LazyOS.Data.Lowest
import LazyOS.Fs.Frame
import LazyOS.Fs.RoundTrip

namespace LazyOS.Fs

open LazyOS.Data
open LazyOS.Disk

/-! Names in the directory.  `create_file` never looks for the name it is given, and
`read_file` and `delete_file` take the first slot that matches. -/

def SameName (left right : FileDir) : Prop :=
  left.name = right.name ∧ left.ext = right.ext

def UniqueNames (root : RootDir) : Prop :=
  ∀ left right, InUse (root left) → InUse (root right) →
    SameName (root left) (root right) → left = right

/-- After `create_file` has filled `filled`: no name is there twice, `read_file` of
the name comes to the new file, and `delete_file` of it leaves no copy behind. -/
structure NewestWins (args : CreateArgs) (filled : Fin 224) (after : FileSystem) :
    Prop where
  unique : UniqueNames after.rootDir
  reads : findFile (loadRootDir after.rootDir after.disk) args.nameT = some filled
  deletes : ∀ final, deleteFile after args.nameT = some final → ∀ slot,
    InUse (final.rootDir slot) → ¬ SameName (final.rootDir slot) (after.rootDir filled)

/-- No file has the name and extension, and the lookup of the name meets no file in
the slots that are used up to the first empty one. -/
structure FreshName (root : RootDir) (args : CreateArgs) : Prop where
  unheld : ∀ slot, InUse (root slot) →
    ¬ ((root slot).name = fieldText args.nameT ∧ (root slot).ext = fieldText args.extT)
  unmatched : ∀ slot, (∀ earlier ≤ slot, InUse (root earlier)) →
    compFileName (root slot).name args.nameT = false

inductive NameOp where
  | create (args : CreateArgs)
  | delete (name : CString)

def NameStep (fs : FileSystem) : NameOp → FileSystem → Prop
  | .create args, after => ∃ filled, SuccessfulCreate fs args filled after
  | .delete name, after => deleteFile fs name = some after

def FreshStep (fs : FileSystem) (op : NameOp) (after : FileSystem) : Prop :=
  NameStep fs op after ∧ ∀ args, op = .create args → FreshName fs.rootDir args

theorem freeSlot_eq_some {root : RootDir} {slot : Fin 224} :
    freeSlot root = some slot ↔
      ¬ InUse (root slot) ∧ ∀ earlier < slot, InUse (root earlier) := by
  unfold freeSlot InUse
  rw [find?_finRange]
  simp

theorem findFile_eq_some {root : RootDir} {name : CString} {slot : Fin 224} :
    findFile root name = some slot ↔
      compFileName (root slot).name name = true ∧
        ∀ earlier < slot, compFileName (root earlier).name name = false :=
  find?_finRange

theorem SuccessfulCreate.root {fs after : FileSystem} {args : CreateArgs}
    {filled : Fin 224} (success : SuccessfulCreate fs args filled after) :
    ∃ cluster, after.rootDir = Function.update fs.rootDir filled (args.entry cluster) := by
  obtain ⟨-, disk, -, rfl⟩ := create_cases_slot success.returned
  exact ⟨_, rfl⟩

theorem uniqueNames_create {fs after : FileSystem} {args : CreateArgs}
    {filled : Fin 224} (unique : UniqueNames fs.rootDir)
    (success : SuccessfulCreate fs args filled after) :
    UniqueNames after.rootDir ↔ ∀ slot, InUse (fs.rootDir slot) →
      ¬ ((fs.rootDir slot).name = fieldText args.nameT ∧
        (fs.rootDir slot).ext = fieldText args.extT) := by
  obtain ⟨cluster, root⟩ := success.root
  obtain ⟨free, -⟩ := create_cases_slot success.returned
  have unused := freeSlot_unused free
  have other : ∀ slot, InUse (fs.rootDir slot) → slot ≠ filled := by
    rintro slot used rfl
    exact unused used
  have here : after.rootDir filled = args.entry cluster := by
    rw [root, Function.update_self]
  have elsewhere : ∀ slot, slot ≠ filled → after.rootDir slot = fs.rootDir slot := by
    intro slot different
    rw [root, Function.update_of_ne different]
  constructor
  · intro uniqueAfter slot used same
    refine other slot used (uniqueAfter slot filled ?_ ?_ ?_)
    · rw [elsewhere slot (other slot used)]
      exact used
    · rw [here]
      exact entry_inUse args cluster
    · rw [elsewhere slot (other slot used), here]
      exact same
  · intro unheld left right usedLeft usedRight same
    by_cases isLeft : left = filled
    · by_cases isRight : right = filled
      · rw [isLeft, isRight]
      · rw [elsewhere right isRight] at usedRight same
        rw [isLeft, here] at same
        exact absurd ⟨same.1.symm, same.2.symm⟩ (unheld right usedRight)
    · rw [elsewhere left isLeft] at usedLeft same
      by_cases isRight : right = filled
      · rw [isRight, here] at same
        exact absurd same (unheld left usedLeft)
      · rw [elsewhere right isRight] at usedRight same
        exact unique left right usedLeft usedRight same

theorem uniqueNames_delete {fs after : FileSystem} {name : CString}
    (unique : UniqueNames fs.rootDir) (deleted : deleteFile fs name = some after) :
    UniqueNames after.rootDir := by
  cases found : findFile fs.rootDir name with
  | none =>
      rw [deleteFile_cases_missing found deleted]
      exact unique
  | some pos =>
      obtain ⟨table, disk, rfl⟩ := deleteFile_cases_found found deleted
      have kept : ∀ slot, InUse (Function.update fs.rootDir pos FileDir.zero slot) →
          Function.update fs.rootDir pos FileDir.zero slot = fs.rootDir slot := by
        intro slot used
        by_cases cleared : slot = pos
        · subst cleared
          rw [Function.update_self] at used
          exact absurd rfl used
        · exact Function.update_of_ne cleared _ _
      intro left right usedLeft usedRight same
      simp only at usedLeft usedRight same
      have keptLeft := kept left usedLeft
      have keptRight := kept right usedRight
      rw [keptLeft] at usedLeft
      rw [keptRight] at usedRight
      rw [keptLeft, keptRight] at same
      exact unique left right usedLeft usedRight same

/-- The lookup of the new name comes to the new file when it meets no other match in
the slots before. -/
theorem findFile_create {fs after : FileSystem} {args : CreateArgs}
    {filled : Fin 224} (success : SuccessfulCreate fs args filled after) :
    findFile after.rootDir args.nameT = some filled ↔
      ∀ slot, (∀ earlier ≤ slot, InUse (fs.rootDir earlier)) →
        compFileName (fs.rootDir slot).name args.nameT = false := by
  obtain ⟨cluster, root⟩ := success.root
  obtain ⟨free, -⟩ := create_cases_slot success.returned
  obtain ⟨unused, before⟩ := freeSlot_eq_some.mp free
  have matched : compFileName (after.rootDir filled).name args.nameT = true := by
    rw [root, Function.update_self]
    exact compFileName_fieldText args.nameT
  rw [findFile_eq_some, and_iff_right matched]
  constructor
  · intro first slot used
    have less : slot < filled := by
      by_contra later
      exact unused (used filled (not_lt.mp later))
    have tested := first slot less
    rwa [root, Function.update_of_ne less.ne] at tested
  · intro unmatched slot less
    rw [root, Function.update_of_ne less.ne]
    exact unmatched slot fun earlier le => before earlier (le.trans_lt less)

theorem newestWins_iff {fs after : FileSystem} {args : CreateArgs} {filled : Fin 224}
    (unique : UniqueNames fs.rootDir)
    (success : SuccessfulCreate fs args filled after) :
    NewestWins args filled after ↔ FreshName fs.rootDir args := by
  have stored : loadRootDir after.rootDir after.disk = after.rootDir := by
    obtain ⟨-, disk, -, rfl⟩ := create_cases_slot success.returned
    rw [loadRootDir_eq]
    simp
  constructor
  · intro wins
    refine ⟨(uniqueNames_create unique success).mp wins.unique, ?_⟩
    have reads := wins.reads
    rw [stored] at reads
    exact (findFile_create success).mp reads
  · intro fresh
    have uniqueAfter := (uniqueNames_create unique success).mpr fresh.unheld
    have found := (findFile_create success).mpr fresh.unmatched
    refine ⟨uniqueAfter, by rwa [stored], ?_⟩
    intro final deleted slot used same
    obtain ⟨table, disk, rfl⟩ := deleteFile_cases_found found deleted
    simp only at used same
    by_cases cleared : slot = filled
    · subst cleared
      rw [Function.update_self] at used
      exact used rfl
    · rw [Function.update_of_ne cleared] at used same
      obtain ⟨cluster, root⟩ := success.root
      refine cleared (uniqueAfter slot filled used ?_ same)
      rw [root, Function.update_self]
      exact entry_inUse args cluster

theorem uniqueNames_boot (ram : Table) (disk : DiskImage) :
    UniqueNames (bootFileSystem ram disk).rootDir :=
  fun _ _ used => absurd rfl used

theorem uniqueNames_step {fs after : FileSystem} {op : NameOp}
    (unique : UniqueNames fs.rootDir) (step : FreshStep fs op after) :
    UniqueNames after.rootDir := by
  obtain ⟨taken, fresh⟩ := step
  cases op with
  | create args =>
      obtain ⟨filled, success⟩ := taken
      exact (uniqueNames_create unique success).mpr (fresh args rfl).unheld
  | delete name => exact uniqueNames_delete unique taken

/-- In a session that creates files under fresh names only, no name is ever there
twice; and from there a creation lets the newest file win exactly when its name is
fresh. -/
theorem newest_name_wins {ram : Table} {disk : DiskImage} {ops : List NameOp}
    {fs : FileSystem} (run : Run FreshStep (bootFileSystem ram disk) ops fs) :
    UniqueNames fs.rootDir ∧
      ∀ args filled after, SuccessfulCreate fs args filled after →
        (NewestWins args filled after ↔ FreshName fs.rootDir args) := by
  have unique := run.invariant (fun fs => UniqueNames fs.rootDir)
    (fun _ _ _ unique step => uniqueNames_step unique step)
    (uniqueNames_boot ram disk)
  exact ⟨unique, fun args filled after success => newestWins_iff unique success⟩

theorem freshName_boot (ram : Table) (disk : DiskImage) (args : CreateArgs) :
    FreshName (bootFileSystem ram disk).rootDir args :=
  ⟨fun _ used => absurd rfl used, fun slot used => absurd rfl (used slot le_rfl)⟩

def otherArgs : CreateArgs :=
  { letterArgs 5 with nameT := fun k => if k = 0 then 0x62 else 0 }

theorem freshName_other {fs : FileSystem}
    (success : SuccessfulCreate (bootFileSystem (fun _ => 0) blankDisk) (letterArgs 5) 0 fs) :
    FreshName fs.rootDir otherArgs := by
  obtain ⟨cluster, root⟩ := success.root
  have first : ∀ slot, InUse (fs.rootDir slot) → slot = 0 := by
    intro slot used
    by_contra other
    rw [root, Function.update_of_ne other] at used
    exact used rfl
  have here : (fs.rootDir 0).name = fieldText (letterArgs 5).nameT := by
    rw [root, Function.update_self]
    rfl
  refine ⟨fun slot used same => ?_, fun slot used => ?_⟩
  · obtain rfl := first slot used
    rw [here] at same
    exact absurd (congrFun same.1 0) (by decide)
  · obtain rfl := first slot (used slot le_rfl)
    rw [here]
    decide

/-- Two files of different names, the second of which is found under its own. -/
theorem newest_name_wins_two_names :
    ∃ fs filled after, Run FreshStep (bootFileSystem (fun _ => 0) blankDisk)
        [.create (letterArgs 5), .create otherArgs] after ∧
      SuccessfulCreate fs otherArgs filled after ∧
      NewestWins otherArgs filled after ∧ UniqueNames after.rootDir := by
  obtain ⟨fs, cluster, free, success, -, -, slot, enough⟩ :=
    first_file_leaves_room (show clusterCount (letterArgs 5).size.toNat ≤ 3 by decide)
  have one : FreshStep (bootFileSystem (fun _ => 0) blankDisk) (.create (letterArgs 5)) fs :=
    ⟨⟨0, success⟩, fun args _ => freshName_boot _ _ args⟩
  have enough : clusterCount otherArgs.size.toNat ≤ (freeCells fs.fat12Table 0).length := by
    rw [show clusterCount otherArgs.size.toNat = 1 by decide]
    exact enough
  obtain ⟨after, created⟩ := create_returns slot enough
  have second : SuccessfulCreate fs otherArgs free after :=
    ⟨created, allocated_of_enough enough⟩
  have fresh := freshName_other success
  have two : FreshStep fs (.create otherArgs) after :=
    ⟨⟨free, second⟩, fun args same => NameOp.create.inj same ▸ fresh⟩
  exact ⟨fs, free, after, .next one (.next two (.done after)), second,
    ((newest_name_wins (.next one (.done fs))).2 otherArgs free after second).mpr fresh,
    (newest_name_wins (.next one (.next two (.done after)))).1⟩

/-- Saving the file `a` twice leaves it in the directory twice. -/
theorem saved_twice_kept_twice :
    ¬ ∀ (ram : Table) (disk : DiskImage) (ops : List NameOp) (fs : FileSystem),
      Run NameStep (bootFileSystem ram disk) ops fs → UniqueNames fs.rootDir := by
  intro unique
  obtain ⟨fs, cluster, free, first, -, entry, slot, enough⟩ :=
    first_file_leaves_room (show clusterCount (letterArgs 5).size.toNat ≤ 3 by decide)
  have enough : clusterCount (letterArgs 5).size.toNat ≤
      (freeCells fs.fat12Table 0).length := by
    rw [show clusterCount (letterArgs 5).size.toNat = 1 by decide]
    exact enough
  obtain ⟨after, created⟩ := create_returns slot enough
  have second : SuccessfulCreate fs (letterArgs 5) free after :=
    ⟨created, allocated_of_enough enough⟩
  have before : Run NameStep (bootFileSystem (fun _ => 0) blankDisk)
      [.create (letterArgs 5)] fs := .next ⟨0, first⟩ (.done fs)
  have again : NameStep fs (.create (letterArgs 5)) after := ⟨free, second⟩
  have twice := unique _ _ _ after (before.append (.next again (.done after)))
  refine (uniqueNames_create (unique _ _ _ fs before) second).mp twice 0 ?_ ?_
  · rw [entry]
    exact entry_inUse (letterArgs 5) cluster
  · rw [entry]
    exact ⟨rfl, rfl⟩

end LazyOS.Fs

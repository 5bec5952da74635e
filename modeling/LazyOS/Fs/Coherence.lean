import LazyOS.Fs.Persistence

namespace LazyOS.Fs

open LazyOS.Data
open LazyOS.Disk

/-! `root_dir` as a cache of the directory on the disk.  Only `read_file` fills it
from there. -/

def FsOp.usedRoot : FsOp → FileSystem → RootDir
  | .read _, fs => loadRootDir fs.rootDir fs.disk
  | _, fs => fs.rootDir

def FsOp.named : FsOp → FileSystem → Option (Fin 224)
  | .delete name, fs => findFile (rootOnDisk fs.disk) name
  | _, _ => none

/-- One operation with a coherent cache: it works on the stored directory, erases
no file but the one it names, and a deletion finds what a read would find. -/
structure CoherentStep (op : FsOp) (fs : FileSystem) : Prop where
  used : op.usedRoot fs = rootOnDisk fs.disk
  keeps : ∀ after slot, op.run fs = some after →
    InUse (rootOnDisk fs.disk slot) → op.named fs ≠ some slot →
      rootOnDisk after.disk slot = rootOnDisk fs.disk slot
  finds : ∀ name, op = .delete name →
    findFile fs.rootDir name = findFile (loadRootDir fs.rootDir fs.disk) name

/-- Every operation of a session is coherent; the session ends with an operation
that never returns. -/
def CoherentSession : FileSystem → List FsOp → Prop
  | _, [] => True
  | fs, op :: ops =>
      CoherentStep op fs ∧ ∀ after, op.run fs = some after → CoherentSession after ops

theorem freeSlot_unused {root : RootDir} {slot : Fin 224}
    (free : freeSlot root = some slot) : ¬ InUse (root slot) := by
  have found := List.find?_some free
  simp only [decide_eq_true_eq] at found
  exact fun used => used found

theorem run_coherent {op : FsOp} {fs after : FileSystem}
    (used : op.usedRoot fs = rootOnDisk fs.disk) (ran : op.run fs = some after) :
    after.rootDir = rootOnDisk after.disk := by
  cases op with
  | create args =>
      obtain ⟨⟨slot, left⟩, created, rfl⟩ := Option.map_eq_some_iff.mp ran
      cases slot with
      | none =>
          rw [create_cases_full created]
          exact used
      | some slot =>
          obtain ⟨-, disk, -, rfl⟩ := create_cases_slot created
          simp
  | delete name =>
      cases found : findFile fs.rootDir name with
      | none =>
          rw [deleteFile_cases_missing found ran]
          exact used
      | some pos =>
          obtain ⟨table, disk, rfl⟩ := deleteFile_cases_found found ran
          simp
  | read name =>
      obtain ⟨screen, rfl⟩ := readFile_cases ran
      rfl
  | list =>
      obtain rfl := Option.some.inj ran
      exact used

theorem coherentStep_of_used {op : FsOp} {fs : FileSystem}
    (used : op.usedRoot fs = rootOnDisk fs.disk) : CoherentStep op fs := by
  refine ⟨used, fun after slot ran inUse other => ?_, fun name isDelete => ?_⟩
  · cases op with
    | create args =>
        obtain ⟨⟨result, left⟩, created, rfl⟩ := Option.map_eq_some_iff.mp ran
        cases result with
        | none => rw [create_cases_full created]
        | some filled =>
            obtain ⟨free, disk, -, rfl⟩ := create_cases_slot created
            have used : fs.rootDir = rootOnDisk fs.disk := used
            rw [← used] at inUse ⊢
            have different : slot ≠ filled := by
              rintro rfl
              exact freeSlot_unused free inUse
            simp only [rootOnDisk_flushRootDir, Function.update_of_ne different]
    | delete name =>
        have used : fs.rootDir = rootOnDisk fs.disk := used
        have other : findFile fs.rootDir name ≠ some slot := used ▸ other
        cases found : findFile fs.rootDir name with
        | none => rw [deleteFile_cases_missing found ran]
        | some pos =>
            obtain ⟨table, disk, rfl⟩ := deleteFile_cases_found found ran
            have different : slot ≠ pos := by
              rintro rfl
              exact other found
            simp only [rootOnDisk_flushTable, rootOnDisk_flushRootDir,
              Function.update_of_ne different, used]
    | read name =>
        obtain ⟨screen, rfl⟩ := readFile_cases ran
        rfl
    | list =>
        obtain rfl := Option.some.inj ran
        rfl
  · subst isDelete
    rw [loadRootDir_eq]
    exact congrArg (findFile · name) used

theorem usedRoot_of_coherent (op : FsOp) {fs : FileSystem}
    (coherent : fs.rootDir = rootOnDisk fs.disk) :
    op.usedRoot fs = rootOnDisk fs.disk := by
  cases op with
  | read name => exact loadRootDir_eq _ _
  | create args => exact coherent
  | delete name => exact coherent
  | list => exact coherent

theorem coherentSession_of_coherent {fs : FileSystem} (ops : List FsOp)
    (coherent : fs.rootDir = rootOnDisk fs.disk) : CoherentSession fs ops := by
  induction ops generalizing fs with
  | nil => trivial
  | cons op ops ih =>
      have used := usedRoot_of_coherent op coherent
      exact ⟨coherentStep_of_used used, fun after ran => ih (run_coherent used ran)⟩

/-- A session is coherent exactly when it does nothing, boots on an empty directory
or begins with `read_file`. -/
theorem bootSession_coherent_iff (ram : Table) (disk : DiskImage) (ops : List FsOp) :
    CoherentSession (bootFileSystem ram disk) ops ↔
      ops = [] ∨ rootOnDisk disk = (fun _ => FileDir.zero) ∨
        ∃ name rest, ops = .read name :: rest := by
  constructor
  · intro session
    cases ops with
    | nil => exact .inl rfl
    | cons op ops =>
        have used := session.1.used
        cases op with
        | read name => exact .inr (.inr ⟨name, ops, rfl⟩)
        | create args => exact .inr (.inl used.symm)
        | delete name => exact .inr (.inl used.symm)
        | list => exact .inr (.inl used.symm)
  · rintro (rfl | blank | ⟨name, rest, rfl⟩)
    · trivial
    · exact coherentSession_of_coherent ops blank.symm
    · have used : (FsOp.read name).usedRoot (bootFileSystem ram disk) =
          rootOnDisk (bootFileSystem ram disk).disk := loadRootDir_eq _ _
      exact ⟨coherentStep_of_used used,
        fun after ran => coherentSession_of_coherent rest (run_coherent used ran)⟩

/-- One session stores a file; the next one begins by creating another. -/
theorem second_session_incoherent :
    ∃ after, (bootFileSystem (fun _ => 0) blankDisk).create (blankArgs 5) =
        some (some 0, after) ∧
      ¬ CoherentSession (bootFileSystem (fun _ => 0) after.disk)
        [.create (blankArgs 5)] := by
  obtain ⟨after, created⟩ :=
    create_blankArgs_returns (fun _ => 0) 5 (by decide)
  refine ⟨after, created, fun session => ?_⟩
  have used : (fun _ => FileDir.zero) = rootOnDisk after.disk := session.1.used
  obtain ⟨-, disk, -, rfl⟩ := create_cases_slot created
  simp only [rootOnDisk_flushRootDir] at used
  have name := congrArg (fun root => (root 0).name 0) used
  simp only [Function.update_self] at name
  exact absurd name (by decide)

end LazyOS.Fs

import LazyOS.Fs.StoreRefinement

namespace LazyOS.Fs

open LazyOS.Data
open LazyOS.Disk

/-! Whole sessions, and sessions with reboots between the operations.  A reboot reads
the table back by halves and leaves the directory to the first `read_file`. -/

/-- Operations that return. -/
def FsCall (fs : FileSystem) (op : FsOp) (after : FileSystem) : Prop :=
  op.run fs = some after

inductive SessionOp where
  | call (op : FsOp)
  | reboot (ram : Table)

def SessionOp.run : SessionOp → FileSystem → Option FileSystem
  | .call op, fs => op.run fs
  | .reboot ram, fs => some { bootFileSystem ram fs.disk with screen := fs.screen }

def SessionCall (fs : FileSystem) (op : SessionOp) (after : FileSystem) : Prop :=
  op.run fs = some after

/-- The store, and whether a file has been read since the last reboot. -/
structure Session where
  store : Store
  loaded : Bool

def Session.step (session : Session) : SessionOp → Session × List Byte
  | .call (.read name) =>
      (⟨session.store, true⟩, (session.store.step (.read name)).2)
  | .call op =>
      (⟨(session.store.step op).1, session.loaded⟩, (session.store.step op).2)
  | .reboot _ => (⟨session.store, false⟩, [])

def Session.Allows (limit : Nat) (session : Session) : SessionOp → Prop
  | .call (.read name) => name 0 ≠ 0
  | .call op => session.loaded = true ∧ session.store.Allows limit op
  | .reboot _ => True

structure Carries (limit : Nat) (fs : FileSystem) (session : Session) : Prop where
  represents : Represents limit fs session.store
  loaded : session.loaded = true → fs.rootDir = rootOnDisk fs.disk

variable {limit : Nat} {fs : FileSystem} {store : Store}

theorem represents_boot (limit : Nat) (ram : Table) :
    Represents limit (bootFileSystem ram blankDisk) Store.empty where
  wellFormed := (fsInv_boot ram).wellFormed
  unused := fun _ _ used => used rfl
  holds := fun _ _ here => nomatch here
  low := fun _ inside _ => fat12TableInit_blankDisk ram inside
  flushed := fun i inside => by
    have inTable : InTable i := ⟨by omega, by omega⟩
    exact (fat12TableInit_blankDisk ram inTable).symm

theorem fat12TableInit_represents (represents : Represents limit fs store)
    (half : 2 * limit ≤ totalFat12Entreis) (ram : Table) {cell : Int}
    (inside : InTable cell) : fat12TableInit ram fs.disk cell = fs.fat12Table cell := by
  obtain ⟨lower, upper⟩ := inside
  obtain ⟨i, rfl⟩ := Int.eq_ofNat_of_zero_le lower
  rw [fat12TableInit_apply ram _ (by omega)]
  by_cases stored : 2 * i < totalFat12Entreis
  · rw [if_pos stored, represents.flushed i (by omega)]
  · rw [if_neg stored, represents.low i ⟨lower, upper⟩ (by omega)]
    rfl

theorem FatWellFormed.congr {table other : Table} {root : RootDir}
    (wellFormed : FatWellFormed table root)
    (agree : ∀ cell, InTable cell → table cell = other cell) : FatWellFormed other root := by
  obtain ⟨path, chains⟩ := wellFormed
  refine ⟨path, fun slot used => ?_, chains.disjoint, fun cell inside taken => ?_⟩
  · have owned := chains.file slot used
    exact owned.congr fun cell member => agree cell (owned.inside cell member)
  · exact chains.covered cell inside (agree cell inside ▸ taken)

theorem HoldsFile.congr {table other : Table} {disk : DiskImage} {dir : FileDir}
    {file : StoredFile} (held : HoldsFile table disk dir file)
    (agree : ∀ cell, InTable cell → table cell = other cell) :
    HoldsFile other disk dir file := by
  obtain ⟨path, owned, bytes⟩ := held.data
  exact ⟨held.name, held.ext, held.timeStamp, held.attr, held.size, path,
    owned.congr fun cell member => agree cell (owned.inside cell member), bytes⟩

theorem represents_reboot (represents : Represents limit fs store)
    (half : 2 * limit ≤ totalFat12Entreis) (ram : Table) :
    Represents limit { bootFileSystem ram fs.disk with screen := fs.screen } store := by
  have back := fun cell (inside : InTable cell) =>
    (fat12TableInit_represents represents half ram inside).symm
  refine ⟨represents.wellFormed.congr back, represents.unused, ?_, ?_, ?_⟩
  · exact fun slot file here => (represents.holds slot file here).congr back
  · intro cell inside above
    exact (back cell inside).symm.trans (represents.low cell inside above)
  · intro i inside
    exact (represents.flushed i inside).trans (back i ⟨by omega, by omega⟩)

theorem Store.step_create {args : CreateArgs} {slot : Fin 224}
    (empty : store.emptySlot = some slot) :
    store.step (.create args) = (Function.update store slot (some args.stored), []) := by
  simp only [Store.step, empty]

theorem Store.step_delete {name : CString} {slot : Fin 224} (found : store.find name = some slot) :
    store.step (.delete name) = (Function.update store slot none, []) := by
  simp only [Store.step, found]

theorem Store.step_delete_missing {name : CString} (missing : store.find name = none) :
    store.step (.delete name) = (store, literal "NO FILE FOUND") := by
  simp only [Store.step, missing]

theorem Store.step_read (store : Store) (name : CString) :
    (store.step (.read name)).1 = store := by
  simp only [Store.step]
  split <;> rfl

theorem call_simulates (bound : limit ≤ totalFat12Entreis)
    (represents : Represents limit fs store) (coherent : fs.rootDir = rootOnDisk fs.disk)
    {op : FsOp} (allowed : store.Allows limit op) :
    ∃ after, FsCall fs op after ∧ Represents limit after (store.step op).1 ∧
      after.rootDir = rootOnDisk after.disk ∧
      after.screen = fs.screen ++ (store.step op).2 := by
  cases op with
  | create args =>
      obtain ⟨slot, empty⟩ := Option.ne_none_iff_exists'.mp allowed.1
      obtain ⟨after, created, kept, loaded, screen⟩ :=
        create_represents represents bound coherent empty allowed.2
      rw [Store.step_create empty, List.append_nil]
      exact ⟨after, by simp only [FsCall, FsOp.run, created, Option.map_some], kept, loaded,
        screen⟩
  | delete name =>
      cases found : store.find name with
      | none =>
          have missing := deleteFile_missing (coherent ▸ represents.find_eq allowed ▸ found)
          rw [Store.step_delete_missing found]
          exact ⟨_, missing, represents.congr rfl rfl, coherent, rfl⟩
      | some slot =>
          obtain ⟨after, deleted, kept, loaded, screen⟩ :=
            delete_represents represents coherent allowed found
          rw [Store.step_delete found, List.append_nil]
          exact ⟨after, deleted, kept, loaded, screen⟩
  | read name =>
      rw [Store.step_read]
      exact ⟨_, read_represents represents allowed, represents.congr rfl rfl, rfl, rfl⟩
  | list =>
      exact ⟨_, congrArg some (list_represents represents coherent),
        represents.congr rfl rfl, coherent, rfl⟩

/-- Any operations that find a place and room, from a blank disk on: all of them return,
what they print is what the store answers, and the disk holds the store at the end. -/
theorem fat12_refines_store (ram : Table) {ops : List FsOp}
    (admits : Admits Store.step (Store.Allows totalFat12Entreis) Store.empty ops) :
    ∃ fs, Run FsCall (bootFileSystem ram blankDisk) ops fs ∧
      Represents totalFat12Entreis fs (answers Store.step Store.empty ops).1 ∧
      fs.rootDir = rootOnDisk fs.disk ∧
      fs.screen = (answers Store.step Store.empty ops).2.flatten := by
  obtain ⟨fs, run, ⟨represents, coherent⟩, screen⟩ := run_of_simulates FsCall
    (fun fs store => Represents totalFat12Entreis fs store ∧ fs.rootDir = rootOnDisk fs.disk)
    FileSystem.screen
    (fun fs store op related allowed => by
      obtain ⟨after, called, kept, loaded, screen⟩ :=
        call_simulates le_rfl related.1 related.2 allowed
      exact ⟨after, called, ⟨kept, loaded⟩, screen⟩)
    (bootFileSystem ram blankDisk) ⟨represents_boot totalFat12Entreis ram, rfl⟩ admits
  exact ⟨fs, run, represents, coherent, screen⟩

theorem fat12_refines_store_five_letters :
    ∃ fs, Run FsCall (bootFileSystem (fun _ => 0) blankDisk)
        [.create (letterArgs 5), .read (letterArgs 5).nameT, .delete (letterArgs 5).nameT,
          .read (letterArgs 5).nameT] fs ∧
      fs.screen = literal "AAAAA\nNO FILE FOUND\n" := by
  have named : (letterArgs 5).nameT 0 ≠ 0 := by decide
  have admits : Admits Store.step (Store.Allows totalFat12Entreis) Store.empty
      [.create (letterArgs 5), .read (letterArgs 5).nameT, .delete (letterArgs 5).nameT,
        .read (letterArgs 5).nameT] := by
    refine ⟨⟨?_, ?_⟩, named, named, named, trivial⟩
    · decide +kernel
    · decide +kernel
  obtain ⟨fs, run, -, -, screen⟩ := fat12_refines_store (fun _ => 0) admits
  refine ⟨fs, run, screen.trans ?_⟩
  decide +kernel

theorem session_simulates (half : 2 * limit ≤ totalFat12Entreis) {session : Session}
    (carries : Carries limit fs session) {op : SessionOp} (allowed : session.Allows limit op) :
    ∃ after, SessionCall fs op after ∧ Carries limit after (session.step op).1 ∧
      after.screen = fs.screen ++ (session.step op).2 := by
  have bound : limit ≤ totalFat12Entreis := by omega
  cases op with
  | reboot ram =>
      refine ⟨_, rfl, ⟨represents_reboot carries.represents half ram, ?_⟩,
        (List.append_nil _).symm⟩
      exact fun loaded => nomatch loaded
  | call op =>
      cases op with
      | read name =>
          exact ⟨_, read_represents carries.represents allowed,
            ⟨carries.represents.congr rfl rfl, fun _ => rfl⟩, rfl⟩
      | create args =>
          obtain ⟨after, called, kept, loaded, screen⟩ :=
            call_simulates bound carries.represents (carries.loaded allowed.1) allowed.2
          exact ⟨after, called, ⟨kept, fun _ => loaded⟩, screen⟩
      | delete name =>
          obtain ⟨after, called, kept, loaded, screen⟩ :=
            call_simulates bound carries.represents (carries.loaded allowed.1) allowed.2
          exact ⟨after, called, ⟨kept, fun _ => loaded⟩, screen⟩
      | list =>
          obtain ⟨after, called, kept, loaded, screen⟩ :=
            call_simulates bound carries.represents (carries.loaded allowed.1) allowed.2
          exact ⟨after, called, ⟨kept, fun _ => loaded⟩, screen⟩

/-- The files outlive every reboot, as long as they need no more clusters together than
half of the table has. -/
theorem store_survives_reboots (ram : Table) {ops : List SessionOp}
    (admits : Admits Session.step (Session.Allows (totalFat12Entreis / 2))
      ⟨Store.empty, true⟩ ops) :
    ∃ fs, Run SessionCall (bootFileSystem ram blankDisk) ops fs ∧
      Represents (totalFat12Entreis / 2) fs
        (answers Session.step ⟨Store.empty, true⟩ ops).1.store ∧
      fs.screen = (answers Session.step ⟨Store.empty, true⟩ ops).2.flatten := by
  obtain ⟨fs, run, carries, screen⟩ := run_of_simulates SessionCall
    (Carries (totalFat12Entreis / 2)) FileSystem.screen
    (fun fs session op carries allowed => session_simulates (by decide) carries allowed)
    (bootFileSystem ram blankDisk) ⟨represents_boot _ ram, fun _ => rfl⟩ admits
  exact ⟨fs, run, carries.represents, screen⟩

theorem store_survives_reboots_five_letters :
    ∃ fs, Run SessionCall (bootFileSystem (fun _ => 0) blankDisk)
        [.call (.create (letterArgs 5)), .reboot fun _ => 0,
          .call (.read (letterArgs 5).nameT)] fs ∧
      fs.screen = literal "AAAAA\n" := by
  have admits : Admits Session.step (Session.Allows (totalFat12Entreis / 2))
      ⟨Store.empty, true⟩ [.call (.create (letterArgs 5)), .reboot fun _ => 0,
        .call (.read (letterArgs 5).nameT)] := by
    refine ⟨⟨rfl, ?_, ?_⟩, trivial, ?_, trivial⟩
    · decide +kernel
    · decide +kernel
    · exact (by decide : (letterArgs 5).nameT 0 ≠ 0)
  obtain ⟨fs, run, -, screen⟩ := store_survives_reboots (fun _ => 0) admits
  refine ⟨fs, run, screen.trans ?_⟩
  decide +kernel

end LazyOS.Fs

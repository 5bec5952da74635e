import LazyOS.Fs.Layout

namespace LazyOS.Fs

open LazyOS.Data
open LazyOS.Disk

/-! The operations a session is made of, and what each of them can do to a file
system in any state. -/

/-- `FAT12_table_init` on `disk`, with the static `root_dir` still zero. -/
def bootFileSystem (ram : Table) (disk : DiskImage) : FileSystem where
  fat12Table := fat12TableInit ram disk
  rootDir := fun _ => FileDir.zero
  disk := disk
  screen := []

/-- The arguments of `create_file`, with the contents of its uninitialised local
and the time the clock shows. -/
structure CreateArgs where
  newFile : FileDir
  timeStamp : RtcTime
  nameT : CString
  extT : CString
  data : Int → Byte
  size : Word
  attributeT : Byte

def FileSystem.create (fs : FileSystem) (args : CreateArgs) :
    Option (Option (Fin 224) × FileSystem) :=
  createFile fs args.newFile args.timeStamp args.nameT args.extT args.data
    args.size args.attributeT

def CreateArgs.entry (args : CreateArgs) (cluster : Int) : FileDir :=
  { args.newFile with
    name := fieldText args.nameT
    ext := fieldText args.extT
    size := args.size
    timeStamp := args.timeStamp
    attr := args.attributeT
    firstCluster := BitVec.ofInt 16 cluster }

inductive FsOp where
  | create (args : CreateArgs)
  | delete (name : CString)
  | read (name : CString)
  | list

/-- `none` when the operation never returns. -/
def FsOp.run : FsOp → FileSystem → Option FileSystem
  | .create args, fs => (fs.create args).map Prod.snd
  | .delete name, fs => deleteFile fs name
  | .read name, fs => readFile fs name
  | .list, fs => some (listFiles fs)

theorem create_eq (fs : FileSystem) (args : CreateArgs) :
    fs.create args =
      match freeSlot fs.rootDir with
      | none => some (none,
          { fs with fat12Table := (fat12Allocate fs.fat12Table args.size.toNat).2 })
      | some i =>
          (writeIntoMemory
            { fs with
              fat12Table := (fat12Allocate fs.fat12Table args.size.toNat).2
              rootDir := Function.update fs.rootDir i (args.entry
                (fat12Allocate fs.fat12Table args.size.toNat).1) }
            (args.entry (fat12Allocate fs.fat12Table args.size.toNat).1)
            args.data).map fun fs => (some i, fs) := rfl

theorem create_cases_full {fs after : FileSystem} {args : CreateArgs}
    (created : fs.create args = some (none, after)) :
    after =
      { fs with fat12Table := (fat12Allocate fs.fat12Table args.size.toNat).2 } := by
  rw [create_eq] at created
  cases slot : freeSlot fs.rootDir with
  | none =>
      rw [slot] at created
      exact (Prod.ext_iff.mp (Option.some.inj created)).2.symm
  | some i =>
      rw [slot] at created
      simp at created

theorem create_cases_slot {fs after : FileSystem} {args : CreateArgs}
    {slot : Fin 224} (created : fs.create args = some (some slot, after)) :
    freeSlot fs.rootDir = some slot ∧
    ∃ disk, writeDataIntoMemory (fat12Allocate fs.fat12Table args.size.toNat).2
        fs.disk (args.entry (fat12Allocate fs.fat12Table args.size.toNat).1)
        args.data = some disk ∧
      after = { fs with
        fat12Table := (fat12Allocate fs.fat12Table args.size.toNat).2
        rootDir := Function.update fs.rootDir slot
          (args.entry (fat12Allocate fs.fat12Table args.size.toNat).1)
        disk := flushRootDir
          (Function.update fs.rootDir slot
            (args.entry (fat12Allocate fs.fat12Table args.size.toNat).1))
          (flushTable (fat12Allocate fs.fat12Table args.size.toNat).2 disk) } := by
  rw [create_eq] at created
  cases free : freeSlot fs.rootDir with
  | none =>
      rw [free] at created
      simp at created
  | some i =>
      rw [free] at created
      simp only [Option.map_eq_some_iff, Prod.mk.injEq, Option.some.injEq] at created
      obtain ⟨written, wrote, rfl, rfl⟩ := created
      refine ⟨rfl, ?_⟩
      unfold writeIntoMemory at wrote
      split at wrote
      · cases wrote
      · rename_i disk data
        exact ⟨disk, data, (Option.some.inj wrote).symm⟩

theorem create_table {fs after : FileSystem} {args : CreateArgs} {slot : Fin 224}
    (created : fs.create args = some (some slot, after)) :
    after.fat12Table = (fat12Allocate fs.fat12Table args.size.toNat).2 := by
  obtain ⟨-, disk, -, rfl⟩ := create_cases_slot created
  rfl

theorem deleteFile_missing {fs : FileSystem} {name : CString}
    (missing : findFile fs.rootDir name = none) :
    deleteFile fs name =
      some { fs with screen := fs.screen ++ literal "NO FILE FOUND" } := by
  unfold deleteFile
  rw [missing]

theorem deleteFile_cases_missing {fs after : FileSystem} {name : CString}
    (missing : findFile fs.rootDir name = none)
    (deleted : deleteFile fs name = some after) :
    after = { fs with screen := fs.screen ++ literal "NO FILE FOUND" } := by
  rw [deleteFile_missing missing] at deleted
  exact (Option.some.inj deleted).symm

theorem deleteFile_cases_found {fs after : FileSystem} {name : CString}
    {pos : Fin 224} (found : findFile fs.rootDir name = some pos)
    (deleted : deleteFile fs name = some after) :
    ∃ table disk, after =
      { fs with
        fat12Table := table
        rootDir := Function.update fs.rootDir pos FileDir.zero
        disk := flushTable table
          (flushRootDir (Function.update fs.rootDir pos FileDir.zero) disk) } := by
  unfold deleteFile at deleted
  rw [found] at deleted
  simp only at deleted
  split at deleted
  · cases deleted
  · rename_i next table disk _
    exact ⟨Function.update table next freeEntry, clearCluster disk next,
      (Option.some.inj deleted).symm⟩

theorem readFile_cases {fs after : FileSystem} {name : CString}
    (returned : readFile fs name = some after) :
    ∃ screen,
      after = { fs with rootDir := rootOnDisk fs.disk, screen := screen } := by
  unfold readFile at returned
  simp only [loadRootDir_eq] at returned
  cases found : findFile (rootOnDisk fs.disk) name with
  | none =>
      rw [found] at returned
      exact ⟨_, (Option.some.inj returned).symm⟩
  | some i =>
      rw [found] at returned
      simp only [Option.map_eq_some_iff] at returned
      obtain ⟨text, -, rfl⟩ := returned
      exact ⟨_, rfl⟩

end LazyOS.Fs

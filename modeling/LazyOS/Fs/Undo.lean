import LazyOS.Fs.Lookup

namespace LazyOS.Fs

open LazyOS.Data
open LazyOS.Disk

/-! `delete_file` takes back what `create_file` has done. -/

def EditStep (fs : FileSystem) : NameOp → FileSystem → Prop
  | .create args, after => ∃ slot, fs.create args = some (slot, after)
  | .delete name, after => deleteFile fs name = some after

def BeginsWith (stored : Fin 8 → Byte) (name : CString) : Prop :=
  ∀ i : Fin 8, (i : Nat) < strnlen name 8 → stored i = name i

/-- Creating the file and deleting it by its name gives back the table and the
directory, and every sector of the chain the file had is zero. -/
def DeleteUndoesCreate (fs : FileSystem) (args : CreateArgs) : Prop :=
  ∃ slot after final, fs.create args = some (some slot, after) ∧
    deleteFile after args.nameT = some final ∧
    final.fat12Table = fs.fat12Table ∧ final.rootDir = fs.rootDir ∧
    ∃ rest, TableChain after.fat12Table (after.rootDir slot).firstCell rest ∧
      ∀ cell ∈ (after.rootDir slot).firstCell :: rest, ∀ offset < sectorSize,
        final.disk (clusterSector cell) offset = 0

def UnusedZero (root : RootDir) : Prop :=
  ∀ slot, ¬ InUse (root slot) → root slot = FileDir.zero

theorem UnusedZero.update {root : RootDir} (zeros : UnusedZero root) (slot : Fin 224)
    {file : FileDir} (allowed : InUse file ∨ file = FileDir.zero) :
    UnusedZero (Function.update root slot file) := by
  intro current unused
  by_cases same : current = slot
  · subst same
    rw [Function.update_self] at unused ⊢
    exact allowed.resolve_left unused
  · rw [Function.update_of_ne same] at unused ⊢
    exact zeros current unused

theorem unusedZero_step {fs after : FileSystem} {op : NameOp}
    (zeros : UnusedZero fs.rootDir) (step : EditStep fs op after) :
    UnusedZero after.rootDir := by
  cases op with
  | create args =>
      obtain ⟨slot, created⟩ := step
      cases slot with
      | none =>
          rw [create_cases_full created]
          exact zeros
      | some slot =>
          obtain ⟨-, disk, -, rfl⟩ := create_cases_slot created
          exact zeros.update slot (.inl (entry_inUse args _))
  | delete name =>
      cases found : findFile fs.rootDir name with
      | none =>
          rw [deleteFile_cases_missing found step]
          exact zeros
      | some pos =>
          obtain ⟨table, disk, rfl⟩ := deleteFile_cases_found found step
          exact zeros.update pos (.inr rfl)

theorem Allocates.clearCells_link {table : Table} {size : Nat} {first : Int}
    {rest : List Int} (allocates : Allocates table size first rest) :
    clearCells freeEntry (table.link first rest) (first :: rest) = table := by
  funext cell
  unfold clearCells
  by_cases member : cell ∈ first :: rest
  · rw [if_pos member, allocates.free cell member]
  · rw [if_neg member, table.link_of_notMem member]

theorem findFile_unmatched {root : RootDir} {name : CString} (nonempty : name 0 ≠ 0)
    (unmatched : ∀ slot, InUse (root slot) → ¬ BeginsWith (root slot).name name) :
    findFile root name = none := by
  cases found : findFile root name with
  | none => rfl
  | some pos =>
      have accepted := (findFile_iff_firstMatch.mp found).accepted
      simp only [compFileName, decide_eq_true_eq] at accepted
      exact absurd accepted (unmatched pos (findFile_inUse found nonempty))

theorem deleteUndoesCreate {fs : FileSystem} {args : CreateArgs} {slot : Fin 224}
    (zeros : UnusedZero fs.rootDir)
    (unmatched : findFile fs.rootDir args.nameT = none)
    (free : freeSlot fs.rootDir = some slot)
    (served : (fat12Allocate fs.fat12Table args.size.toNat).1 ≠ -noMemory) :
    DeleteUndoesCreate fs args := by
  obtain ⟨first, rest, allocates⟩ := fat12Allocate_chain served
  obtain ⟨after, created⟩ := create_returns_served free served
  have table : after.fat12Table = fs.fat12Table.link first rest := by
    rw [create_table created, allocates.result]
  have root : after.rootDir = Function.update fs.rootDir slot
      (args.entry (startingDataSector + first)) := by
    obtain ⟨-, disk, -, rfl⟩ := create_cases_slot created
    rw [allocates.result]
  have firstCell : (after.rootDir slot).firstCell = first := by
    rw [root, Function.update_self]
    exact entry_firstCell args (allocates.inside first List.mem_cons_self)
  have found : findFile after.rootDir args.nameT = some slot := by
    rw [root]
    exact findFile_update unmatched (compFileName_fieldText args.nameT)
  have chain : TableChain after.fat12Table (after.rootDir slot).firstCell rest := by
    rw [table, firstCell]
    exact allocates.chain
  obtain ⟨last, _, data, -, cleared, deleted⟩ :=
    deleteFile_chain found chain (firstCell ▸ allocates.inside)
  refine ⟨slot, after, _, created, deleted, ?_, ?_, rest, chain, ?_⟩
  · simp only [firstCell, table]
    exact allocates.clearCells_link
  · simp only [root]
    rw [Function.update_idem, ← zeros slot (freeSlot_unused free),
      Function.update_eq_self]
  · intro cell member offset bound
    have above := clusterSector_ge (allocates.inside cell (firstCell ▸ member))
    simp only
    rw [flushTable_sector _ _ above, flushRootDir_sector _ _ above]
    exact cleared.zero cell member offset bound

/-- From any state that creations and deletions lead to. -/
theorem delete_undoes_create_run {ram : Table} {disk : DiskImage} {ops : List NameOp}
    {fs : FileSystem} (run : Run EditStep (bootFileSystem ram disk) ops fs)
    (args : CreateArgs) (nonempty : args.nameT 0 ≠ 0)
    (unmatched : ∀ slot, InUse (fs.rootDir slot) →
      ¬ BeginsWith (fs.rootDir slot).name args.nameT)
    (free : freeSlot fs.rootDir ≠ none)
    (served : (fat12Allocate fs.fat12Table args.size.toNat).1 ≠ -noMemory) :
    DeleteUndoesCreate fs args := by
  have zeros := run.invariant (fun fs => UnusedZero fs.rootDir)
    (fun _ _ _ zeros step => unusedZero_step zeros step) (fun _ _ => rfl)
  obtain ⟨slot, free⟩ := Option.ne_none_iff_exists'.mp free
  exact deleteUndoesCreate zeros (findFile_unmatched nonempty unmatched) free served

theorem delete_undoes_create_run_second_file :
    ∃ fs, Run EditStep (bootFileSystem (fun _ => 0) blankDisk)
        [.create (namedArgs "ab")] fs ∧ DeleteUndoesCreate fs (namedArgs "b") := by
  obtain ⟨fs, cluster, slot, success, -, -, free, room⟩ :=
    first_file_leaves_room (show clusterCount (namedArgs "ab").size.toNat ≤ 3 by decide)
  have run : Run EditStep (bootFileSystem (fun _ => 0) blankDisk)
      [.create (namedArgs "ab")] fs := .next ⟨_, success.returned⟩ (.done fs)
  have one : clusterCount (namedArgs "b").size.toNat = 1 := by decide
  refine ⟨fs, run, delete_undoes_create_run run (namedArgs "b") (by decide) ?_
    (by rw [free]; exact Option.some_ne_none slot)
    (allocated_of_enough (one ▸ room))⟩
  obtain ⟨-, disk, -, rfl⟩ := create_cases_slot success.returned
  intro current used begins
  have first := begins 0 (by decide)
  by_cases same : current = 0
  · subst same
    simp only [Function.update_self] at first
    exact absurd first (by decide)
  · simp only [Function.update_of_ne same] at used
    exact used rfl

end LazyOS.Fs

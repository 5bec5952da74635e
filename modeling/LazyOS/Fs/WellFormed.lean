import LazyOS.Data.Run
import LazyOS.Fs.Coherence

namespace LazyOS.Fs

open LazyOS.Data
open LazyOS.Disk

/-! The table and the directory together: every file owns one chain, chains do not
meet, and nothing else of the table is taken. -/

def FileDir.firstCell (file : FileDir) : Int :=
  (file.firstCluster.toNat : Int) - startingDataSector

structure FileChain (table : Table) (file : FileDir) (path : List Int) : Prop where
  chain : ∃ rest, path = file.firstCell :: rest ∧
    TableChain table file.firstCell rest
  increasing : path.Pairwise (· < ·)
  inside : ∀ cell ∈ path, InTable cell
  taken : ∀ cell ∈ path, table cell ≠ freeEntry
  length : path.length = clusterCount file.size.toNat

structure ChainsOf (table : Table) (root : RootDir) (path : Fin 224 → List Int) :
    Prop where
  file : ∀ slot, InUse (root slot) → FileChain table (root slot) (path slot)
  disjoint : ∀ left right, left ≠ right → InUse (root left) → InUse (root right) →
    (path left).Disjoint (path right)
  covered : ∀ cell, InTable cell → table cell ≠ freeEntry →
    ∃ slot, InUse (root slot) ∧ cell ∈ path slot

def FatWellFormed (table : Table) (root : RootDir) : Prop :=
  ∃ path, ChainsOf table root path

theorem FileChain.nodup {table : Table} {file : FileDir} {path : List Int}
    (owned : FileChain table file path) : path.Nodup :=
  owned.increasing.imp fun less => ne_of_lt less

theorem FileChain.turns {table : Table} {file : FileDir} {path : List Int}
    (owned : FileChain table file path) : path.length < walkLimit :=
  length_lt_walkLimit owned.nodup owned.inside

theorem FileChain.congr {table other : Table} {file : FileDir} {path : List Int}
    (owned : FileChain table file path)
    (agree : ∀ cell ∈ path, table cell = other cell) :
    FileChain other file path where
  chain := by
    obtain ⟨rest, shape, chain⟩ := owned.chain
    exact ⟨rest, shape, chain.congr fun cell member => agree cell (shape ▸ member)⟩
  increasing := owned.increasing
  inside := owned.inside
  taken := fun cell member => agree cell member ▸ owned.taken cell member
  length := owned.length

theorem ChainsOf.fill {table : Table} {root : RootDir} {path : Fin 224 → List Int}
    (chains : ChainsOf table root path) {other : Table} {slot : Fin 224}
    {file : FileDir} {cells : List Int} (unused : ¬ InUse (root slot))
    (inUse : InUse file) (owned : FileChain other file cells)
    (free : ∀ cell ∈ cells, table cell = freeEntry)
    (outside : ∀ cell, cell ∉ cells → other cell = table cell) :
    FatWellFormed other (Function.update root slot file) := by
  have untouched : ∀ owner, InUse (root owner) → ∀ cell ∈ path owner,
      cell ∉ cells := fun owner used cell member inCells =>
    (chains.file owner used).taken cell member (free cell inCells)
  refine ⟨Function.update path slot cells, ?_, ?_, ?_⟩
  · intro owner used
    by_cases same : owner = slot
    · subst same
      simpa only [Function.update_self] using owned
    · rw [Function.update_of_ne same] at used ⊢
      rw [Function.update_of_ne same]
      exact (chains.file owner used).congr fun cell member =>
        (outside cell (untouched owner used cell member)).symm
  · intro left right different usedLeft usedRight
    by_cases isLeft : left = slot
    · subst isLeft
      rw [Function.update_of_ne different.symm] at usedRight
      rw [Function.update_self, Function.update_of_ne different.symm]
      exact fun cell inCells member =>
        untouched right usedRight cell member inCells
    · rw [Function.update_of_ne isLeft] at usedLeft
      rw [Function.update_of_ne isLeft]
      by_cases isRight : right = slot
      · subst isRight
        rw [Function.update_self]
        exact fun cell member inCells => untouched left usedLeft cell member inCells
      · rw [Function.update_of_ne isRight] at usedRight ⊢
        exact chains.disjoint left right different usedLeft usedRight
  · intro cell inside taken
    by_cases inCells : cell ∈ cells
    · exact ⟨slot, by rwa [Function.update_self], by rwa [Function.update_self]⟩
    · rw [outside cell inCells] at taken
      obtain ⟨owner, used, member⟩ := chains.covered cell inside taken
      have different : owner ≠ slot := by
        rintro rfl
        exact unused used
      exact ⟨owner, by rwa [Function.update_of_ne different],
        by rwa [Function.update_of_ne different]⟩

theorem ChainsOf.clear {table : Table} {root : RootDir} {path : Fin 224 → List Int}
    (chains : ChainsOf table root path) {slot : Fin 224} {file : FileDir}
    (used : InUse (root slot)) (unused : ¬ InUse file) :
    FatWellFormed (clearCells freeEntry table (path slot))
      (Function.update root slot file) := by
  have kept : ∀ owner, owner ≠ slot → InUse (Function.update root slot file owner) →
      InUse (root owner) := fun owner different inUse => by
    rwa [Function.update_of_ne different] at inUse
  have notSlot : ∀ owner, InUse (Function.update root slot file owner) →
      owner ≠ slot := by
    rintro owner inUse rfl
    rw [Function.update_self] at inUse
    exact unused inUse
  refine ⟨path, ?_, ?_, ?_⟩
  · intro owner inUse
    have different := notSlot owner inUse
    have owned := chains.file owner (kept owner different inUse)
    rw [Function.update_of_ne different]
    refine owned.congr fun cell member => ?_
    have outside : cell ∉ path slot := fun inSlot =>
      chains.disjoint owner slot different (kept owner different inUse) used
        member inSlot
    simp only [clearCells, if_neg outside]
  · intro left right different usedLeft usedRight
    exact chains.disjoint left right different
      (kept left (notSlot left usedLeft) usedLeft)
      (kept right (notSlot right usedRight) usedRight)
  · intro cell inside taken
    by_cases inSlot : cell ∈ path slot
    · simp only [clearCells, if_pos inSlot] at taken
      exact absurd rfl taken
    · simp only [clearCells, if_neg inSlot] at taken
      obtain ⟨owner, inUse, member⟩ := chains.covered cell inside taken
      have different : owner ≠ slot := by
        rintro rfl
        exact inSlot member
      exact ⟨owner, by rwa [Function.update_of_ne different], member⟩

theorem fieldText_zero_ne (name : CString) : (fieldText name : Fin 8 → Byte) 0 ≠ 0 := by
  unfold fieldText
  split
  · rename_i named
    exact named.1
  · decide

theorem entry_inUse (args : CreateArgs) (cluster : Int) :
    InUse (args.entry cluster) :=
  fieldText_zero_ne args.nameT

theorem entry_firstCell (args : CreateArgs) {first : Int} (inside : InTable first) :
    (args.entry (startingDataSector + first)).firstCell = first := by
  obtain ⟨lower, upper⟩ := inside
  unfold totalFat12Entreis at upper
  unfold FileDir.firstCell CreateArgs.entry startingDataSector
  simp only [BitVec.toNat_ofInt]
  omega

theorem findFile_inUse {root : RootDir} {name : CString} {pos : Fin 224}
    (found : findFile root name = some pos) (nonempty : name 0 ≠ 0) :
    InUse (root pos) := by
  have matched := List.find?_some found
  simp only [compFileName, decide_eq_true_eq] at matched
  unfold InUse
  rw [matched 0 (strnlen_pos nonempty (by decide))]
  exact nonempty

theorem fileChain_allocated {table : Table} (args : CreateArgs)
    (enough : clusterCount args.size.toNat ≤ (freeCells table 0).length) :
    FileChain (fat12Allocate table args.size.toNat).2
      (args.entry (fat12Allocate table args.size.toNat).1)
      (allocatedPath table args.size.toNat) := by
  obtain ⟨first, rest, path, allocated⟩ := fat12Allocate_path enough
  have increasing := allocatedPath_increasing table args.size.toNat
  have inside : ∀ cell ∈ allocatedPath table args.size.toNat, InTable cell :=
    fun cell member => (mem_allocatedPath member).1
  have length := allocatedPath_length enough
  rw [path] at increasing inside length ⊢
  have chain := tableChain_link table increasing inside
  rw [allocated]
  refine ⟨⟨rest, ?_, ?_⟩, increasing, inside, ?_, length⟩
  · rw [entry_firstCell args (inside first List.mem_cons_self)]
  · rw [entry_firstCell args (inside first List.mem_cons_self)]
    exact chain
  · exact tableChain_ne_free chain increasing (inside first List.mem_cons_self).1

theorem create_wellFormed {fs after : FileSystem} {args : CreateArgs}
    {slot : Fin 224} (wellFormed : FatWellFormed fs.fat12Table fs.rootDir)
    (enough : clusterCount args.size.toNat ≤ (freeCells fs.fat12Table 0).length)
    (created : fs.create args = some (some slot, after)) :
    FatWellFormed after.fat12Table after.rootDir := by
  obtain ⟨path, chains⟩ := wellFormed
  obtain ⟨free, disk, -, rfl⟩ := create_cases_slot created
  refine chains.fill (freeSlot_unused free) (entry_inUse args _)
    (fileChain_allocated args enough) (fun cell member => (mem_allocatedPath member).2) ?_
  intro cell outside
  obtain ⟨first, rest, shape, allocated⟩ := fat12Allocate_path enough
  rw [shape] at outside
  rw [allocated]
  exact fs.fat12Table.link_of_notMem outside

theorem deleteFile_chain {fs : FileSystem} {name : CString} {pos : Fin 224}
    {rest : List Int} (found : findFile fs.rootDir name = some pos)
    (chain : TableChain fs.fat12Table (fs.rootDir pos).firstCell rest)
    (inside : ∀ cell ∈ (fs.rootDir pos).firstCell :: rest, InTable cell) :
    ∃ last table disk,
      deleteLoop walkLimit (fs.rootDir pos).firstCell fs.fat12Table fs.disk =
        some (last, table, disk) ∧
      ClearsCells ((fs.rootDir pos).firstCell :: rest) fs.disk
        (clearCluster disk last) ∧
      deleteFile fs name = some
        { fs with
          fat12Table := clearCells freeEntry fs.fat12Table
            ((fs.rootDir pos).firstCell :: rest)
          rootDir := Function.update fs.rootDir pos FileDir.zero
          disk := flushTable
            (clearCells freeEntry fs.fat12Table ((fs.rootDir pos).firstCell :: rest))
            (flushRootDir (Function.update fs.rootDir pos FileDir.zero)
              (clearCluster disk last)) } := by
  have turns := length_lt_walkLimit chain.nodup inside
  obtain ⟨last, table, disk, looped, freed, cleared⟩ := deleteLoop_spec chain
    chain.nodup inside (Nat.lt_of_succ_lt turns) fs.disk
  refine ⟨last, table, disk, looped, cleared, ?_⟩
  unfold FileDir.firstCell at looped freed
  unfold deleteFile
  rw [found]
  simp only [looped, freed]
  rfl

theorem deleteFile_eq {fs : FileSystem} {name : CString} {pos : Fin 224}
    {path : List Int} (found : findFile fs.rootDir name = some pos)
    (owned : FileChain fs.fat12Table (fs.rootDir pos) path) :
    ∃ last table disk,
      deleteLoop walkLimit (fs.rootDir pos).firstCell fs.fat12Table fs.disk =
        some (last, table, disk) ∧
      ClearsCells path fs.disk (clearCluster disk last) ∧
      deleteFile fs name = some
        { fs with
          fat12Table := clearCells freeEntry fs.fat12Table path
          rootDir := Function.update fs.rootDir pos FileDir.zero
          disk := flushTable (clearCells freeEntry fs.fat12Table path)
            (flushRootDir (Function.update fs.rootDir pos FileDir.zero)
              (clearCluster disk last)) } := by
  obtain ⟨rest, rfl, chain⟩ := owned.chain
  exact deleteFile_chain found chain owned.inside

theorem readFile_returns {fs : FileSystem} {path : Fin 224 → List Int}
    (chains : ChainsOf fs.fat12Table fs.rootDir path)
    (coherent : fs.rootDir = rootOnDisk fs.disk) {name : CString}
    (nonempty : name 0 ≠ 0) : ∃ after, readFile fs name = some after := by
  unfold readFile
  simp only [loadRootDir_eq, ← coherent]
  cases found : findFile fs.rootDir name with
  | none => exact ⟨_, rfl⟩
  | some pos =>
      have owned := chains.file pos (findFile_inUse found nonempty)
      obtain ⟨rest, shape, chain⟩ := owned.chain
      have turns := owned.turns
      have inside := owned.inside
      rw [shape] at turns inside
      obtain ⟨last, looped, -⟩ := readDataLoop_spec chain fs.disk
        (Nat.lt_of_succ_lt turns) inside
        ⟨(fs.rootDir pos).size.toNat, (fs.rootDir pos).firstCluster, 0, fun _ => 0⟩
        rfl
      simp only [readFileText, looped, Option.map_some]
      exact ⟨_, rfl⟩

/-- The operations the session may ask for: room for what it creates, and names
that are not empty. -/
def FsOp.Admissible : FsOp → FileSystem → Prop
  | .create args, fs => freeSlot fs.rootDir ≠ none ∧
      clusterCount args.size.toNat ≤ (freeCells fs.fat12Table 0).length
  | .delete name, _ => name 0 ≠ 0
  | .read name, _ => name 0 ≠ 0
  | .list, _ => True

def FsStep (fs : FileSystem) (op : FsOp) (after : FileSystem) : Prop :=
  op.Admissible fs ∧ op.run fs = some after

structure FsInv (fs : FileSystem) : Prop where
  wellFormed : FatWellFormed fs.fat12Table fs.rootDir
  coherent : fs.rootDir = rootOnDisk fs.disk

theorem fsInv_boot (ram : Table) : FsInv (bootFileSystem ram blankDisk) := by
  refine ⟨⟨fun _ => [], ?_, ?_, ?_⟩, rfl⟩
  · intro slot used
    exact absurd rfl used
  · intro left right different used
    exact absurd rfl used
  · intro cell inside taken
    exact absurd (fat12TableInit_blankDisk ram inside) taken

theorem fsInv_step {fs after : FileSystem} {op : FsOp} (inv : FsInv fs)
    (taken : FsStep fs op after) : FsInv after := by
  obtain ⟨allowed, ran⟩ := taken
  have used := usedRoot_of_coherent op inv.coherent
  refine ⟨?_, run_coherent used ran⟩
  cases op with
  | create args =>
      obtain ⟨slot, free⟩ := Option.ne_none_iff_exists'.mp allowed.1
      obtain ⟨left, created⟩ := create_returns free allowed.2
      simp only [FsOp.run, created, Option.map_some, Option.some.injEq] at ran
      subst ran
      exact create_wellFormed inv.wellFormed allowed.2 created
  | delete name =>
      obtain ⟨path, chains⟩ := inv.wellFormed
      cases found : findFile fs.rootDir name with
      | none =>
          rw [deleteFile_cases_missing found ran]
          exact ⟨path, chains⟩
      | some pos =>
          have inUse := findFile_inUse found allowed
          obtain ⟨last, table, disk, -, -, deleted⟩ :=
            deleteFile_eq found (chains.file pos inUse)
          obtain rfl := Option.some.inj (deleted.symm.trans ran)
          exact chains.clear inUse fun used => used rfl
  | read name =>
      obtain ⟨screen, rfl⟩ := readFile_cases ran
      simp only [← inv.coherent]
      exact inv.wellFormed
  | list =>
      obtain rfl := Option.some.inj ran
      exact inv.wellFormed

theorem fsStep_returns {fs : FileSystem} {op : FsOp} (inv : FsInv fs)
    (allowed : op.Admissible fs) : ∃ after, FsStep fs op after := by
  obtain ⟨path, chains⟩ := inv.wellFormed
  cases op with
  | create args =>
      obtain ⟨slot, free⟩ := Option.ne_none_iff_exists'.mp allowed.1
      obtain ⟨after, created⟩ := create_returns free allowed.2
      exact ⟨after, allowed, by simp only [FsOp.run, created, Option.map_some]⟩
  | delete name =>
      cases found : findFile fs.rootDir name with
      | none =>
          exact ⟨_, allowed, deleteFile_missing found⟩
      | some pos =>
          obtain ⟨last, table, disk, -, -, deleted⟩ :=
            deleteFile_eq found (chains.file pos (findFile_inUse found allowed))
          exact ⟨_, allowed, deleted⟩
  | read name =>
      obtain ⟨after, returned⟩ := readFile_returns chains inv.coherent allowed
      exact ⟨after, allowed, returned⟩
  | list => exact ⟨listFiles fs, allowed, rfl⟩

/-- From a blank disk, whatever files are created, read and deleted, the table and
the directory stay well formed and every operation returns. -/
theorem fat_wellFormed_run {ram : Table} {ops : List FsOp} {fs : FileSystem}
    (run : Run FsStep (bootFileSystem ram blankDisk) ops fs) :
    FatWellFormed fs.fat12Table fs.rootDir ∧
      ∀ op : FsOp, op.Admissible fs → ∃ after, FsStep fs op after := by
  have inv := run.invariant FsInv (fun _ _ _ inv taken => fsInv_step inv taken)
    (fsInv_boot ram)
  exact ⟨inv.wellFormed, fun op allowed => fsStep_returns inv allowed⟩

theorem fat_wellFormed_run_create_delete :
    ∃ ops fs, ops.length = 2 ∧
      Run FsStep (bootFileSystem (fun _ => 0) blankDisk) ops fs ∧
      FatWellFormed fs.fat12Table fs.rootDir := by
  have inv := fsInv_boot fun _ => 0
  obtain ⟨middle, created⟩ : ∃ middle, FsStep (bootFileSystem (fun _ => 0) blankDisk)
      (.create (blankArgs 1500)) middle := by
    refine fsStep_returns inv ⟨by rw [freeSlot_boot]; exact Option.some_ne_none 0, ?_⟩
    rw [freeCells_boot_length]
    decide
  obtain ⟨last, deleted⟩ : ∃ last, FsStep middle (.delete fun _ => 0x20) last :=
    fsStep_returns (fsInv_step inv created)
      (show (0x20 : Byte) ≠ 0 by decide)
  have run := Run.next created (.next deleted (.done last))
  exact ⟨_, last, rfl, run, (fat_wellFormed_run run).1⟩

end LazyOS.Fs

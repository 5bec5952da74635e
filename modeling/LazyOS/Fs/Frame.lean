import LazyOS.Fs.WellFormed

namespace LazyOS.Fs

open LazyOS.Data
open LazyOS.Disk

/-! What creating and deleting a file leave alone. -/

/-- `create_file` returned a slot, and the table had the clusters for it. -/
structure SuccessfulCreate (fs : FileSystem) (args : CreateArgs) (filled : Fin 224)
    (after : FileSystem) : Prop where
  returned : fs.create args = some (some filled, after)
  allocated : (fat12Allocate fs.fat12Table args.size.toNat).1 ≠ -noMemory

/-- The file in `slot` with the chain `path` is as it was: its metadata, its chain,
link by link, and the sectors of its data. -/
structure LeavesAlone (fs after : FileSystem) (slot : Fin 224) (path : List Int) :
    Prop where
  metadata : after.rootDir slot = fs.rootDir slot
  links : ∀ cell ∈ path, after.fat12Table cell = fs.fat12Table cell
  chain : FileChain after.fat12Table (after.rootDir slot) path
  sectors : ∀ cell ∈ path,
    after.disk (clusterSector cell) = fs.disk (clusterSector cell)

/-- `data` is the disk between the writes of file data and those of the table and
the directory; the first stay above the directory, the others below the data. -/
structure WritesApart (before data after : DiskImage) : Prop where
  dataWrites : ∀ sector < startingDataSector, data sector = before sector
  metadataWrites : ∀ sector, startingDataSector ≤ sector → after sector = data sector

theorem clusterSector_ge {cell : Int} (inside : InTable cell) :
    startingDataSector ≤ clusterSector cell := by
  obtain ⟨lower, -⟩ := inside
  unfold clusterSector
  omega

theorem SameElsewhere.writesApart {cells : List Int} {before data after : DiskImage}
    (same : SameElsewhere cells before data) (inside : ∀ cell ∈ cells, InTable cell)
    (flushed : ∀ sector, startingDataSector ≤ sector → after sector = data sector) :
    WritesApart before data after := by
  refine ⟨fun sector below => same sector fun cell member => ?_, flushed⟩
  have above := clusterSector_ge (inside cell member)
  omega

theorem SameElsewhere.sector_of_disjoint {cells path : List Int}
    {before data after : DiskImage} (same : SameElsewhere cells before data)
    (inside : ∀ cell ∈ cells, InTable cell) (insidePath : ∀ cell ∈ path, InTable cell)
    (disjoint : ∀ cell ∈ path, cell ∉ cells)
    (flushed : ∀ sector, startingDataSector ≤ sector → after sector = data sector)
    {cell : Int} (member : cell ∈ path) :
    after (clusterSector cell) = before (clusterSector cell) := by
  rw [flushed _ (clusterSector_ge (insidePath cell member))]
  refine same _ fun current written equal => disjoint cell member ?_
  rwa [clusterSector_injective (insidePath cell member).1 (inside current written).1 equal]

/-- The cells a successful creation takes: free before, one chain after, and the
only ones whose link or sector it writes. -/
structure TakesCells (fs : FileSystem) (args : CreateArgs) (filled : Fin 224)
    (after : FileSystem) (cells : List Int) (data : DiskImage) : Prop where
  free : ∀ cell ∈ cells, InTable cell ∧ fs.fat12Table cell = freeEntry
  links : ∀ cell, cell ∉ cells → after.fat12Table cell = fs.fat12Table cell
  slots : ∀ slot, slot ≠ filled → after.rootDir slot = fs.rootDir slot
  written : writeDataIntoMemory after.fat12Table fs.disk (after.rootDir filled)
    args.data = some data
  same : SameElsewhere cells fs.disk data
  flushed : ∀ sector, startingDataSector ≤ sector → after.disk sector = data sector

theorem SuccessfulCreate.takes {fs after : FileSystem} {args : CreateArgs}
    {filled : Fin 224} (success : SuccessfulCreate fs args filled after) :
    ∃ cells data, TakesCells fs args filled after cells data := by
  obtain ⟨first, rest, allocates⟩ := fat12Allocate_chain success.allocated
  obtain ⟨-, disk, written, rfl⟩ := create_cases_slot success.returned
  rw [allocates.result] at written ⊢
  refine ⟨first :: rest, disk, ?_, ?_, ?_, ?_, ?_, ?_⟩
  · exact fun cell member => ⟨allocates.inside cell member, allocates.free cell member⟩
  · exact fun cell outside => fs.fat12Table.link_of_notMem outside
  · exact fun slot different => Function.update_of_ne different _ _
  · simp only [Function.update_self]
    exact written
  · refine writeDataIntoMemory_elsewhere allocates.chain allocates.inside ?_ written
    exact firstCell_eq (allocates.inside first List.mem_cons_self)
  · intro sector above
    simp only
    rw [flushRootDir_sector _ _ above, flushTable_sector _ _ above]

theorem create_leavesAlone {fs after : FileSystem} {path : Fin 224 → List Int}
    (chains : ChainsOf fs.fat12Table fs.rootDir path) {args : CreateArgs}
    {filled : Fin 224} {cells : List Int} {data : DiskImage}
    (takes : TakesCells fs args filled after cells data) {slot : Fin 224}
    (other : slot ≠ filled) (used : InUse (fs.rootDir slot)) :
    LeavesAlone fs after slot (path slot) := by
  have owned := chains.file slot used
  have apart : ∀ cell ∈ path slot, cell ∉ cells := fun cell member taken =>
    owned.taken cell member (takes.free cell taken).2
  have links : ∀ cell ∈ path slot, after.fat12Table cell = fs.fat12Table cell :=
    fun cell member => takes.links cell (apart cell member)
  refine ⟨takes.slots slot other, links, ?_, ?_⟩
  · rw [takes.slots slot other]
    exact owned.congr fun cell member => (links cell member).symm
  · exact fun cell member => takes.same.sector_of_disjoint
      (fun cell taken => (takes.free cell taken).1) owned.inside apart takes.flushed
      member

theorem delete_leavesAlone {fs : FileSystem} {path : Fin 224 → List Int}
    (chains : ChainsOf fs.fat12Table fs.rootDir path) {pos : Fin 224}
    (found : InUse (fs.rootDir pos)) {data : DiskImage}
    (same : SameElsewhere (path pos) fs.disk data) {slot : Fin 224}
    (other : slot ≠ pos) (used : InUse (fs.rootDir slot)) :
    LeavesAlone fs
      { fs with
        fat12Table := clearCells freeEntry fs.fat12Table (path pos)
        rootDir := Function.update fs.rootDir pos FileDir.zero
        disk := flushTable (clearCells freeEntry fs.fat12Table (path pos))
          (flushRootDir (Function.update fs.rootDir pos FileDir.zero) data) }
      slot (path slot) := by
  have owned := chains.file slot used
  have apart : ∀ cell ∈ path slot, cell ∉ path pos := fun cell member cleared =>
    chains.disjoint slot pos other used found member cleared
  have links : ∀ cell ∈ path slot,
      clearCells freeEntry fs.fat12Table (path pos) cell = fs.fat12Table cell := by
    intro cell member
    simp only [clearCells, if_neg (apart cell member)]
  have metadata : Function.update fs.rootDir pos FileDir.zero slot = fs.rootDir slot :=
    Function.update_of_ne other _ _
  refine ⟨metadata, links, ?_, ?_⟩
  · simp only [metadata]
    exact owned.congr fun cell member => (links cell member).symm
  · intro cell member
    refine same.sector_of_disjoint (chains.file pos found).inside owned.inside apart
      (fun sector above => ?_) member
    simp only
    rw [flushTable_sector _ _ above, flushRootDir_sector _ _ above]

/-- The two operations on a well-formed file system: every file but the one created
or deleted keeps its metadata, its chain and its data, and the writes of file data
and of metadata stay apart. -/
theorem other_files_untouched {fs : FileSystem} {path : Fin 224 → List Int}
    (chains : ChainsOf fs.fat12Table fs.rootDir path) :
    (∀ args filled after, SuccessfulCreate fs args filled after →
      (∀ slot, slot ≠ filled → InUse (fs.rootDir slot) →
        LeavesAlone fs after slot (path slot)) ∧
      ∃ data, writeDataIntoMemory after.fat12Table fs.disk (after.rootDir filled)
          args.data = some data ∧ WritesApart fs.disk data after.disk) ∧
    ∀ name : CString, name 0 ≠ 0 → ∃ after, deleteFile fs name = some after ∧
      (∀ slot, findFile fs.rootDir name ≠ some slot → InUse (fs.rootDir slot) →
        LeavesAlone fs after slot (path slot)) ∧
      ∀ pos, findFile fs.rootDir name = some pos → ∃ last table data,
        deleteLoop walkLimit (fs.rootDir pos).firstCell fs.fat12Table fs.disk =
          some (last, table, data) ∧
        WritesApart fs.disk (clearCluster data last) after.disk := by
  constructor
  · intro args filled after success
    obtain ⟨cells, data, takes⟩ := success.takes
    refine ⟨fun slot other used => create_leavesAlone chains takes other used,
      data, takes.written, ?_⟩
    exact takes.same.writesApart (fun cell taken => (takes.free cell taken).1)
      takes.flushed
  · intro name nonempty
    cases found : findFile fs.rootDir name with
    | none =>
        refine ⟨_, deleteFile_missing found, ?_, ?_⟩
        · exact fun slot _ used =>
            ⟨rfl, fun _ _ => rfl, chains.file slot used, fun _ _ => rfl⟩
        · exact fun pos impossible => absurd impossible (Option.some_ne_none pos).symm
    | some pos =>
        have inUse := findFile_inUse found nonempty
        obtain ⟨last, table, data, looped, cleared, deleted⟩ :=
          deleteFile_eq found (chains.file pos inUse)
        refine ⟨_, deleted, fun slot other used => ?_, fun other isPos => ?_⟩
        · exact delete_leavesAlone chains inUse cleared.same
            (fun equal => other (equal ▸ rfl)) used
        · obtain rfl := Option.some.inj isPos
          refine ⟨last, table, data, looped, cleared.same.writesApart
            (chains.file pos inUse).inside fun sector above => ?_⟩
          simp only
          rw [flushTable_sector _ _ above, flushRootDir_sector _ _ above]

theorem first_file_leaves_room {args : CreateArgs}
    (small : clusterCount args.size.toNat ≤ 3) :
    ∃ (fs : FileSystem) (cluster : Int) (free : Fin 224),
      SuccessfulCreate (bootFileSystem (fun _ => 0) blankDisk) args 0 fs ∧
      FatWellFormed fs.fat12Table fs.rootDir ∧ fs.rootDir 0 = args.entry cluster ∧
      freeSlot fs.rootDir = some free ∧ 1 ≤ (freeCells fs.fat12Table 0).length := by
  have positive := clusterCount_pos args.size.toNat
  have enough : clusterCount args.size.toNat ≤
      (freeCells (bootFileSystem (fun _ => 0) blankDisk).fat12Table 0).length := by
    rw [freeCells_boot_length]
    exact small.trans (by decide)
  have blank : ∀ cell, InTable cell →
      (bootFileSystem (fun _ => 0) blankDisk).fat12Table cell = freeEntry :=
    fun cell inside => fat12TableInit_blankDisk _ inside
  obtain ⟨fs, created⟩ := create_returns (freeSlot_boot _ _) enough
  have wellFormed := create_wellFormed (fsInv_boot fun _ => 0).wellFormed enough created
  have left : fs.fat12Table 3 = freeEntry := by
    obtain ⟨first, rest, path, allocated⟩ := fat12Allocate_path enough
    have outside : ((3 : Nat) : Int) ∉ first :: rest := by
      rw [← path, mem_allocatedPath_of_free blank (by decide)]
      omega
    rw [create_table created, allocated]
    exact (Table.link_of_notMem _ outside).trans
      (blank 3 (by unfold InTable; decide))
  have room : 1 ≤ (freeCells fs.fat12Table 0).length :=
    List.length_pos_of_mem (mem_freeCells.mpr ⟨by decide, left⟩)
  have success : SuccessfulCreate (bootFileSystem (fun _ => 0) blankDisk) args 0 fs :=
    ⟨created, allocated_of_enough enough⟩
  have root : fs.rootDir = Function.update
      (bootFileSystem (fun _ => 0) blankDisk).rootDir 0 (args.entry
        (fat12Allocate (bootFileSystem (fun _ => 0) blankDisk).fat12Table
          args.size.toNat).1) := by
    obtain ⟨-, disk, -, rfl⟩ := create_cases_slot created
    rfl
  obtain ⟨free, found⟩ : ∃ free, freeSlot fs.rootDir = some free := by
    rw [← Option.isSome_iff_exists, freeSlot, List.find?_isSome]
    exact ⟨1, List.mem_finRange 1, by rw [root, Function.update_of_ne (by decide)]; rfl⟩
  exact ⟨fs, _, free, success, wellFormed,
    (congrFun root 0).trans (Function.update_self ..), found, room⟩

/-- A second file is created beside one of three clusters. -/
theorem other_files_untouched_second_file :
    ∃ (fs after : FileSystem) (path : Fin 224 → List Int) (filled : Fin 224),
      SuccessfulCreate fs (blankArgs 5) filled after ∧ InUse (fs.rootDir 0) ∧
      (path 0).length = 3 ∧ LeavesAlone fs after 0 (path 0) := by
  obtain ⟨fs, cluster, free, -, ⟨path, chains⟩, entry, slot, enough⟩ :=
    first_file_leaves_room (show clusterCount (blankArgs 1500).size.toNat ≤ 3 by decide)
  have used : InUse (fs.rootDir 0) := entry ▸ entry_inUse (blankArgs 1500) cluster
  have enough : clusterCount (blankArgs 5).size.toNat ≤
      (freeCells fs.fat12Table 0).length := by
    rw [show clusterCount (blankArgs 5).size.toNat = 1 by decide]
    exact enough
  obtain ⟨after, created⟩ := create_returns slot enough
  have success : SuccessfulCreate fs (blankArgs 5) free after :=
    ⟨created, allocated_of_enough enough⟩
  have other : 0 ≠ free := by
    rintro rfl
    exact freeSlot_unused slot used
  refine ⟨fs, after, path, free, success, used, ?_, ?_⟩
  · rw [(chains.file 0 used).length, entry]
    exact (by decide : clusterCount (blankArgs 1500).size.toNat = 3)
  · exact ((other_files_untouched chains).1 _ _ _ success).1 0 other used

end LazyOS.Fs

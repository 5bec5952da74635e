import Mathlib.Data.List.TakeWhile
import LazyOS.Fs.WellFormed

namespace LazyOS.Fs

open LazyOS.Data
open LazyOS.Disk

/-! Creating a file and printing it. -/

def dataBytes (data : Int → Byte) (size : Nat) : List Byte :=
  (List.range size).map fun k : Nat => data k

/-- `read_file` prints what `create_file` was given, followed by a newline. -/
def PrintsBack (fs : FileSystem) (args : CreateArgs) : Prop :=
  ∃ slot after final, fs.create args = some (some slot, after) ∧
    readFile after args.nameT = some final ∧
    final.screen =
      fs.screen ++ dataBytes args.data args.size.toNat ++ literal "\n"

theorem cText_length_le {buff : Nat → Byte} {stop : Nat} (length : Nat)
    (ended : buff stop = 0) : (cText buff length).length ≤ stop := by
  unfold cText
  by_contra longer
  have inside := Nat.lt_of_not_le longer
  have kept := List.mem_takeWhile_imp (List.getElem_mem inside)
  rw [List.IsPrefix.getElem (List.takeWhile_prefix _) inside] at kept
  simp [ended] at kept

theorem cText_eq {buff : Nat → Byte} {length : Nat}
    (text : ∀ k < length, buff k ≠ 0) (ended : buff length = 0) :
    cText buff (length + 1) = (List.range length).map buff := by
  unfold cText
  rw [List.range_succ, List.map_append, List.takeWhile_append_of_pos]
  · simp [ended]
  · intro byte member
    obtain ⟨k, bound, rfl⟩ := List.mem_map.mp member
    exact decide_eq_true (text k (List.mem_range.mp bound))

theorem compFileName_fieldText (name : CString) :
    compFileName (fieldText name) name = true := by
  unfold compFileName
  simp only [decide_eq_true_eq]
  intro i below
  unfold fieldText
  rw [if_pos ⟨ne_zero_of_lt_strnlen below, below⟩]

theorem findFile_exists {root : RootDir} {name : CString} {slot : Fin 224}
    (accepted : compFileName (root slot).name name = true) :
    ∃ pos, findFile root name = some pos := by
  apply Option.isSome_iff_exists.mp
  unfold findFile
  rw [List.find?_isSome]
  exact ⟨slot, List.mem_finRange slot, accepted⟩

theorem findFile_update {root : RootDir} {name : CString} {slot : Fin 224}
    {file : FileDir} (unmatched : findFile root name = none)
    (matched : compFileName file.name name = true) :
    findFile (Function.update root slot file) name = some slot := by
  have others : ∀ pos, compFileName (root pos).name name = false := by
    intro pos
    have none := List.find?_eq_none.mp unmatched pos (List.mem_finRange pos)
    simpa using none
  obtain ⟨pos, found⟩ := findFile_exists
    (show compFileName (Function.update root slot file slot).name name = true by
      rwa [Function.update_self])
  have same : pos = slot := by
    by_contra different
    have matches' := List.find?_some found
    simp only [Function.update_of_ne different, others pos] at matches'
    exact absurd matches' (by decide)
  rw [found, same]

theorem rootOnDisk_create {fs after : FileSystem} {args : CreateArgs}
    {slot : Fin 224} (created : fs.create args = some (some slot, after)) :
    rootOnDisk after.disk = Function.update fs.rootDir slot
      (args.entry (fat12Allocate fs.fat12Table args.size.toNat).1) := by
  obtain ⟨-, disk, -, rfl⟩ := create_cases_slot created
  simp

theorem readFile_create {fs after : FileSystem} {args : CreateArgs}
    {slot : Fin 224} (created : fs.create args = some (some slot, after))
    (unmatched : findFile fs.rootDir args.nameT = none) :
    readFile after args.nameT =
      (readFileText after.fat12Table after.disk
        (args.entry (fat12Allocate fs.fat12Table args.size.toNat).1)).map
        fun text => { after with
          rootDir := rootOnDisk after.disk
          screen := fs.screen ++ text ++ literal "\n" } := by
  have root := rootOnDisk_create created
  have found : findFile (rootOnDisk after.disk) args.nameT = some slot := by
    rw [root]
    exact findFile_update unmatched (compFileName_fieldText args.nameT)
  have entry : rootOnDisk after.disk slot =
      args.entry (fat12Allocate fs.fat12Table args.size.toNat).1 := by
    rw [root, Function.update_self]
  have screen : after.screen = fs.screen := by
    obtain ⟨-, disk, -, rfl⟩ := create_cases_slot created
    rfl
  unfold readFile
  simp only [loadRootDir_eq, found, entry, screen]

/-- Behind the loop `data_size` counts what the last cluster holds, and that is
where the text is cut. -/
theorem readFileText_length_le {table : Table} {file : FileDir} {path : List Int}
    (owned : FileChain table file path) (disk : DiskImage) :
    ∃ text, readFileText table disk file = some text ∧
      text.length ≤ file.size.toNat - sectorSize * (clusterCount file.size.toNat - 1) := by
  obtain ⟨rest, shape, chain⟩ := owned.chain
  have turns := owned.turns
  have inside := owned.inside
  have length := owned.length
  rw [shape] at turns inside length
  obtain ⟨last, looped, left⟩ := readDataLoop_spec chain disk
    (Nat.lt_of_succ_lt turns) inside
    ⟨file.size.toNat, file.firstCluster, 0, fun _ => 0⟩ rfl
  simp only [readFileText, looped]
  refine ⟨_, rfl, ?_⟩
  rw [List.length_cons] at length
  rw [← length, Nat.add_sub_cancel, ← left]
  exact cText_length_le _ (Function.update_self ..)

theorem clusterCount_of_small {size : Nat} (small : size ≤ sectorSize) :
    clusterCount size = 1 := by
  unfold clusterCount
  unfold sectorSize at *
  omega

theorem writeDataIntoMemory_small {table : Table} (file : FileDir) {cell : Int}
    (small : file.size.toNat ≤ sectorSize)
    (here : ((file.firstCluster - BitVec.ofNat 16 startingDataSector).toNat : Int) =
      cell) (ends : table cell = endOfFile) (disk : DiskImage) (data : Int → Byte) :
    writeDataIntoMemory table disk file data =
      some (diskStreamerWrite disk (clusterPos cell) (fun k => data k)
        file.size.toNat).1 := by
  have narrow : toInt32 file.size.toNat = file.size.toNat :=
    toInt32_of_range (by omega) (by unfold sectorSize at small; omega)
  have piece : (if toInt32 file.size.toNat > sectorSize then (sectorSize : Int)
      else toInt32 file.size.toNat) = file.size.toNat := by
    rw [narrow, if_neg (by omega)]
  have stopped : ∀ cursor : WriteCursor, (cursor.next.toNat : Int) = cell →
      writeDataLoop table data walkLimit cursor disk = some (cursor, disk) := by
    intro cursor next
    obtain ⟨turns, limit⟩ := walkLimit_succ
    rw [limit]
    simp only [writeDataLoop, next, ends, if_true]
  unfold writeDataIntoMemory
  simp only [piece]
  rw [stopped _ here]
  simp only [here, Int.zero_add]

theorem readFileText_small {table : Table} {file : FileDir} {disk : DiskImage}
    {data : Int → Byte} (small : file.size.toNat ≤ sectorSize)
    (ends : table file.firstCell = endOfFile)
    (stored : ∀ k < file.size.toNat,
      byteAt disk (file.firstCluster.toNat * sectorSize + k) = data k)
    (nulFree : ∀ k : Nat, k < file.size.toNat → data k ≠ 0) :
    readFileText table disk file =
      some (dataBytes data file.size.toNat) := by
  have stopped : readDataLoop table disk walkLimit
      ⟨file.size.toNat, file.firstCluster, 0, fun _ => 0⟩ =
        some ⟨file.size.toNat, file.firstCluster, 0, fun _ => 0⟩ := by
    obtain ⟨turns, limit⟩ := walkLimit_succ
    unfold FileDir.firstCell at ends
    rw [limit]
    simp only [readDataLoop, ends, if_true]
  have narrow : file.size.toNat % 2 ^ 16 = file.size.toNat := by
    unfold sectorSize at small
    omega
  have bytes : ∀ k < file.size.toNat,
      Function.update (readCluster disk file.firstCluster (fun _ => 0) 0
        file.size.toNat) file.size.toNat 0 k = data k := by
    intro k bound
    rw [Function.update_of_ne (by omega)]
    unfold readCluster
    rw [if_neg (by omega), diskStreamerRead_eq]
    simp only [copyBytes, Int.toNat_natCast]
    rw [if_pos (by omega)]
    exact stored k bound
  simp only [readFileText, stopped, narrow]
  rw [cText_eq (fun k bound => by rw [bytes k bound]; exact nulFree k bound)
    (Function.update_self ..)]
  congr 1
  apply List.map_congr_left
  intro k member
  exact bytes k (List.mem_range.mp member)

theorem byteAt_create {fs after : FileSystem} {args : CreateArgs} {slot : Fin 224}
    (created : fs.create args = some (some slot, after)) {disk : DiskImage}
    (written : writeDataIntoMemory (fat12Allocate fs.fat12Table args.size.toNat).2
      fs.disk (args.entry (fat12Allocate fs.fat12Table args.size.toNat).1)
      args.data = some disk) (position : Nat)
    (beyond : startingDataSector * sectorSize ≤ position) :
    byteAt after.disk position = byteAt disk position := by
  obtain ⟨-, disk', written', rfl⟩ := create_cases_slot created
  obtain rfl := Option.some.inj (written'.symm.trans written)
  unfold startingDataSector sectorSize at beyond
  simp only
  rw [byteAt_flushRootDir, if_neg, byteAt_flushTable, if_neg]
  · unfold fat1Sector sectorSize totalFat12Entreis
    omega
  · unfold startRootDir sectorSize sizeofRootDir sizeofFileDir
    omega

theorem readFileText_create_small {fs after : FileSystem} {args : CreateArgs}
    {slot : Fin 224} (created : fs.create args = some (some slot, after))
    (enough : clusterCount args.size.toNat ≤ (freeCells fs.fat12Table 0).length)
    (nulFree : ∀ k : Nat, k < args.size.toNat → args.data k ≠ 0)
    (small : args.size.toNat ≤ sectorSize) :
    readFileText after.fat12Table after.disk
        (args.entry (fat12Allocate fs.fat12Table args.size.toNat).1) =
      some (dataBytes args.data args.size.toNat) := by
  obtain ⟨first, rest, path, allocated⟩ := fat12Allocate_path enough
  have inside : InTable first :=
    (mem_allocatedPath (path ▸ List.mem_cons_self)).1
  have alone : rest = [] := by
    have length := allocatedPath_length enough
    rw [path, List.length_cons, clusterCount_of_small small] at length
    exact List.length_eq_zero_iff.mp (by omega)
  subst alone
  have ends : fs.fat12Table.link first [] first = endOfFile :=
    Function.update_self ..
  have cell := entry_firstCell args inside
  have written := writeDataIntoMemory_small (args.entry (startingDataSector + first))
    small (firstCell_eq inside) ends fs.disk args.data
  have table : after.fat12Table = fs.fat12Table.link first [] := by
    rw [create_table created, allocated]
  have sector : ((args.entry (startingDataSector + first)).firstCluster.toNat : Int) =
      first + startingDataSector := by
    unfold FileDir.firstCell at cell
    omega
  have stored := byteAt_create created (by rw [allocated]; exact written)
  rw [allocated, table]
  refine readFileText_small small (by rw [cell]; exact ends) ?_ nulFree
  intro k bound
  obtain ⟨lower, -⟩ := inside
  have start : clusterPos first =
      (args.entry (startingDataSector + first)).firstCluster.toNat * sectorSize := by
    unfold clusterPos
    rw [← sector]
    simp only [sectorSize]
    omega
  rw [stored, byteAt_diskStreamerWrite, if_pos, ← start, Nat.add_sub_cancel_left]
  · rw [← start, Int.toNat_natCast]
    exact ⟨Nat.le_add_right _ _, Nat.add_lt_add_left bound _⟩
  · have above : startingDataSector ≤
        (args.entry (startingDataSector + first)).firstCluster.toNat := by omega
    exact (Nat.mul_le_mul_right _ above).trans (Nat.le_add_right _ _)

theorem size_le_of_last_piece {size : Nat}
    (short : size ≤ size - sectorSize * (clusterCount size - 1)) :
    size ≤ sectorSize := by
  unfold clusterCount at short
  unfold sectorSize at *
  omega

/-- Of a longer file only the first bytes are printed, as many as its last cluster
holds. -/
theorem size_le_of_printsBack {fs : FileSystem} {args : CreateArgs}
    (unmatched : findFile fs.rootDir args.nameT = none)
    (enough : clusterCount args.size.toNat ≤ (freeCells fs.fat12Table 0).length)
    (printsBack : PrintsBack fs args) : args.size.toNat ≤ sectorSize := by
  obtain ⟨slot, after, final, created, read, printed⟩ := printsBack
  have owned := fileChain_allocated args enough
  rw [← create_table created] at owned
  obtain ⟨text, textEq, short⟩ := readFileText_length_le owned after.disk
  have reads := readFile_create created unmatched
  rw [textEq, read] at reads
  have same : text = dataBytes args.data args.size.toNat := by
    rw [Option.some.inj reads] at printed
    simpa using printed
  rw [same] at short
  unfold dataBytes at short
  rw [List.length_map, List.length_range] at short
  exact size_le_of_last_piece short

/-- A file is printed back exactly when it fits in one cluster. -/
theorem printsBack_iff {fs : FileSystem} {args : CreateArgs}
    (unmatched : findFile fs.rootDir args.nameT = none)
    (room : freeSlot fs.rootDir ≠ none)
    (enough : clusterCount args.size.toNat ≤ (freeCells fs.fat12Table 0).length)
    (nulFree : ∀ k : Nat, k < args.size.toNat → args.data k ≠ 0) :
    PrintsBack fs args ↔ args.size.toNat ≤ sectorSize := by
  refine ⟨size_le_of_printsBack unmatched enough, fun small => ?_⟩
  obtain ⟨slot, free⟩ := Option.ne_none_iff_exists'.mp room
  obtain ⟨after, created⟩ := create_returns free enough
  have reads := readFile_create created unmatched
  rw [readFileText_create_small created enough nulFree small] at reads
  exact ⟨slot, after, _, created, reads, rfl⟩

def letterArgs (size : Word) : CreateArgs :=
  { blankArgs size with
    nameT := fun k => if k = 0 then 0x61 else 0
    data := fun _ => 0x41 }

theorem findFile_boot (ram : Table) (disk : DiskImage) {name : CString}
    (nonempty : name 0 ≠ 0) :
    findFile (bootFileSystem ram disk).rootDir name = none := by
  cases found : findFile (bootFileSystem ram disk).rootDir name with
  | none => rfl
  | some pos => exact absurd rfl (findFile_inUse found nonempty)

theorem printsBack_iff_five_letters :
    PrintsBack (bootFileSystem (fun _ => 0) blankDisk) (letterArgs 5) ↔
      (letterArgs 5).size.toNat ≤ sectorSize :=
  printsBack_iff (findFile_boot _ _ (by decide))
    (by rw [freeSlot_boot]; exact Option.some_ne_none 0)
    (by rw [freeCells_boot_length]; decide)
    (fun _ _ => show (0x41 : Byte) ≠ 0 by decide)

/-- A file of two clusters on a blank disk is cut. -/
theorem two_clusters_cut :
    FatWellFormed (bootFileSystem (fun _ => 0) blankDisk).fat12Table
        (bootFileSystem (fun _ => 0) blankDisk).rootDir ∧
      findFile (bootFileSystem (fun _ => 0) blankDisk).rootDir
        (letterArgs 513).nameT = none ∧
      freeSlot (bootFileSystem (fun _ => 0) blankDisk).rootDir ≠ none ∧
      clusterCount (letterArgs 513).size.toNat ≤
        (freeCells (bootFileSystem (fun _ => 0) blankDisk).fat12Table 0).length ∧
      (∀ k : Nat, k < (letterArgs 513).size.toNat → (letterArgs 513).data k ≠ 0) ∧
      ¬ PrintsBack (bootFileSystem (fun _ => 0) blankDisk) (letterArgs 513) := by
  have unmatched := findFile_boot (fun _ => 0) blankDisk
    (show (letterArgs 513).nameT 0 ≠ 0 by decide)
  have enough : clusterCount (letterArgs 513).size.toNat ≤
      (freeCells (bootFileSystem (fun _ => 0) blankDisk).fat12Table 0).length := by
    rw [freeCells_boot_length]
    decide
  refine ⟨(fsInv_boot _).wellFormed, unmatched, ?_, enough, ?_, fun printsBack => ?_⟩
  · rw [freeSlot_boot]
    exact Option.some_ne_none 0
  · exact fun _ _ => show (0x41 : Byte) ≠ 0 by decide
  · exact absurd (size_le_of_printsBack unmatched enough printsBack) (by decide)

end LazyOS.Fs

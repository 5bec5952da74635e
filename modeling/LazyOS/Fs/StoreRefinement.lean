import LazyOS.Fs.Frame
import LazyOS.Fs.Names
import LazyOS.Fs.Store

namespace LazyOS.Fs

open LazyOS.Data
open LazyOS.Disk

/-! The file system of `fat12.c` behaves as the store, as long as the files need no
more clusters than there are. -/

instance (file : FileDir) : Decidable (InUse file) := inferInstanceAs (Decidable (_ ≠ _))

structure HoldsFile (table : Table) (disk : DiskImage) (dir : FileDir) (file : StoredFile) :
    Prop where
  name : dir.name = file.name
  ext : dir.ext = file.ext
  timeStamp : dir.timeStamp = file.timeStamp
  attr : dir.attr = file.attr
  size : dir.size.toNat = file.contents.length
  data : ∃ path, FileChain table dir path ∧
    HoldsBytes disk path (fun k => file.contents.getD k 0) file.contents.length

/-- The table and the stored directory are those of `store`, with every chain below
`limit`, and the stored table is the one in memory. -/
structure Represents (limit : Nat) (fs : FileSystem) (store : Store) : Prop where
  wellFormed : FatWellFormed fs.fat12Table (rootOnDisk fs.disk)
  unused : ∀ slot, store slot = none → ¬ InUse (rootOnDisk fs.disk slot)
  holds : ∀ slot file, store slot = some file →
    HoldsFile fs.fat12Table fs.disk (rootOnDisk fs.disk slot) file
  low : ∀ cell, InTable cell → (limit : Int) ≤ cell → fs.fat12Table cell = freeEntry
  flushed : ∀ i < totalFat12Entreis, entryOnDisk fs.disk i = fs.fat12Table i

variable {limit : Nat} {fs : FileSystem} {store : Store}

theorem HoldsFile.inUse {table : Table} {disk : DiskImage} {dir : FileDir}
    {file : StoredFile} (held : HoldsFile table disk dir file) : InUse dir := by
  unfold InUse
  rw [held.name]
  exact file.named

theorem FileChain.unique {table : Table} {file : FileDir} {left right : List Int}
    (first : FileChain table file left) (second : FileChain table file right) :
    left = right := by
  obtain ⟨rest, rfl, chain⟩ := first.chain
  obtain ⟨others, rfl, other⟩ := second.chain
  rw [chain.unique other]

theorem HoldsFile.transfer {before after : FileSystem} {slot : Fin 224} {path : List Int}
    {file : StoredFile} (owned : FileChain before.fat12Table (before.rootDir slot) path)
    (held : HoldsFile before.fat12Table before.disk (before.rootDir slot) file)
    (alone : LeavesAlone before after slot path) :
    HoldsFile after.fat12Table after.disk (after.rootDir slot) file := by
  obtain ⟨own, chain, bytes⟩ := held.data
  rw [chain.unique owned] at bytes
  refine ⟨?_, ?_, ?_, ?_, ?_, path, alone.chain, bytes.transfer alone.sectors⟩
  · rw [alone.metadata, held.name]
  · rw [alone.metadata, held.ext]
  · rw [alone.metadata, held.timeStamp]
  · rw [alone.metadata, held.attr]
  · rw [alone.metadata, held.size]

theorem Represents.inUse_iff (represents : Represents limit fs store) (slot : Fin 224) :
    InUse (rootOnDisk fs.disk slot) ↔ ∃ file, store slot = some file := by
  constructor
  · intro used
    rw [← Option.ne_none_iff_exists']
    exact fun empty => represents.unused slot empty used
  · rintro ⟨file, here⟩
    exact (represents.holds slot file here).inUse

theorem Represents.emptySlot_eq (represents : Represents limit fs store) :
    store.emptySlot = freeSlot (rootOnDisk fs.disk) := by
  unfold Store.emptySlot freeSlot
  congr 1
  funext slot
  rw [Bool.eq_iff_iff, Option.isNone_iff_eq_none, decide_eq_true_eq]
  have used := represents.inUse_iff slot
  unfold InUse at used
  rw [← not_iff_not]
  exact Option.ne_none_iff_exists'.trans used.symm

theorem Represents.find_eq (represents : Represents limit fs store) {name : CString}
    (nonempty : name 0 ≠ 0) : store.find name = findFile (rootOnDisk fs.disk) name := by
  unfold Store.find findFile
  congr 1
  funext slot
  cases here : store slot with
  | some file =>
      rw [Option.any_some, Bool.eq_iff_iff, decide_eq_true_eq, compFileName_iff_begins,
        (represents.holds slot file here).name]
      exact Iff.rfl
  | none =>
      have unused := represents.unused slot here
      rw [Option.any_none, eq_comm, Bool.eq_false_iff]
      intro matched
      unfold compFileName at matched
      simp only [decide_eq_true_eq] at matched
      have first := matched 0 (strnlen_pos nonempty (by decide))
      exact unused fun zero => nonempty (first.symm.trans zero)

theorem Store.find_some {name : CString} {slot : Fin 224} (found : store.find name = some slot) :
    ∃ file, store slot = some file ∧ file.Called name := by
  have matched := List.find?_some found
  rw [Option.any_eq_true] at matched
  obtain ⟨file, here, called⟩ := matched
  exact ⟨file, here, of_decide_eq_true called⟩

theorem taken_card {table : Table} {root : RootDir} {path : Fin 224 → List Int}
    (chains : ChainsOf table root path) (bound : limit ≤ totalFat12Entreis)
    (low : ∀ cell, InTable cell → (limit : Int) ≤ cell → table cell = freeEntry) :
    ((Finset.Ico (0 : Int) limit).filter fun cell => table cell ≠ freeEntry).card =
      ∑ slot, if InUse (root slot) then clusterCount (root slot).size.toNat else 0 := by
  have cells : (Finset.Ico (0 : Int) limit).filter (fun cell => table cell ≠ freeEntry) =
      (Finset.univ.filter fun slot => InUse (root slot)).biUnion
        fun slot => (path slot).toFinset := by
    ext cell
    simp only [Finset.mem_filter, Finset.mem_Ico, Finset.mem_biUnion, Finset.mem_univ,
      true_and, List.mem_toFinset]
    constructor
    · rintro ⟨⟨lower, upper⟩, taken⟩
      exact chains.covered cell ⟨lower, by omega⟩ taken
    · rintro ⟨slot, used, member⟩
      have owned := chains.file slot used
      have inside := owned.inside cell member
      have taken := owned.taken cell member
      refine ⟨⟨inside.1, ?_⟩, taken⟩
      by_contra above
      exact taken (low cell inside (not_lt.mp above))
  rw [cells, Finset.card_biUnion]
  · rw [Finset.sum_filter]
    refine Finset.sum_congr rfl fun slot _ => ?_
    by_cases used : InUse (root slot)
    · have owned := chains.file slot used
      rw [if_pos used, if_pos used, List.toFinset_card_of_nodup owned.nodup, owned.length]
    · rw [if_neg used, if_neg used]
  · intro left usedLeft right usedRight different
    simp only [Finset.coe_filter, Finset.mem_univ, true_and, Set.mem_ofPred_eq]
      at usedLeft usedRight
    rw [Function.onFun, List.disjoint_toFinset_iff_disjoint]
    exact chains.disjoint left right different usedLeft usedRight

theorem Represents.clusters_eq (represents : Represents limit fs store) :
    store.clusters = ∑ slot, if InUse (rootOnDisk fs.disk slot) then
      clusterCount (rootOnDisk fs.disk slot).size.toNat else 0 := by
  unfold Store.clusters
  refine Finset.sum_congr rfl fun slot _ => ?_
  cases here : store slot with
  | none => rw [if_neg (represents.unused slot here), Option.elim_none]
  | some file =>
      have held := represents.holds slot file here
      rw [if_pos held.inUse, held.size, Option.elim_some]

def lowFree (table : Table) (limit : Nat) : List Int :=
  ((List.range limit).map Int.ofNat).filter fun cell => table cell = freeEntry

theorem freeCells_split (table : Table) {limit : Nat} (bound : limit ≤ totalFat12Entreis) :
    freeCells table 0 = lowFree table limit ++ freeCells table limit := by
  unfold freeCells lowFree
  obtain ⟨more, total⟩ := Nat.exists_eq_add_of_le bound
  rw [Nat.sub_zero, total, Nat.add_sub_cancel_left, List.range_eq_range', ← List.filter_append,
    ← List.map_append, ← List.range'_append, Nat.one_mul, Nat.zero_add]

theorem lowFree_card (table : Table) (limit : Nat) :
    (lowFree table limit).length +
      ((Finset.Ico (0 : Int) limit).filter fun cell => table cell ≠ freeEntry).card =
        limit := by
  have nodup : (lowFree table limit).Nodup := by
    unfold lowFree
    exact ((List.nodup_range).map fun _ _ => Int.ofNat.inj).filter _
  have cells : (lowFree table limit).toFinset =
      (Finset.Ico (0 : Int) limit).filter fun cell => table cell = freeEntry := by
    ext cell
    unfold lowFree
    simp only [List.mem_toFinset, List.mem_filter, List.mem_map, List.mem_range,
      decide_eq_true_eq, Finset.mem_filter, Finset.mem_Ico, Int.ofNat_eq_natCast]
    refine and_congr_left fun _ => ⟨?_, fun bounds => ?_⟩
    · rintro ⟨i, inside, rfl⟩
      omega
    · exact ⟨cell.toNat, by omega, by omega⟩
  rw [← List.toFinset_card_of_nodup nodup, cells, Finset.card_filter_add_card_filter_not,
    Int.card_Ico]
  omega

theorem Represents.room (represents : Represents limit fs store)
    (bound : limit ≤ totalFat12Entreis) :
    (lowFree fs.fat12Table limit).length + store.clusters = limit := by
  obtain ⟨path, chains⟩ := represents.wellFormed
  rw [represents.clusters_eq, ← taken_card chains bound represents.low]
  exact lowFree_card _ _

theorem allocatedPath_low {table : Table} {size : Nat} {cell : Int}
    (bound : limit ≤ totalFat12Entreis)
    (enough : clusterCount size ≤ (lowFree table limit).length)
    (member : cell ∈ allocatedPath table size) : cell < limit := by
  unfold allocatedPath at member
  rw [freeCells_split table bound, List.take_append_of_le_length enough] at member
  have listed := List.mem_of_mem_take member
  unfold lowFree at listed
  simp only [List.mem_filter, List.mem_map, List.mem_range, Int.ofNat_eq_natCast] at listed
  obtain ⟨⟨i, inside, rfl⟩, -⟩ := listed
  omega

theorem dataBytes_getD (data : Int → Byte) {size k : Nat} (inside : k < size) :
    (dataBytes data size).getD k 0 = data k := by
  rw [← List.getElem_eq_getD (h := by rwa [dataBytes_length])]
  unfold dataBytes
  rw [List.getElem_map, List.getElem_range]

theorem create_holds {after : FileSystem} {args : CreateArgs} {slot : Fin 224}
    (enough : clusterCount args.size.toNat ≤ (freeCells fs.fat12Table 0).length)
    (created : fs.create args = some (some slot, after)) :
    HoldsFile after.fat12Table after.disk (after.rootDir slot) args.stored := by
  have owned := fileChain_allocated args enough
  obtain ⟨first, rest, path, allocated⟩ := fat12Allocate_path enough
  have inside : InTable first := (mem_allocatedPath (path ▸ List.mem_cons_self)).1
  obtain ⟨-, disk, written, rfl⟩ := create_cases_slot created
  rw [allocated] at owned written ⊢
  rw [path] at owned
  have start : (((args.entry (startingDataSector + first)).firstCluster -
      BitVec.ofNat 16 startingDataSector).toNat : Int) = first := firstCell_eq inside
  have chain : TableChain (fs.fat12Table.link first rest)
      (((args.entry (startingDataSector + first)).firstCluster -
        BitVec.ofNat 16 startingDataSector).toNat : Nat) rest := by
    obtain ⟨others, shape, chain⟩ := owned.chain
    rw [entry_firstCell args inside] at chain
    rw [start, (List.cons.inj shape).2]
    rwa [← (List.cons.inj shape).2] at chain ⊢
  have count := owned.length
  obtain ⟨data, stored, holds, -⟩ := writeDataIntoMemory_stores chain count fs.disk args.data
  obtain rfl := Option.some.inj (stored.symm.trans written)
  have length := dataBytes_length args.data args.size.toNat
  have held : HoldsBytes data (first :: rest)
      (fun k => (dataBytes args.data args.size.toNat).getD k 0)
      (dataBytes args.data args.size.toNat).length := by
    rw [length]
    intro k bound cell here
    rw [← start] at here
    rw [holds.bytes k (bound.trans_le (le_writtenBytes _)) cell here]
    exact (dataBytes_getD args.data bound).symm
  simp only [Function.update_self]
  refine ⟨rfl, rfl, rfl, rfl, length.symm, first :: rest, owned, held.transfer ?_⟩
  intro cell member
  have above := clusterSector_ge (owned.inside cell member)
  rw [flushRootDir_sector _ _ above, flushTable_sector _ _ above]

theorem create_represents {args : CreateArgs} {slot : Fin 224}
    (represents : Represents limit fs store) (bound : limit ≤ totalFat12Entreis)
    (coherent : fs.rootDir = rootOnDisk fs.disk) (empty : store.emptySlot = some slot)
    (fits : store.clusters + clusterCount args.size.toNat ≤ limit) :
    ∃ after, fs.create args = some (some slot, after) ∧
      Represents limit after (Function.update store slot (some args.stored)) ∧
      after.rootDir = rootOnDisk after.disk ∧ after.screen = fs.screen := by
  have room := represents.room bound
  have split := freeCells_split fs.fat12Table bound
  have enough : clusterCount args.size.toNat ≤ (freeCells fs.fat12Table 0).length := by
    rw [split, List.length_append]
    omega
  have free : freeSlot fs.rootDir = some slot := by
    rw [coherent, ← represents.emptySlot_eq]
    exact empty
  obtain ⟨after, created⟩ := create_returns free enough
  have wellFormed := create_wellFormed (coherent ▸ represents.wellFormed) enough created
  have success : SuccessfulCreate fs args slot after :=
    ⟨created, allocated_of_enough enough⟩
  obtain ⟨cells, data, takes⟩ := success.takes
  have loaded : after.rootDir = rootOnDisk after.disk := by
    obtain ⟨-, disk, -, rfl⟩ := create_cases_slot created
    simp
  have screen : after.screen = fs.screen := by
    obtain ⟨-, disk, -, rfl⟩ := create_cases_slot created
    rfl
  obtain ⟨path, chains⟩ := represents.wellFormed
  rw [← coherent] at chains
  refine ⟨after, created, ⟨loaded ▸ wellFormed, ?_, ?_, ?_, ?_⟩, loaded, screen⟩
  · intro other none
    have different : other ≠ slot := by
      rintro rfl
      rw [Function.update_self] at none
      cases none
    rw [Function.update_of_ne different] at none
    rw [← loaded, takes.slots other different, coherent]
    exact represents.unused other none
  · intro other file here
    rw [← loaded]
    by_cases same : other = slot
    · subst same
      rw [Function.update_self, Option.some.injEq] at here
      exact here ▸ create_holds enough created
    · rw [Function.update_of_ne same] at here
      have held := represents.holds other file here
      rw [← coherent] at held
      exact held.transfer (chains.file other held.inUse)
        (create_leavesAlone chains takes same held.inUse)
  · intro cell inside above
    obtain ⟨first, rest, shape, allocated⟩ := fat12Allocate_path enough
    rw [create_table created, allocated]
    refine (Table.link_of_notMem _ fun member => ?_).trans (represents.low cell inside above)
    have below := allocatedPath_low bound (by omega) (shape ▸ member)
    omega
  · exact fun i inside => (Flushes.create args slot created).entryOnDisk_eq inside

theorem delete_represents {name : CString} {slot : Fin 224}
    (represents : Represents limit fs store) (coherent : fs.rootDir = rootOnDisk fs.disk)
    (nonempty : name 0 ≠ 0) (found : store.find name = some slot) :
    ∃ after, deleteFile fs name = some after ∧
      Represents limit after (Function.update store slot none) ∧
      after.rootDir = rootOnDisk after.disk ∧ after.screen = fs.screen := by
  rw [represents.find_eq nonempty, ← coherent] at found
  have used := findFile_inUse found nonempty
  obtain ⟨path, chains⟩ := represents.wellFormed
  rw [← coherent] at chains
  obtain ⟨last, table, disk, -, cleared, deleted⟩ := deleteFile_eq found (chains.file slot used)
  have alone := fun (other : Fin 224) (different : other ≠ slot) inUse =>
    delete_leavesAlone chains used cleared.same different inUse
  have flushes := Flushes.delete name slot found deleted
  refine ⟨_, deleted, ⟨?_, ?_, ?_, ?_, fun i inside => flushes.entryOnDisk_eq inside⟩,
    by simp, rfl⟩
  · simp only [rootOnDisk_flushTable, rootOnDisk_flushRootDir]
    exact chains.clear used fun inUse => inUse rfl
  · intro other none
    simp only [rootOnDisk_flushTable, rootOnDisk_flushRootDir]
    by_cases same : other = slot
    · subst same
      rw [Function.update_self]
      exact fun inUse => inUse rfl
    · rw [Function.update_of_ne same] at none ⊢
      rw [coherent]
      exact represents.unused other none
  · intro other file here
    simp only [rootOnDisk_flushTable, rootOnDisk_flushRootDir]
    have different : other ≠ slot := by
      rintro rfl
      rw [Function.update_self] at here
      cases here
    rw [Function.update_of_ne different] at here
    have held := represents.holds other file here
    rw [← coherent] at held
    exact held.transfer (chains.file other held.inUse) (alone other different held.inUse)
  · intro cell inside above
    simp only [clearCells, represents.low cell inside above, ite_self]

theorem read_represents {name : CString} (represents : Represents limit fs store)
    (nonempty : name 0 ≠ 0) :
    readFile fs name = some { fs with
      rootDir := rootOnDisk fs.disk
      screen := fs.screen ++ (store.step (.read name)).2 } := by
  unfold readFile
  simp only [loadRootDir_eq, Store.step, ← represents.find_eq nonempty]
  cases found : store.find name with
  | none => rfl
  | some slot =>
      obtain ⟨file, here, -⟩ := Store.find_some found
      have held := represents.holds slot file here
      obtain ⟨path, owned, bytes⟩ := held.data
      simp only [Option.bind_some, here, readFileText_eq owned held.size bytes,
        Option.map_some, List.append_assoc]

theorem list_represents (represents : Represents limit fs store)
    (coherent : fs.rootDir = rootOnDisk fs.disk) :
    listFiles fs = { fs with screen := fs.screen ++ store.listing } := by
  unfold listFiles Store.listing
  congr 2
  refine List.flatMap_congr fun slot _ => ?_
  unfold listSlot
  rw [coherent]
  cases here : store slot with
  | none =>
      rw [if_pos (not_not.mp (represents.unused slot here)), Option.elim_none]
  | some file =>
      have held := represents.holds slot file here
      rw [if_neg held.inUse, Option.elim_some, held.name, held.ext, held.timeStamp]

theorem Represents.congr {other : FileSystem} (represents : Represents limit fs store)
    (table : other.fat12Table = fs.fat12Table) (disk : other.disk = fs.disk) :
    Represents limit other store := by
  obtain ⟨wellFormed, unused, holds, low, flushed⟩ := represents
  rw [← table, ← disk] at wellFormed holds flushed
  exact ⟨wellFormed, disk ▸ unused, holds, table ▸ low, flushed⟩

end LazyOS.Fs

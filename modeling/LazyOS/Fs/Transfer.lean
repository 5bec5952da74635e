import LazyOS.Fs.Allocation
import LazyOS.Fs.Operations

namespace LazyOS.Fs

open LazyOS.Data
open LazyOS.Disk

/-! The walks of the file operations along a chain: they return, and this is what
they leave. -/

theorem length_le_of_bounded {path : List Int} {bound : Nat} (distinct : path.Nodup)
    (inside : ∀ cell ∈ path, 0 ≤ cell ∧ cell < bound) : path.length ≤ bound := by
  have covered : path ⊆ (List.range bound).map Int.ofNat := by
    intro cell member
    obtain ⟨lower, upper⟩ := inside cell member
    refine List.mem_map.mpr ⟨cell.toNat, List.mem_range.mpr (by omega), ?_⟩
    simp only [Int.ofNat_eq_natCast]
    omega
  have short := (List.subperm_of_subset distinct covered).length_le
  rwa [List.length_map, List.length_range] at short

theorem length_lt_walkLimit {path : List Int} (distinct : path.Nodup)
    (inside : ∀ cell ∈ path, InTable cell) : path.length < walkLimit :=
  (length_le_of_bounded distinct inside).trans_lt (by decide)

def clusterSector (cell : Int) : Nat := (startingDataSector + cell).toNat

theorem clusterSector_injective {left right : Int} (lowerLeft : 0 ≤ left)
    (lowerRight : 0 ≤ right) (same : clusterSector left = clusterSector right) :
    left = right := by
  unfold clusterSector at same
  omega

def SameElsewhere (cells : List Int) (before after : DiskImage) : Prop :=
  ∀ sector, (∀ cell ∈ cells, sector ≠ clusterSector cell) → after sector = before sector

theorem SameElsewhere.trans {cells : List Int} {first middle last : DiskImage}
    (earlier : SameElsewhere cells first middle)
    (later : SameElsewhere cells middle last) : SameElsewhere cells first last :=
  fun sector outside => (later sector outside).trans (earlier sector outside)

theorem SameElsewhere.cons {cell : Int} {cells : List Int} {before after : DiskImage}
    (same : SameElsewhere cells before after) :
    SameElsewhere (cell :: cells) before after :=
  fun sector outside => same sector fun current member =>
    outside current (List.mem_cons_of_mem _ member)

theorem sameElsewhere_writeCluster {cell : Int} {cells : List Int}
    (member : cell ∈ cells) (inside : InTable cell) (disk : DiskImage)
    (src : Nat → Byte) {total : Int} (piece : total ≤ sectorSize) :
    SameElsewhere cells disk (diskStreamerWrite disk (clusterPos cell) src total).1 := by
  intro sector outside
  have other := outside cell member
  obtain ⟨lower, -⟩ := inside
  apply diskStreamerWrite_sector
  unfold clusterSector at other
  unfold clusterPos
  unfold sectorSize startingDataSector at *
  omega

theorem walkLimit_succ : ∃ turns, walkLimit = turns + 1 := ⟨2 ^ 17 - 1, rfl⟩

theorem writeDataLoop_returns {table : Table} {cell : Int} {rest : List Int}
    (chain : TableChain table cell rest) (data : Int → Byte) {turns : Nat}
    (enough : rest.length < turns) (cursor : WriteCursor)
    (here : (cursor.next.toNat : Int) = cell) (disk : DiskImage) :
    ∃ result, writeDataLoop table data turns cursor disk = some result := by
  induction chain generalizing turns cursor disk with
  | last ends =>
      obtain ⟨turns, rfl⟩ := Nat.exists_eq_succ_of_ne_zero (Nat.ne_zero_of_lt enough)
      exact ⟨(cursor, disk), by simp only [writeDataLoop, here, ends, if_true]⟩
  | link goes tail ih =>
      obtain ⟨turns, rfl⟩ := Nat.exists_eq_succ_of_ne_zero (Nat.ne_zero_of_lt enough)
      simp only [writeDataLoop, here]
      rw [if_neg goes]
      exact ih (Nat.lt_of_succ_lt_succ enough) _ rfl _

/-- The write loop stays on the sectors of its chain, and what it leaves for the last
one fits into it. -/
theorem writeDataLoop_elsewhere {table : Table} {cell : Int} {rest : List Int}
    (chain : TableChain table cell rest)
    (inside : ∀ current ∈ cell :: rest, InTable current) (data : Int → Byte)
    {turns : Nat} {cursor last : WriteCursor} {disk written : DiskImage}
    (here : (cursor.next.toNat : Int) = cell) (piece : cursor.toWrite ≤ sectorSize)
    (looped : writeDataLoop table data turns cursor disk = some (last, written)) :
    SameElsewhere (cell :: rest) disk written ∧ last.toWrite ≤ sectorSize ∧
      (last.next.toNat : Int) ∈ cell :: rest := by
  induction chain generalizing turns cursor disk with
  | last ends =>
      cases turns with
      | zero => cases looped
      | succ turns =>
          simp only [writeDataLoop, here, ends, if_true, Option.some.injEq,
            Prod.mk.injEq] at looped
          obtain ⟨rfl, rfl⟩ := looped
          exact ⟨fun _ _ => rfl, piece, by rw [here]; exact List.mem_cons_self⟩
  | link goes tail ih =>
      rename_i cell rest
      cases turns with
      | zero => cases looped
      | succ turns =>
          simp only [writeDataLoop, here] at looped
          rw [if_neg goes] at looped
          have fits : (if cursor.dataSize > sectorSize then (sectorSize : Int)
              else cursor.dataSize) ≤ sectorSize := by
            split <;> omega
          have first := sameElsewhere_writeCluster
            (List.mem_cons_self (l := ((table cell).toNat : Int) :: rest))
            (inside cell List.mem_cons_self) disk
            (fun k => data (cursor.offset + k)) fits
          obtain ⟨later, left, member⟩ := ih
            (fun current member => inside current (List.mem_cons_of_mem _ member))
            rfl fits looped
          exact ⟨first.trans later.cons, left, List.mem_cons_of_mem _ member⟩

theorem writeDataIntoMemory_elsewhere {table : Table} {cell : Int} {rest : List Int}
    (chain : TableChain table cell rest)
    (inside : ∀ current ∈ cell :: rest, InTable current) {file : FileDir}
    (here : ((file.firstCluster - BitVec.ofNat 16 startingDataSector).toNat : Int) =
      cell) {data : Int → Byte} {disk written : DiskImage}
    (wrote : writeDataIntoMemory table disk file data = some written) :
    SameElsewhere (cell :: rest) disk written := by
  unfold writeDataIntoMemory at wrote
  simp only at wrote
  split at wrote
  · cases wrote
  · rename_i last middle looped
    obtain ⟨before, piece, member⟩ := writeDataLoop_elsewhere chain inside data here
      (by simp only; split <;> omega) looped
    obtain rfl := Option.some.inj wrote
    exact before.trans
      (sameElsewhere_writeCluster member (inside _ member) middle _ piece)

theorem firstCell_eq {first : Int} (inside : InTable first) :
    ((BitVec.ofInt 16 (startingDataSector + first) -
      BitVec.ofNat 16 startingDataSector).toNat : Int) = first := by
  obtain ⟨lower, upper⟩ := inside
  unfold totalFat12Entreis at upper
  have value : (BitVec.ofInt 16 (startingDataSector + first)).toNat =
      startingDataSector + first.toNat := by
    rw [BitVec.toNat_ofInt]
    unfold startingDataSector
    omega
  rw [BitVec.toNat_sub, value, BitVec.toNat_ofNat]
  unfold startingDataSector
  omega

/-- `create_file` comes back with the free slot when there is one and the allocation
was served. -/
theorem create_returns_served {fs : FileSystem} {args : CreateArgs} {slot : Fin 224}
    (free : freeSlot fs.rootDir = some slot)
    (served : (fat12Allocate fs.fat12Table args.size.toNat).1 ≠ -noMemory) :
    ∃ after, fs.create args = some (some slot, after) := by
  obtain ⟨first, rest, allocates⟩ := fat12Allocate_chain served
  have turns : rest.length < walkLimit := Nat.lt_of_succ_lt
    (length_lt_walkLimit allocates.chain.nodup allocates.inside)
  rw [create_eq, free, allocates.result]
  simp only [writeIntoMemory, writeDataIntoMemory]
  obtain ⟨result, looped⟩ := writeDataLoop_returns allocates.chain args.data turns
    ⟨toInt32 (args.entry (startingDataSector + first)).size.toNat, 0,
      (args.entry (startingDataSector + first)).firstCluster -
        BitVec.ofNat 16 startingDataSector,
      if toInt32 (args.entry (startingDataSector + first)).size.toNat > sectorSize
      then (sectorSize : Int)
      else toInt32 (args.entry (startingDataSector + first)).size.toNat⟩
    (firstCell_eq (allocates.inside first List.mem_cons_self)) fs.disk
  rw [looped]
  exact ⟨_, rfl⟩

theorem create_returns {fs : FileSystem} {args : CreateArgs} {slot : Fin 224}
    (free : freeSlot fs.rootDir = some slot)
    (enough : clusterCount args.size.toNat ≤ (freeCells fs.fat12Table 0).length) :
    ∃ after, fs.create args = some (some slot, after) :=
  create_returns_served free (allocated_of_enough enough)

theorem readDataLoop_spec {table : Table} {cell : Int} {rest : List Int}
    (chain : TableChain table cell rest) (disk : DiskImage) {turns : Nat}
    (enough : rest.length < turns)
    (inside : ∀ current ∈ cell :: rest, InTable current) (cursor : ReadCursor)
    (here : (cursor.nextCluser.toNat : Int) - startingDataSector = cell) :
    ∃ last, readDataLoop table disk turns cursor = some last ∧
      last.dataSize = cursor.dataSize - sectorSize * rest.length := by
  induction chain generalizing turns cursor with
  | last ends =>
      obtain ⟨turns, rfl⟩ := Nat.exists_eq_succ_of_ne_zero (Nat.ne_zero_of_lt enough)
      exact ⟨cursor, by simp only [readDataLoop, here, ends, if_true], by simp⟩
  | link goes tail ih =>
      rename_i cell rest
      obtain ⟨turns, rfl⟩ := Nat.exists_eq_succ_of_ne_zero (Nat.ne_zero_of_lt enough)
      obtain ⟨lower, upper⟩ := inside _ (List.mem_cons_of_mem _ List.mem_cons_self)
      unfold totalFat12Entreis at upper
      simp only [readDataLoop, here]
      rw [if_neg goes]
      generalize reads : (if cursor.dataSize > sectorSize then sectorSize
        else cursor.dataSize) = read
      have piece : read = min sectorSize cursor.dataSize := by
        rw [← reads, Nat.min_def]
        by_cases more : cursor.dataSize > sectorSize
        · rw [if_pos more, if_pos (by omega)]
        · rw [if_neg more]
          split <;> omega
      obtain ⟨last, looped, left⟩ := ih (Nat.lt_of_succ_lt_succ enough)
        (fun current member => inside current (List.mem_cons_of_mem _ member))
        ⟨cursor.dataSize - read, table cell + BitVec.ofNat 16 startingDataSector,
          cursor.writePtr + read,
          readCluster disk cursor.nextCluser cursor.buff cursor.writePtr read⟩ (by
          simp only [BitVec.toNat_add, BitVec.toNat_ofNat, startingDataSector]
          omega)
      refine ⟨last, looped, ?_⟩
      rw [left, List.length_cons]
      simp only [piece, sectorSize]
      omega

theorem clearCells_cons (table : Table) (cell : Int) (rest : List Int) :
    clearCells freeEntry (Function.update table cell freeEntry) rest =
      clearCells freeEntry table (cell :: rest) := by
  funext current
  unfold clearCells
  by_cases same : current = cell
  · subst same
    simp
  · simp [same]

structure ClearsCells (cells : List Int) (before after : DiskImage) : Prop where
  same : SameElsewhere cells before after
  zero : ∀ cell ∈ cells, ∀ offset < sectorSize, after (clusterSector cell) offset = 0

theorem clearsCells_singleton {cell : Int} (inside : InTable cell) (disk : DiskImage) :
    ClearsCells [cell] disk (clearCluster disk cell) := by
  refine ⟨sameElsewhere_writeCluster List.mem_cons_self inside disk _ le_rfl, ?_⟩
  intro current member offset bound
  obtain rfl := List.mem_singleton.mp member
  have start : clusterPos current = sectorSize * clusterSector current := by
    obtain ⟨lower, -⟩ := inside
    unfold clusterPos clusterSector sectorSize startingDataSector
    omega
  rw [← byteAt_sector (clearCluster disk current) _ bound]
  unfold clearCluster
  rw [byteAt_diskStreamerWrite, if_pos]
  rw [start]
  omega

theorem ClearsCells.cons {cell : Int} {cells : List Int}
    {first middle last : DiskImage} (fresh : cell ∉ cells)
    (inside : ∀ current ∈ cell :: cells, InTable current)
    (here : ClearsCells [cell] first middle) (later : ClearsCells cells middle last) :
    ClearsCells (cell :: cells) first last := by
  refine ⟨fun sector outside => ?_, fun current member offset bound => ?_⟩
  · rw [later.same.cons sector outside, here.same sector fun current member =>
      outside current (List.mem_cons.mpr (.inl (List.mem_singleton.mp member)))]
  · rcases List.mem_cons.mp member with rfl | member
    · rw [later.same _ fun other listed equal => fresh ?_]
      · exact here.zero current List.mem_cons_self offset bound
      · rwa [clusterSector_injective (inside _ List.mem_cons_self).1
          (inside other (List.mem_cons_of_mem _ listed)).1 equal]
    · exact later.zero current member offset bound

theorem deleteLoop_spec {table : Table} {cell : Int} {rest : List Int}
    (chain : TableChain table cell rest) (distinct : (cell :: rest).Nodup)
    (inside : ∀ current ∈ cell :: rest, InTable current)
    {turns : Nat} (enough : rest.length < turns) (disk : DiskImage) :
    ∃ last table' disk', deleteLoop turns cell table disk = some (last, table', disk') ∧
      Function.update table' last freeEntry =
        clearCells freeEntry table (cell :: rest) ∧
      ClearsCells (cell :: rest) disk (clearCluster disk' last) := by
  induction rest generalizing table cell turns disk with
  | nil =>
      obtain ⟨turns, rfl⟩ := Nat.exists_eq_succ_of_ne_zero (Nat.ne_zero_of_lt enough)
      cases chain with
      | last ends =>
          refine ⟨cell, table, disk, by simp only [deleteLoop, ends, if_true], ?_, ?_⟩
          · rw [← clearCells_cons]
            funext current
            simp [clearCells]
          · exact clearsCells_singleton (inside cell List.mem_cons_self) disk
  | cons next rest ih =>
      obtain ⟨turns, rfl⟩ := Nat.exists_eq_succ_of_ne_zero (Nat.ne_zero_of_lt enough)
      obtain ⟨fresh, distinct⟩ := List.nodup_cons.mp distinct
      cases chain with
      | link goes tail =>
          -- The loop has already freed `cell`, which the rest does not visit.
          have tail : TableChain (Function.update table cell freeEntry)
              ((table cell).toNat : Int) rest := by
            apply tail.congr
            intro current member
            rw [Function.update_of_ne]
            rintro rfl
            exact fresh member
          obtain ⟨last, table', disk', looped, freed, cleared⟩ :=
            ih tail distinct
              (fun current member => inside current (List.mem_cons_of_mem _ member))
              (Nat.lt_of_succ_lt_succ enough) (clearCluster disk cell)
          refine ⟨last, table', disk', ?_, ?_, ?_⟩
          · simp only [deleteLoop]
            rw [if_neg goes]
            exact looped
          · rw [freed, clearCells_cons]
          · exact .cons fresh inside
              (clearsCells_singleton (inside cell List.mem_cons_self) disk) cleared

end LazyOS.Fs

import LazyOS.Fs.Transfer

namespace LazyOS.Fs

open LazyOS.Data
open LazyOS.Disk

/-! Which bytes `write_data_into_memory` takes from its buffer and where it puts
them. -/

def pieceReads (offset total : Int) : List Int :=
  (List.range total.toNat).map fun k : Nat => offset + (k : Int)

def writeDataLoopReads (table : Table) : (turns : Nat) → WriteCursor → List Int
  | 0, _ => []
  | turns + 1, cursor =>
      if table cursor.next.toNat = endOfFile then []
      else
        let toWrite :=
          if cursor.dataSize > sectorSize then (sectorSize : Int)
          else cursor.dataSize
        pieceReads cursor.offset toWrite ++
          writeDataLoopReads table turns
            { dataSize := cursor.dataSize - toWrite
              offset := cursor.offset + toWrite
              next := table cursor.next.toNat
              toWrite := toWrite }

def writeDataReads (table : Table) (disk : DiskImage) (f : FileDir)
    (data : Int → Byte) : List Int :=
  let dataSize := toInt32 f.size.toNat
  let next := f.firstCluster - BitVec.ofNat 16 startingDataSector
  let toWrite := if dataSize > sectorSize then (sectorSize : Int) else dataSize
  writeDataLoopReads table walkLimit ⟨dataSize, 0, next, toWrite⟩ ++
    match writeDataLoop table data walkLimit ⟨dataSize, 0, next, toWrite⟩ disk with
    | none => []
    | some (cursor, _) => pieceReads cursor.offset cursor.toWrite

/-- `after` is `before` with the first `total` bytes of `data` in the sectors of
`path`, 512 in each, and with no other byte changed. -/
structure Stored (path : List Int) (data : Nat → Byte) (total : Nat)
    (before after : DiskImage) : Prop where
  bytes : ∀ k < total, ∀ cell, path[k / sectorSize]? = some cell →
    after (clusterSector cell) (k % sectorSize) = data k
  others : ∀ sector, ∀ offset < sectorSize,
    (∀ k < total, ∀ cell, path[k / sectorSize]? = some cell →
      ¬ (sector = clusterSector cell ∧ offset = k % sectorSize)) →
    after sector offset = before sector offset

structure WritesOwnBytes (table : Table) (disk : DiskImage) (file : FileDir)
    (data : Int → Byte) (path : List Int) : Prop where
  stored : ∃ after, writeDataIntoMemory table disk file data = some after ∧
    Stored path (fun k => data k) file.size.toNat disk after
  reads : ∀ index ∈ writeDataReads table disk file data,
    0 ≤ index ∧ index < file.size.toNat

theorem writeCluster_apply {cell : Int} (lower : 0 ≤ cell) (disk : DiskImage)
    (src : Nat → Byte) {total : Nat} (piece : total ≤ sectorSize) (sector : Nat)
    {offset : Nat} (bound : offset < sectorSize) :
    (diskStreamerWrite disk (clusterPos cell) src total).1 sector offset =
      if sector = clusterSector cell ∧ offset < total then src offset
      else disk sector offset := by
  have start : clusterPos cell = sectorSize * clusterSector cell := by
    unfold clusterPos clusterSector sectorSize startingDataSector
    omega
  rw [← byteAt_sector (diskStreamerWrite _ _ _ _).1 sector bound,
    byteAt_diskStreamerWrite, start, Int.toNat_natCast, ← byteAt_sector disk sector bound]
  by_cases here : sector = clusterSector cell ∧ offset < total
  · obtain ⟨rfl, small⟩ := here
    rw [if_pos (by omega), if_pos ⟨rfl, small⟩, Nat.add_sub_cancel_left]
  · rw [if_neg, if_neg here]
    unfold sectorSize at *
    omega

theorem stored_last {cell : Int} (lower : 0 ≤ cell) (disk : DiskImage)
    (src : Nat → Byte) {total : Nat} (piece : total ≤ sectorSize) :
    Stored [cell] src total disk
      (diskStreamerWrite disk (clusterPos cell) src total).1 := by
  refine ⟨fun k bound current here => ?_, fun sector offset bound apart => ?_⟩
  · have zero : k / sectorSize = 0 := Nat.div_eq_of_lt (bound.trans_le piece)
    rw [zero] at here
    obtain rfl := Option.some.inj here
    have small : k % sectorSize = k := Nat.mod_eq_of_lt (bound.trans_le piece)
    rw [small, writeCluster_apply lower disk src piece _ (by omega),
      if_pos ⟨rfl, bound⟩]
  · rw [writeCluster_apply lower disk src piece _ bound, if_neg]
    rintro ⟨same, inside⟩
    refine apart offset inside cell ?_ ⟨same, (Nat.mod_eq_of_lt bound).symm⟩
    rw [Nat.div_eq_of_lt bound]
    rfl

theorem Stored.cons {cell : Int} {rest : List Int} {data : Nat → Byte} {total : Nat}
    {before after : DiskImage} (lower : ∀ current ∈ cell :: rest, 0 ≤ current)
    (fresh : cell ∉ rest)
    (later : Stored rest (fun k => data (sectorSize + k)) total
      (diskStreamerWrite before (clusterPos cell) data sectorSize).1 after) :
    Stored (cell :: rest) data (sectorSize + total) before after := by
  have first := fun sector {offset : Nat} (bound : offset < sectorSize) =>
    writeCluster_apply (lower cell List.mem_cons_self) before data le_rfl sector bound
  have positive : 0 < sectorSize := by decide
  refine ⟨fun k bound current here => ?_, fun sector offset bound apart => ?_⟩
  · by_cases early : k < sectorSize
    · rw [Nat.div_eq_of_lt early] at here
      obtain rfl := Option.some.inj here
      rw [Nat.mod_eq_of_lt early, later.others _ _ early, first _ early,
        if_pos ⟨rfl, early⟩]
      rintro j - other listed ⟨same, -⟩
      have member := List.mem_of_getElem? listed
      rw [clusterSector_injective (lower cell List.mem_cons_self)
        (lower other (List.mem_cons_of_mem _ member)) same] at fresh
      exact fresh member
    · obtain ⟨j, rfl⟩ := Nat.exists_eq_add_of_le (not_lt.mp early)
      rw [Nat.add_div_left _ positive, List.getElem?_cons_succ] at here
      rw [Nat.add_mod_left]
      exact later.bytes j (by omega) current here
  · rw [later.others sector offset bound, first sector bound, if_neg]
    · rintro ⟨same, -⟩
      refine apart offset (by omega) cell ?_ ⟨same, (Nat.mod_eq_of_lt bound).symm⟩
      rw [Nat.div_eq_of_lt bound]
      rfl
    · intro k inside current listed
      have further := apart (sectorSize + k) (by omega) current (by
        rwa [Nat.add_div_left _ positive, List.getElem?_cons_succ])
      rwa [Nat.add_mod_left] at further

theorem pieceReads_append (offset : Int) (left right : Nat) :
    pieceReads offset left ++ pieceReads (offset + left) right =
      pieceReads offset (left + right : Nat) := by
  unfold pieceReads
  rw [Int.toNat_natCast, Int.toNat_natCast, Int.toNat_natCast, List.range_add,
    List.map_append, List.map_map]
  refine congrArg _ (List.map_congr_left fun k _ => ?_)
  simp only [Function.comp_apply, Nat.cast_add]
  omega

def lastPiece (rest : List Int) (toWrite : Nat) : Nat :=
  if rest = [] then toWrite else sectorSize

theorem writeDataLoop_stores {table : Table} {cell : Int} {rest : List Int}
    (chain : TableChain table cell rest)
    (lower : ∀ current ∈ cell :: rest, 0 ≤ current) (data : Int → Byte)
    {turns toWrite : Nat} (enough : rest.length < turns) (cursor : WriteCursor)
    (here : (cursor.next.toNat : Int) = cell)
    (full : rest ≠ [] → (sectorSize * rest.length : Nat) < cursor.dataSize)
    (length : cursor.toWrite = toWrite) (piece : toWrite ≤ sectorSize)
    (disk : DiskImage) :
    ∃ last middle, writeDataLoop table data turns cursor disk = some (last, middle) ∧
      Stored (cell :: rest) (fun k => data (cursor.offset + k))
        (sectorSize * rest.length + lastPiece rest toWrite) disk
        (diskStreamerWrite middle (clusterPos last.next.toNat)
          (fun k => data (last.offset + k)) last.toWrite).1 ∧
      writeDataLoopReads table turns cursor ++ pieceReads last.offset last.toWrite =
        pieceReads cursor.offset
          (sectorSize * rest.length + lastPiece rest toWrite : Nat) := by
  have distinct := chain.nodup
  induction chain generalizing turns cursor disk toWrite with
  | last ends =>
      obtain ⟨turns, rfl⟩ := Nat.exists_eq_succ_of_ne_zero (Nat.ne_zero_of_lt enough)
      refine ⟨cursor, disk, by simp only [writeDataLoop, here, ends, if_true], ?_, ?_⟩
      · rw [here, length]
        simpa [lastPiece] using stored_last (lower _ List.mem_cons_self) disk
          (fun k => data (cursor.offset + k)) piece
      · simp [writeDataLoopReads, here, ends, lastPiece, length]
  | link goes tail ih =>
      rename_i cell rest
      obtain ⟨turns, rfl⟩ := Nat.exists_eq_succ_of_ne_zero (Nat.ne_zero_of_lt enough)
      obtain ⟨fresh, distinct⟩ := List.nodup_cons.mp distinct
      have more := full (List.cons_ne_nil _ _)
      rw [List.length_cons, Nat.mul_succ, Nat.cast_add] at more
      have whole : (if cursor.dataSize > sectorSize then (sectorSize : Int)
          else cursor.dataSize) = sectorSize := if_pos (by omega)
      obtain ⟨last, middle, looped, stored, reads⟩ := ih
        (fun current member => lower current (List.mem_cons_of_mem _ member))
        (Nat.lt_of_succ_lt_succ enough)
        ⟨cursor.dataSize - sectorSize, cursor.offset + sectorSize, table cell,
          sectorSize⟩ rfl (fun _ => by simp only; omega) rfl le_rfl
        (diskStreamerWrite disk (clusterPos cell) (fun k => data (cursor.offset + k))
          sectorSize).1 distinct
      -- Behind a turn of the loop the last piece is a whole sector too.
      have total : sectorSize * (((table cell).toNat : Int) :: rest).length +
          lastPiece (((table cell).toNat : Int) :: rest) toWrite =
            sectorSize + (sectorSize * rest.length + lastPiece rest sectorSize) := by
        simp only [lastPiece, List.length_cons, ite_self, reduceCtorEq, if_false]
        rw [Nat.mul_succ]
        omega
      refine ⟨last, middle, ?_, ?_, ?_⟩
      · simp only [writeDataLoop, here]
        rw [if_neg goes, whole]
        exact looped
      · rw [total]
        refine .cons lower fresh ?_
        simp only [Nat.cast_add, ← Int.add_assoc]
        exact stored
      · rw [total]
        simp only [writeDataLoopReads, here]
        rw [if_neg goes, whole, List.append_assoc, reads, pieceReads_append]

theorem mem_pieceReads {offset index : Int} {total : Nat} :
    index ∈ pieceReads offset total ↔ offset ≤ index ∧ index < offset + total := by
  unfold pieceReads
  rw [Int.toNat_natCast, List.mem_map]
  constructor
  · rintro ⟨k, bound, rfl⟩
    have := List.mem_range.mp bound
    omega
  · rintro ⟨lower, upper⟩
    exact ⟨(index - offset).toNat, List.mem_range.mpr (by omega), by omega⟩

theorem tableChain_bounds {table : Table} {cell : Int} {rest : List Int}
    (chain : TableChain table cell rest) :
    ∀ current ∈ rest, 0 ≤ current ∧ current < (2 ^ 16 : Nat) := by
  induction chain with
  | last ends => exact fun current member => absurd member (List.not_mem_nil)
  | link goes tail ih =>
      rename_i cell rest
      intro current member
      rcases List.mem_cons.mp member with rfl | member
      · have bound := (table cell).isLt
        omega
      · exact ih current member

/-- The bytes that are written in place of the `size` bytes of a file: whole sectors
from the second one on. -/
def writtenBytes (size : Nat) : Nat :=
  if size ≤ sectorSize then size else sectorSize * clusterCount size

theorem lastPiece_total {rest : List Int} {size : Nat}
    (count : rest.length + 1 = clusterCount size) :
    sectorSize * rest.length + lastPiece rest (min sectorSize size) =
      writtenBytes size := by
  unfold lastPiece writtenBytes
  cases rest with
  | nil =>
      have small : size ≤ sectorSize := by
        unfold clusterCount sectorSize at *
        rw [List.length_nil] at count
        omega
      rw [if_pos rfl, if_pos small, List.length_nil]
      omega
  | cons next rest =>
      rw [if_neg (List.cons_ne_nil _ _), if_neg, ← count, Nat.mul_succ]
      unfold clusterCount sectorSize at *
      rw [List.length_cons] at count
      omega

theorem writeDataIntoMemory_stores {table : Table} {file : FileDir} {rest : List Int}
    (chain : TableChain table
      (file.firstCluster - BitVec.ofNat 16 startingDataSector).toNat rest)
    (count : rest.length + 1 = clusterCount file.size.toNat) (disk : DiskImage)
    (data : Int → Byte) :
    ∃ after, writeDataIntoMemory table disk file data = some after ∧
      Stored ((file.firstCluster - BitVec.ofNat 16 startingDataSector).toNat :: rest)
        (fun k => data k) (writtenBytes file.size.toNat) disk after ∧
      writeDataReads table disk file data =
        pieceReads 0 (writtenBytes file.size.toNat : Nat) := by
  have bounds : ∀ current ∈
      (((file.firstCluster - BitVec.ofNat 16 startingDataSector).toNat : Nat) : Int) ::
        rest, 0 ≤ current ∧ current < (2 ^ 16 : Nat) := by
    intro current member
    rcases List.mem_cons.mp member with rfl | member
    · have bound := (file.firstCluster - BitVec.ofNat 16 startingDataSector).isLt
      omega
    · exact tableChain_bounds chain current member
  have short := length_le_of_bounded chain.nodup bounds
  rw [List.length_cons] at short
  have narrow : toInt32 file.size.toNat = file.size.toNat := by
    refine toInt32_of_range (by omega) ?_
    unfold clusterCount sectorSize at count
    omega
  have first : (if toInt32 file.size.toNat > sectorSize then (sectorSize : Int)
      else toInt32 file.size.toNat) = (min sectorSize file.size.toNat : Nat) := by
    rw [narrow]
    split <;> omega
  obtain ⟨last, middle, looped, stored, reads⟩ := writeDataLoop_stores chain
    (fun current member => (bounds current member).1) data
    (show rest.length < walkLimit by unfold walkLimit; omega)
    ⟨toInt32 file.size.toNat, 0,
      file.firstCluster - BitVec.ofNat 16 startingDataSector,
      (min sectorSize file.size.toNat : Nat)⟩ rfl (by
        intro several
        have positive := List.length_pos_of_ne_nil several
        simp only [narrow]
        unfold clusterCount sectorSize at *
        omega) rfl (Nat.min_le_left _ _) disk
  rw [lastPiece_total count] at stored reads
  simp only [Int.zero_add] at stored
  simp only [writeDataIntoMemory, writeDataReads, first]
  rw [looped]
  exact ⟨_, rfl, stored, reads⟩

theorem writtenBytes_le_iff {size : Nat} :
    writtenBytes size ≤ size ↔ size ≤ 512 ∨ 512 ∣ size := by
  unfold writtenBytes clusterCount sectorSize
  split <;> omega

theorem le_writtenBytes (size : Nat) : size ≤ writtenBytes size := by
  unfold writtenBytes clusterCount sectorSize
  split <;> omega

theorem writes_own_bytes_iff {table : Table} {file : FileDir} {rest : List Int}
    (chain : TableChain table
      (file.firstCluster - BitVec.ofNat 16 startingDataSector).toNat rest)
    (count : rest.length + 1 = clusterCount file.size.toNat) (disk : DiskImage)
    (data : Int → Byte) :
    WritesOwnBytes table disk file data
        ((file.firstCluster - BitVec.ofNat 16 startingDataSector).toNat :: rest) ↔
      file.size.toNat ≤ 512 ∨ 512 ∣ file.size.toNat := by
  obtain ⟨after, returned, stored, reads⟩ :=
    writeDataIntoMemory_stores chain count disk data
  rw [← writtenBytes_le_iff]
  constructor
  · intro own
    by_contra more
    have read : ((writtenBytes file.size.toNat - 1 : Nat) : Int) ∈
        writeDataReads table disk file data := by
      rw [reads, mem_pieceReads]
      omega
    have inside := own.reads _ read
    omega
  · intro fits
    have same := le_antisymm fits (le_writtenBytes file.size.toNat)
    rw [same] at stored reads
    refine ⟨⟨after, returned, stored⟩, fun index member => ?_⟩
    rw [reads, mem_pieceReads] at member
    omega

def splitTable : Table := fragmentedTable.link 0 [2]

def splitFile (size : Word) : FileDir :=
  { FileDir.zero with firstCluster := 233, size := size }

theorem splitFile_chain (size : Word) :
    TableChain splitTable
      ((splitFile size).firstCluster - BitVec.ofNat 16 startingDataSector).toNat [2] := by
  have first : (((splitFile size).firstCluster -
      BitVec.ofNat 16 startingDataSector).toNat : Int) = 0 := by
    rw [show (splitFile size).firstCluster = 233 from rfl]
    decide
  rw [first]
  refine tableChain_link fragmentedTable (by decide) fun current member => ?_
  rcases List.mem_cons.mp member with rfl | member
  · exact ⟨by decide, by decide⟩
  · obtain rfl := List.mem_singleton.mp member
    exact ⟨by decide, by decide⟩

theorem writes_own_bytes_iff_two_sectors :
    WritesOwnBytes splitTable (fun _ _ => 0) (splitFile 1024) (fun _ => 0x41) [0, 2] :=
  (writes_own_bytes_iff (splitFile_chain 1024) (by decide) _ _).mpr (by decide)

/-- The last byte of 513 is written as a whole sector, from behind the buffer. -/
theorem last_piece_overreads :
    TableChain splitTable
        ((splitFile 513).firstCluster - BitVec.ofNat 16 startingDataSector).toNat [2] ∧
      [(2 : Int)].length + 1 = clusterCount (splitFile 513).size.toNat ∧
      ¬ WritesOwnBytes splitTable (fun _ _ => 0) (splitFile 513) (fun _ => 0x41)
        [0, 2] := by
  have count : [(2 : Int)].length + 1 = clusterCount (splitFile 513).size.toNat := by
    decide
  refine ⟨splitFile_chain 513, count, fun own => ?_⟩
  obtain ⟨after, -, -, reads⟩ := writeDataIntoMemory_stores (splitFile_chain 513) count
    (fun _ _ => 0) fun _ => 0x41
  have read : (513 : Int) ∈
      writeDataReads splitTable (fun _ _ => 0) (splitFile 513) fun _ => 0x41 := by
    rw [reads, mem_pieceReads]
    decide
  exact absurd (own.reads 513 read).2 (by decide)

end LazyOS.Fs

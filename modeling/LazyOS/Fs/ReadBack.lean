import LazyOS.Fs.Contents
import LazyOS.Fs.RoundTrip

namespace LazyOS.Fs

open LazyOS.Data
open LazyOS.Disk

/-! What `read_data` gathers in its buffer: the whole file.  Only the terminator that
it stores afterwards cuts the text. -/

def HoldsBytes (disk : DiskImage) (path : List Int) (bytes : Nat → Byte) (total : Nat) :
    Prop :=
  ∀ k < total, ∀ cell, path[k / sectorSize]? = some cell →
    disk (clusterSector cell) (k % sectorSize) = bytes k

def lastPart (size : Nat) : Nat := size - sectorSize * (clusterCount size - 1)

theorem lastPart_le (size : Nat) : lastPart size ≤ sectorSize := by
  unfold lastPart clusterCount sectorSize
  omega

theorem HoldsBytes.congr {disk : DiskImage} {path : List Int} {bytes other : Nat → Byte}
    {total : Nat} (held : HoldsBytes disk path bytes total)
    (agree : ∀ k < total, bytes k = other k) : HoldsBytes disk path other total :=
  fun k bound cell here => (held k bound cell here).trans (agree k bound)

theorem HoldsBytes.transfer {disk after : DiskImage} {path : List Int}
    {bytes : Nat → Byte} {total : Nat} (held : HoldsBytes disk path bytes total)
    (same : ∀ cell ∈ path, after (clusterSector cell) = disk (clusterSector cell)) :
    HoldsBytes after path bytes total := by
  intro k bound cell here
  rw [same cell (List.mem_of_getElem? here)]
  exact held k bound cell here

theorem HoldsBytes.first {disk : DiskImage} {cell : Int} {rest : List Int}
    {bytes : Nat → Byte} {total : Nat} (held : HoldsBytes disk (cell :: rest) bytes total)
    {k : Nat} (bound : k < total) (inside : k < sectorSize) :
    disk (clusterSector cell) k = bytes k := by
  have here := held k bound cell (by rw [Nat.div_eq_of_lt inside]; rfl)
  rwa [Nat.mod_eq_of_lt inside] at here

theorem HoldsBytes.tail {disk : DiskImage} {cell : Int} {rest : List Int}
    {bytes : Nat → Byte} {total : Nat} (held : HoldsBytes disk (cell :: rest) bytes total) :
    HoldsBytes disk rest (fun k => bytes (sectorSize + k)) (total - sectorSize) := by
  intro k bound current here
  have positive : 0 < sectorSize := by decide
  have later := held (sectorSize + k) (by omega) current (by
    rwa [Nat.add_div_left _ positive, List.getElem?_cons_succ])
  rwa [Nat.add_mod_left] at later

theorem readCluster_apply {disk : DiskImage} {cluser : Half} {read : Nat}
    (piece : read ≤ sectorSize) (buff : Nat → Byte) (writePtr k : Nat) :
    readCluster disk cluser buff writePtr read k =
      if writePtr ≤ k ∧ k < writePtr + read then disk cluser.toNat (k - writePtr)
      else buff k := by
  unfold readCluster
  by_cases before : k < writePtr
  · rw [if_pos before, if_neg (by omega)]
  · rw [if_neg before, diskStreamerRead_eq]
    simp only [copyBytes, Int.toNat_natCast, Nat.zero_le, true_and, Nat.zero_add,
      Nat.sub_zero]
    by_cases inside : k - writePtr < read
    · rw [if_pos inside, if_pos (by omega), Nat.mul_comm, byteAt_sector]
      omega
    · rw [if_neg inside, if_neg (by omega)]
      congr 1
      omega

/-- The reading loop comes to the last cluster with everything before it in the
buffer. -/
structure Gathered (disk : DiskImage) (bytes : Nat → Byte) (cursor : ReadCursor) : Prop where
  buffer : ∀ k < cursor.writePtr, cursor.buff k = bytes k
  sector : ∀ k < cursor.dataSize, k < sectorSize →
    disk cursor.nextCluser.toNat k = bytes (cursor.writePtr + k)

theorem readDataLoop_gathers {table : Table} {cell : Int} {rest : List Int}
    (chain : TableChain table cell rest) {disk : DiskImage} (bytes : Nat → Byte)
    {turns : Nat} (enough : rest.length < turns)
    (inside : ∀ current ∈ cell :: rest, InTable current) (cursor : ReadCursor)
    (here : (cursor.nextCluser.toNat : Int) - startingDataSector = cell)
    (full : rest ≠ [] → sectorSize * rest.length < cursor.dataSize)
    (read : ∀ k < cursor.writePtr, cursor.buff k = bytes k)
    (held : HoldsBytes disk (cell :: rest) (fun k => bytes (cursor.writePtr + k))
      cursor.dataSize) :
    ∃ last, readDataLoop table disk turns cursor = some last ∧
      last.dataSize = cursor.dataSize - sectorSize * rest.length ∧
      Gathered disk bytes last := by
  have sector : cursor.nextCluser.toNat = clusterSector cell := by
    unfold clusterSector
    omega
  induction chain generalizing turns cursor with
  | last ends =>
      obtain ⟨turns, rfl⟩ := Nat.exists_eq_succ_of_ne_zero (Nat.ne_zero_of_lt enough)
      refine ⟨cursor, by simp only [readDataLoop, here, ends, if_true], by simp, read, ?_⟩
      intro k bound small
      rw [sector]
      exact held.first bound small
  | link goes tail ih =>
      rename_i cell rest
      obtain ⟨turns, rfl⟩ := Nat.exists_eq_succ_of_ne_zero (Nat.ne_zero_of_lt enough)
      obtain ⟨lower, upper⟩ := inside _ (List.mem_cons_of_mem _ List.mem_cons_self)
      have more := full (List.cons_ne_nil _ _)
      rw [List.length_cons, Nat.mul_succ] at more
      unfold totalFat12Entreis at upper
      simp only [readDataLoop, here]
      rw [if_neg goes, if_pos (by omega : cursor.dataSize > sectorSize)]
      have next : ((table cell + BitVec.ofNat 16 startingDataSector).toNat : Int) -
          startingDataSector = (table cell).toNat := by
        simp only [BitVec.toNat_add, BitVec.toNat_ofNat, startingDataSector]
        omega
      obtain ⟨last, looped, left, gathered⟩ := ih (Nat.lt_of_succ_lt_succ enough)
        (fun current member => inside current (List.mem_cons_of_mem _ member))
        ⟨cursor.dataSize - sectorSize,
          table cell + BitVec.ofNat 16 startingDataSector, cursor.writePtr + sectorSize,
          readCluster disk cursor.nextCluser cursor.buff cursor.writePtr sectorSize⟩
        next (fun _ => by simp only; omega) (fun k bound => by
          simp only at bound ⊢
          rw [readCluster_apply le_rfl]
          by_cases old : k < cursor.writePtr
          · rw [if_neg (by omega), read k old]
          · rw [if_pos (by omega), sector, held.first (by omega) (by omega)]
            congr 1
            omega)
        (held.tail.congr fun k bound => by rw [Nat.add_assoc])
        (by
          simp only
          unfold clusterSector
          omega)
      refine ⟨last, looped, ?_, gathered⟩
      rw [left, List.length_cons, Nat.mul_succ]
      simp only
      omega

/-- The text of a file, up to a zero byte in it and to the length of its last part. -/
def shownText (contents : List Byte) : List Byte :=
  (contents.take (lastPart contents.length)).takeWhile (· ≠ 0)

theorem takeWhile_append_of_head {α : Type} {test : α → Bool} (front : List α) {stop : α}
    (back : List α) (stops : test stop = false) :
    (front ++ stop :: back).takeWhile test = front.takeWhile test := by
  rw [List.takeWhile_append, List.takeWhile_cons_of_neg (by simp [stops]), List.append_nil]
  split
  · rename_i whole
    exact ((List.takeWhile_prefix test).eq_of_length whole).symm
  · rfl

theorem cText_eq_takeWhile {buff : Nat → Byte} {stop length : Nat}
    (below : stop ≤ length) (ended : buff stop = 0) :
    cText buff (length + 1) = ((List.range stop).map buff).takeWhile (· ≠ 0) := by
  obtain ⟨more, rfl⟩ := Nat.exists_eq_add_of_le below
  unfold cText
  rw [Nat.add_assoc, List.range_add, List.map_append, List.range_succ_eq_map,
    List.map_cons, List.map_cons, Nat.add_zero]
  exact takeWhile_append_of_head _ _ (by simp [ended])

theorem readFileText_eq {table : Table} {file : FileDir} {path : List Int}
    (owned : FileChain table file path) {disk : DiskImage} {contents : List Byte}
    (size : file.size.toNat = contents.length)
    (held : HoldsBytes disk path (fun k => contents.getD k 0) contents.length) :
    readFileText table disk file = some (shownText contents) := by
  obtain ⟨rest, rfl, chain⟩ := owned.chain
  have count := owned.length
  rw [List.length_cons] at count
  obtain ⟨last, looped, left, gathered⟩ := readDataLoop_gathers chain
    (fun k => contents.getD k 0) (Nat.lt_of_succ_lt owned.turns) owned.inside
    ⟨file.size.toNat, file.firstCluster, 0, fun _ => 0⟩ rfl
    (by
      intro several
      have positive := List.length_pos_of_ne_nil several
      simp only
      unfold clusterCount sectorSize at *
      omega)
    (fun k bound => absurd bound (Nat.not_lt_zero k))
    (by simpa only [Nat.zero_add, size] using held)
  have stop : last.dataSize = lastPart contents.length := by
    rw [left, ← size]
    unfold lastPart
    rw [← count, Nat.add_sub_cancel]
  have short := lastPart_le contents.length
  have narrow : last.dataSize % 2 ^ 16 = last.dataSize := by
    rw [stop]
    unfold sectorSize at short
    omega
  have below : lastPart contents.length ≤ contents.length := Nat.sub_le _ _
  simp only [readFileText, looped, narrow]
  rw [stop, size, cText_eq_takeWhile below (Function.update_self ..)]
  refine congrArg (fun text : List Byte => some (text.takeWhile (· ≠ 0))) ?_
  refine List.ext_getElem (by simp [below]) fun k bound _ => ?_
  have inside : k < lastPart contents.length := by simpa using bound
  simp only [List.getElem_map, List.getElem_range, List.getElem_take]
  rw [Function.update_of_ne inside.ne, readCluster_apply short]
  split
  · rw [gathered.sector _ (by omega) (by omega)]
    rw [show last.writePtr + (k - last.writePtr) = k by omega]
    exact (List.getElem_eq_getD 0).symm
  · rw [gathered.buffer k (by omega)]
    exact (List.getElem_eq_getD 0).symm

end LazyOS.Fs

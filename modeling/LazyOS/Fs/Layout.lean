import LazyOS.Fs.Fat12

namespace LazyOS.Fs

open LazyOS.Data
open LazyOS.Disk

/-! The bytes of the root directory and of the table, and what the disk holds of
them. -/

theorem FileDir.ofBytes_bytes (file : FileDir) :
    FileDir.ofBytes file.bytes = file := by
  have cluster : (leValue 2 fun k => file.bytes (12 + k)) =
      file.firstCluster.toNat := by
    rw [leValue_congr (fun k bound => (by
      simp only [FileDir.bytes]
      rw [dif_neg (by omega), dif_neg (by omega), if_neg (by omega),
        if_pos (by omega)]
      congr 1
      omega : file.bytes (12 + k) = leByte file.firstCluster.toNat k))]
    exact leValue_half _
  have size : (leValue 4 fun k => file.bytes (24 + k)) = file.size.toNat := by
    rw [leValue_congr (fun k bound => (by
      simp only [FileDir.bytes]
      rw [dif_neg (by omega), dif_neg (by omega), if_neg (by omega),
        if_neg (by omega), if_neg (by omega), if_neg (by omega),
        if_neg (by omega), if_neg (by omega), if_neg (by omega),
        if_neg (by omega), if_neg (by omega), dif_neg (by omega)]
      congr 1
      omega : file.bytes (24 + k) = leByte file.size.toNat k))]
    exact leValue_word _
  have name : (fun i : Fin 8 => file.bytes i) = file.name := by
    funext i
    simp only [FileDir.bytes, i.isLt, dif_pos]
  have ext : (fun i : Fin 3 => file.bytes (8 + i)) = file.ext := by
    funext i
    simp only [FileDir.bytes]
    rw [dif_neg (by omega), dif_pos (by omega)]
    congr 1
    exact Fin.ext (by simp)
  have padding : (fun i : Fin 3 => file.bytes (21 + i)) = file.padding := by
    funext i
    simp only [FileDir.bytes]
    rw [dif_neg (by omega), dif_neg (by omega), if_neg (by omega),
      if_neg (by omega), if_neg (by omega), if_neg (by omega),
      if_neg (by omega), if_neg (by omega), if_neg (by omega),
      if_neg (by omega), if_neg (by omega), dif_pos (by omega)]
    congr 1
    exact Fin.ext (by simp)
  unfold FileDir.ofBytes
  rw [cluster, size, name, ext, padding, BitVec.ofNat_toNat, BitVec.ofNat_toNat,
    BitVec.setWidth_eq, BitVec.setWidth_eq]
  rfl

theorem FileDir.ofBytes_congr {left right : Nat → Byte}
    (agree : ∀ k < sizeofFileDir, left k = right k) :
    FileDir.ofBytes left = FileDir.ofBytes right := by
  unfold sizeofFileDir at agree
  unfold FileDir.ofBytes
  have name : (fun i : Fin 8 => left i) = fun i : Fin 8 => right i :=
    funext fun i => agree i (by omega)
  have ext : (fun i : Fin 3 => left (8 + i)) = fun i : Fin 3 => right (8 + i) :=
    funext fun i => agree _ (by omega)
  have padding : (fun i : Fin 3 => left (21 + i)) =
      fun i : Fin 3 => right (21 + i) :=
    funext fun i => agree _ (by omega)
  have cluster : (leValue 2 fun k => left (12 + k)) =
      leValue 2 fun k => right (12 + k) :=
    leValue_congr fun k bound => agree _ (by omega)
  have size : (leValue 4 fun k => left (24 + k)) =
      leValue 4 fun k => right (24 + k) :=
    leValue_congr fun k bound => agree _ (by omega)
  rw [name, ext, padding, cluster, size, agree 11 (by omega), agree 14 (by omega),
    agree 15 (by omega), agree 16 (by omega), agree 17 (by omega),
    agree 18 (by omega), agree 19 (by omega), agree 20 (by omega)]

theorem RootDir.ofBytes_congr {left right : Nat → Byte}
    (agree : ∀ k < sizeofRootDir, left k = right k) :
    RootDir.ofBytes left = RootDir.ofBytes right := by
  funext slot
  apply FileDir.ofBytes_congr
  intro k bound
  have := slot.isLt
  unfold sizeofFileDir at *
  exact agree _ (by unfold sizeofRootDir sizeofFileDir; omega)

theorem RootDir.ofBytes_bytes (root : RootDir) :
    RootDir.ofBytes root.bytes = root := by
  funext slot
  have slotBytes : ∀ k < sizeofFileDir,
      root.bytes (sizeofFileDir * slot + k) = (root slot).bytes k := by
    intro k bound
    have quotient : (sizeofFileDir * slot + k) / sizeofFileDir = slot := by
      rw [Nat.mul_add_div (by decide), Nat.div_eq_of_lt bound, Nat.add_zero]
    have remainder : (sizeofFileDir * slot + k) % sizeofFileDir = k := by
      rw [Nat.mul_add_mod, Nat.mod_eq_of_lt bound]
    unfold RootDir.bytes
    simp only [quotient, remainder, slot.isLt, dif_pos, Fin.eta]
  calc
    RootDir.ofBytes root.bytes slot = FileDir.ofBytes (root slot).bytes :=
      FileDir.ofBytes_congr slotBytes
    _ = root slot := FileDir.ofBytes_bytes _

def rootOnDisk (disk : DiskImage) : RootDir :=
  RootDir.ofBytes fun k => byteAt disk (startRootDir * sectorSize + k)

def entryOnDisk (disk : DiskImage) (i : Nat) : Half :=
  BitVec.ofNat 16
    (leValue 2 fun k => byteAt disk (fat1Sector * sectorSize + (2 * i + k)))

theorem loadRootDir_eq (root : RootDir) (disk : DiskImage) :
    loadRootDir root disk = rootOnDisk disk := by
  unfold loadRootDir rootOnDisk
  rw [diskStreamerRead_eq]
  apply RootDir.ofBytes_congr
  intro k bound
  simp only [copyBytes]
  rw [if_pos (by omega), Nat.sub_zero]

theorem rootOnDisk_congr {left right : DiskImage}
    (agree : ∀ position, startRootDir * sectorSize ≤ position →
      position < startRootDir * sectorSize + sizeofRootDir →
      byteAt left position = byteAt right position) :
    rootOnDisk left = rootOnDisk right :=
  RootDir.ofBytes_congr fun k bound => agree _ (by omega) (by omega)

theorem entryOnDisk_congr {left right : DiskImage} {i : Nat}
    (agree : ∀ k < 2,
      byteAt left (fat1Sector * sectorSize + (2 * i + k)) =
        byteAt right (fat1Sector * sectorSize + (2 * i + k))) :
    entryOnDisk left i = entryOnDisk right i := by
  unfold entryOnDisk
  rw [leValue_congr agree]

theorem byteAt_flushRootDir (root : RootDir) (disk : DiskImage) (position : Nat) :
    byteAt (flushRootDir root disk) position =
      if startRootDir * sectorSize ≤ position ∧
          position < startRootDir * sectorSize + sizeofRootDir then
        root.bytes (position - startRootDir * sectorSize)
      else byteAt disk position :=
  byteAt_diskStreamerWrite disk _ _ _ position

theorem byteAt_flushTable (table : Table) (disk : DiskImage) (position : Nat) :
    byteAt (flushTable table disk) position =
      if fat1Sector * sectorSize ≤ position ∧
          position < fat1Sector * sectorSize + 2 * totalFat12Entreis then
        table.bytes (position - fat1Sector * sectorSize)
      else byteAt disk position :=
  byteAt_diskStreamerWrite disk _ _ _ position

/-- The table and the directory lie below the data sectors, and so do all sectors
their writes go through. -/
theorem flushTable_sector (table : Table) (disk : DiskImage) {sector : Nat}
    (data : startingDataSector ≤ sector) : flushTable table disk sector = disk sector := by
  apply diskStreamerWrite_sector
  unfold startingDataSector at data
  unfold fat1Sector sectorSize totalFat12Entreis
  omega

theorem flushRootDir_sector (root : RootDir) (disk : DiskImage) {sector : Nat}
    (data : startingDataSector ≤ sector) : flushRootDir root disk sector = disk sector := by
  apply diskStreamerWrite_sector
  unfold startingDataSector at data
  unfold startRootDir sectorSize sizeofRootDir sizeofFileDir
  omega

@[simp]
theorem rootOnDisk_flushRootDir (root : RootDir) (disk : DiskImage) :
    rootOnDisk (flushRootDir root disk) = root := by
  calc
    rootOnDisk (flushRootDir root disk) = RootDir.ofBytes root.bytes := by
      apply RootDir.ofBytes_congr
      intro k bound
      rw [byteAt_flushRootDir, if_pos (by omega), Nat.add_sub_cancel_left]
    _ = root := RootDir.ofBytes_bytes root

@[simp]
theorem rootOnDisk_flushTable (table : Table) (disk : DiskImage) :
    rootOnDisk (flushTable table disk) = rootOnDisk disk := by
  apply rootOnDisk_congr
  intro position lower upper
  rw [byteAt_flushTable, if_neg]
  unfold startRootDir fat1Sector sectorSize totalFat12Entreis at *
  omega

theorem entryOnDisk_flushTable (table : Table) (disk : DiskImage) {i : Nat}
    (inside : i < totalFat12Entreis) :
    entryOnDisk (flushTable table disk) i = table i := by
  unfold entryOnDisk
  rw [leValue_congr (fun k bound => (by
    rw [byteAt_flushTable, if_pos (by omega), Nat.add_sub_cancel_left]
    unfold Table.bytes
    have quotient : (2 * i + k) / 2 = i := by omega
    have remainder : (2 * i + k) % 2 = k := by omega
    rw [quotient, remainder] :
      byteAt (flushTable table disk) (fat1Sector * sectorSize + (2 * i + k)) =
        leByte (table i).toNat k))]
  rw [leValue_half]
  simp

theorem entryOnDisk_flushRootDir (root : RootDir) (disk : DiskImage) {i : Nat}
    (inside : i < totalFat12Entreis) :
    entryOnDisk (flushRootDir root disk) i = entryOnDisk disk i := by
  apply entryOnDisk_congr
  intro k bound
  rw [byteAt_flushRootDir, if_neg]
  unfold totalFat12Entreis startRootDir fat1Sector sectorSize at *
  omega

/-- Start-up takes the first `totalFat12Entreis` bytes of the stored table, which
is the first half of its entries; the rest stays as `kzalloc` left it. -/
theorem fat12TableInit_apply (ram : Table) (disk : DiskImage) {i : Nat}
    (inside : i < totalFat12Entreis) :
    fat12TableInit ram disk i =
      if 2 * i < totalFat12Entreis then entryOnDisk disk i else 0 := by
  unfold fat12TableInit readFat12Table Table.store
  rw [if_neg (by omega), diskStreamerRead_eq]
  by_cases stored : 2 * i < totalFat12Entreis
  · rw [if_pos stored]
    unfold entryOnDisk
    congr 1
    apply leValue_congr
    intro k bound
    unfold totalFat12Entreis at *
    simp only [copyBytes, Int.toNat_natCast]
    rw [if_pos (by omega), Nat.sub_zero]
  · rw [if_neg stored]
    have zeros : (leValue 2 fun k =>
        copyBytes (Table.bytes fun i =>
            if 0 ≤ i ∧ i < (totalFat12Entreis : Int) then 0 else ram i) 0
          (totalFat12Entreis : Int).toNat
          (fun i => byteAt disk (fat1Sector * sectorSize + i))
          (2 * (i : Int).toNat + k)) = leValue 2 (leByte 0) := by
      apply leValue_congr
      intro k bound
      simp only [copyBytes, Int.toNat_natCast]
      rw [if_neg (by omega)]
      unfold Table.bytes
      have quotient : (2 * i + k) / 2 = i := by omega
      simp only [quotient]
      rw [if_pos (by omega)]
      simp [leByte]
    rw [zeros, leValue_leByte]
    rfl

end LazyOS.Fs

import LazyOS.Fs.Transfer

namespace LazyOS.Fs

open LazyOS.Data
open LazyOS.Disk

/-! The table across a reboot.  It is flushed with two bytes for each entry and
read back with one. -/

inductive Flushes (fs after : FileSystem) : Prop
  | create (args : CreateArgs) (slot : Fin 224)
      (created : fs.create args = some (some slot, after))
  | delete (name : CString) (pos : Fin 224)
      (found : findFile fs.rootDir name = some pos)
      (deleted : deleteFile fs name = some after)

/-- `FAT12_table_init` on the disk of `fs` rebuilds its table. -/
def RebuildsTable (ram : Table) (fs : FileSystem) : Prop :=
  ∀ i < totalFat12Entreis, fat12TableInit ram fs.disk (i : Nat) = fs.fat12Table i

theorem Flushes.entryOnDisk_eq {fs after : FileSystem} (flushed : Flushes fs after)
    {i : Nat} (inside : i < totalFat12Entreis) :
    entryOnDisk after.disk i = after.fat12Table i := by
  cases flushed with
  | create args slot created =>
      obtain ⟨-, disk, -, rfl⟩ := create_cases_slot created
      simp only
      rw [entryOnDisk_flushRootDir _ _ inside, entryOnDisk_flushTable _ _ inside]
  | delete name pos found deleted =>
      obtain ⟨table, disk, rfl⟩ := deleteFile_cases_found found deleted
      exact entryOnDisk_flushTable _ _ inside

/-- A flushed table survives the reboot exactly when its upper half is free. -/
theorem rebuildsTable_iff {fs after : FileSystem} (flushed : Flushes fs after)
    (ram : Table) :
    RebuildsTable ram after ↔
      ∀ i : Nat, totalFat12Entreis ≤ 2 * i → i < totalFat12Entreis →
        after.fat12Table i = freeEntry := by
  constructor
  · intro rebuilt i upper inside
    rw [← rebuilt i inside, fat12TableInit_apply ram _ inside, if_neg (by omega)]
    rfl
  · intro upperFree i inside
    rw [fat12TableInit_apply ram _ inside]
    by_cases stored : 2 * i < totalFat12Entreis
    · rw [if_pos stored, flushed.entryOnDisk_eq inside]
    · rw [if_neg stored, upperFree i (by omega) inside]
      rfl

def blankDisk : DiskImage := fun _ _ => 0

theorem fat12TableInit_blankDisk (ram : Table) {cell : Int} (inside : InTable cell) :
    fat12TableInit ram blankDisk cell = freeEntry := by
  obtain ⟨lower, upper⟩ := inside
  obtain ⟨i, rfl⟩ := Int.eq_ofNat_of_zero_le lower
  rw [fat12TableInit_apply ram _ (by omega)]
  split <;> rfl

theorem freeCells_of_free {table : Table}
    (free : ∀ cell, InTable cell → table cell = freeEntry) :
    freeCells table 0 = (List.range' 0 totalFat12Entreis).map Int.ofNat := by
  unfold freeCells
  apply List.filter_eq_self.mpr
  intro cell member
  simp only [List.mem_map, List.mem_range'_1, Int.ofNat_eq_natCast] at member
  obtain ⟨i, bounds, rfl⟩ := member
  exact decide_eq_true (free i ⟨by omega, by omega⟩)

theorem mem_allocatedPath_of_free {table : Table} {size i : Nat}
    (free : ∀ cell, InTable cell → table cell = freeEntry)
    (inside : i < totalFat12Entreis) :
    (i : Int) ∈ allocatedPath table size ↔ i < clusterCount size := by
  unfold allocatedPath
  rw [freeCells_of_free free, List.mem_take_iff_getElem]
  constructor
  · rintro ⟨j, bound, here⟩
    simp only [List.getElem_map, List.getElem_range', Int.ofNat_eq_natCast] at here
    omega
  · intro early
    refine ⟨i, ?_, ?_⟩
    · rw [List.length_map, List.length_range']
      omega
    · simp

theorem freeSlot_boot (ram : Table) (disk : DiskImage) :
    freeSlot (bootFileSystem ram disk).rootDir = some 0 := by
  unfold freeSlot
  rw [List.finRange_succ]
  exact List.find?_cons_of_pos (decide_eq_true rfl)

theorem create_taken {fs after : FileSystem} {args : CreateArgs} {slot : Fin 224}
    (enough : clusterCount args.size.toNat ≤ (freeCells fs.fat12Table 0).length)
    (created : fs.create args = some (some slot, after)) {cell : Int}
    (member : cell ∈ allocatedPath fs.fat12Table args.size.toNat) :
    after.fat12Table cell ≠ freeEntry := by
  obtain ⟨first, rest, path, allocated⟩ := fat12Allocate_path enough
  have increasing := path ▸ allocatedPath_increasing fs.fat12Table args.size.toNat
  have inside : ∀ cell ∈ first :: rest, InTable cell :=
    fun cell member => (mem_allocatedPath (path ▸ member)).1
  rw [create_table created, allocated]
  exact tableChain_ne_free (tableChain_link fs.fat12Table increasing inside)
    increasing (inside first List.mem_cons_self).1 cell (path ▸ member)

def blankArgs (size : Word) : CreateArgs :=
  ⟨FileDir.zero, ⟨0, 0, 0, 0, 0, 0⟩, fun _ => 0, fun _ => 0, fun _ => 0, size, 0x20⟩

theorem freeCells_boot_length (ram : Table) :
    (freeCells (bootFileSystem ram blankDisk).fat12Table 0).length =
      totalFat12Entreis := by
  have blank : ∀ cell, InTable cell →
      (bootFileSystem ram blankDisk).fat12Table cell = freeEntry :=
    fun cell inside => fat12TableInit_blankDisk ram inside
  rw [freeCells_of_free blank, List.length_map, List.length_range']

theorem create_blankArgs_returns (ram : Table) (size : Word)
    (fits : clusterCount size.toNat ≤ totalFat12Entreis) :
    ∃ after, (bootFileSystem ram blankDisk).create (blankArgs size) =
      some (some 0, after) := by
  refine create_returns (freeSlot_boot ram blankDisk) ?_
  rw [freeCells_boot_length]
  exact fits

theorem rebuildsTable_iff_one_cluster :
    ∃ after, Flushes (bootFileSystem (fun _ => 0) blankDisk) after ∧
      (RebuildsTable (fun _ => 0) after ↔
        ∀ i : Nat, totalFat12Entreis ≤ 2 * i → i < totalFat12Entreis →
          after.fat12Table i = freeEntry) := by
  obtain ⟨after, created⟩ :=
    create_blankArgs_returns (fun _ => 0) 5 (by decide)
  exact ⟨after, .create _ _ created, rebuildsTable_iff (.create _ _ created) _⟩

/-- A file of 1325 clusters on a blank disk: its last entry is gone after the
reboot. -/
theorem long_file_lost_at_reboot :
    ∃ after, (bootFileSystem (fun _ => 0) blankDisk).create (blankArgs 677889) =
        some (some 0, after) ∧
      ¬ RebuildsTable (fun _ => 0) after := by
  obtain ⟨after, created⟩ :=
    create_blankArgs_returns (fun _ => 0) 677889 (by decide)
  refine ⟨after, created, fun rebuilt => ?_⟩
  refine create_taken ?_ created
    ((mem_allocatedPath_of_free (i := 1324)
      (fun cell inside => fat12TableInit_blankDisk _ inside)
      (by decide)).mpr (by decide)) ?_
  · rw [freeCells_boot_length]
    decide
  · rw [← rebuilt 1324 (by decide), fat12TableInit_apply _ _ (by decide),
      if_neg (by decide)]
    rfl

end LazyOS.Fs

import LazyOS.Fs.Persistence

namespace LazyOS.Fs

open LazyOS.Data
open LazyOS.Disk

/-! What `create_file` leaves behind when it runs out of table entries or of root
slots, and the table entries it comes to on the way. -/

def findNextFreeLoopAccesses (table : Table) : (remaining i : Nat) → List Int
  | 0, _ => []
  | remaining + 1, i =>
      (i : Int) ::
        if table i = freeEntry then []
        else findNextFreeLoopAccesses table remaining (i + 1)

def findNextFreeAccesses (table : Table) (start : Nat) : List Int :=
  findNextFreeLoopAccesses table (totalFat12Entreis - start) start

def allocateLoopAccesses : (remaining current : Nat) → Table → List Int
  | 0, _, _ => []
  | remaining + 1, current, table =>
      let next := findNextFree table (current + 1)
      findNextFreeAccesses table (current + 1) ++
        if next = -1 then []
        else
          (current : Int) ::
            allocateLoopAccesses remaining next.toNat
              (Function.update table current (BitVec.ofInt 16 next))

def fat12AllocateAccesses (table : Table) (size : Nat) : List Int :=
  let sectorsNeeded := (size + 511) % 2 ^ 32 / sectorSize
  let first := findNextFree table 0
  findNextFreeAccesses table 0 ++
    if first = -1 then []
    else
      allocateLoopAccesses (sectorsNeeded - 1) first.toNat table ++
        match (allocateLoop (sectorsNeeded - 1) first.toNat table).1 with
        | none => []
        | some current => [(current : Int)]

def writeDataAccesses (table : Table) : (turns : Nat) → (next : Half) → List Int
  | 0, _ => []
  | turns + 1, next =>
      (next.toNat : Int) ::
        if table next.toNat = endOfFile then []
        else writeDataAccesses table turns (table next.toNat)

def writeIntoMemoryAccesses (table : Table) (disk : DiskImage) (file : FileDir)
    (data : Int → Byte) : List Int :=
  writeDataAccesses table walkLimit
      (file.firstCluster - BitVec.ofNat 16 startingDataSector) ++
    match writeDataIntoMemory table disk file data with
    | none => []
    | some _ => (List.range totalFat12Entreis).map Int.ofNat

def createAccesses (fs : FileSystem) (args : CreateArgs) : List Int :=
  let allocated := fat12Allocate fs.fat12Table args.size.toNat
  fat12AllocateAccesses fs.fat12Table args.size.toNat ++
    match freeSlot fs.rootDir with
    | none => []
    | some _ =>
        writeIntoMemoryAccesses allocated.2 fs.disk (args.entry allocated.1) args.data

/-- Too few free entries for the size, or no free slot. -/
def CannotComplete (fs : FileSystem) (args : CreateArgs) : Prop :=
  (freeCells fs.fat12Table 0).length < (args.size.toNat + 511) / sectorSize ∨
    freeSlot fs.rootDir = none

/-- A null pointer is returned, the table, the directory and the disk are as they
were, and no index outside the table has been touched. -/
structure FailsCleanly (fs : FileSystem) (args : CreateArgs) : Prop where
  returns : ∃ after, fs.create args = some (none, after) ∧
    (∀ cell, InTable cell → after.fat12Table cell = fs.fat12Table cell) ∧
    after.rootDir = fs.rootDir ∧ after.disk = fs.disk
  inside : ∀ cell ∈ createAccesses fs args, InTable cell

theorem findNextFreeLoopAccesses_bounds {table : Table} {remaining i : Nat}
    {cell : Int} (member : cell ∈ findNextFreeLoopAccesses table remaining i) :
    (i : Int) ≤ cell ∧ cell < i + remaining := by
  induction remaining generalizing i with
  | zero => cases member
  | succ remaining ih =>
      simp only [findNextFreeLoopAccesses, List.mem_cons] at member
      rcases member with rfl | later
      · omega
      · split at later
        · cases later
        · have bounds := ih later
          omega

theorem findNextFreeAccesses_inTable {table : Table} {start : Nat} {cell : Int}
    (member : cell ∈ findNextFreeAccesses table start) : InTable cell := by
  have bounds := findNextFreeLoopAccesses_bounds member
  unfold InTable
  omega

theorem findNextFree_cases (table : Table) (start : Nat) :
    (freeCells table start = [] ∧ findNextFree table start = -1) ∨
      (start ≤ findNextFree table start ∧ InTable (findNextFree table start)) := by
  rw [findNextFree_eq]
  cases found : freeCells table start with
  | nil => exact .inl ⟨rfl, rfl⟩
  | cons next rest =>
      obtain ⟨bounds, -⟩ := mem_of_freeCells_cons found
      exact .inr ⟨bounds.1, by rw [List.headD_cons]; omega, bounds.2⟩

theorem allocateLoopAccesses_inTable {remaining current : Nat} {table : Table}
    (inside : InTable current) {cell : Int}
    (member : cell ∈ allocateLoopAccesses remaining current table) :
    InTable cell := by
  induction remaining generalizing current table with
  | zero => cases member
  | succ remaining ih =>
      simp only [allocateLoopAccesses, List.mem_append] at member
      rcases member with scanned | linked
      · exact findNextFreeAccesses_inTable scanned
      · rcases findNextFree_cases table (current + 1) with ⟨-, gone⟩ | ⟨-, next⟩
        · rw [if_pos gone] at linked
          cases linked
        · rw [if_neg (by have := next.1; omega), List.mem_cons] at linked
          rcases linked with rfl | later
          · exact inside
          · exact ih (by rwa [Int.toNat_of_nonneg next.1]) later

theorem allocateLoop_ascends (remaining : Nat) {current : Nat} (table : Table)
    (inside : InTable current) :
    (∀ last, (allocateLoop remaining current table).1 = some last →
      (current : Int) ≤ last ∧ InTable last) ∧
    ∀ cell < (current : Int),
      (allocateLoop remaining current table).2 cell = table cell := by
  induction remaining generalizing current table with
  | zero =>
      refine ⟨fun last ended => ?_, fun cell below => rfl⟩
      obtain rfl := Option.some.inj ended
      exact ⟨le_rfl, inside⟩
  | succ remaining ih =>
      simp only [allocateLoop]
      rcases findNextFree_cases table (current + 1) with ⟨-, gone⟩ | ⟨later, next⟩
      · rw [if_pos gone]
        exact ⟨fun last ended => absurd ended (by simp), fun cell below => rfl⟩
      · have nextEq := Int.toNat_of_nonneg next.1
        rw [if_neg (by have := next.1; omega)]
        have reached : InTable ((findNextFree table (current + 1)).toNat : Int) := by
          rwa [nextEq]
        obtain ⟨lasts, keeps⟩ := ih (Function.update table current
          (BitVec.ofInt 16 (findNextFree table (current + 1)))) reached
        rw [nextEq] at lasts keeps
        refine ⟨fun last ended => ?_, fun cell below => ?_⟩
        · obtain ⟨above, inside⟩ := lasts last ended
          exact ⟨by omega, inside⟩
        · rw [keeps cell (by omega), Function.update_of_ne (by omega)]

theorem fat12AllocateAccesses_inTable {table : Table} {size : Nat} {cell : Int}
    (member : cell ∈ fat12AllocateAccesses table size) : InTable cell := by
  simp only [fat12AllocateAccesses, List.mem_append] at member
  rcases member with scanned | linked
  · exact findNextFreeAccesses_inTable scanned
  · rcases findNextFree_cases table 0 with ⟨-, gone⟩ | ⟨-, first⟩
    · rw [if_pos gone] at linked
      cases linked
    · have inside : InTable ((findNextFree table 0).toNat : Int) := by
        rwa [Int.toNat_of_nonneg first.1]
      rw [if_neg (by have := first.1; omega), List.mem_append] at linked
      rcases linked with walked | ended
      · exact allocateLoopAccesses_inTable inside walked
      · split at ended
        · cases ended
        · rename_i last looped
          obtain rfl := List.mem_singleton.mp ended
          exact ((allocateLoop_ascends _ table inside).1 last looped).2

/-- One free entry is not linked when a second one is needed, and the allocation
gives up before the end mark. -/
theorem fat12Allocate_untouched {table : Table} {size : Nat}
    (none : freeCells table 0 = [] ∨ (freeCells table 0).length = 1 ∧
      1 < (size + 511) % 2 ^ 32 / sectorSize) :
    (fat12Allocate table size).2 = table := by
  simp only [fat12Allocate]
  rw [findNextFree_eq]
  rcases none with empty | ⟨one, several⟩
  · rw [empty, List.headD_nil, if_pos rfl]
  · obtain ⟨first, free⟩ := List.length_eq_one_iff.mp one
    obtain ⟨bounds, -⟩ := mem_of_freeCells_cons free
    obtain ⟨more, needed⟩ := Nat.exists_eq_add_of_lt several
    have second : findNextFree table (first.toNat + 1) = -1 := by
      rw [findNextFree_eq, freeCells_tail free, List.headD_nil]
    rw [free, List.headD_cons, if_neg (by omega), needed,
      show 1 + more + 1 - 1 = more + 1 by omega]
    simp only [allocateLoop]
    rw [second, if_pos rfl]

theorem fat12Allocate_takes_first {table : Table} (size : Nat) {first : Int}
    {others : List Int} (free : freeCells table 0 = first :: others)
    (linked : others = [] → (size + 511) % 2 ^ 32 / sectorSize ≤ 1) :
    (fat12Allocate table size).2 first ≠ freeEntry := by
  obtain ⟨bounds, -⟩ := mem_of_freeCells_cons free
  have firstEq : ((first.toNat : Nat) : Int) = first := by omega
  simp only [fat12Allocate]
  rw [findNextFree_eq, free, List.headD_cons, if_neg (by omega)]
  cases needed : (size + 511) % 2 ^ 32 / sectorSize - 1 with
  | zero =>
      simp only [allocateLoop]
      rw [firstEq, Function.update_self]
      decide
  | succ more =>
      obtain ⟨next, rest, rfl⟩ := List.exists_cons_of_ne_nil
        fun empty => absurd (linked empty) (by omega)
      have tail := freeCells_tail free
      obtain ⟨later, nextFree⟩ := mem_of_freeCells_cons tail
      have nextEq : ((next.toNat : Nat) : Int) = next := by omega
      have found : findNextFree table (first.toNat + 1) = next := by
        rw [findNextFree_eq, tail, List.headD_cons]
      have value : BitVec.ofInt 16 next ≠ freeEntry := by
        intro same
        have decoded := toNat_ofInt_of_inTable ⟨by omega, later.2⟩
        rw [same, freeEntry_toNat] at decoded
        omega
      have reached : InTable ((next.toNat : Nat) : Int) := by
        rw [nextEq]
        exact ⟨by omega, later.2⟩
      obtain ⟨lasts, keeps⟩ := allocateLoop_ascends more
        (Function.update table first (BitVec.ofInt 16 next)) reached
      have here := keeps first (by omega)
      rw [Function.update_self] at here
      simp only [allocateLoop]
      rw [found, if_neg (by omega), firstEq]
      generalize allocateLoop more next.toNat
        (Function.update table first (BitVec.ofInt 16 next)) = result at lasts here ⊢
      obtain ⟨last, linkedTable⟩ := result
      cases last with
      | none => exact here ▸ value
      | some last =>
          have above := (lasts last rfl).1
          simp only at here ⊢
          rw [Function.update_of_ne (by omega), here]
          exact value

theorem several_sectors_iff {size : Nat} (word : size < 2 ^ 32) :
    1 < (size + 511) % 2 ^ 32 / sectorSize ↔ 512 < size ∧ size + 511 < 2 ^ 32 := by
  unfold sectorSize
  omega

/-- A full directory is noticed after the allocation, so the failure is clean only
when there was nothing to link. -/
theorem failsCleanly_full {fs : FileSystem} {args : CreateArgs}
    (full : freeSlot fs.rootDir = none) :
    FailsCleanly fs args ↔ freeCells fs.fat12Table 0 = [] ∨
      (freeCells fs.fat12Table 0).length = 1 ∧
        1 < (args.size.toNat + 511) % 2 ^ 32 / sectorSize := by
  have created : fs.create args = some (none, { fs with
      fat12Table := (fat12Allocate fs.fat12Table args.size.toNat).2 }) := by
    rw [create_eq, full]
  constructor
  · rintro ⟨⟨after, returned, kept, -⟩, -⟩
    rw [created] at returned
    obtain rfl := (Prod.ext_iff.mp (Option.some.inj returned)).2
    cases free : freeCells fs.fat12Table 0 with
    | nil => exact .inl rfl
    | cons first others =>
        obtain ⟨bounds, isFree⟩ := mem_of_freeCells_cons free
        by_contra other
        refine fat12Allocate_takes_first args.size.toNat free ?_
          ((kept first ⟨bounds.1, bounds.2⟩).trans isFree)
        rintro rfl
        by_contra several
        exact other (.inr ⟨rfl, not_le.mp several⟩)
  · intro untouched
    refine ⟨⟨_, created, fun cell _ => ?_, rfl, rfl⟩, fun cell member => ?_⟩
    · exact congrFun (fat12Allocate_untouched untouched) cell
    · simp only [createAccesses, full, List.append_nil] at member
      exact fat12AllocateAccesses_inTable member

theorem not_failsCleanly_slot {fs : FileSystem} {slot : Fin 224}
    (free : freeSlot fs.rootDir = some slot) (args : CreateArgs) :
    ¬ FailsCleanly fs args := by
  rintro ⟨⟨after, returned, -⟩, -⟩
  rw [create_eq, free] at returned
  simp at returned

/-- `-NO_MEMORY` less the first data sector is 65300 in the 16 bits of the cluster
field, and the walk starts there. -/
theorem createAccesses_short {fs : FileSystem} {args : CreateArgs} {slot : Fin 224}
    (free : freeSlot fs.rootDir = some slot)
    (short : (freeCells fs.fat12Table 0).length <
      max 1 ((args.size.toNat + 511) % 2 ^ 32 / sectorSize)) :
    (65300 : Int) ∈ createAccesses fs args := by
  have failed := fat12Allocate_short short
  obtain ⟨turns, limit⟩ := walkLimit_succ
  simp only [createAccesses, free, writeIntoMemoryAccesses, CreateArgs.entry, failed,
    limit, writeDataAccesses]
  refine List.mem_append_right _ (List.mem_append_left _ ?_)
  exact List.mem_cons.mpr (.inl (by decide))

theorem create_failure_clean_iff (fs : FileSystem) (args : CreateArgs) :
    (CannotComplete fs args → FailsCleanly fs args) ↔
      freeSlot fs.rootDir ≠ none ∧
          (args.size.toNat + 511) / sectorSize ≤ (freeCells fs.fat12Table 0).length ∨
        freeSlot fs.rootDir = none ∧
          ((freeCells fs.fat12Table 0).length = 0 ∨
            (freeCells fs.fat12Table 0).length = 1 ∧
              512 < args.size.toNat ∧ args.size.toNat + 511 < 2 ^ 32) := by
  unfold CannotComplete
  cases free : freeSlot fs.rootDir with
  | none =>
      rw [failsCleanly_full free, several_sectors_iff args.size.isLt, List.length_eq_zero_iff]
      simp
  | some slot =>
      have unclean := not_failsCleanly_slot free args
      simp only [ne_eq, reduceCtorEq, not_false_eq_true, true_and, or_false, false_and,
        unclean, imp_false, not_lt]

/-- A file one byte longer than the data area, on a blank disk. -/
theorem too_long_file_fails_dirty :
    CannotComplete (bootFileSystem (fun _ => 0) blankDisk) (blankArgs 1355777) ∧
      ¬ FailsCleanly (bootFileSystem (fun _ => 0) blankDisk) (blankArgs 1355777) ∧
      ∃ cell ∈ createAccesses (bootFileSystem (fun _ => 0) blankDisk) (blankArgs 1355777),
        ¬ InTable cell := by
  have slot := freeSlot_boot (fun _ => 0) blankDisk
  refine ⟨.inl ?_, not_failsCleanly_slot slot _, 65300, createAccesses_short slot ?_, ?_⟩
  · rw [freeCells_boot_length]
    decide
  · rw [freeCells_boot_length]
    decide
  · unfold InTable totalFat12Entreis
    decide

end LazyOS.Fs

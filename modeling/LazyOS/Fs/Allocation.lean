import LazyOS.Data.Chain
import LazyOS.Fs.Fat12

namespace LazyOS.Fs

open LazyOS.Data
open LazyOS.Disk

/-! Cluster allocation takes the lowest free entries, in order, and threads one
chain through them. -/

abbrev TableChain (table : Table) (cell : Int) (rest : List Int) : Prop :=
  Chain table (fun link => (link.toNat : Int)) endOfFile cell rest

def InTable (cell : Int) : Prop := 0 ≤ cell ∧ cell < totalFat12Entreis

def freeCells (table : Table) (start : Nat) : List Int :=
  ((List.range' start (totalFat12Entreis - start)).map Int.ofNat).filter
    fun i => table i = freeEntry

def clusterCount (size : Nat) : Nat := max 1 ((size + 511) / sectorSize)

def Table.link (table : Table) (cell : Int) (rest : List Int) : Table :=
  linkCells (BitVec.ofInt 16) endOfFile table cell rest

theorem mem_freeCells {table : Table} {start : Nat} {cell : Int} :
    cell ∈ freeCells table start ↔
      (start ≤ cell ∧ cell < totalFat12Entreis) ∧ table cell = freeEntry := by
  unfold freeCells totalFat12Entreis
  simp only [List.mem_filter, List.mem_map, List.mem_range'_1, decide_eq_true_eq,
    Int.ofNat_eq_natCast]
  constructor
  · rintro ⟨⟨index, bounds, rfl⟩, free⟩
    exact ⟨by omega, free⟩
  · rintro ⟨bounds, free⟩
    exact ⟨⟨cell.toNat, by omega, by omega⟩, free⟩

theorem freeCells_sorted (table : Table) (start : Nat) :
    (freeCells table start).Pairwise (· < ·) := by
  unfold freeCells
  apply List.Pairwise.filter
  apply List.Pairwise.map _ _ List.pairwise_lt_range'
  intro left right less
  exact Int.ofNat_lt.mpr less

theorem freeCells_length_le (table : Table) (start : Nat) :
    (freeCells table start).length ≤ totalFat12Entreis := by
  unfold freeCells
  refine (List.length_filter_le _ _).trans ?_
  rw [List.length_map, List.length_range']
  omega

theorem freeCells_update {table : Table} {start : Nat} {cell : Int} (value : Half)
    (before : cell < start) :
    freeCells (Function.update table cell value) start = freeCells table start := by
  unfold freeCells
  apply List.filter_congr
  intro current member
  simp only [List.mem_map, List.mem_range'_1, Int.ofNat_eq_natCast] at member
  obtain ⟨index, bounds, rfl⟩ := member
  rw [Function.update_of_ne (by omega)]

theorem freeCells_step (table : Table) {start : Nat}
    (inside : start < totalFat12Entreis) :
    freeCells table start =
      if table start = freeEntry then (start : Int) :: freeCells table (start + 1)
      else freeCells table (start + 1) := by
  have remaining : totalFat12Entreis - start =
      totalFat12Entreis - (start + 1) + 1 := by omega
  unfold freeCells
  rw [remaining, List.range'_succ, List.map_cons, List.filter_cons]
  simp only [Int.ofNat_eq_natCast, decide_eq_true_eq]

theorem freeCells_end (table : Table) {start : Nat}
    (past : totalFat12Entreis ≤ start) : freeCells table start = [] := by
  unfold freeCells
  rw [Nat.sub_eq_zero_of_le past]
  rfl

theorem findNextFreeLoop_eq (table : Table) (remaining i : Nat)
    (reach : i + remaining = totalFat12Entreis) :
    findNextFreeLoop table remaining i = (freeCells table i).headD (-1) := by
  induction remaining generalizing i with
  | zero =>
      rw [freeCells_end table (by omega)]
      rfl
  | succ remaining ih =>
      rw [freeCells_step table (by omega)]
      simp only [findNextFreeLoop]
      by_cases free : table i = freeEntry
      · rw [if_pos free, if_pos free]
        rfl
      · rw [if_neg free, if_neg free, ih (i + 1) (by omega)]

theorem findNextFree_eq (table : Table) (start : Nat) :
    findNextFree table start = (freeCells table start).headD (-1) := by
  unfold findNextFree
  by_cases inside : start ≤ totalFat12Entreis
  · exact findNextFreeLoop_eq table _ start (by omega)
  · rw [Nat.sub_eq_zero_of_le (by omega), freeCells_end table (by omega)]
    rfl

theorem freeCells_tail {table : Table} {start : Nat} {next : Int}
    {rest : List Int} (found : freeCells table start = next :: rest) :
    freeCells table (next.toNat + 1) = rest := by
  by_cases inside : start < totalFat12Entreis
  · rw [freeCells_step table inside] at found
    by_cases free : table start = freeEntry
    · rw [if_pos free] at found
      obtain ⟨rfl, rfl⟩ := List.cons.inj found
      simp
    · rw [if_neg free] at found
      exact freeCells_tail found
  · rw [freeCells_end table (by omega)] at found
    cases found
termination_by totalFat12Entreis - start

theorem mem_of_freeCells_cons {table : Table} {start : Nat} {next : Int}
    {rest : List Int} (found : freeCells table start = next :: rest) :
    (start ≤ next ∧ next < totalFat12Entreis) ∧ table next = freeEntry :=
  mem_freeCells.mp (found ▸ List.mem_cons_self)

theorem allocateLoop_eq (remaining : Nat) (table : Table) (current : Nat)
    (enough : remaining ≤ (freeCells table (current + 1)).length) :
    ∃ last linked, allocateLoop remaining current table = (some last, linked) ∧
      Function.update linked last endOfFile =
        table.link current ((freeCells table (current + 1)).take remaining) := by
  induction remaining generalizing table current with
  | zero => exact ⟨current, table, rfl, rfl⟩
  | succ remaining ih =>
      obtain ⟨next, rest, found⟩ :=
        List.exists_cons_of_length_pos (Nat.lt_of_lt_of_le (Nat.succ_pos _) enough)
      obtain ⟨bounds, -⟩ := mem_of_freeCells_cons found
      have nextEq : ((next.toNat : Nat) : Int) = next := by omega
      have nextFree : findNextFree table (current + 1) = next := by
        rw [findNextFree_eq, found, List.headD_cons]
      have later : freeCells
          (Function.update table current (BitVec.ofInt 16 next)) (next.toNat + 1) =
            rest := by
        rw [freeCells_update _ (by omega), freeCells_tail found]
      obtain ⟨last, linked, looped, ended⟩ :=
        ih (Function.update table current (BitVec.ofInt 16 next)) next.toNat (by
          rw [later]
          simpa [found] using enough)
      refine ⟨last, linked, ?_, ?_⟩
      · simp only [allocateLoop]
        rw [nextFree, if_neg (by omega), looped]
      · rw [ended, later, found, List.take_succ_cons, nextEq]
        rfl

theorem allocateLoop_short (remaining : Nat) (table : Table) (current : Nat)
    (short : (freeCells table (current + 1)).length < remaining) :
    (allocateLoop remaining current table).1 = none := by
  induction remaining generalizing table current with
  | zero => exact absurd short (Nat.not_lt_zero _)
  | succ remaining ih =>
      simp only [allocateLoop]
      rw [findNextFree_eq]
      cases found : freeCells table (current + 1) with
      | nil => rw [List.headD_nil, if_pos rfl]
      | cons next rest =>
          obtain ⟨bounds, -⟩ := mem_of_freeCells_cons found
          rw [List.headD_cons, if_neg (by omega)]
          apply ih
          rw [freeCells_update _ (by omega), freeCells_tail found]
          rw [found, List.length_cons] at short
          omega

theorem fat12Allocate_link {table : Table} {size : Nat} {first : Int}
    {others : List Int} (free : freeCells table 0 = first :: others)
    (enough : (size + 511) % 2 ^ 32 / sectorSize - 1 ≤ others.length) :
    fat12Allocate table size =
      (startingDataSector + first,
        table.link first (others.take ((size + 511) % 2 ^ 32 / sectorSize - 1))) := by
  obtain ⟨bounds, -⟩ := mem_of_freeCells_cons free
  have firstEq : ((first.toNat : Nat) : Int) = first := by omega
  have later := freeCells_tail free
  obtain ⟨last, linked, looped, ended⟩ :=
    allocateLoop_eq ((size + 511) % 2 ^ 32 / sectorSize - 1) table first.toNat (by
      rw [later]
      exact enough)
  have firstFree : findNextFree table 0 = first := by
    rw [findNextFree_eq, free, List.headD_cons]
  rw [later, firstEq] at ended
  simp only [fat12Allocate]
  rw [firstFree, if_neg (by omega), looped]
  simp only [ended]

theorem fat12Allocate_short {table : Table} {size : Nat}
    (short : (freeCells table 0).length <
      max 1 ((size + 511) % 2 ^ 32 / sectorSize)) :
    (fat12Allocate table size).1 = -noMemory := by
  simp only [fat12Allocate]
  rw [findNextFree_eq]
  cases free : freeCells table 0 with
  | nil => rw [List.headD_nil, if_pos rfl]
  | cons first others =>
      obtain ⟨bounds, -⟩ := mem_of_freeCells_cons free
      have gaveUp := allocateLoop_short ((size + 511) % 2 ^ 32 / sectorSize - 1)
        table first.toNat (by
          rw [freeCells_tail free]
          rw [free, List.length_cons] at short
          omega)
      rw [List.headD_cons, if_neg (by omega)]
      generalize allocateLoop ((size + 511) % 2 ^ 32 / sectorSize - 1) first.toNat
        table = result at gaveUp ⊢
      obtain ⟨last, linked⟩ := result
      simp only at gaveUp
      rw [gaveUp]

/-- An allocation that does not report `-NO_MEMORY` has threaded the lowest free
entries, as many as it was after. -/
theorem fat12Allocate_served {table : Table} {size : Nat}
    (served : (fat12Allocate table size).1 ≠ -noMemory) :
    ∃ first rest, first :: rest <+: freeCells table 0 ∧
      fat12Allocate table size =
        (startingDataSector + first, table.link first rest) := by
  have enough := not_lt.mp fun short => served (fat12Allocate_short short)
  cases free : freeCells table 0 with
  | nil =>
      rw [free, List.length_nil] at enough
      omega
  | cons first others =>
      rw [free, List.length_cons] at enough
      exact ⟨first, _, (List.prefix_cons_inj first).mpr (List.take_prefix _ others),
        fat12Allocate_link free (by omega)⟩

theorem sectorsNeeded_eq {size : Nat}
    (fits : clusterCount size ≤ totalFat12Entreis) :
    (size + 511) % 2 ^ 32 / sectorSize - 1 = clusterCount size - 1 := by
  unfold clusterCount totalFat12Entreis sectorSize at *
  omega

theorem fat12Allocate_eq {table : Table} {size : Nat} {first : Int}
    {others : List Int} (free : freeCells table 0 = first :: others)
    (enough : clusterCount size ≤ (first :: others).length) :
    fat12Allocate table size =
      (startingDataSector + first,
        table.link first (others.take (clusterCount size - 1))) := by
  have fits : clusterCount size ≤ totalFat12Entreis := by
    rw [← free] at enough
    exact enough.trans (freeCells_length_le table 0)
  rw [List.length_cons] at enough
  rw [← sectorsNeeded_eq fits]
  exact fat12Allocate_link free (by rw [sectorsNeeded_eq fits]; omega)

theorem clusterCount_pos (size : Nat) : 0 < clusterCount size := by
  unfold clusterCount
  omega

def allocatedPath (table : Table) (size : Nat) : List Int :=
  (freeCells table 0).take (clusterCount size)

theorem allocatedPath_increasing (table : Table) (size : Nat) :
    (allocatedPath table size).Pairwise (· < ·) :=
  (freeCells_sorted table 0).sublist (List.take_sublist _ _)

theorem mem_allocatedPath {table : Table} {size : Nat} {cell : Int}
    (member : cell ∈ allocatedPath table size) :
    InTable cell ∧ table cell = freeEntry := by
  have found := mem_freeCells.mp (List.mem_of_mem_take member)
  exact ⟨⟨by omega, found.1.2⟩, found.2⟩

theorem allocatedPath_length {table : Table} {size : Nat}
    (enough : clusterCount size ≤ (freeCells table 0).length) :
    (allocatedPath table size).length = clusterCount size := by
  unfold allocatedPath
  rw [List.length_take]
  omega

theorem fat12Allocate_path {table : Table} {size : Nat}
    (enough : clusterCount size ≤ (freeCells table 0).length) :
    ∃ first rest, allocatedPath table size = first :: rest ∧
      fat12Allocate table size =
        (startingDataSector + first, table.link first rest) := by
  obtain ⟨first, others, free⟩ :=
    List.exists_cons_of_length_pos ((clusterCount_pos size).trans_le enough)
  refine ⟨first, others.take (clusterCount size - 1), ?_,
    fat12Allocate_eq free (free ▸ enough)⟩
  unfold allocatedPath
  obtain ⟨count, countEq⟩ :=
    Nat.exists_eq_succ_of_ne_zero (clusterCount_pos size).ne'
  rw [free, countEq, List.take_succ_cons, Nat.succ_sub_one]

theorem endOfFile_toNat : endOfFile.toNat = 4095 := rfl

theorem freeEntry_toNat : freeEntry.toNat = 0 := rfl

theorem toNat_ofInt_of_inTable {cell : Int} (inside : InTable cell) :
    (((BitVec.ofInt 16 cell).toNat : Nat) : Int) = cell := by
  obtain ⟨lower, upper⟩ := inside
  unfold totalFat12Entreis at upper
  rw [BitVec.toNat_ofInt]
  omega

theorem ofInt_ne_endOfFile {cell : Int} (inside : InTable cell) :
    BitVec.ofInt 16 cell ≠ endOfFile := by
  intro same
  have value := toNat_ofInt_of_inTable inside
  obtain ⟨lower, upper⟩ := inside
  rw [same, endOfFile_toNat] at value
  unfold totalFat12Entreis at upper
  omega

theorem Table.link_of_notMem (table : Table) {cell current : Int}
    {rest : List Int} (outside : current ∉ cell :: rest) :
    table.link cell rest current = table current :=
  linkCells_of_notMem _ _ _ _ _ outside

theorem tableChain_link (table : Table) {cell : Int} {rest : List Int}
    (increasing : (cell :: rest).Pairwise (· < ·))
    (inside : ∀ current ∈ cell :: rest, InTable current) :
    TableChain (table.link cell rest) cell rest :=
  chain_linkCells table cell rest (increasing.imp fun less => ne_of_lt less)
    (fun _ member => toNat_ofInt_of_inTable (inside _ (List.mem_cons_of_mem _ member)))
    (fun _ member => ofInt_ne_endOfFile (inside _ (List.mem_cons_of_mem _ member)))

theorem tableChain_ne_free {table : Table} {cell : Int} {rest : List Int}
    (chain : TableChain table cell rest)
    (increasing : (cell :: rest).Pairwise (· < ·)) (lower : 0 ≤ cell) :
    ∀ current ∈ cell :: rest, table current ≠ freeEntry := by
  induction chain with
  | last ends =>
      intro current member free
      rw [List.mem_singleton] at member
      rw [← member, free] at ends
      exact absurd ends (by decide)
  | link goes tail ih =>
      rename_i cell rest
      obtain ⟨less, increasing⟩ := List.pairwise_cons.mp increasing
      have follows := less _ List.mem_cons_self
      intro current member
      rcases List.mem_cons.mp member with rfl | member
      · intro free
        rw [free, freeEntry_toNat] at follows
        omega
      · exact ih increasing (by omega) current member

structure Allocates (table : Table) (size : Nat) (first : Int) (rest : List Int) :
    Prop where
  result : fat12Allocate table size =
    (startingDataSector + first, table.link first rest)
  increasing : (first :: rest).Pairwise (· < ·)
  inside : ∀ cell ∈ first :: rest, InTable cell
  free : ∀ cell ∈ first :: rest, table cell = freeEntry
  chain : TableChain (table.link first rest) first rest

theorem fat12Allocate_chain {table : Table} {size : Nat}
    (served : (fat12Allocate table size).1 ≠ -noMemory) :
    ∃ first rest, Allocates table size first rest := by
  obtain ⟨first, rest, lowest, allocated⟩ := fat12Allocate_served served
  have listed : ∀ cell ∈ first :: rest, InTable cell ∧ table cell = freeEntry := by
    intro cell member
    have found := mem_freeCells.mp (lowest.subset member)
    exact ⟨⟨by omega, found.1.2⟩, found.2⟩
  have inside : ∀ cell ∈ first :: rest, InTable cell :=
    fun cell member => (listed cell member).1
  have increasing : (first :: rest).Pairwise (· < ·) :=
    (freeCells_sorted table 0).sublist lowest.sublist
  exact ⟨first, rest, allocated, increasing, inside,
    fun cell member => (listed cell member).2, tableChain_link table increasing inside⟩

theorem allocated_of_enough {table : Table} {size : Nat}
    (enough : clusterCount size ≤ (freeCells table 0).length) :
    (fat12Allocate table size).1 ≠ -noMemory := by
  obtain ⟨first, rest, path, allocated⟩ := fat12Allocate_path enough
  obtain ⟨lower, -⟩ := (mem_allocatedPath (path ▸ List.mem_cons_self)).1
  rw [allocated]
  simp only [startingDataSector, noMemory]
  omega

/-- The `count` lowest free entries, in order. -/
structure LowestFree (table : Table) (count : Nat) (path : List Int) : Prop where
  length : path.length = count
  increasing : path.Pairwise (· < ·)
  free : ∀ cell ∈ path, InTable cell ∧ table cell = freeEntry
  lowest : ∀ cell, InTable cell → table cell = freeEntry → cell ∉ path →
    ∀ taken ∈ path, taken < cell

/-- From `table` to `after` the entries of `path` have been threaded and no other has
changed.  A link is neither a free entry nor an end of file. -/
structure LinksExactly (table after : Table) (path : List Int) : Prop where
  next : ∀ i current following, path[i]? = some current → path[i + 1]? = some following →
    ((after current).toNat : Int) = following ∧ after current ≠ freeEntry ∧
      after current ≠ endOfFile
  last : ∀ last, path.getLast? = some last → after last = endOfFile
  others : ∀ cell, cell ∉ path → after cell = table cell

theorem lowestFree_allocatedPath {table : Table} {size : Nat}
    (enough : clusterCount size ≤ (freeCells table 0).length) :
    LowestFree table (clusterCount size) (allocatedPath table size) := by
  refine ⟨allocatedPath_length enough, allocatedPath_increasing table size,
    fun cell member => mem_allocatedPath member, ?_⟩
  intro cell inside free outside taken member
  have sorted := freeCells_sorted table 0
  rw [← List.take_append_drop (clusterCount size) (freeCells table 0),
    List.pairwise_append] at sorted
  refine sorted.2.2 taken member cell ?_
  have listed : cell ∈ freeCells table 0 :=
    mem_freeCells.mpr ⟨⟨inside.1, inside.2⟩, free⟩
  rw [← List.take_append_drop (clusterCount size) (freeCells table 0),
    List.mem_append] at listed
  exact listed.resolve_left outside

theorem linksExactly_link (table : Table) {cell : Int} {rest : List Int}
    (increasing : (cell :: rest).Pairwise (· < ·))
    (inside : ∀ current ∈ cell :: rest, InTable current) :
    LinksExactly table (table.link cell rest) (cell :: rest) := by
  have chain := tableChain_link table increasing inside
  have proper := tableChain_ne_free chain increasing (inside cell List.mem_cons_self).1
  refine ⟨?_, fun last isLast => chain.ends isLast, fun current outside =>
    table.link_of_notMem outside⟩
  intro i current following here after
  obtain ⟨goes, names⟩ := chain.next here after
  exact ⟨names, proper current (List.mem_of_getElem? here), goes⟩

/-- With enough free entries the lowest of them become the chain of the file. -/
theorem allocates_lowest (table : Table) (size : Word)
    (enough : clusterCount size.toNat ≤ (freeCells table 0).length) :
    ∃ first rest, LowestFree table (clusterCount size.toNat) (first :: rest) ∧
      (fat12Allocate table size.toNat).1 = startingDataSector + first ∧
      LinksExactly table (fat12Allocate table size.toNat).2 (first :: rest) := by
  obtain ⟨first, rest, path, allocated⟩ := fat12Allocate_path enough
  have lowest := lowestFree_allocatedPath enough
  rw [path] at lowest
  refine ⟨first, rest, lowest, ?_, ?_⟩
  · rw [allocated]
  · rw [allocated]
    exact linksExactly_link table lowest.increasing fun cell member =>
      (lowest.free cell member).1

def fragmentedTable : Table := fun cell => if cell = 1 then endOfFile else freeEntry

theorem allocates_lowest_fragmented :
    ∃ first rest, LowestFree fragmentedTable 2 (first :: rest) ∧
      (fat12Allocate fragmentedTable (600 : Word).toNat).1 = startingDataSector + first ∧
      LinksExactly fragmentedTable (fat12Allocate fragmentedTable (600 : Word).toNat).2
        (first :: rest) := by
  have two : clusterCount (600 : Word).toNat = 2 := by decide
  have free : [(0 : Int), 2] ⊆ freeCells fragmentedTable 0 := by
    intro cell member
    rw [mem_freeCells]
    rcases List.mem_cons.mp member with rfl | member
    · exact ⟨by decide, rfl⟩
    · obtain rfl := List.mem_singleton.mp member
      exact ⟨by decide, rfl⟩
  have enough := (List.subperm_of_subset (by decide : [(0 : Int), 2].Nodup) free).length_le
  rw [← two]
  exact allocates_lowest fragmentedTable 600 (two ▸ enough)

end LazyOS.Fs

import LazyOS.Data.Ranges
import LazyOS.Memory.Heap

namespace LazyOS.Memory

open LazyOS.Data

/-! What each heap operation does to the table, for heaps of fewer than `2 ^ 20`
blocks: the most a 32-bit address space holds. -/

def HeapTable.IsFree (table : HeapTable) (block : Nat) : Prop :=
  heapGetEntryType (table.entries block) = heapBlockTableEntryFree

instance (table : HeapTable) (block : Nat) : Decidable (table.IsFree block) :=
  inferInstanceAs (Decidable (_ = _))

def HeapTable.FreeRun (table : HeapTable) (range : Range) : Prop :=
  range.stop ≤ table.totalEntries ∧
    ∀ block, range.Contains block → table.IsFree block

/-- The search state before entry `i`: either no run is open, or the open run
`[start, i)` is free, shorter than wanted and cannot be extended to the left. -/
inductive SearchAt (table : HeapTable) (totalBlocks i : Nat) :
    (currentBlock : Nat) → (startBlock : Int) → Prop
  | closed (boundary : i = 0 ∨ ¬ table.IsFree (i - 1)) :
      SearchAt table totalBlocks i 0 (-1)
  | opened (start : Nat) {currentBlock : Nat}
      (positive : 0 < currentBlock) (short : currentBlock < totalBlocks)
      (reaches : start + currentBlock = i)
      (free : ∀ block, start ≤ block → block < i → table.IsFree block)
      (boundary : start = 0 ∨ ¬ table.IsFree (start - 1)) :
      SearchAt table totalBlocks i currentBlock start

def NoRunBefore (table : HeapTable) (totalBlocks i : Nat) : Prop :=
  ∀ first, first + totalBlocks ≤ i →
    ∃ block, first ≤ block ∧ block < first + totalBlocks ∧ ¬ table.IsFree block

/-- How the search ends: at the first run that is long enough, inside a free
tail that is too short, or nowhere. -/
inductive SearchEnd (table : HeapTable) (totalBlocks : Nat) : Int → Prop
  | found (start : Nat)
      (run : table.FreeRun ⟨start, totalBlocks⟩)
      (least : ∀ first < start, ¬ table.FreeRun ⟨first, totalBlocks⟩) :
      SearchEnd table totalBlocks start
  | short (start : Nat) (inside : start < table.totalEntries)
      (overrun : table.totalEntries < start + totalBlocks)
      (free : ∀ block, start ≤ block → block < table.totalEntries →
        table.IsFree block)
      (none : ∀ first, ¬ table.FreeRun ⟨first, totalBlocks⟩) :
      SearchEnd table totalBlocks start
  | full (boundary : table.totalEntries = 0 ∨
        ¬ table.IsFree (table.totalEntries - 1))
      (none : ∀ first, ¬ table.FreeRun ⟨first, totalBlocks⟩) :
      SearchEnd table totalBlocks (-1)

theorem not_freeRun_of_noRunBefore {table : HeapTable} {totalBlocks i : Nat}
    (none : NoRunBefore table totalBlocks i) {first : Nat}
    (ends : first + totalBlocks ≤ i) :
    ¬ table.FreeRun ⟨first, totalBlocks⟩ := by
  rintro ⟨_, free⟩
  obtain ⟨block, lower, upper, taken⟩ := none first ends
  exact taken (free block ⟨lower, upper⟩)

/-- Passing a taken entry closes the open run and excludes every run that
would contain the entry. -/
theorem noRunBefore_succ_of_taken {table : HeapTable} {totalBlocks i : Nat}
    (none : NoRunBefore table totalBlocks i) (positive : 0 < totalBlocks)
    (taken : ¬ table.IsFree i) : NoRunBefore table totalBlocks (i + 1) := by
  intro first ends
  by_cases earlier : first + totalBlocks ≤ i
  · exact none first earlier
  · exact ⟨i, by omega, by omega, taken⟩

/-- A run ending at `i + 1` starts no earlier than the open run, so it is too
long while the open run is too short. -/
theorem noRunBefore_succ_of_short {table : HeapTable} {totalBlocks i start : Nat}
    (none : NoRunBefore table totalBlocks i)
    (boundary : start = 0 ∨ ¬ table.IsFree (start - 1))
    (reaches : start ≤ i) (short : i + 1 < start + totalBlocks) :
    NoRunBefore table totalBlocks (i + 1) := by
  intro first ends
  by_cases earlier : first + totalBlocks ≤ i
  · exact none first earlier
  · rcases boundary with rfl | taken
    · omega
    · exact ⟨start - 1, by omega, by omega, taken⟩

theorem SearchAt.extend {table : HeapTable} {totalBlocks i currentBlock : Nat}
    {startBlock : Int} (search : SearchAt table totalBlocks i currentBlock startBlock)
    (freeHere : table.IsFree i) (bounded : i < 2 ^ 31) :
    ∃ start : Nat,
      (if startBlock = -1 then toInt32 i else startBlock) = start ∧
      start + currentBlock = i ∧
      (∀ block, start ≤ block → block < i + 1 → table.IsFree block) ∧
      (start = 0 ∨ ¬ table.IsFree (start - 1)) := by
  cases search with
  | closed boundary =>
      refine ⟨i, ?_, by omega, ?_, boundary⟩
      · rw [if_pos rfl]
        exact toInt32_of_range (by omega) (by omega)
      · intro block lower upper
        obtain rfl : block = i := by omega
        exact freeHere
  | opened start positive short reaches free boundary =>
      refine ⟨start, ?_, reaches, ?_, boundary⟩
      · rw [if_neg (by omega)]
      · intro block lower upper
        by_cases here : block = i
        · exact here ▸ freeHere
        · exact free block lower (by omega)

theorem SearchAt.notLonger {table : HeapTable} {totalBlocks i currentBlock : Nat}
    {startBlock : Int} (search : SearchAt table totalBlocks i currentBlock startBlock)
    (positive : 0 < totalBlocks) : currentBlock < totalBlocks := by
  cases search with
  | closed _ => exact positive
  | opened _ _ short _ _ _ => exact short

theorem not_freeRun_before_start {table : HeapTable} {totalBlocks i start first : Nat}
    (none : NoRunBefore table totalBlocks i)
    (boundary : start = 0 ∨ ¬ table.IsFree (start - 1))
    (reaches : start + totalBlocks = i + 1) (earlier : first < start) :
    ¬ table.FreeRun ⟨first, totalBlocks⟩ := by
  intro run
  rcases boundary with rfl | takenBefore
  · omega
  · by_cases reachesStart : start ≤ first + totalBlocks
    · exact takenBefore (run.2 (start - 1)
        ⟨by simp only; omega, by simp only [Range.stop]; omega⟩)
    · exact not_freeRun_of_noRunBefore none (by omega) run

theorem heapGetStartBlockLoop_end (table : HeapTable) (totalBlocks : Nat)
    (positive : 0 < totalBlocks) (bounded : table.totalEntries < 2 ^ 20)
    (remaining i currentBlock : Nat) (startBlock : Int)
    (covers : i + remaining = table.totalEntries)
    (search : SearchAt table totalBlocks i currentBlock startBlock)
    (none : NoRunBefore table totalBlocks i) :
    SearchEnd table totalBlocks
      (heapGetStartBlockLoop table totalBlocks remaining i currentBlock
        startBlock) := by
  induction remaining generalizing i currentBlock startBlock with
  | zero =>
      have atEnd : i = table.totalEntries := by omega
      have nowhere : ∀ first, ¬ table.FreeRun ⟨first, totalBlocks⟩ := by
        intro first run
        have ends : first + totalBlocks ≤ i := by
          simpa [Range.stop, atEnd] using run.1
        exact not_freeRun_of_noRunBefore none ends run
      simp only [heapGetStartBlockLoop]
      cases search with
      | closed boundary => exact .full (by simpa [atEnd] using boundary) nowhere
      | opened start positive short reaches free boundary =>
          exact .short start (by omega) (by omega)
            (fun block lower upper => free block lower (by omega)) nowhere
  | succ remaining ih =>
      simp only [heapGetStartBlockLoop]
      by_cases taken : heapGetEntryType (table.entries i) ≠ heapBlockTableEntryFree
      · rw [if_pos taken]
        exact ih (i + 1) 0 (-1) (by omega) (.closed (.inr taken))
          (noRunBefore_succ_of_taken none positive taken)
      · rw [if_neg taken]
        have freeHere : table.IsFree i := not_not.mp taken
        obtain ⟨start, startEq, reaches, free, boundary⟩ :=
          search.extend freeHere (by omega)
        have notLonger := search.notLonger positive
        rw [startEq]
        by_cases enough : currentBlock + 1 = totalBlocks
        · rw [if_pos enough]
          refine .found start ⟨by simp only [Range.stop]; omega, fun block contains => ?_⟩
            fun first earlier => not_freeRun_before_start none boundary (by omega) earlier
          exact free block contains.1 (by
            have := contains.2
            simp only [Range.stop] at this
            omega)
        · rw [if_neg enough]
          exact ih (i + 1) (currentBlock + 1) start (by omega)
            (.opened start (by omega) (by omega) (by omega) free boundary)
            (noRunBefore_succ_of_short none boundary (by omega) (by omega))

theorem heapGetStartBlock_end (heap : Heap) (totalBlocks : Nat)
    (positive : 0 < totalBlocks)
    (bounded : heap.table.totalEntries < 2 ^ 20) :
    ∃ result, SearchEnd heap.table totalBlocks result ∧
      heapGetStartBlock heap totalBlocks =
        if result = -1 then -noMemory else result := by
  refine ⟨_, heapGetStartBlockLoop_end heap.table totalBlocks positive bounded
    heap.table.totalEntries 0 0 (-1) (by omega) (.closed (.inl rfl)) ?_, rfl⟩
  intro first ends
  omega

/-! Marking.  Every block but the first of an allocation is written with
`heapBlockHasNext`, the last one included: the entry for a block is chosen while
the block before it is written, and that one is never the end block. -/

def blockMark (range : Range) (block : Nat) : Byte :=
  if block = range.first then
    if 1 < range.length then
      heapBlockTableEntryTaken ||| heapBlockIsFirst ||| heapBlockHasNext
    else heapBlockTableEntryTaken ||| heapBlockIsFirst
  else heapBlockTableEntryTaken ||| heapBlockHasNext

theorem heapGetEntryType_blockMark (range : Range) (block : Nat) :
    heapGetEntryType (blockMark range block) ≠ heapBlockTableEntryFree := by
  unfold blockMark
  split
  · split <;> decide
  · decide

theorem blockMark_hasNext {range : Range} (several : 1 < range.length)
    (block : Nat) : blockMark range block &&& heapBlockHasNext ≠ 0 := by
  unfold blockMark
  rw [if_pos several]
  split <;> decide

theorem blockMark_single {range : Range} (single : range.length = 1) :
    blockMark range range.first &&& heapBlockHasNext = 0 := by
  unfold blockMark
  rw [if_pos rfl, if_neg (by omega)]
  decide

theorem heapMarkBlocksTakenLoop_apply (endBlock : Int) (remaining : Nat)
    (i : Int) (entry : Byte) (entries : Int → Byte)
    (ends : i + remaining ≤ endBlock + 1) (j : Int) :
    heapMarkBlocksTakenLoop endBlock remaining i entry entries j =
      if 0 < remaining ∧ j = i then entry
      else if i < j ∧ j < i + remaining then
        heapBlockTableEntryTaken ||| heapBlockHasNext
      else entries j := by
  induction remaining generalizing i entry entries with
  | zero =>
      rw [if_neg (by omega), if_neg (by omega)]
      rfl
  | succ remaining ih =>
      simp only [heapMarkBlocksTakenLoop]
      rw [ih _ _ _ (by omega)]
      by_cases here : j = i
      · subst here
        rw [if_neg (by omega), if_neg (by omega), if_pos ⟨by omega, rfl⟩,
          Function.update_self]
      · rw [if_neg (c := 0 < remaining + 1 ∧ j = i) (by omega)]
        by_cases following : 0 < remaining ∧ j = i + 1
        · rw [if_pos following, if_pos (by omega), if_pos (by omega)]
        · rw [if_neg following, Function.update_of_ne here]
          by_cases later : i + 1 < j ∧ j < i + 1 + remaining
          · rw [if_pos later, if_pos (by omega)]
          · rw [if_neg later, if_neg (by omega)]

theorem heapMarkBlocksTaken_apply (heap : Heap) (range : Range)
    (positive : 0 < range.length) (bounded : range.stop < 2 ^ 31) (block : Nat) :
    (heapMarkBlocksTaken heap range.first range.length).table.entries block =
      if range.Contains block then blockMark range block
      else heap.table.entries block := by
  unfold Range.stop at bounded
  have firstEq : toInt32 range.first = range.first :=
    toInt32_of_range (by omega) (by omega)
  have endEq : toInt32 ((range.first : Int) + range.length - 1) =
      range.first + range.length - 1 :=
    toInt32_of_range (by omega) (by omega)
  have countEq : ((range.first : Int) + range.length - 1 - range.first + 1).toNat =
      range.length := by omega
  simp only [heapMarkBlocksTaken, firstEq, endEq, countEq,
    Heap.setEntries_entries]
  rw [heapMarkBlocksTakenLoop_apply _ _ _ _ _ (by omega)]
  unfold blockMark
  simp only [Range.contains_iff]
  by_cases atFirst : block = range.first
  · rw [if_pos (c := 0 < range.length ∧ (block : Int) = range.first) (by omega),
      if_pos (c := range.first ≤ block ∧ block < range.first + range.length)
        (by omega), if_pos atFirst]
  · rw [if_neg (by omega), if_neg atFirst]
    by_cases inside : range.first ≤ block ∧ block < range.first + range.length
    · rw [if_pos (by omega), if_pos inside]
    · rw [if_neg (by omega), if_neg inside]

/-! Releasing.  The loop clears blocks as long as the flag read says that one
more follows. -/

@[simp] theorem heapFree_totalEntries (heap : Heap) (ptr : Nat) :
    (heapFree heap ptr).table.totalEntries = heap.table.totalEntries :=
  Heap.setEntries_totalEntries heap _

@[simp] theorem heapFree_startAddr (heap : Heap) (ptr : Nat) :
    (heapFree heap ptr).startAddr = heap.startAddr :=
  Heap.setEntries_startAddr heap _

theorem heapMarkBlocksFreeLoop_stop (rest : Nat) (i : Int)
    (entries : Int → Byte) (last : entries i &&& heapBlockHasNext = 0) :
    heapMarkBlocksFreeLoop (rest + 1) i entries =
      Function.update entries i heapBlockTableEntryFree := by
  simp only [heapMarkBlocksFreeLoop]
  rw [if_pos last]

theorem heapMarkBlocksFreeLoop_flagged (count rest : Nat) (i : Int)
    (entries : Int → Byte)
    (flagged : ∀ j, i ≤ j → j < i + count → entries j &&& heapBlockHasNext ≠ 0) :
    heapMarkBlocksFreeLoop (count + rest) i entries =
      heapMarkBlocksFreeLoop rest (i + count) fun j =>
        if i ≤ j ∧ j < i + count then heapBlockTableEntryFree else entries j := by
  induction count generalizing i entries with
  | zero =>
      have unchanged : (fun j => if i ≤ j ∧ j < i + (0 : Nat) then
          heapBlockTableEntryFree else entries j) = entries := by
        funext j
        rw [if_neg (by omega)]
      rw [unchanged]
      simp only [Nat.zero_add, Nat.cast_zero, Int.add_zero]
  | succ count ih =>
      rw [show count + 1 + rest = (count + rest) + 1 by omega]
      simp only [heapMarkBlocksFreeLoop]
      rw [if_neg (flagged i (by omega) (by omega)), ih]
      · congr 1
        · push_cast
          ring
        · funext j
          by_cases here : j = i
          · subst here
            rw [if_neg (by omega), if_pos (by omega), Function.update_self]
          · rw [Function.update_of_ne here]
            by_cases later : i + 1 ≤ j ∧ j < i + 1 + count
            · rw [if_pos later, if_pos (by omega)]
            · rw [if_neg later, if_neg (by omega)]
      · intro j lower upper
        rw [Function.update_of_ne (by omega)]
        exact flagged j (by omega) (by omega)

/-- Releasing an allocation whose successor block is free, or that ends the
table, clears exactly its own blocks. -/
theorem heapMarkBlocksFreeLoop_range (entries : Int → Byte) (range : Range)
    (remaining : Nat) (positive : 0 < range.length)
    (fits : range.length ≤ remaining)
    (marked : ∀ block, range.Contains block → entries block = blockMark range block)
    (boundary : range.length = 1 ∨ range.length = remaining ∨
      entries range.stop = heapBlockTableEntryFree)
    (block : Nat) :
    heapMarkBlocksFreeLoop remaining range.first entries block =
      if range.Contains block then heapBlockTableEntryFree
      else entries block := by
  obtain ⟨rest, rfl⟩ : ∃ rest, remaining = range.length + rest :=
    ⟨remaining - range.length, by omega⟩
  by_cases single : range.length = 1
  · have mark : entries range.first &&& heapBlockHasNext = 0 := by
      rw [marked range.first (Range.contains_first positive)]
      exact blockMark_single single
    rw [single, Nat.add_comm, heapMarkBlocksFreeLoop_stop _ _ _ mark]
    simp only [Range.contains_iff]
    by_cases here : block = range.first
    · rw [if_pos (by omega), here, Function.update_self]
    · rw [if_neg (by omega), Function.update_of_ne (by omega)]
  · have flagged : ∀ j : Int, range.first ≤ j → j < range.first + range.length →
        entries j &&& heapBlockHasNext ≠ 0 := by
      intro j lower upper
      obtain ⟨inner, rfl⟩ := Int.eq_ofNat_of_zero_le (show 0 ≤ j by omega)
      rw [marked inner (Range.contains_iff.mpr (by omega))]
      exact blockMark_hasNext (by omega) inner
    rw [heapMarkBlocksFreeLoop_flagged range.length rest range.first entries flagged]
    have cleared : (if (range.first : Int) ≤ block ∧
          (block : Int) < range.first + range.length then
          heapBlockTableEntryFree else entries block) =
        if range.Contains block then heapBlockTableEntryFree
        else entries block := by
      simp only [Range.contains_iff]
      by_cases inside : range.first ≤ block ∧ block < range.first + range.length
      · rw [if_pos (by omega), if_pos inside]
      · rw [if_neg (by omega), if_neg inside]
    cases rest with
    | zero => exact cleared
    | succ rest =>
        -- The last block carries the flag too, so one entry more is visited.
        have successor : entries ((range.first : Int) + range.length) =
            heapBlockTableEntryFree := by
          rcases boundary with one | all | free
          · omega
          · omega
          · simpa [Range.stop] using free
        rw [heapMarkBlocksFreeLoop_stop]
        · by_cases next : (block : Int) = range.first + range.length
          · have outside : ¬ range.Contains block := by
              rw [Range.contains_iff]
              omega
            rw [if_neg outside, next, Function.update_self, successor]
          · rw [Function.update_of_ne next]
            exact cleared
        · rw [if_neg (by omega), successor]
          decide

end LazyOS.Memory

import LazyOS.Memory.HeapRuns
import LazyOS.Memory.Kheap

namespace LazyOS.Memory

open LazyOS.Data

/-! Single calls of the heap, on a table with any contents. -/

def Region.heap (region : Region) (entries : Int → Byte) : Heap where
  table := ⟨entries, region.capacity⟩
  startAddr := region.start

@[simp] theorem Region.heap_entries (region : Region) (entries : Int → Byte) :
    (region.heap entries).table.entries = entries := rfl

@[simp] theorem Region.heap_totalEntries (region : Region) (entries : Int → Byte) :
    (region.heap entries).table.totalEntries = region.capacity := rfl

@[simp] theorem Region.heap_startAddr (region : Region) (entries : Int → Byte) :
    (region.heap entries).startAddr = region.start := rfl

structure FirstFit (table : HeapTable) (totalBlocks start : Nat) : Prop where
  run : table.FreeRun ⟨start, totalBlocks⟩
  least : ∀ first < start, ¬ table.FreeRun ⟨first, totalBlocks⟩

/-- The last entry is not free, or there is none: the search does not run off the
table inside a free run. -/
def HeapTable.EndsTaken (table : HeapTable) : Prop :=
  table.totalEntries = 0 ∨ ¬ table.IsFree (table.totalEntries - 1)

def heapMarkBlocksTakenWrites (startBlock totalBlocks : Nat) : List Int :=
  let endBlock := toInt32 ((startBlock : Int) + totalBlocks - 1)
  let first := toInt32 startBlock
  (List.range (endBlock - first + 1).toNat).map fun k : Nat => first + k

def heapMallocWrites (heap : Heap) (size : Nat) : List Int :=
  let totalBlocks := heapAligneValueToUpper size / heapBlockSize
  let startBlock := heapGetStartBlock heap totalBlocks
  if startBlock < 0 then []
  else heapMarkBlocksTakenWrites startBlock.toNat totalBlocks

theorem Region.capacity_lt (region : Region) : region.capacity < 2 ^ 20 := by
  have := region.stop_lt
  unfold Region.capacity heapBlockSize
  omega

theorem Region.address (region : Region) (entries : Int → Byte) {block : Nat}
    (inside : block < region.capacity) :
    heapBlockToAddress (region.heap entries) block =
      region.start + 4096 * block := by
  have stop := region.stop_lt
  unfold Region.capacity heapBlockSize at inside
  have exact := toUInt32_of_range ((region.start : Int) + block * 4096)
    (by omega) (by omega)
  unfold heapBlockToAddress Region.heap heapBlockSize
  simp only [Nat.cast_ofNat]
  omega

/-! The search for no block at all.  The counter never meets a total of zero, so
the loop goes on to the end of the table. -/

inductive TailAt (table : HeapTable) (i : Nat) : (startBlock : Int) → Prop
  | closed (boundary : i = 0 ∨ ¬ table.IsFree (i - 1)) : TailAt table i (-1)
  | opened (start : Nat) (before : start < i) (free : table.IsFree (i - 1)) :
      TailAt table i start

theorem heapGetStartBlockLoop_zero (table : HeapTable)
    (bounded : table.totalEntries < 2 ^ 20) (remaining i currentBlock : Nat)
    (startBlock : Int) (covers : i + remaining = table.totalEntries)
    (tail : TailAt table i startBlock) :
    TailAt table table.totalEntries
      (heapGetStartBlockLoop table 0 remaining i currentBlock startBlock) := by
  induction remaining generalizing i currentBlock startBlock with
  | zero =>
      obtain rfl : i = table.totalEntries := by omega
      exact tail
  | succ remaining ih =>
      simp only [heapGetStartBlockLoop]
      by_cases taken : heapGetEntryType (table.entries i) ≠ heapBlockTableEntryFree
      · rw [if_pos taken]
        exact ih (i + 1) 0 (-1) (by omega) (.closed (.inr taken))
      · rw [if_neg taken, if_neg (Nat.succ_ne_zero currentBlock)]
        apply ih (i + 1) _ _ (by omega)
        have free : table.IsFree (i + 1 - 1) := not_not.mp taken
        cases tail with
        | closed boundary =>
            rw [if_pos rfl, toInt32_of_range (by omega) (by omega)]
            exact .opened i (by omega) free
        | opened start before _ =>
            rw [if_neg (by omega)]
            exact .opened start (by omega) free

theorem heapGetStartBlock_zero (heap : Heap)
    (bounded : heap.table.totalEntries < 2 ^ 20) :
    ∃ result, TailAt heap.table heap.table.totalEntries result ∧
      heapGetStartBlock heap 0 = if result = -1 then -noMemory else result :=
  ⟨_, heapGetStartBlockLoop_zero heap.table bounded heap.table.totalEntries 0 0 (-1)
    (by omega) (.closed (.inl rfl)), rfl⟩

theorem alignedBlocks_of_wrap {size : Nat} (large : 0xFFFFF000 < size)
    (word : size < 2 ^ 32) : heapAligneValueToUpper size / heapBlockSize = 0 := by
  unfold heapAligneValueToUpper heapBlockSize
  rw [if_neg (by omega)]
  omega

/-! How a call ends.  A free run at the end of the table is handed out even when it
is too short, or when no block was asked for. -/

inductive MallocEnd (region : Region) (entries : Int → Byte) (totalBlocks : Nat) :
    Nat × Heap → List Int → Prop
  | granted (start : Nat) (positive : 0 < totalBlocks)
      (fit : FirstFit (region.heap entries).table totalBlocks start) :
      MallocEnd region entries totalBlocks
        (region.start + 4096 * start,
          heapMarkBlocksTaken (region.heap entries) start totalBlocks)
        (heapMarkBlocksTakenWrites start totalBlocks)
  | overrun (start : Nat) (inside : start < region.capacity)
      (short : region.capacity < start + totalBlocks)
      (free : (region.heap entries).table.IsFree (region.capacity - 1))
      (none : ∀ first, ¬ (region.heap entries).table.FreeRun ⟨first, totalBlocks⟩) :
      MallocEnd region entries totalBlocks
        (region.start + 4096 * start,
          heapMarkBlocksTaken (region.heap entries) start totalBlocks)
        (heapMarkBlocksTakenWrites start totalBlocks)
  | unmarked (start : Nat) (inside : start < region.capacity)
      (zero : totalBlocks = 0)
      (free : (region.heap entries).table.IsFree (region.capacity - 1)) :
      MallocEnd region entries totalBlocks
        (region.start + 4096 * start, region.heap entries) []
  | refused (ends : (region.heap entries).table.EndsTaken)
      (none : totalBlocks = 0 ∨
        ∀ first, ¬ (region.heap entries).table.FreeRun ⟨first, totalBlocks⟩) :
      MallocEnd region entries totalBlocks (0, region.heap entries) []

theorem markCount_zero {start : Nat} (bounded : start < 2 ^ 31) :
    (toInt32 ((start : Int) + (0 : Nat) - 1) - toInt32 start + 1).toNat = 0 := by
  rw [toInt32_of_range (by omega) (by omega), toInt32_of_range (by omega) (by omega)]
  omega

theorem heapMarkBlocksTaken_zero (heap : Heap) {start : Nat}
    (bounded : start < 2 ^ 31) : heapMarkBlocksTaken heap start 0 = heap := by
  unfold heapMarkBlocksTaken
  simp only [markCount_zero bounded, heapMarkBlocksTakenLoop]
  rfl

theorem heapMarkBlocksTakenWrites_zero {start : Nat} (bounded : start < 2 ^ 31) :
    heapMarkBlocksTakenWrites start 0 = [] := by
  unfold heapMarkBlocksTakenWrites
  simp only [markCount_zero bounded, List.range_zero, List.map_nil]

theorem heapMalloc_end (region : Region) (entries : Int → Byte) {size totalBlocks : Nat}
    (blocks : heapAligneValueToUpper size / heapBlockSize = totalBlocks) :
    MallocEnd region entries totalBlocks (heapMalloc (region.heap entries) size)
      (heapMallocWrites (region.heap entries) size) := by
  have bounded := region.capacity_lt
  unfold heapMalloc heapMallocWrites heapMallocBlocks
  simp only [blocks]
  rcases Nat.eq_zero_or_pos totalBlocks with rfl | positive
  · obtain ⟨result, tail, resultEq⟩ :=
      heapGetStartBlock_zero (region.heap entries) bounded
    rw [resultEq]
    cases tail with
    | closed boundary =>
        rw [if_pos rfl, if_pos (by decide), if_pos (by decide)]
        exact .refused boundary (.inl rfl)
    | opened start before free =>
        have inside : start < region.capacity := before
        rw [if_neg (by omega), if_neg (by omega), if_neg (by omega),
          Int.toNat_natCast, region.address entries inside,
          heapMarkBlocksTaken_zero _ (by omega),
          heapMarkBlocksTakenWrites_zero (by omega)]
        exact .unmarked start inside rfl free
  · obtain ⟨result, ended, resultEq⟩ :=
      heapGetStartBlock_end (region.heap entries) totalBlocks positive bounded
    rw [resultEq]
    cases ended with
    | found start run least =>
        have fits : start + totalBlocks ≤ region.capacity := run.1
        rw [if_neg (by omega), if_neg (by omega), if_neg (by omega),
          Int.toNat_natCast, region.address entries (by omega)]
        exact .granted start positive ⟨run, least⟩
    | short start inside overrun free none =>
        have inside : start < region.capacity := inside
        rw [if_neg (by omega), if_neg (by omega), if_neg (by omega),
          Int.toNat_natCast, region.address entries inside]
        exact .overrun start inside overrun
          (free _ (Nat.le_sub_one_of_lt inside) (Nat.sub_one_lt_of_lt inside)) none
    | full boundary none =>
        rw [if_pos rfl, if_pos (by decide), if_pos (by decide)]
        exact .refused boundary (.inr none)

/-- What a call does not list as written it leaves alone, inside the table and
beside it. -/
theorem heapMalloc_unwritten (heap : Heap) (size : Nat) {i : Int}
    (unwritten : i ∉ heapMallocWrites heap size) :
    (heapMalloc heap size).2.table.entries i = heap.table.entries i := by
  unfold heapMallocWrites at unwritten
  unfold heapMalloc heapMallocBlocks
  simp only at unwritten ⊢
  generalize heapAligneValueToUpper size / heapBlockSize = totalBlocks at *
  split
  · rfl
  · rename_i started
    rw [if_neg started] at unwritten
    unfold heapMarkBlocksTakenWrites at unwritten
    simp only [heapMarkBlocksTaken, Heap.setEntries_entries]
    generalize toInt32 ((heapGetStartBlock heap totalBlocks).toNat : Int) = first at *
    generalize toInt32 ((heapGetStartBlock heap totalBlocks).toNat +
      (totalBlocks : Int) - 1) = endBlock at *
    have outside : ¬ (first ≤ i ∧ i < first + (endBlock - first + 1).toNat) := by
      rintro ⟨lower, upper⟩
      refine unwritten (List.mem_map.mpr
        ⟨(i - first).toNat, List.mem_range.mpr (by omega), by omega⟩)
    rcases Nat.eq_zero_or_pos (endBlock - first + 1).toNat with none | some
    · rw [none]
      rfl
    · rw [heapMarkBlocksTakenLoop_apply _ _ _ _ _ (by omega), if_neg (by omega),
        if_neg (by omega)]

/-- The entries of `range` have become one allocation and no other entry has
changed. -/
structure MarksExactly (before after : HeapTable) (range : Range) : Prop where
  taken : ∀ block, range.Contains block →
    heapGetEntryType (after.entries block) = heapBlockTableEntryTaken
  isFirst_iff : ∀ block, range.Contains block →
    (after.entries block &&& heapBlockIsFirst ≠ 0 ↔ block = range.first)
  unchanged : ∀ block, ¬ range.Contains block →
    after.entries block = before.entries block

theorem heapGetEntryType_blockMark_eq (range : Range) (block : Nat) :
    heapGetEntryType (blockMark range block) = heapBlockTableEntryTaken := by
  unfold blockMark
  split
  · split <;> decide
  · decide

theorem blockMark_isFirst_iff (range : Range) (block : Nat) :
    blockMark range block &&& heapBlockIsFirst ≠ 0 ↔ block = range.first := by
  unfold blockMark
  by_cases first : block = range.first
  · rw [if_pos first]
    refine iff_of_true ?_ first
    split <;> decide
  · rw [if_neg first]
    exact iff_of_false (by decide) first

theorem marksExactly_heapMarkBlocksTaken (heap : Heap) {start totalBlocks : Nat}
    (positive : 0 < totalBlocks) (bounded : start + totalBlocks < 2 ^ 31) :
    MarksExactly heap.table (heapMarkBlocksTaken heap start totalBlocks).table
      ⟨start, totalBlocks⟩ := by
  have apply := heapMarkBlocksTaken_apply heap ⟨start, totalBlocks⟩ positive bounded
  refine ⟨?_, ?_, ?_⟩
  · intro block contains
    rw [apply, if_pos contains]
    exact heapGetEntryType_blockMark_eq _ block
  · intro block contains
    rw [apply, if_pos contains]
    exact blockMark_isFirst_iff _ block
  · intro block outside
    rw [apply, if_neg outside]

theorem FirstFit.bounded {region : Region} {entries : Int → Byte}
    {totalBlocks start : Nat}
    (fit : FirstFit (region.heap entries).table totalBlocks start) :
    start + totalBlocks < 2 ^ 31 := by
  have fits : start + totalBlocks ≤ region.capacity := fit.run.1
  have := region.capacity_lt
  omega

theorem FirstFit.unique {table : HeapTable} {totalBlocks left right : Nat}
    (first : FirstFit table totalBlocks left)
    (second : FirstFit table totalBlocks right) : left = right := by
  rcases Nat.lt_trichotomy left right with less | same | more
  · exact absurd first.run (second.least left less)
  · exact same
  · exact absurd second.run (first.least right more)

theorem heapMalloc_fits {region : Region} {entries : Int → Byte} {size : Nat}
    (positive : 1 ≤ size) (bounded : size ≤ 0xFFFFF000)
    (fits : ∃ first, (region.heap entries).table.FreeRun ⟨first, blocksFor size⟩) :
    ∃ start, FirstFit (region.heap entries).table (blocksFor size) start ∧
      heapMalloc (region.heap entries) size =
        (region.start + 4096 * start,
          heapMarkBlocksTaken (region.heap entries) start (blocksFor size)) := by
  obtain ⟨first, run⟩ := fits
  have some : blocksFor size ≠ 0 := by
    unfold blocksFor
    omega
  have ended := heapMalloc_end region entries (alignedBlocks_of_fits bounded)
  generalize heapMallocWrites (region.heap entries) size = writes at ended
  generalize heapMalloc (region.heap entries) size = result at *
  cases ended with
  | granted start positive fit => exact ⟨start, fit, rfl⟩
  | overrun start inside short free none => exact absurd run (none first)
  | unmarked start inside zero free => exact absurd zero some
  | refused ends none =>
      rcases none with zero | none
      · exact absurd zero some
      · exact absurd run (none first)

/-- Whatever the table holds, a request that fits gets the leftmost run. -/
theorem malloc_first_fit (region : Region) (entries : Int → Byte) {size : Nat}
    (positive : 1 ≤ size) (bounded : size ≤ 0xFFFFF000)
    (fits : ∃ first, (region.heap entries).table.FreeRun ⟨first, blocksFor size⟩) :
    ∃ start, FirstFit (region.heap entries).table (blocksFor size) start ∧
      (heapMalloc (region.heap entries) size).1 = region.start + 4096 * start ∧
      MarksExactly (region.heap entries).table
        (heapMalloc (region.heap entries) size).2.table ⟨start, blocksFor size⟩ := by
  obtain ⟨start, fit, called⟩ := heapMalloc_fits positive bounded fits
  rw [called]
  exact ⟨start, fit, rfl,
    marksExactly_heapMarkBlocksTaken _ (blocksFor_pos positive) fit.bounded⟩

def holeEntries : Int → Byte := fun i => if i = 0 ∨ i = 2 then 0x41 else 0

def sixBlocks : Region :=
  { threeBlocks with
    stop := 0x01006000
    start_le := by decide
    stop_lt := by decide
    stop_aligned := by decide }

/-- Two blocks do not fit into the hole and are taken from the tail. -/
theorem malloc_first_fit_past_hole :
    (heapMalloc (sixBlocks.heap holeEntries) 8192).1 = 0x01003000 ∧
      ∃ start, FirstFit (sixBlocks.heap holeEntries).table (blocksFor 8192) start ∧
        (heapMalloc (sixBlocks.heap holeEntries) 8192).1 =
          sixBlocks.start + 4096 * start ∧
        MarksExactly (sixBlocks.heap holeEntries).table
          (heapMalloc (sixBlocks.heap holeEntries) 8192).2.table
          ⟨start, blocksFor 8192⟩ := by
  refine ⟨by decide +kernel, malloc_first_fit sixBlocks holeEntries (by decide)
    (by decide) ⟨3, by decide +kernel, ?_⟩⟩
  intro block contains
  have := Range.contains_iff.mp contains
  simp only [blocksFor] at this
  obtain rfl | rfl : block = 3 ∨ block = 4 := by omega
  · decide +kernel
  · decide +kernel

structure FailsCleanly (heap : Heap) (size : Nat) : Prop where
  null : (heapMalloc heap size).1 = 0
  unchanged : ∀ block < heap.table.totalEntries,
    (heapMalloc heap size).2.table.entries block = heap.table.entries block
  inside : ∀ i ∈ heapMallocWrites heap size, 0 ≤ i ∧ i < heap.table.totalEntries

/-- The blocks a size is rounded to: those that hold it, or none when the rounding
wraps. -/
theorem alignedBlocks_cases {size : Nat} (word : size < 2 ^ 32) :
    heapAligneValueToUpper size / heapBlockSize = 0 ∧
        (size = 0 ∨ 0xFFFFF000 < size) ∨
      heapAligneValueToUpper size / heapBlockSize = blocksFor size ∧
        1 ≤ size ∧ size ≤ 0xFFFFF000 := by
  by_cases large : 0xFFFFF000 < size
  · exact .inl ⟨alignedBlocks_of_wrap large word, .inr large⟩
  · rcases Nat.eq_zero_or_pos size with rfl | positive
    · exact .inl ⟨rfl, .inl rfl⟩
    · exact .inr ⟨alignedBlocks_of_fits (by omega), positive, by omega⟩

theorem not_endsTaken {region : Region} {entries : Int → Byte} {start : Nat}
    (inside : start < region.capacity)
    (free : (region.heap entries).table.IsFree (region.capacity - 1)) :
    ¬ (region.heap entries).table.EndsTaken := by
  rintro (empty | taken)
  · have : region.capacity = 0 := empty
    omega
  · exact taken free

/-- A request for more than the table has in one run is refused without a trace
exactly when the search does not end inside a free run. -/
theorem malloc_fails_cleanly_iff (region : Region) (entries : Int → Byte)
    {size : Nat} (word : size < 2 ^ 32)
    (noRun : ∀ first,
      ¬ (region.heap entries).table.FreeRun ⟨first, blocksFor size⟩) :
    FailsCleanly (region.heap entries) size ↔
      (region.heap entries).table.EndsTaken := by
  have start := region.start_pos
  obtain ⟨totalBlocks, blocks, sized⟩ : ∃ totalBlocks,
      heapAligneValueToUpper size / heapBlockSize = totalBlocks ∧
        (totalBlocks = 0 ∨ totalBlocks = blocksFor size) := by
    rcases alignedBlocks_cases word with ⟨blocks, -⟩ | ⟨blocks, -⟩
    · exact ⟨0, blocks, .inl rfl⟩
    · exact ⟨_, blocks, .inr rfl⟩
  have ended := heapMalloc_end region entries blocks
  constructor
  · intro clean
    have null := clean.null
    generalize heapMallocWrites (region.heap entries) size = writes at ended
    generalize heapMalloc (region.heap entries) size = result at ended null
    cases ended with
    | granted start some fit =>
        simp only at null
        omega
    | overrun start inside short free none =>
        simp only at null
        omega
    | unmarked start inside zero free =>
        simp only at null
        omega
    | refused ends none => exact ends
  · intro ends
    generalize writesEq : heapMallocWrites (region.heap entries) size = writes at ended
    generalize resultEq : heapMalloc (region.heap entries) size = result at ended
    cases ended with
    | granted start some fit =>
        rcases sized with zero | sized
        · omega
        · exact absurd (sized ▸ fit.run) (noRun start)
    | overrun start inside short free none =>
        exact absurd ends (not_endsTaken inside free)
    | unmarked start inside zero free =>
        exact absurd ends (not_endsTaken inside free)
    | refused ends none =>
        refine ⟨by rw [resultEq], fun block _ => by rw [resultEq], ?_⟩
        rw [writesEq]
        exact fun i member => absurd member List.not_mem_nil

theorem malloc_fails_cleanly_iff_full :
    (sixBlocks.heap fun _ => 0x41).table.EndsTaken ∧
      FailsCleanly (sixBlocks.heap fun _ => 0x41) 8192 := by
  have ends : (sixBlocks.heap fun _ => 0x41).table.EndsTaken :=
    .inr (by decide +kernel)
  refine ⟨ends, (malloc_fails_cleanly_iff sixBlocks _ (by decide) ?_).mpr ends⟩
  rintro first ⟨-, free⟩
  have here := free first (Range.contains_first (show 0 < blocksFor 8192 by decide))
  exact absurd here
    (show ¬ heapGetEntryType 0x41 = heapBlockTableEntryFree by decide)

/-- Four blocks are asked for, the free tail has three: it is handed out, and the
byte behind the table is overwritten. -/
theorem short_tail_handed_out :
    ¬ ∀ (region : Region) (entries : Int → Byte) (size : Nat), 1 ≤ size →
      size < 2 ^ 32 →
      (∀ first, ¬ (region.heap entries).table.FreeRun ⟨first, blocksFor size⟩) →
      FailsCleanly (region.heap entries) size := by
  intro failsClean
  have clean := failsClean sixBlocks holeEntries 16384 (by decide) (by decide) (by
    rintro first ⟨fits, free⟩
    have bound : first + 4 ≤ 6 := fits
    have zero := free 2
    unfold Range.Contains Range.stop blocksFor at zero
    exact absurd (zero (by simp only; omega)) (by decide +kernel))
  exact absurd clean.null (by decide +kernel)

/-- A pointer that is not null comes with at least one block and enough of them
for `size` bytes, free before and taken now. -/
def Backed (heap : Heap) (size : Nat) (result : Nat × Heap) : Prop :=
  result.1 ≠ 0 → ∃ range : Range, 0 < range.length ∧
    size ≤ 4096 * range.length ∧ result.1 = heap.startAddr + 4096 * range.first ∧
    heap.table.FreeRun range ∧
    ∀ block, range.Contains block →
      heapGetEntryType (result.2.table.entries block) = heapBlockTableEntryTaken

structure AllocatesEnough (heap : Heap) (ram : Nat → Byte) (size : Nat) : Prop where
  heapMalloc : Backed heap size (heapMalloc heap size)
  kmalloc : Backed heap size (Kheap.kmalloc heap size)
  kzalloc : Backed heap size (Kheap.kzalloc heap ram size).1

theorem kzalloc_fst (heap : Heap) (ram : Nat → Byte) (size : Nat) :
    (Kheap.kzalloc heap ram size).1 = heapMalloc heap size := by
  unfold Kheap.kzalloc Kheap.kmalloc
  simp only
  split
  · rename_i null
    exact Prod.ext null.symm rfl
  · rfl

theorem allocatesEnough_iff_backed (heap : Heap) (ram : Nat → Byte) (size : Nat) :
    AllocatesEnough heap ram size ↔ Backed heap size (heapMalloc heap size) := by
  constructor
  · exact fun enough => enough.heapMalloc
  · exact fun backed => ⟨backed, backed, by rwa [kzalloc_fst]⟩

theorem blocksFor_holds (size : Nat) : size ≤ 4096 * blocksFor size := by
  unfold blocksFor
  omega

theorem blocksFor_le_of_holds {size length : Nat} (holds : size ≤ 4096 * length) :
    blocksFor size ≤ length := by
  unfold blocksFor
  omega

theorem HeapTable.FreeRun.shorten {table : HeapTable} {range : Range}
    (run : table.FreeRun range) {length : Nat} (shorter : length ≤ range.length) :
    table.FreeRun ⟨range.first, length⟩ := by
  obtain ⟨inside, free⟩ := run
  unfold Range.stop at inside
  refine ⟨by simp only [Range.stop]; omega, fun block contains => free block ?_⟩
  rw [Range.contains_iff] at contains ⊢
  simp only at contains
  omega

theorem FirstFit.backed {region : Region} {entries : Int → Byte}
    {size start : Nat} (positive : 0 < blocksFor size)
    (fit : FirstFit (region.heap entries).table (blocksFor size) start) :
    Backed (region.heap entries) size (region.start + 4096 * start,
      heapMarkBlocksTaken (region.heap entries) start (blocksFor size)) := fun _ =>
  ⟨⟨start, blocksFor size⟩, positive, blocksFor_holds size, rfl, fit.run,
    (marksExactly_heapMarkBlocksTaken _ positive fit.bounded).taken⟩

theorem not_backed_unmarked {region : Region} {entries : Int → Byte} {size start : Nat} :
    ¬ Backed (region.heap entries) size
      (region.start + 4096 * start, region.heap entries) := by
  intro backed
  have startPos := region.start_pos
  obtain ⟨range, some, -, -, run, taken⟩ := backed (by simp only; omega)
  have free := run.2 _ (Range.contains_first some)
  have marked := taken _ (Range.contains_first some)
  unfold HeapTable.IsFree at free
  rw [free] at marked
  exact absurd marked (by decide)

/-- An address stands for enough blocks exactly when the table ends with a taken
entry, or the size is in range and a run is long enough for it. -/
theorem allocates_enough_iff (region : Region) (entries : Int → Byte)
    (ram : Nat → Byte) {size : Nat} (word : size < 2 ^ 32) :
    AllocatesEnough (region.heap entries) ram size ↔
      (region.heap entries).table.EndsTaken ∨
        1 ≤ size ∧ size ≤ 0xFFFFF000 ∧
          ∃ first, (region.heap entries).table.FreeRun ⟨first, blocksFor size⟩ := by
  rw [allocatesEnough_iff_backed]
  rcases alignedBlocks_cases word with ⟨blocks, extreme⟩ | ⟨blocks, positive, bounded⟩
  · have ended := heapMalloc_end region entries blocks
    generalize heapMallocWrites (region.heap entries) size = writes at ended
    generalize heapMalloc (region.heap entries) size = result at *
    cases ended with
    | granted start some fit => omega
    | overrun start inside short free none => omega
    | unmarked start inside zero free =>
        refine iff_of_false not_backed_unmarked ?_
        rintro (ends | ⟨positive, bounded, -⟩)
        · exact not_endsTaken inside free ends
        · omega
    | refused ends none => exact iff_of_true (fun some => absurd rfl some) (.inl ends)
  · have some := blocksFor_pos positive
    have ended := heapMalloc_end region entries blocks
    generalize heapMallocWrites (region.heap entries) size = writes at ended
    generalize heapMalloc (region.heap entries) size = result at *
    cases ended with
    | granted start _ fit =>
        exact iff_of_true (fit.backed some) (.inr ⟨positive, bounded, start, fit.run⟩)
    | overrun start inside short free none =>
        refine iff_of_false ?_ ?_
        · intro backed
          have startPos := region.start_pos
          obtain ⟨range, -, holds, -, run, -⟩ := backed (by simp only; omega)
          exact none _ (run.shorten (blocksFor_le_of_holds holds))
        · rintro (ends | ⟨-, -, first, run⟩)
          · exact not_endsTaken inside free ends
          · exact none first run
    | unmarked start inside zero free => omega
    | refused ends none => exact iff_of_true (fun some => absurd rfl some) (.inl ends)

theorem allocates_enough_iff_pair :
    AllocatesEnough (sixBlocks.heap fun _ => 0) (fun _ => 0) 8192 :=
  (allocates_enough_iff sixBlocks _ _ (by decide)).mpr (.inr ⟨by decide, by decide, 0,
    by decide +kernel, fun _ _ =>
      show heapGetEntryType 0 = heapBlockTableEntryFree by decide⟩)

/-- A request for no bytes gets the address of a block that stays free. -/
theorem zero_bytes_unbacked :
    ¬ ∀ (region : Region) (entries : Int → Byte) (ram : Nat → Byte) (size : Nat),
      size < 2 ^ 32 → AllocatesEnough (region.heap entries) ram size := by
  intro givesEnough
  have enough := givesEnough sixBlocks (fun _ => 0) (fun _ => 0) 0 (by decide)
  obtain ⟨range, some, -, -, -, taken⟩ := enough.heapMalloc (by decide +kernel)
  have marked := taken _ (Range.contains_first some)
  have unchanged := heapMalloc_unwritten (sixBlocks.heap fun _ => 0) 0
    (i := (range.first : Int)) (by
      have none : heapMallocWrites (sixBlocks.heap fun _ => 0) 0 = [] := by
        decide +kernel
      rw [none]
      exact List.not_mem_nil)
  rw [unchanged] at marked
  exact absurd marked (show ¬ heapGetEntryType 0 = heapBlockTableEntryTaken by decide)

end LazyOS.Memory

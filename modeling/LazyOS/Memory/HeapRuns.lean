import LazyOS.Data.Run
import LazyOS.Memory.HeapBlocks

namespace LazyOS.Memory

open LazyOS.Data

/-! Whole runs of the heap.  Beside the heap a run carries the allocations its
callers still hold; nothing in the code reads them. -/

/-- A block-aligned piece of memory.  No object of the kernel sits at the null
address. -/
structure Region where
  start : Nat
  stop : Nat
  start_pos : 0 < start
  start_le : start ≤ stop
  stop_lt : stop < 2 ^ 32
  start_aligned : start % heapBlockSize = 0
  stop_aligned : stop % heapBlockSize = 0

def Region.capacity (region : Region) : Nat :=
  (region.stop - region.start) / heapBlockSize

structure Allocation where
  pointer : Nat
  size : Nat
deriving DecidableEq, Repr

def blocksFor (size : Nat) : Nat := (size + 4095) / 4096

def Allocation.range (startAddr : Nat) (allocation : Allocation) : Range :=
  ⟨(allocation.pointer - startAddr) / 4096, blocksFor allocation.size⟩

structure HeapState where
  heap : Heap
  live : List Allocation

inductive HeapOp
  | malloc (size : Nat)
  | free (ptr : Nat)

def HeapState.apply (state : HeapState) : HeapOp → HeapState
  | .malloc size =>
      let result := heapMalloc state.heap size
      { heap := result.2
        live :=
          if result.1 = 0 then state.live else ⟨result.1, size⟩ :: state.live }
  | .free ptr =>
      { heap := heapFree state.heap ptr
        live := state.live.filter fun allocation => allocation.pointer ≠ ptr }

/-- The calls the heap has to serve: sizes that do not wrap when rounded up, and
releases of pointers that are held. -/
def HeapOp.Allowed (state : HeapState) : HeapOp → Prop
  | .malloc size => 1 ≤ size ∧ size ≤ 0xFFFFF000
  | .free ptr => ∃ allocation ∈ state.live, allocation.pointer = ptr

/-- The calls the heap serves correctly.  The search must find a run or end on a
taken entry, for a free tail that is too short is handed out all the same.  A
released pointer lies less than 2 GiB into the heap, and the block behind a
release of several blocks is free, for that block is cleared as well. -/
def HeapOp.Served (state : HeapState) : HeapOp → Prop
  | .malloc size =>
      (∃ first, state.heap.table.FreeRun ⟨first, blocksFor size⟩) ∨
        state.heap.table.totalEntries = 0 ∨
        ¬ state.heap.table.IsFree (state.heap.table.totalEntries - 1)
  | .free ptr =>
      ptr - state.heap.startAddr < 2 ^ 31 ∧
        ∀ allocation ∈ state.live, allocation.pointer = ptr →
          let range := allocation.range state.heap.startAddr
          range.length = 1 ∨ range.stop = state.heap.table.totalEntries ∨
            state.heap.table.IsFree range.stop

def HeapStep (state : HeapState) (op : HeapOp) (next : HeapState) : Prop :=
  op.Allowed state ∧ next = state.apply op

def ServedStep (state : HeapState) (op : HeapOp) (next : HeapState) : Prop :=
  op.Served state ∧ HeapStep state op next

def bootState (region : Region) (table : HeapTable) : HeapState :=
  ⟨(createHeap region.start region.stop table).2, []⟩

/-- The live allocations own the table: their ranges are disjoint, inside, and
cover exactly the entries that are not free. -/
structure LiveRangesExact (state : HeapState) : Prop where
  disjoint : state.live.Pairwise fun left right =>
    (left.range state.heap.startAddr).Disjoint (right.range state.heap.startAddr)
  inside : ∀ allocation ∈ state.live,
    (allocation.range state.heap.startAddr).stop ≤ state.heap.table.totalEntries
  taken_iff : ∀ block < state.heap.table.totalEntries,
    ¬ state.heap.table.IsFree block ↔
      ∃ allocation ∈ state.live,
        (allocation.range state.heap.startAddr).Contains block

structure Represents {startAddr capacity : Nat} (table : HeapTable)
    (ledger : Ledger (Allocation.range startAddr) capacity) : Prop where
  marked : ∀ allocation ∈ ledger.owners, ∀ block,
    (allocation.range startAddr).Contains block →
      table.entries block = blockMark (allocation.range startAddr) block
  cleared : ∀ block < capacity, ¬ ledger.Covered block →
    table.entries block = heapBlockTableEntryFree

structure HeapInv (region : Region) (state : HeapState) : Prop where
  startAddr_eq : state.heap.startAddr = region.start
  total_eq : state.heap.table.totalEntries = region.capacity
  placed : ∀ allocation ∈ state.live,
    allocation.pointer =
      region.start + 4096 * (allocation.range region.start).first
  accounted : ∃ ledger : Ledger (Allocation.range region.start) region.capacity,
    ledger.owners = state.live ∧ Represents state.heap.table ledger

theorem Represents.isFree_iff {startAddr capacity : Nat} {table : HeapTable}
    {ledger : Ledger (Allocation.range startAddr) capacity}
    (represents : Represents table ledger) {block : Nat}
    (inside : block < capacity) :
    table.IsFree block ↔ ¬ ledger.Covered block := by
  constructor
  · rintro free ⟨allocation, member, contains⟩
    refine heapGetEntryType_blockMark (allocation.range startAddr) block ?_
    rw [← represents.marked allocation member block contains]
    exact free
  · intro uncovered
    unfold HeapTable.IsFree
    rw [represents.cleared block inside uncovered]
    decide

theorem HeapInv.liveRangesExact {region : Region} {state : HeapState}
    (inv : HeapInv region state) : LiveRangesExact state := by
  obtain ⟨ledger, owners, represents⟩ := inv.accounted
  refine ⟨?_, ?_, ?_⟩
  · rw [inv.startAddr_eq, ← owners]
    exact ledger.disjoint
  · rw [inv.startAddr_eq, inv.total_eq, ← owners]
    exact ledger.inside
  · intro block inside
    rw [inv.total_eq] at inside
    rw [represents.isFree_iff inside, not_not, inv.startAddr_eq, ← owners]
    rfl

theorem HeapInv.total_lt {region : Region} {state : HeapState}
    (inv : HeapInv region state) : state.heap.table.totalEntries < 2 ^ 20 := by
  have := region.stop_lt
  rw [inv.total_eq]
  unfold Region.capacity heapBlockSize
  omega

theorem bootState_inv {region : Region} {table : HeapTable}
    (accepted : (createHeap region.start region.stop table).1 = 0) :
    HeapInv region (bootState region table) := by
  have le := region.start_le
  have lt := region.stop_lt
  have sizeEq : toUInt32 ((region.stop : Int) - region.start) =
      region.stop - region.start := by
    have := toUInt32_of_range ((region.stop : Int) - region.start)
      (by omega) (by omega)
    omega
  have checked : heapValidateTable region.start region.stop table = 0 := accepted
  have total : table.totalEntries = region.capacity := by
    unfold heapValidateTable at checked
    rw [sizeEq] at checked
    by_contra different
    unfold Region.capacity at different
    simp [different, einvarg] at checked
  refine ⟨rfl, total, by simp [bootState], Ledger.empty _ _, rfl, ?_, ?_⟩
  · simp [Ledger.empty]
  · intro block inside _
    rw [← total] at inside
    change (if heapValidateTable region.start region.stop table < 0 then
      table.entries else memset table.entries heapBlockTableEntryFree
        table.totalEntries) block = _
    rw [checked, if_neg (by decide)]
    unfold memset
    rw [if_pos (by omega)]

theorem blocksFor_pos {size : Nat} (positive : 1 ≤ size) : 0 < blocksFor size := by
  unfold blocksFor
  omega

theorem alignedBlocks_of_fits {size : Nat} (bounded : size ≤ 0xFFFFF000) :
    heapAligneValueToUpper size / heapBlockSize = blocksFor size := by
  unfold heapAligneValueToUpper heapBlockSize blocksFor
  split <;> omega

theorem heapMalloc_eq (heap : Heap) {size : Nat} (bounded : size ≤ 0xFFFFF000) :
    heapMalloc heap size = heapMallocBlocks heap (blocksFor size) := by
  unfold heapMalloc
  simp only [alignedBlocks_of_fits bounded]

theorem HeapInv.reserve {region : Region} {state : HeapState}
    (inv : HeapInv region state) {first size : Nat} (positive : 1 ≤ size)
    (run : state.heap.table.FreeRun ⟨first, blocksFor size⟩) :
    HeapInv region
      { heap := heapMarkBlocksTaken state.heap first (blocksFor size)
        live := ⟨region.start + 4096 * first, size⟩ :: state.live } := by
  obtain ⟨ledger, owners, represents⟩ := inv.accounted
  have total := inv.total_lt
  have rangeEq : Allocation.range region.start
      ⟨region.start + 4096 * first, size⟩ = ⟨first, blocksFor size⟩ := by
    simp only [Allocation.range]
    congr 1
    omega
  have nonempty := blocksFor_pos positive
  have fits : Range.stop ⟨first, blocksFor size⟩ ≤ region.capacity :=
    inv.total_eq ▸ run.1
  rw [inv.total_eq] at total
  have apply := heapMarkBlocksTaken_apply state.heap
    ⟨first, blocksFor size⟩ nonempty (by omega)
  have fresh : ∀ block, Range.Contains ⟨first, blocksFor size⟩ block →
      ¬ ledger.Covered block := by
    intro block contains
    have inside : block < region.capacity :=
      Nat.lt_of_lt_of_le contains.2 fits
    exact (represents.isFree_iff inside).mp (run.2 block contains)
  refine ⟨inv.startAddr_eq, inv.total_eq, ?_,
    ledger.reserve ⟨region.start + 4096 * first, size⟩
      (by rw [rangeEq]; exact nonempty) (by rw [rangeEq]; exact fits)
      (by rw [rangeEq]; exact fresh), ?_, ?_, ?_⟩
  · intro allocation member
    rcases List.mem_cons.mp member with rfl | earlier
    · rw [rangeEq]
    · exact inv.placed allocation earlier
  · simp only [Ledger.reserve, owners]
  · intro allocation member block contains
    rcases List.mem_cons.mp member with rfl | earlier
    · rw [rangeEq] at contains ⊢
      rw [apply, if_pos contains]
    · rw [apply, if_neg fun new =>
        fresh block new ⟨allocation, earlier, contains⟩]
      exact represents.marked allocation earlier block contains
  · intro block inside uncovered
    have apart := mt (Ledger.covered_reserve block).mpr uncovered
    rw [not_or, rangeEq] at apart
    rw [apply, if_neg apart.1]
    exact represents.cleared block inside apart.2

theorem HeapInv.malloc {region : Region} {state : HeapState}
    (inv : HeapInv region state) {size : Nat}
    (allowed : (HeapOp.malloc size).Allowed state)
    (served : (HeapOp.malloc size).Served state) :
    HeapInv region (state.apply (.malloc size)) := by
  have nonempty := blocksFor_pos allowed.1
  have regionBound := region.stop_lt
  have regionStart := region.start_pos
  have total := inv.total_eq
  unfold Region.capacity heapBlockSize at total
  obtain ⟨result, ended, resultEq⟩ :=
    heapGetStartBlock_end state.heap (blocksFor size) nonempty inv.total_lt
  simp only [HeapState.apply, heapMalloc_eq state.heap allowed.2,
    heapMallocBlocks, resultEq]
  cases ended with
  | found start run least =>
      have fits : start + blocksFor size ≤ state.heap.table.totalEntries := run.1
      have address : heapBlockToAddress state.heap start =
          region.start + 4096 * start := by
        have := toUInt32_of_range
          ((state.heap.startAddr : Int) + start * heapBlockSize)
          (by unfold heapBlockSize; omega)
          (by rw [inv.startAddr_eq]; unfold heapBlockSize; omega)
        unfold heapBlockToAddress
        rw [inv.startAddr_eq] at this ⊢
        unfold heapBlockSize at this ⊢
        omega
      rw [if_neg (by omega), if_neg (by omega)]
      simp only [Int.toNat_natCast, address]
      rw [if_neg (by omega)]
      exact inv.reserve allowed.1 run
  | short start inside overrun free none =>
      exfalso
      rcases served with ⟨first, run⟩ | empty | taken
      · exact none first run
      · omega
      · exact taken (free _ (by omega) (by omega))
  | full boundary none =>
      rw [if_pos rfl, if_pos (by decide)]
      simpa using inv

theorem HeapInv.heapFree_entries {region : Region} {state : HeapState}
    (inv : HeapInv region state) {released : Allocation}
    (member : released ∈ state.live)
    (served : (HeapOp.free released.pointer).Served state) (current : Nat) :
    (heapFree state.heap released.pointer).table.entries current =
      if (released.range region.start).Contains current then heapBlockTableEntryFree
      else state.heap.table.entries current := by
  obtain ⟨ledger, owners, represents⟩ := inv.accounted
  have total := inv.total_lt
  have owned : released ∈ ledger.owners := owners ▸ member
  have placed := inv.placed released member
  have near := served.1
  have boundary := served.2 released member rfl
  rw [inv.startAddr_eq] at near boundary
  rw [inv.total_eq] at total boundary
  have marked := represents.marked released owned
  have positive := ledger.nonempty released owned
  have fits : (released.range region.start).first + (released.range region.start).length ≤
      region.capacity := ledger.inside released owned
  generalize released.range region.start = range at *
  -- The pointer leads back to the first block of the range.
  have block : heapAddressToBlock state.heap released.pointer = range.first := by
    unfold heapAddressToBlock heapBlockSize
    rw [inv.startAddr_eq, toInt32_of_range (by omega) (by omega),
      Int.tdiv_eq_ediv_of_nonneg (by omega)]
    omega
  have limit : toInt32 state.heap.table.totalEntries = region.capacity := by
    rw [inv.total_eq]
    exact toInt32_of_range (by omega) (by omega)
  simp only [heapFree, heapMarkBlocksFree, block, limit,
    Heap.setEntries_entries]
  apply heapMarkBlocksFreeLoop_range _ range _ positive (by omega)
  · exact marked
  · rcases boundary with single | ends | free
    · exact .inl single
    · right; left
      unfold Range.stop at ends
      omega
    · right
      by_cases ends : range.stop = region.capacity
      · left
        unfold Range.stop at ends
        omega
      · right
        have inside : range.stop < region.capacity := by
          unfold Range.stop at *
          omega
        exact represents.cleared _ inside
          ((represents.isFree_iff inside).mp free)

theorem HeapInv.free {region : Region} {state : HeapState}
    (inv : HeapInv region state) {ptr : Nat}
    (allowed : (HeapOp.free ptr).Allowed state)
    (served : (HeapOp.free ptr).Served state) :
    HeapInv region (state.apply (.free ptr)) := by
  obtain ⟨released, member, rfl⟩ := allowed
  have entries := inv.heapFree_entries member served
  obtain ⟨ledger, owners, represents⟩ := inv.accounted
  have owned : released ∈ ledger.owners := owners ▸ member
  simp only [HeapState.apply]
  refine ⟨?_, ?_, ?_,
    ledger.retain fun allocation => allocation.pointer ≠ released.pointer,
    ?_, ?_, ?_⟩
  · rw [heapFree_startAddr, inv.startAddr_eq]
  · rw [heapFree_totalEntries, inv.total_eq]
  · intro allocation kept
    exact inv.placed allocation (List.mem_filter.mp kept).1
  · simp only [Ledger.retain, owners]
  · intro allocation kept current contains
    obtain ⟨before, different⟩ := List.mem_filter.mp kept
    have outside : ¬ (released.range region.start).Contains current := by
      intro inReleased
      obtain rfl := ledger.extent_eq_of_common before owned contains inReleased
      simp at different
    rw [entries, if_neg outside]
    exact represents.marked allocation before current contains
  · intro current inside uncovered
    rw [entries]
    split
    · rfl
    · rename_i outside
      apply represents.cleared current inside
      rintro ⟨allocation, before, contains⟩
      by_cases same : allocation.pointer = released.pointer
      · have firsts : (allocation.range region.start).first =
            (released.range region.start).first := by
          simp only [Allocation.range, same]
        obtain rfl := ledger.eq_of_first before owned firsts
        exact outside contains
      · exact uncovered ⟨allocation,
          List.mem_filter.mpr ⟨before, by simpa using same⟩, contains⟩

theorem HeapInv.step {region : Region} {state next : HeapState} {op : HeapOp}
    (inv : HeapInv region state) (step : ServedStep state op next) :
    HeapInv region next := by
  obtain ⟨served, allowed, rfl⟩ := step
  cases op with
  | malloc size => exact inv.malloc allowed served
  | free ptr => exact inv.free allowed served

/-- From an accepted heap, every run of served calls keeps the table and the
live allocations in agreement. -/
theorem served_run_liveRangesExact (region : Region) (table : HeapTable)
    (accepted : (createHeap region.start region.stop table).1 = 0)
    {ops : List HeapOp} {state : HeapState}
    (run : Run ServedStep (bootState region table) ops state) :
    LiveRangesExact state :=
  (run.invariant (HeapInv region) (fun _ _ _ inv step => inv.step step)
    (bootState_inv accepted)).liveRangesExact

def threeBlocks : Region where
  start := 0x01000000
  stop := 0x01003000
  start_pos := by decide
  start_le := by decide
  stop_lt := by decide
  start_aligned := by decide
  stop_aligned := by decide

def blankTable : HeapTable := ⟨fun _ => 0, 3⟩

/-- Two allocations fill three blocks and the single block is released first. -/
theorem served_run_liveRangesExact_threeBlocks :
    LiveRangesExact
      (((bootState threeBlocks blankTable).apply (.malloc 4096)).apply
        (.malloc 8192) |>.apply (.free 0x01000000)) := by
  have single : (HeapOp.malloc 4096).Served (bootState threeBlocks blankTable) := by
    refine .inl ⟨0, by decide +kernel, ?_⟩
    intro block contains
    obtain rfl : block = 0 := by
      have := Range.contains_iff.mp contains
      simp only [blocksFor] at this
      omega
    decide +kernel
  have pair : (HeapOp.malloc 8192).Served
      ((bootState threeBlocks blankTable).apply (.malloc 4096)) := by
    refine .inl ⟨1, by decide +kernel, ?_⟩
    intro block contains
    have := Range.contains_iff.mp contains
    simp only [blocksFor] at this
    obtain rfl | rfl : block = 1 ∨ block = 2 := by omega
    · decide +kernel
    · decide +kernel
  have release : (HeapOp.free 0x01000000).Served
      (((bootState threeBlocks blankTable).apply (.malloc 4096)).apply
        (.malloc 8192)) := by
    refine ⟨by decide +kernel, ?_⟩
    decide +kernel
  have held : (HeapOp.free 0x01000000).Allowed
      (((bootState threeBlocks blankTable).apply (.malloc 4096)).apply
        (.malloc 8192)) :=
    ⟨⟨0x01000000, 4096⟩, by decide +kernel, rfl⟩
  exact served_run_liveRangesExact threeBlocks blankTable (by decide +kernel)
    (.next ⟨single, by simp [HeapOp.Allowed], rfl⟩
      (.next ⟨pair, by simp [HeapOp.Allowed], rfl⟩
        (.next ⟨release, held, rfl⟩ (.done _))))

/-- Releasing a two-block allocation also frees the block of its neighbour,
which is still live. -/
theorem heapFree_clears_neighbour :
    ¬ ∀ (region : Region) (table : HeapTable) (ops : List HeapOp)
        (state : HeapState),
      (createHeap region.start region.stop table).1 = 0 →
      Run HeapStep (bootState region table) ops state →
      LiveRangesExact state := by
  intro rangesExact
  let filled := ((bootState threeBlocks blankTable).apply (.malloc 8192)).apply
    (.malloc 4096)
  have held : (HeapOp.free 0x01000000).Allowed filled :=
    ⟨⟨0x01000000, 8192⟩, by decide +kernel, rfl⟩
  have exact : LiveRangesExact (filled.apply (.free 0x01000000)) :=
    rangesExact threeBlocks blankTable _ _ (by decide +kernel)
      (.next ⟨by simp [HeapOp.Allowed], rfl⟩
        (.next ⟨by simp [HeapOp.Allowed], rfl⟩
          (.next ⟨held, rfl⟩ (.done _))))
  have owned := (exact.taken_iff 2 (by decide +kernel)).mpr
    ⟨⟨0x01002000, 4096⟩, by decide +kernel, by decide +kernel⟩
  exact owned (by decide +kernel)

end LazyOS.Memory

import LazyOS.Memory.HeapCalls

namespace LazyOS.Memory

open LazyOS.Data

/-! Releasing a block range right after it was handed out. -/

/-- Any call at all: sizes and pointers are what the callers make of them. -/
def HeapCallStep (state : HeapState) (op : HeapOp) (next : HeapState) : Prop :=
  next = state.apply op

structure FreeMeansZero (region : Region) (heap : Heap) : Prop where
  startAddr_eq : heap.startAddr = region.start
  total_eq : heap.table.totalEntries = region.capacity
  zero : ∀ block < region.capacity, heap.table.IsFree block →
    heap.table.entries block = heapBlockTableEntryFree

theorem FreeMeansZero.heap_eq {region : Region} {heap : Heap}
    (inv : FreeMeansZero region heap) : heap = region.heap heap.table.entries := by
  obtain ⟨⟨entries, totalEntries⟩, startAddr⟩ := heap
  obtain ⟨rfl, rfl, -⟩ := inv
  rfl

theorem HeapInv.freeMeansZero {region : Region} {state : HeapState}
    (inv : HeapInv region state) : FreeMeansZero region state.heap := by
  obtain ⟨ledger, -, represents⟩ := inv.accounted
  refine ⟨inv.startAddr_eq, inv.total_eq, fun block inside free => ?_⟩
  exact represents.cleared block inside ((represents.isFree_iff inside).mp free)

theorem heapMarkBlocksTakenLoop_free (endBlock : Int) (remaining : Nat) (i : Int)
    (entry : Byte) (entries : Int → Byte)
    (marks : heapGetEntryType entry ≠ heapBlockTableEntryFree) {j : Int}
    (free : heapGetEntryType
      (heapMarkBlocksTakenLoop endBlock remaining i entry entries j) =
        heapBlockTableEntryFree) :
    heapMarkBlocksTakenLoop endBlock remaining i entry entries j = entries j := by
  induction remaining generalizing i entry entries with
  | zero => rfl
  | succ remaining ih =>
      simp only [heapMarkBlocksTakenLoop] at free ⊢
      have later := ih _ _ _ (by split <;> decide) free
      rw [later] at free ⊢
      by_cases here : j = i
      · subst here
        rw [Function.update_self] at free
        exact absurd free marks
      · rw [Function.update_of_ne here]

theorem heapMarkBlocksFreeLoop_below (remaining : Nat) (i : Int)
    (entries : Int → Byte) {j : Int} (below : j < i) :
    heapMarkBlocksFreeLoop remaining i entries j = entries j := by
  induction remaining generalizing i entries with
  | zero => rfl
  | succ remaining ih =>
      simp only [heapMarkBlocksFreeLoop]
      split
      · rw [Function.update_of_ne (by omega)]
      · rw [ih _ _ (by omega), Function.update_of_ne (by omega)]

theorem heapMarkBlocksFreeLoop_head (remaining : Nat) (i : Int)
    (entries : Int → Byte) :
    heapMarkBlocksFreeLoop (remaining + 1) i entries i = heapBlockTableEntryFree := by
  simp only [heapMarkBlocksFreeLoop]
  split
  · rw [Function.update_self]
  · rw [heapMarkBlocksFreeLoop_below _ _ _ (by omega), Function.update_self]

theorem heapMarkBlocksFreeLoop_reach (remaining : Nat) (i : Int)
    (entries : Int → Byte) {j : Int}
    (changed : heapMarkBlocksFreeLoop remaining i entries j ≠ entries j) :
    heapMarkBlocksFreeLoop remaining i entries j = heapBlockTableEntryFree ∧
      ∀ k, i ≤ k → k < j → entries k &&& heapBlockHasNext ≠ 0 ∧
        heapMarkBlocksFreeLoop remaining i entries k = heapBlockTableEntryFree := by
  induction remaining generalizing i entries with
  | zero => exact absurd rfl changed
  | succ remaining ih =>
      by_cases here : j = i
      · subst here
        exact ⟨heapMarkBlocksFreeLoop_head _ _ _, fun k lower upper => by omega⟩
      · have first := heapMarkBlocksFreeLoop_head remaining i entries
        simp only [heapMarkBlocksFreeLoop] at changed first ⊢
        split at changed
        · exact absurd (Function.update_of_ne here _ _) changed
        · rename_i flagged
          rw [if_neg flagged] at first ⊢
          obtain ⟨cleared, walked⟩ := ih (i + 1)
            (Function.update entries i heapBlockTableEntryFree)
            (by rwa [Function.update_of_ne here])
          refine ⟨cleared, fun k lower upper => ?_⟩
          by_cases start : k = i
          · subst start
            exact ⟨flagged, first⟩
          · have := walked k (by omega) upper
            rwa [Function.update_of_ne start] at this

theorem heapMalloc_freeMeansZero {region : Region} {heap : Heap}
    (inv : FreeMeansZero region heap) (size : Nat) :
    FreeMeansZero region (heapMalloc heap size).2 := by
  unfold heapMalloc heapMallocBlocks
  simp only
  split
  · exact inv
  · refine ⟨inv.startAddr_eq, inv.total_eq, fun block inside free => ?_⟩
    unfold HeapTable.IsFree at free
    simp only [heapMarkBlocksTaken, Heap.setEntries_entries] at free ⊢
    have kept := heapMarkBlocksTakenLoop_free _ _ _ _ _ (by split <;> decide) free
    rw [kept] at free ⊢
    exact inv.zero block inside free

theorem heapFree_freeMeansZero {region : Region} {heap : Heap}
    (inv : FreeMeansZero region heap) (ptr : Nat) :
    FreeMeansZero region (heapFree heap ptr) := by
  refine ⟨(heapFree_startAddr heap ptr).trans inv.startAddr_eq,
    (heapFree_totalEntries heap ptr).trans inv.total_eq, fun block inside free => ?_⟩
  unfold HeapTable.IsFree at free
  simp only [heapFree, heapMarkBlocksFree, Heap.setEntries_entries] at free ⊢
  by_cases kept : heapMarkBlocksFreeLoop
      (toInt32 heap.table.totalEntries - heapAddressToBlock heap ptr).toNat
      (heapAddressToBlock heap ptr) heap.table.entries block = heap.table.entries block
  · rw [kept] at free ⊢
    exact inv.zero block inside free
  · exact (heapMarkBlocksFreeLoop_reach _ _ _ kept).1

theorem heapCallRun_freeMeansZero {region : Region} {table : HeapTable}
    (accepted : (createHeap region.start region.stop table).1 = 0)
    {ops : List HeapOp} {state : HeapState}
    (run : Run HeapCallStep (bootState region table) ops state) :
    FreeMeansZero region state.heap := by
  refine run.invariant (fun state => FreeMeansZero region state.heap) ?_
    (bootState_inv accepted).freeMeansZero
  rintro before op after inv rfl
  cases op with
  | malloc size => exact heapMalloc_freeMeansZero inv size
  | free ptr => exact heapFree_freeMeansZero inv ptr

theorem heapAddressToBlock_near (region : Region) (entries : Int → Byte) {block : Nat}
    (near : block < 2 ^ 19) :
    heapAddressToBlock (region.heap entries) (region.start + 4096 * block) = block := by
  unfold heapAddressToBlock heapBlockSize
  rw [Region.heap_startAddr, toInt32_of_range (by omega) (by omega),
    Int.tdiv_eq_ediv_of_nonneg (by omega)]
  omega

theorem heapAddressToBlock_far (region : Region) (entries : Int → Byte) {block : Nat}
    (far : 2 ^ 19 ≤ block) (inside : block < 2 ^ 20) :
    heapAddressToBlock (region.heap entries) (region.start + 4096 * block) =
      block - 2 ^ 20 := by
  unfold heapAddressToBlock heapBlockSize
  rw [Region.heap_startAddr, toInt32_of_upper (by omega) (by omega)]
  have multiple : ((region.start + 4096 * block : Nat) : Int) - region.start -
      2 ^ 32 = (block - 2 ^ 20) * (4096 : Nat) := by
    push_cast
    ring
  rw [multiple]
  exact Int.mul_tdiv_cancel _ (by decide)

def mallocThenFree (heap : Heap) (size : Nat) : Heap :=
  heapFree (heapMalloc heap size).2 (heapMalloc heap size).1

structure FreeUndoesMalloc (heap : Heap) (size : Nat) : Prop where
  restored : ∀ block < heap.table.totalEntries,
    (mallocThenFree heap size).table.entries block = heap.table.entries block
  others : ∀ block < heap.table.totalEntries, ¬ heap.table.IsFree block →
    ¬ (mallocThenFree heap size).table.IsFree block

/-- The leftmost run for `size` is one block, ends the table or has a free entry
behind it, and starts less than 2 GiB into the heap. -/
def Undoable (table : HeapTable) (size : Nat) : Prop :=
  ∃ start, FirstFit table (blocksFor size) start ∧ start < 2 ^ 19 ∧
    (blocksFor size = 1 ∨ start + blocksFor size = table.totalEntries ∨
      table.IsFree (start + blocksFor size))

theorem mallocThenFree_entries {region : Region} {entries : Int → Byte} {size start : Nat}
    (positive : 1 ≤ size) (bounded : size ≤ 0xFFFFF000)
    (fit : FirstFit (region.heap entries).table (blocksFor size) start) :
    (mallocThenFree (region.heap entries) size).table.entries =
      heapMarkBlocksFreeLoop
        ((region.capacity : Int) -
          heapAddressToBlock (region.heap entries) (region.start + 4096 * start)).toNat
        (heapAddressToBlock (region.heap entries) (region.start + 4096 * start))
        (heapMarkBlocksTaken (region.heap entries) start
          (blocksFor size)).table.entries := by
  obtain ⟨found, foundFit, called⟩ := heapMalloc_fits positive bounded ⟨start, fit.run⟩
  obtain rfl := foundFit.unique fit
  have capacity := region.capacity_lt
  have limit : toInt32 region.capacity = region.capacity :=
    toInt32_of_range (by omega) (by omega)
  unfold mallocThenFree heapFree heapMarkBlocksFree
  rw [called]
  simp only [Heap.setEntries_entries]
  rw [show (heapMarkBlocksTaken (region.heap entries) found
    (blocksFor size)).table.totalEntries = region.capacity from rfl, limit]
  rfl

theorem FirstFit.undone {region : Region} {entries : Int → Byte} {size start : Nat}
    (zero : ∀ block < region.capacity, (region.heap entries).table.IsFree block →
      entries block = heapBlockTableEntryFree)
    (positive : 1 ≤ size) (bounded : size ≤ 0xFFFFF000)
    (fit : FirstFit (region.heap entries).table (blocksFor size) start)
    (near : start < 2 ^ 19)
    (boundary : blocksFor size = 1 ∨ start + blocksFor size = region.capacity ∨
      (region.heap entries).table.IsFree (start + blocksFor size))
    {block : Nat} (inside : block < region.capacity) :
    (mallocThenFree (region.heap entries) size).table.entries block =
      entries block := by
  have some := blocksFor_pos positive
  have fits : start + blocksFor size ≤ region.capacity := fit.run.1
  have apply := heapMarkBlocksTaken_apply (region.heap entries)
    ⟨start, blocksFor size⟩ some fit.bounded
  simp only at apply
  rw [mallocThenFree_entries positive bounded fit,
    heapAddressToBlock_near region entries near]
  rw [heapMarkBlocksFreeLoop_range _ ⟨start, blocksFor size⟩ _ some (by simp only; omega)]
  · split
    · rename_i contains
      exact (zero block inside (fit.run.2 block contains)).symm
    · rename_i outside
      rw [apply, if_neg outside]
      rfl
  · intro block contains
    rw [apply, if_pos contains]
  · rcases boundary with single | ends | free
    · exact .inl single
    · right; left
      simp only
      omega
    · right
      by_cases ends : start + blocksFor size = region.capacity
      · left
        simp only
        omega
      · right
        have outside : ¬ Range.Contains ⟨start, blocksFor size⟩
            (start + blocksFor size) := fun contains =>
          absurd contains.2 (by simp [Range.stop])
        have behind := apply (start + blocksFor size)
        rw [if_neg outside] at behind
        exact behind.trans (zero _ (by omega) free)

/-- A release that misses the range through the sign of its offset does not restore
the table: it would have to walk there through the entries before the range. -/
theorem FirstFit.near_of_restored {region : Region} {entries : Int → Byte}
    {size start : Nat} (positive : 1 ≤ size) (bounded : size ≤ 0xFFFFF000)
    (fit : FirstFit (region.heap entries).table (blocksFor size) start)
    (restored : ∀ block < region.capacity,
      (mallocThenFree (region.heap entries) size).table.entries block =
        entries block) : start < 2 ^ 19 := by
  by_contra far
  have some := blocksFor_pos positive
  have fits : start + blocksFor size ≤ region.capacity := fit.run.1
  have capacity := region.capacity_lt
  have apply := heapMarkBlocksTaken_apply (region.heap entries)
    ⟨start, blocksFor size⟩ some fit.bounded
  simp only at apply
  have contains : Range.Contains ⟨start, blocksFor size⟩ start :=
    Range.contains_first some
  rw [mallocThenFree_entries positive bounded fit,
    heapAddressToBlock_far region entries (by omega) (by omega)] at restored
  have changed : heapMarkBlocksFreeLoop
      ((region.capacity : Int) - (start - 2 ^ 20)).toNat (start - 2 ^ 20)
      (heapMarkBlocksTaken (region.heap entries) start (blocksFor size)).table.entries
      start ≠
      (heapMarkBlocksTaken (region.heap entries) start (blocksFor size)).table.entries
        start := by
    rw [restored start (by omega), apply, if_pos contains]
    intro same
    refine heapGetEntryType_blockMark ⟨start, blocksFor size⟩ start ?_
    rw [← same]
    exact fit.run.2 start contains
  obtain ⟨-, walked⟩ := heapMarkBlocksFreeLoop_reach _ _ _ changed
  obtain ⟨flagged, cleared⟩ := walked (0 : Nat) (by omega) (by omega)
  have outside : ¬ Range.Contains ⟨start, blocksFor size⟩ 0 := by
    rintro ⟨lower, -⟩
    simp only at lower
    omega
  rw [restored 0 (by omega)] at cleared
  rw [apply, if_neg outside] at flagged
  rw [Region.heap_entries, cleared] at flagged
  exact flagged (by decide)

theorem FirstFit.boundary_of_restored {region : Region} {entries : Int → Byte}
    {size start : Nat} (positive : 1 ≤ size) (bounded : size ≤ 0xFFFFF000)
    (fit : FirstFit (region.heap entries).table (blocksFor size) start)
    (near : start < 2 ^ 19)
    (restored : ∀ block < region.capacity,
      (mallocThenFree (region.heap entries) size).table.entries block =
        entries block) :
    blocksFor size = 1 ∨ start + blocksFor size = region.capacity ∨
      (region.heap entries).table.IsFree (start + blocksFor size) := by
  by_contra neither
  rw [not_or, not_or] at neither
  obtain ⟨several, before, taken⟩ := neither
  have some := blocksFor_pos positive
  have fits : start + blocksFor size ≤ region.capacity := fit.run.1
  have apply := heapMarkBlocksTaken_apply (region.heap entries)
    ⟨start, blocksFor size⟩ some fit.bounded
  simp only at apply
  have behind := restored (start + blocksFor size) (by omega)
  rw [mallocThenFree_entries positive bounded fit,
    heapAddressToBlock_near region entries near] at behind
  obtain ⟨rest, turns⟩ : ∃ rest, ((region.capacity : Int) - start).toNat =
      blocksFor size + (rest + 1) :=
    ⟨region.capacity - start - blocksFor size - 1, by omega⟩
  have flagged : ∀ j : Int, start ≤ j → j < start + blocksFor size →
      (heapMarkBlocksTaken (region.heap entries) start
        (blocksFor size)).table.entries j &&& heapBlockHasNext ≠ 0 := by
    intro j lower upper
    obtain ⟨block, rfl⟩ := Int.eq_ofNat_of_zero_le (show 0 ≤ j by omega)
    have contains : Range.Contains ⟨start, blocksFor size⟩ block :=
      Range.contains_iff.mpr (by simp only; omega)
    have marked := apply block
    rw [if_pos contains] at marked
    exact marked ▸ blockMark_hasNext (by simp only; omega) block
  rw [turns, heapMarkBlocksFreeLoop_flagged _ _ _ _ flagged] at behind
  push_cast at behind
  rw [heapMarkBlocksFreeLoop_head] at behind
  apply taken
  unfold HeapTable.IsFree
  rw [Region.heap_entries]
  push_cast
  rw [← behind]
  decide

/-- After any calls, a request that fits and its immediate release leave the table
as it was exactly when the release stops at the range: the last block of several
says that one more follows. -/
theorem free_undoes_malloc_iff (region : Region) (table : HeapTable)
    (accepted : (createHeap region.start region.stop table).1 = 0)
    {ops : List HeapOp} {state : HeapState}
    (run : Run HeapCallStep (bootState region table) ops state) {size : Nat}
    (positive : 1 ≤ size) (bounded : size ≤ 0xFFFFF000)
    (fits : ∃ first, state.heap.table.FreeRun ⟨first, blocksFor size⟩) :
    FreeUndoesMalloc state.heap size ↔ Undoable state.heap.table size := by
  have inv := heapCallRun_freeMeansZero accepted run
  generalize state.heap = heap at *
  have zero := inv.zero
  rw [inv.heap_eq] at fits zero ⊢
  generalize heap.table.entries = entries at *
  obtain ⟨start, fit, -⟩ := heapMalloc_fits positive bounded fits
  constructor
  · intro undoes
    have near := fit.near_of_restored positive bounded undoes.restored
    exact ⟨start, fit, near,
      fit.boundary_of_restored positive bounded near undoes.restored⟩
  · rintro ⟨other, otherFit, near, boundary⟩
    have restored : ∀ block < region.capacity,
        (mallocThenFree (region.heap entries) size).table.entries block =
          entries block := fun block inside =>
      otherFit.undone zero positive bounded near boundary inside
    refine ⟨restored, fun block inside taken free => taken ?_⟩
    unfold HeapTable.IsFree at free ⊢
    rw [restored block inside] at free
    exact free

theorem free_undoes_malloc_iff_empty :
    FreeUndoesMalloc (bootState threeBlocks blankTable).heap 8192 := by
  have free : ∀ block, block = 0 ∨ block = 1 ∨ block = 2 →
      (bootState threeBlocks blankTable).heap.table.IsFree block := by
    rintro block (rfl | rfl | rfl)
    · decide +kernel
    · decide +kernel
    · decide +kernel
  have run : (bootState threeBlocks blankTable).heap.table.FreeRun
      ⟨0, blocksFor 8192⟩ := by
    refine ⟨by decide +kernel, fun block contains => free block ?_⟩
    have := Range.contains_iff.mp contains
    simp only [blocksFor] at this
    omega
  refine (free_undoes_malloc_iff threeBlocks blankTable (by decide +kernel) (.done _)
    (by decide) (by decide) ⟨0, run⟩).mpr ⟨0, ⟨run, fun first less => ?_⟩, by decide,
      .inr (.inr (free 2 (by decide)))⟩
  exact absurd less (Nat.not_lt_zero first)

theorem heapCallRun_foldl (ops : List HeapOp) (state : HeapState) :
    Run HeapCallStep state ops (ops.foldl HeapState.apply state) := by
  induction ops generalizing state with
  | nil => exact .done state
  | cons op ops ih => exact .next rfl (ih (state.apply op))

def lastTaken : HeapState :=
  [HeapOp.malloc 4096, .malloc 4096, .malloc 4096, .free 0x01000000,
    .free 0x01001000].foldl HeapState.apply (bootState threeBlocks blankTable)

/-- The release of the first two blocks takes the third one with it. -/
theorem release_clears_neighbour :
    ¬ ∀ (region : Region) (table : HeapTable) (ops : List HeapOp) (state : HeapState)
        (size : Nat),
      (createHeap region.start region.stop table).1 = 0 →
      Run HeapCallStep (bootState region table) ops state →
      1 ≤ size → size ≤ 0xFFFFF000 →
      (∃ first, state.heap.table.FreeRun ⟨first, blocksFor size⟩) →
      FreeUndoesMalloc state.heap size := by
  intro undoesAll
  have fits : lastTaken.heap.table.FreeRun ⟨0, blocksFor 8192⟩ := by
    refine ⟨by decide +kernel, fun block contains => ?_⟩
    have := Range.contains_iff.mp contains
    simp only [blocksFor] at this
    obtain rfl | rfl : block = 0 ∨ block = 1 := by omega
    · decide +kernel
    · decide +kernel
  have undoes := undoesAll threeBlocks blankTable _ lastTaken 8192 (by decide +kernel)
    (heapCallRun_foldl _ _)
    (by decide) (by decide) ⟨0, fits⟩
  exact absurd (undoes.restored 2 (by decide +kernel)) (by decide +kernel)

end LazyOS.Memory

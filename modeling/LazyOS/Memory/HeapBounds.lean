import LazyOS.Memory.HeapUndo

namespace LazyOS.Memory

open LazyOS.Data

/-! What `create_heap` lets through, and where the loop of `heap_free` goes. -/

/-- A region that starts and ends on block boundaries and whose blocks the table
counts.  The difference is that of the addresses, not that of two `void *`. -/
def ValidRegion (ptr stop : Nat) (table : HeapTable) : Prop :=
  ptr % heapBlockSize = 0 ∧ stop % heapBlockSize = 0 ∧
    (table.totalEntries : Int) = ((stop : Int) - ptr) / heapBlockSize

structure ValidatesRegion (ptr stop : Nat) (table : HeapTable) : Prop where
  rejects : ¬ ValidRegion ptr stop table → (createHeap ptr stop table).1 < 0
  accepts : ValidRegion ptr stop table →
    (createHeap ptr stop table).1 = 0 ∧
      ∀ block < table.totalEntries,
        (createHeap ptr stop table).2.table.entries block = heapBlockTableEntryFree
  /-- Every address that any later calls return. -/
  aligned : (createHeap ptr stop table).1 = 0 →
    ∀ ops state, Run HeapCallStep ⟨(createHeap ptr stop table).2, []⟩ ops state →
      ∀ size, (heapMalloc state.heap size).1 % heapBlockSize = 0

theorem createHeap_code (ptr stop : Nat) (table : HeapTable) :
    (createHeap ptr stop table).1 =
      if table.totalEntries = toUInt32 ((stop : Int) - ptr) / heapBlockSize then 0
      else -einvarg := by
  change heapValidateTable ptr stop table = _
  unfold heapValidateTable
  simp only [ite_not]

theorem createHeap_cleared {ptr stop : Nat} {table : HeapTable}
    (accepted : (createHeap ptr stop table).1 = 0) {block : Nat}
    (inside : block < table.totalEntries) :
    (createHeap ptr stop table).2.table.entries block = heapBlockTableEntryFree := by
  have checked : heapValidateTable ptr stop table = 0 := accepted
  simp only [createHeap, checked]
  rw [if_neg (by decide), memset, if_pos (by omega)]

theorem heapMalloc_startAddr (heap : Heap) (size : Nat) :
    (heapMalloc heap size).2.startAddr = heap.startAddr := by
  unfold heapMalloc heapMallocBlocks
  simp only
  split
  · rfl
  · exact Heap.setEntries_startAddr heap _

theorem heapMalloc_aligned {heap : Heap} (aligned : heap.startAddr % heapBlockSize = 0)
    (size : Nat) : (heapMalloc heap size).1 % heapBlockSize = 0 := by
  unfold heapMalloc heapMallocBlocks
  simp only
  split
  · rfl
  · unfold heapBlockSize at aligned
    simp only [heapBlockToAddress, toUInt32, heapBlockSize]
    omega

theorem heapCallRun_startAddr {first last : HeapState} {ops : List HeapOp}
    (run : Run HeapCallStep first ops last) :
    last.heap.startAddr = first.heap.startAddr := by
  refine run.invariant (fun state => state.heap.startAddr = first.heap.startAddr) ?_ rfl
  rintro before op after kept rfl
  cases op with
  | malloc size => exact (heapMalloc_startAddr _ size).trans kept
  | free ptr => exact (heapFree_startAddr _ ptr).trans kept

/-- The verdict on the alignment is lost, so only a table of another size makes
`create_heap` refuse; and the size of a region whose end comes first wraps. -/
theorem validates_region_iff {ptr stop : Nat} (table : HeapTable)
    (ptrWord : ptr < 2 ^ 32) (stopWord : stop < 2 ^ 32) :
    ValidatesRegion ptr stop table ↔
      ptr % heapBlockSize = 0 ∧ stop % heapBlockSize = 0 ∧ ptr ≤ stop ∨
        table.totalEntries ≠ toUInt32 ((stop : Int) - ptr) / heapBlockSize := by
  have code := createHeap_code ptr stop table
  constructor
  · intro validates
    by_contra neither
    rw [not_or, not_not] at neither
    obtain ⟨misplaced, matching⟩ := neither
    rw [if_pos matching] at code
    have valid : ValidRegion ptr stop table := by
      by_contra invalid
      have refused := validates.rejects invalid
      omega
    obtain ⟨ptrAligned, stopAligned, counted⟩ := valid
    refine misplaced ⟨ptrAligned, stopAligned, ?_⟩
    unfold heapBlockSize at counted
    omega
  · intro condition
    -- On a region that lies the right way round the two sizes are the same.
    have forward : ptr ≤ stop → toUInt32 ((stop : Int) - ptr) = stop - ptr := by
      intro ordered
      have := toUInt32_of_range ((stop : Int) - ptr) (by omega) (by omega)
      omega
    refine ⟨fun invalid => ?_, fun valid => ?_, fun accepted => ?_⟩
    · rw [code, if_neg]
      · decide
      · rcases condition with ⟨ptrAligned, stopAligned, ordered⟩ | different
        · rw [forward ordered]
          intro counted
          refine invalid ⟨ptrAligned, stopAligned, ?_⟩
          unfold heapBlockSize at counted ⊢
          omega
        · exact different
    · obtain ⟨-, -, counted⟩ := valid
      have ordered : ptr ≤ stop := by
        unfold heapBlockSize at counted
        omega
      have accepted : (createHeap ptr stop table).1 = 0 := by
        rw [code, forward ordered, if_pos]
        unfold heapBlockSize at counted ⊢
        omega
      exact ⟨accepted, fun block inside => createHeap_cleared accepted inside⟩
    · intro ops state run size
      apply heapMalloc_aligned
      rw [heapCallRun_startAddr run]
      rcases condition with ⟨ptrAligned, -⟩ | different
      · exact ptrAligned
      · rw [code, if_neg different] at accepted
        exact absurd accepted (by decide)

theorem validates_region_iff_threeBlocks :
    ValidatesRegion 0x01000000 0x01003000 blankTable :=
  (validates_region_iff blankTable (by decide) (by decide)).mpr
    (.inl ⟨by decide, by decide, by decide⟩)

/-- Half a block off, a region of one block is accepted all the same. -/
theorem misaligned_region_accepted :
    ¬ ∀ (ptr stop : Nat) (table : HeapTable), ptr < 2 ^ 32 → stop < 2 ^ 32 →
      ValidatesRegion ptr stop table := by
  intro validatesAll
  have validates := validatesAll 0x01000800 0x01001800 ⟨fun _ => 0, 1⟩ (by decide) (by decide)
  have refused := validates.rejects fun valid => absurd valid.1 (by decide)
  exact absurd refused (by decide +kernel)

def heapMarkBlocksFreeAccesses : (remaining : Nat) → (i : Int) → (Int → Byte) → List Int
  | 0, _, _ => []
  | remaining + 1, i, entries =>
      let entry := entries i
      let entries := Function.update entries i heapBlockTableEntryFree
      if entry &&& heapBlockHasNext = 0 then [i]
      else i :: heapMarkBlocksFreeAccesses remaining (i + 1) entries

def heapFreeAccesses (heap : Heap) (ptr : Nat) : List Int :=
  let startingBlock := heapAddressToBlock heap ptr
  heapMarkBlocksFreeAccesses (toInt32 heap.table.totalEntries - startingBlock).toNat
    startingBlock heap.table.entries

def LiveStart (heap : Heap) (ptr : Nat) : Prop :=
  ∃ block < heap.table.totalEntries, heapBlockToAddress heap block = ptr ∧
    heapGetEntryType (heap.table.entries block) = heapBlockTableEntryTaken ∧
    heap.table.entries block &&& heapBlockIsFirst ≠ 0

structure StaysInTable (heap : Heap) (ptr : Nat) : Prop where
  inside : ∀ i ∈ heapFreeAccesses heap ptr, 0 ≤ i ∧ i < heap.table.totalEntries
  unchanged : ¬ LiveStart heap ptr → ∀ block < heap.table.totalEntries,
    (heapFree heap ptr).table.entries block = heap.table.entries block

def heapOffset (heap : Heap) (ptr : Nat) : Int :=
  toInt32 ((ptr : Int) - heap.startAddr)

theorem heapMarkBlocksFreeAccesses_mem (remaining : Nat) (i : Int)
    (entries : Int → Byte) {j : Int}
    (member : j ∈ heapMarkBlocksFreeAccesses remaining i entries) :
    i ≤ j ∧ j < i + remaining := by
  induction remaining generalizing i entries with
  | zero => exact absurd member List.not_mem_nil
  | succ remaining ih =>
      simp only [heapMarkBlocksFreeAccesses] at member
      split at member
      · obtain rfl := List.mem_singleton.mp member
        omega
      · rcases List.mem_cons.mp member with rfl | later
        · omega
        · have := ih _ _ later
          omega

theorem heapMarkBlocksFreeAccesses_head (remaining : Nat) (i : Int)
    (entries : Int → Byte) :
    i ∈ heapMarkBlocksFreeAccesses (remaining + 1) i entries := by
  simp only [heapMarkBlocksFreeAccesses]
  split
  · exact List.mem_singleton_self i
  · exact List.mem_cons_self

theorem heapMarkBlocksFreeLoop_unaccessed (remaining : Nat) (i : Int)
    (entries : Int → Byte) {j : Int}
    (untouched : j ∉ heapMarkBlocksFreeAccesses remaining i entries) :
    heapMarkBlocksFreeLoop remaining i entries j = entries j := by
  induction remaining generalizing i entries with
  | zero => rfl
  | succ remaining ih =>
      simp only [heapMarkBlocksFreeAccesses] at untouched
      simp only [heapMarkBlocksFreeLoop]
      split at untouched
      · rename_i last
        rw [if_pos last, Function.update_of_ne]
        simpa using untouched
      · rename_i flagged
        rw [List.mem_cons, not_or] at untouched
        rw [if_neg flagged, ih _ _ untouched.2, Function.update_of_ne untouched.1]

theorem heapFree_unaccessed (heap : Heap) (ptr : Nat) {j : Int}
    (untouched : j ∉ heapFreeAccesses heap ptr) :
    (heapFree heap ptr).table.entries j = heap.table.entries j := by
  simp only [heapFree, heapMarkBlocksFree, Heap.setEntries_entries]
  exact heapMarkBlocksFreeLoop_unaccessed _ _ _ untouched

section

variable {heap : Heap} {ptr : Nat}

theorem heapFreeAccesses_mem {j : Int} (member : j ∈ heapFreeAccesses heap ptr) :
    heapAddressToBlock heap ptr ≤ j ∧ j < toInt32 heap.table.totalEntries := by
  have := heapMarkBlocksFreeAccesses_mem _ _ _ member
  omega

theorem heapFree_first
    (runs : heapAddressToBlock heap ptr < toInt32 heap.table.totalEntries) :
    heapAddressToBlock heap ptr ∈ heapFreeAccesses heap ptr ∧
      (heapFree heap ptr).table.entries (heapAddressToBlock heap ptr) =
        heapBlockTableEntryFree := by
  obtain ⟨rest, turns⟩ := Nat.exists_eq_add_one_of_ne_zero (n :=
    (toInt32 heap.table.totalEntries - heapAddressToBlock heap ptr).toNat) (by omega)
  simp only [heapFreeAccesses, heapFree, heapMarkBlocksFree, Heap.setEntries_entries,
    turns]
  exact ⟨heapMarkBlocksFreeAccesses_head _ _ _, heapMarkBlocksFreeLoop_head _ _ _⟩

theorem heapFree_entries_of_zero
    (zero : heap.table.entries (heapAddressToBlock heap ptr) =
      heapBlockTableEntryFree) (j : Int) :
    (heapFree heap ptr).table.entries j = heap.table.entries j := by
  simp only [heapFree, heapMarkBlocksFree, Heap.setEntries_entries]
  cases (toInt32 heap.table.totalEntries - heapAddressToBlock heap ptr).toNat with
  | zero => rfl
  | succ rest =>
      rw [heapMarkBlocksFreeLoop_stop _ _ _ (by rw [zero]; decide), ← zero,
        Function.update_eq_self]

end

theorem tdiv_block (offset : Int) :
    offset.tdiv heapBlockSize =
      if 0 ≤ offset then offset / 4096 else -(-offset / 4096) := by
  unfold heapBlockSize
  split
  · rename_i positive
    exact Int.tdiv_eq_ediv_of_nonneg positive
  · rename_i negative
    rw [← Int.tdiv_eq_ediv_of_nonneg (show 0 ≤ -offset by omega), Int.neg_tdiv,
      Int.neg_neg]
    rfl

theorem heapAddressToBlock_nonneg_iff (heap : Heap) (ptr : Nat) :
    0 ≤ heapAddressToBlock heap ptr ↔ -4096 < heapOffset heap ptr := by
  have block := tdiv_block (heapOffset heap ptr)
  change heapAddressToBlock heap ptr = _ at block
  split at block
  · omega
  · omega

theorem heapAddressToBlock_of_near {heap : Heap} {ptr : Nat}
    (near : -4096 < heapOffset heap ptr) :
    heapAddressToBlock heap ptr = ((heapOffset heap ptr).toNat / heapBlockSize : Nat) := by
  have block := tdiv_block (heapOffset heap ptr)
  change heapAddressToBlock heap ptr = _ at block
  unfold heapBlockSize
  split at block
  · omega
  · omega

/-- A release stays in the table and spares what is not live exactly when its loop
does not run at all, or its pointer lies less than one block in front of the heap or
less than 2 GiB behind its start and names a live allocation or a zero entry. -/
theorem free_stays_in_table_iff (heap : Heap) (ptr : Nat) :
    StaysInTable heap ptr ↔
      toInt32 heap.table.totalEntries ≤ (heapOffset heap ptr).tdiv heapBlockSize ∨
        -4096 < heapOffset heap ptr ∧
          (LiveStart heap ptr ∨
            heap.table.entries ((heapOffset heap ptr).toNat / heapBlockSize : Nat) =
              heapBlockTableEntryFree) := by
  have total := toInt32_le_natCast heap.table.totalEntries
  change _ ↔ toInt32 heap.table.totalEntries ≤ heapAddressToBlock heap ptr ∨ _
  by_cases idle : toInt32 heap.table.totalEntries ≤ heapAddressToBlock heap ptr
  · refine iff_of_true ⟨fun i member => ?_, fun _ block _ => ?_⟩ (.inl idle)
    · have := heapFreeAccesses_mem member
      omega
    · refine heapFree_unaccessed heap ptr fun member => ?_
      have := heapFreeAccesses_mem member
      omega
  obtain ⟨accessed, cleared⟩ := heapFree_first (not_le.mp idle)
  rw [or_iff_right idle, ← heapAddressToBlock_nonneg_iff]
  constructor
  · rintro ⟨inside, unchanged⟩
    have first := (inside _ accessed).1
    have near := (heapAddressToBlock_nonneg_iff heap ptr).mp first
    refine ⟨first, ?_⟩
    rw [heapAddressToBlock_of_near near] at idle cleared
    by_cases live : LiveStart heap ptr
    · exact .inl live
    · rw [unchanged live _ (by omega)] at cleared
      exact .inr cleared
  · rintro ⟨first, spared⟩
    have near := (heapAddressToBlock_nonneg_iff heap ptr).mp first
    rw [← heapAddressToBlock_of_near near] at spared
    refine ⟨fun i member => ?_, fun dead block _ => ?_⟩
    · have := heapFreeAccesses_mem member
      omega
    · exact heapFree_entries_of_zero (spared.resolve_left dead) block

/-- The null pointer that a failed `kzalloc` returns lies in front of the heap, so
the loop starts 4096 entries in front of the table. -/
theorem null_release_leaves_table :
    ¬ ∀ (heap : Heap) (ptr : Nat), heap.table.totalEntries < 2 ^ 31 → ptr < 2 ^ 32 →
      StaysInTable heap ptr := by
  intro staysInside
  have stays := staysInside (sixBlocks.heap holeEntries) 0 (by decide) (by decide)
  have inside := stays.inside (-4096) (by decide +kernel)
  omega

end LazyOS.Memory

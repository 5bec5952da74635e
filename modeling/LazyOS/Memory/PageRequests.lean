import LazyOS.Data.Lowest
import LazyOS.Memory.FreshPages
import LazyOS.Memory.HeapCalls

namespace LazyOS.Memory

open LazyOS.Data

/-! The kernel's heap behind the requests of `paging.c`.  None of them is for more than
a page, so each takes one block, the lowest that is free. -/

section Blocks

variable {region : Region} {entries : Int → Byte}

def FreeBlock (region : Region) (entries : Int → Byte) (block : Nat) : Prop :=
  block < region.capacity ∧ (region.heap entries).table.IsFree block

instance (region : Region) (entries : Int → Byte) :
    DecidablePred (FreeBlock region entries) := fun _ =>
  inferInstanceAs (Decidable (_ ∧ _))

def freeBlocks (region : Region) (entries : Int → Byte) : Nat :=
  Nat.count (FreeBlock region entries) region.capacity

noncomputable def freeBlock (region : Region) (entries : Int → Byte) (i : Nat) : Nat :=
  Nat.nth (FreeBlock region entries) i

theorem FreeBlock.counted {block : Nat} (free : FreeBlock region entries block) :
    Nat.count (FreeBlock region entries) block < freeBlocks region entries :=
  Nat.count_strict_mono free free.1

theorem freeBlock_spec {i : Nat} (enough : i < freeBlocks region entries) :
    FreeBlock region entries (freeBlock region entries i) ∧
      Nat.count (FreeBlock region entries) (freeBlock region entries i) = i :=
  (nth_of_lt_count enough).2

theorem freeBlock_injective {i j : Nat} (first : i < freeBlocks region entries)
    (second : j < freeBlocks region entries)
    (same : freeBlock region entries i = freeBlock region entries j) : i = j := by
  rw [← (freeBlock_spec first).2, ← (freeBlock_spec second).2, same]

def kernelRegion : Region where
  start := heapAddress
  stop := heapAddress + heapSizeBytes
  start_pos := by norm_num [heapAddress]
  start_le := Nat.le_add_right _ _
  stop_lt := by norm_num [heapAddress, heapSizeBytes]
  start_aligned := by norm_num [heapAddress, heapBlockSize]
  stop_aligned := by norm_num [heapAddress, heapSizeBytes, heapBlockSize]

def requestPage (region : Region) (entries : Int → Byte) : Int → Byte :=
  (heapMalloc (region.heap entries) pagingPageSize).2.table.entries

theorem heapMalloc_page (heap : Heap) {bytes : Nat} (positive : 0 < bytes)
    (small : bytes ≤ pagingPageSize) :
    heapMalloc heap bytes = heapMalloc heap pagingPageSize := by
  unfold pagingPageSize at small ⊢
  have one : blocksFor bytes = 1 := by
    unfold blocksFor
    omega
  rw [heapMalloc_eq heap (by omega), heapMalloc_eq heap (by omega), one]
  rfl

inductive PageRequest (region : Region) (entries : Int → Byte) : Nat × Heap → Prop
  | refused (full : ∀ block, ¬ FreeBlock region entries block) :
      PageRequest region entries (0, region.heap entries)
  | lowest (block : Nat) (free : FreeBlock region entries block)
      (below : ∀ lower < block, ¬ FreeBlock region entries lower)
      (after : Int → Byte)
      (marked : ∀ other, FreeBlock region after other ↔
        FreeBlock region entries other ∧ other ≠ block) :
      PageRequest region entries (region.start + 4096 * block, region.heap after)

theorem freeRun_one {block : Nat} :
    (region.heap entries).table.FreeRun ⟨block, 1⟩ ↔ FreeBlock region entries block := by
  constructor
  · rintro ⟨inside, free⟩
    exact ⟨inside, free block (Range.contains_first Nat.one_pos)⟩
  · rintro ⟨inside, free⟩
    refine ⟨inside, fun other contains => ?_⟩
    rw [Range.contains_iff] at contains
    simp only at contains
    obtain rfl : other = block := by omega
    exact free

theorem heapMalloc_pageRequest (region : Region) (entries : Int → Byte) :
    PageRequest region entries (heapMalloc (region.heap entries) pagingPageSize) := by
  have ended := heapMalloc_end region entries
    (rfl : heapAligneValueToUpper pagingPageSize / heapBlockSize = 1)
  generalize heapMallocWrites (region.heap entries) pagingPageSize = writes at ended
  generalize heapMalloc (region.heap entries) pagingPageSize = result at ended
  cases ended with
  | granted start positive fit =>
      refine .lowest start (freeRun_one.mp fit.run)
        (fun lower less free => fit.least lower less (freeRun_one.mpr free))
        (heapMarkBlocksTaken (region.heap entries) start 1).table.entries ?_
      intro other
      have entry := heapMarkBlocksTaken_apply (region.heap entries) ⟨start, 1⟩ positive
        fit.bounded other
      unfold FreeBlock HeapTable.IsFree
      simp only [Region.heap_entries] at entry ⊢
      rw [entry]
      by_cases here : other = start
      · subst here
        rw [if_pos (Range.contains_first Nat.one_pos)]
        refine iff_of_false (fun free => ?_) (fun free => free.2 rfl)
        exact heapGetEntryType_blockMark _ _ free.2
      · have outside : ¬ Range.Contains ⟨start, 1⟩ other := by
          rw [Range.contains_iff]
          simp only
          omega
        rw [if_neg outside, and_iff_left here]
  | overrun start inside short free none =>
      have last : FreeBlock region entries (region.capacity - 1) := ⟨by omega, free⟩
      exact absurd (freeRun_one.mpr last) (none _)
  | unmarked start inside zero free => exact absurd zero Nat.one_ne_zero
  | refused ends none =>
      refine .refused fun block free => ?_
      rcases none with zero | none
      · exact absurd zero Nat.one_ne_zero
      · exact none block (freeRun_one.mpr free)

theorem heapMalloc_requestPage (region : Region) (entries : Int → Byte) :
    (heapMalloc (region.heap entries) pagingPageSize).2 =
      region.heap (requestPage region entries) := by
  have request := heapMalloc_pageRequest region entries
  unfold requestPage
  generalize heapMalloc (region.heap entries) pagingPageSize = result at request
  cases request with
  | refused full => rfl
  | lowest block free below after marked => rfl

def requestPages (region : Region) (count : Nat) (entries : Int → Byte) : Int → Byte :=
  (requestPage region)^[count] entries

theorem requestPages_succ (region : Region) (count : Nat) (entries : Int → Byte) :
    requestPages region (count + 1) entries =
      requestPage region (requestPages region count entries) :=
  Function.iterate_succ_apply' ..

/-- `after` is `before` with its `taken` lowest free blocks taken. -/
def TakesBlocks (region : Region) (before after : Int → Byte) (taken : Nat) : Prop :=
  ∀ block, FreeBlock region after block ↔
    Placed (FreeBlock region before) taken (freeBlocks region before) block

theorem TakesBlocks.refl (region : Region) (entries : Int → Byte) :
    TakesBlocks region entries entries 0 := by
  intro block
  exact ⟨fun free => ⟨free, Nat.zero_le _, free.counted⟩, fun placed => placed.1⟩

theorem TakesBlocks.request {after : Int → Byte} {taken : Nat}
    (takes : TakesBlocks region entries after taken) :
    (heapMalloc (region.heap after) pagingPageSize).1 =
        (if taken < freeBlocks region entries then
          region.start + 4096 * freeBlock region entries taken else 0) ∧
      TakesBlocks region entries (requestPage region after) (taken + 1) := by
  have request := heapMalloc_pageRequest region after
  unfold requestPage
  generalize heapMalloc (region.heap after) pagingPageSize = result at request
  cases request with
  | refused full =>
      have few : ¬ taken < freeBlocks region entries := by
        intro enough
        obtain ⟨free, counted⟩ := freeBlock_spec enough
        exact full _ ((takes _).mpr ⟨free, by omega, by omega⟩)
      rw [if_neg few]
      refine ⟨rfl, fun block => iff_of_false (full block) ?_⟩
      rintro ⟨-, lower, upper⟩
      omega
  | lowest block free below last marked =>
      obtain ⟨wasFree, lower, upper⟩ := (takes block).mp free
      have counted : Nat.count (FreeBlock region entries) block = taken := by
        refine count_of_least wasFree (fun placed => ?_) fun earlier less freeBefore => ?_
        · have := placed.2.2
          omega
        · refine ⟨freeBefore, Nat.zero_le _, ?_⟩
          by_contra late
          exact below earlier less
            ((takes earlier).mpr ⟨freeBefore, by omega, freeBefore.counted⟩)
      have place : freeBlock region entries taken = block := nth_of_count wasFree counted
      rw [if_pos (by omega), place]
      refine ⟨rfl, fun other => ?_⟩
      rw [placed_pred_iff wasFree counted, ← takes other]
      exact marked other

theorem requestPages_takes (region : Region) (entries : Int → Byte) (count : Nat) :
    TakesBlocks region entries (requestPages region count entries) count := by
  induction count with
  | zero => exact .refl region entries
  | succ count ih =>
      rw [requestPages_succ]
      exact ih.request.2

theorem requestPage_of_full (full : freeBlocks region entries = 0) :
    requestPage region entries = entries := by
  have request := heapMalloc_pageRequest region entries
  unfold requestPage
  generalize heapMalloc (region.heap entries) pagingPageSize = result at request
  cases request with
  | refused full => rfl
  | lowest block free below after marked =>
      have := free.counted
      omega

theorem requestPages_eq_iff (region : Region) (entries : Int → Byte) (count : Nat) :
    requestPages region count entries = entries ↔
      count = 0 ∨ freeBlocks region entries = 0 := by
  constructor
  · intro same
    by_contra both
    obtain ⟨some, free⟩ := not_or.mp both
    obtain ⟨lowest, counted⟩ := freeBlock_spec (Nat.pos_of_ne_zero free)
    have takes := requestPages_takes region entries count
    rw [same] at takes
    have := ((takes _).mp lowest).2.1
    omega
  · rintro (rfl | full)
    · rfl
    · exact Function.iterate_fixed (requestPage_of_full full) count

end Blocks

theorem Region.isPage (region : Region) {block : Nat} (inside : block < region.capacity) :
    IsPage (region.start + 4096 * block) := by
  have aligned := region.start_aligned
  have stop := region.stop_lt
  unfold Region.capacity heapBlockSize at inside
  unfold heapBlockSize at aligned
  constructor
  · unfold pagingPageSize
    omega
  · unfold pagingPageSize
    omega

theorem FreeBlock.isPage {region : Region} {entries : Int → Byte} {block : Nat}
    (free : FreeBlock region entries block) : IsPage (region.start + 4096 * block) :=
  region.isPage free.1

theorem heapMalloc_isPage (region : Region) (entries : Int → Byte) :
    IsPage (heapMalloc (region.heap entries) pagingPageSize).1 := by
  have request := heapMalloc_pageRequest region entries
  generalize heapMalloc (region.heap entries) pagingPageSize = result at request
  cases request with
  | refused full => exact ⟨Nat.dvd_zero _, (by decide : 0 + pagingPageSize ≤ 2 ^ 32)⟩
  | lowest block free below after marked => exact free.isPage

/-- `entries` is the table when `since` requests have been made.  A block that holds a
table or a directory is not free, so the test only keeps the answers fresh. -/
def kernelPages (region : Region) (entries : Int → Byte) (since : Nat) : PageHeap where
  answer calls used :=
    let block := (heapMalloc (region.heap (requestPages region (calls - since) entries))
      pagingPageSize).1
    if block ∈ used then 0 else block
  aligned calls used := by
    simp only
    split
    · exact Nat.dvd_zero _
    · exact (heapMalloc_isPage region _).aligned
  inside calls used := by
    simp only
    split
    · decide
    · exact (heapMalloc_isPage region _).inside
  fresh calls used nonzero := by
    simp only at nonzero ⊢
    split
    · rename_i member
      rw [if_pos member] at nonzero
      exact absurd rfl nonzero
    · assumption

section Pages

variable {region : Region} {entries : Int → Byte} {since : Nat} {used : List Nat}

theorem kzalloc_calls (heap : PageHeap) (bytes : Nat) (s : PagingState) :
    (kzalloc heap bytes s).2.calls = s.calls + 1 := by
  rcases kzalloc_cases heap bytes s with failed | ⟨block, -, -, -, allocated⟩
  · rw [failed]
  · rw [allocated]

theorem pagingSet_calls (heap : PageHeap) (directory : Nat) (virt phys : Word)
    (s : PagingState) : s.calls ≤ (pagingSet heap directory virt phys s).2.calls := by
  have counted := kzalloc_calls heap (4 * pagingTotalEntriesPerTable) s
  unfold pagingSet
  split
  · exact le_refl _
  · simp only
    split
    · exact le_refl _
    · generalize kzalloc heap (4 * pagingTotalEntriesPerTable) s = result at counted
      split
      · exact counted ▸ Nat.le_succ s.calls
      · exact counted ▸ Nat.le_succ s.calls

theorem vmmAllocLoop_calls (heap : PageHeap) (directory : Nat) (virtStart flags : Word)
    (remaining first : Nat) (s : PagingState) :
    s.calls ≤ (vmmAllocLoop heap directory virtStart flags remaining first s).2.calls := by
  induction remaining generalizing first s with
  | zero => exact le_refl _
  | succ remaining ih =>
      simp only [vmmAllocLoop]
      split
      · exact le_refl _
      · exact (pagingSet_calls heap directory _ _ { s with
          bitmap := (getFreePhysicalAddress s.bitmap).2 }).trans (ih ..)

theorem vmmAlloc_calls (heap : PageHeap) (directory : Nat) (virtStart size flags : Word)
    (s : PagingState) :
    s.calls ≤ (vmmAlloc heap directory virtStart size flags s).2.calls := by
  have counted := vmmAllocLoop_calls heap directory virtStart flags (pageCount size) 0 s
  unfold vmmAlloc
  split
  · exact le_refl _
  · generalize vmmAllocLoop heap directory virtStart flags (pageCount size) 0 s = result
      at counted
    obtain ⟨mapped, last⟩ := result
    cases mapped with
    | false => exact counted
    | true => exact counted

theorem pagingNewProcessDirectory_calls (heap : PageHeap) (kernel : Nat)
    (s : PagingState) : s.calls < (pagingNewProcessDirectory heap kernel s).2.calls := by
  rcases pagingNewProcessDirectory_cases heap kernel s with
    failed | ⟨directory, -, -, -, failed | ⟨ptr, -, -, -, returned⟩⟩
  · rw [failed]
    exact Nat.lt_succ_self _
  · rw [failed]
    exact Nat.lt_add_of_pos_right Nat.two_pos
  · rw [returned]
    exact Nat.lt_add_of_pos_right Nat.two_pos

theorem kzalloc_kernelPages {bytes : Nat} (positive : 0 < bytes)
    (small : bytes ≤ pagingPageSize) {s : PagingState} (later : since ≤ s.calls)
    (owned : ∀ block,
      FreeBlock region (requestPages region (s.calls - since) entries) block →
        region.start + 4096 * block ∉ s.used) :
    let heap := region.heap (requestPages region (s.calls - since) entries)
    let result := kzalloc (kernelPages region entries since) bytes s
    result.1 = (heapMalloc heap bytes).1 ∧
      region.heap (requestPages region (result.2.calls - since) entries) =
        (heapMalloc heap bytes).2 := by
  intro heap result
  rw [heapMalloc_page heap positive small]
  constructor
  · have request := heapMalloc_pageRequest region
      (requestPages region (s.calls - since) entries)
    refine (kzalloc_answer _ bytes s).trans ?_
    simp only [kernelPages]
    generalize heapMalloc heap pagingPageSize = answer at request
    cases request with
    | refused full => exact ite_self 0
    | lowest block free below after marked => exact if_neg (owned block free)
  · have next : result.2.calls - since = s.calls - since + 1 := by
      rw [kzalloc_calls]
      omega
    rw [next, requestPages_succ, heapMalloc_requestPage]

theorem kernelPages_answer (since count : Nat)
    (unused : count < freeBlocks region entries →
      region.start + 4096 * freeBlock region entries count ∉ used) :
    (kernelPages region entries since).answer (since + count) used =
      if count < freeBlocks region entries then
        region.start + 4096 * freeBlock region entries count
      else 0 := by
  have answered := (requestPages_takes region entries count).request.1
  unfold kernelPages
  simp only [Nat.add_sub_cancel_left, answered]
  by_cases enough : count < freeBlocks region entries
  · rw [if_pos enough, if_neg (unused enough)]
  · rw [if_neg enough, ite_self]

theorem kernelPages_serves (since count : Nat)
    (unused : count < freeBlocks region entries →
      region.start + 4096 * freeBlock region entries count ∉ used) :
    (kernelPages region entries since).answer (since + count) used ≠ 0 ↔
      count < freeBlocks region entries := by
  have start := region.start_pos
  rw [kernelPages_answer since count unused]
  by_cases enough : count < freeBlocks region entries
  · rw [if_pos enough]
    exact iff_of_true (by omega) enough
  · rw [if_neg enough]
    exact iff_of_false (fun nonzero => nonzero rfl) enough

end Pages

end LazyOS.Memory

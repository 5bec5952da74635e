import LazyOS.Memory.HeapBounds
import LazyOS.Memory.HeapSteps

namespace LazyOS.Memory

open LazyOS.Data

/-! A `heap_malloc` that an interrupt handler finds on its way. -/

/-- What the handler does, to the end: an allocation, or the release of the allocation in
a range of blocks. -/
inductive Handler
  | malloc (size : Nat)
  | free (range : Range)

def blocksAt (region : Region) (address size : Nat) : Range :=
  if address = 0 then ⟨0, 0⟩ else Allocation.range region.start ⟨address, size⟩

namespace Handler

def run (region : Region) (heap : Heap) : Handler → Range × Heap
  | .malloc size =>
      (blocksAt region (heapMalloc heap size).1 size, (heapMalloc heap size).2)
  | .free range => (⟨0, 0⟩, heapFree heap (region.start + 4096 * range.first))

def released : Handler → Range
  | .malloc _ => ⟨0, 0⟩
  | .free range => range

def Allowed : Handler → Prop
  | .malloc size => 1 ≤ size ∧ size < 2 ^ 32
  | .free _ => True

/-- A block that is free behind the handler: not in the run it is given, or in what it
clears. -/
def Leaves (region : Region) (now : Heap) (block : Nat) : Handler → Prop
  | .malloc size =>
      now.table.IsFree block ∧ ∀ start, RunStart now.table (blocksFor size) start →
        ¬ Range.Contains ⟨start, blocksFor size⟩ block
  | .free range =>
      now.table.IsFree block ∨
        (block : Int) ∈ heapFreeAccesses now (region.start + 4096 * range.first)

end Handler

/-- Two callers share no block, have none that somebody else holds, and find all of
theirs taken. -/
structure Undisturbed (before : Heap) (released own theirs : Range) (final : Heap) :
    Prop where
  apart : own.Disjoint theirs
  fresh : ∀ block < before.table.totalEntries, own.Contains block ∨ theirs.Contains block →
    released.Contains block ∨ before.table.IsFree block
  taken : ∀ block, own.Contains block ∨ theirs.Contains block →
    ¬ final.table.IsFree block

section Interrupt

variable (region : Region) (entries : Int → Byte) (size : Nat)

def totalBlocksOf (size : Nat) : Nat := heapAligneValueToUpper size / heapBlockSize

def callAfter (k : Nat) : MallocCall :=
  (MallocCall.step (totalBlocksOf size))^[k] (MallocCall.start (region.heap entries))

def heapAfter (k : Nat) (handler : Handler) : Heap :=
  (handler.run region (callAfter region entries size k).heap).2

def outcome (k : Nat) (handler : Handler) : Nat × Heap :=
  MallocCall.resume (totalBlocksOf size)
    ⟨heapAfter region entries size k handler, (callAfter region entries size k).point⟩

theorem outcome_returns (k : Nat) (handler : Handler) :
    ∃ steps, (MallocCall.step (totalBlocksOf size))^[steps]
        ⟨heapAfter region entries size k handler, (callAfter region entries size k).point⟩ =
      ⟨(outcome region entries size k handler).2,
        .returned (outcome region entries size k handler).1⟩ :=
  MallocCall.resume_returns _ _

def ownBlocks (k : Nat) (handler : Handler) : Range :=
  blocksAt region (outcome region entries size k handler).1 size

def handlerBlocks (k : Nat) (handler : Handler) : Range :=
  (handler.run region (callAfter region entries size k).heap).1

/-- The blocks of both callers, at the end of the interrupted call. -/
def Tolerates (k : Nat) (handler : Handler) : Prop :=
  Undisturbed (region.heap entries) handler.released
    (ownBlocks region entries size k handler) (handlerBlocks region entries size k handler)
    (outcome region entries size k handler).2

def seenTable (k : Nat) (handler : Handler) : HeapTable :=
  (region.heap entries).table.changedBehind (heapAfter region entries size k handler).table
    (callAfter region entries size k).read

/-- The last block is free when the call reads its entry, before the handler or behind
it. -/
def EndFree (k : Nat) (handler : Handler) : Prop :=
  0 < region.capacity ∧
    if (callAfter region entries size k).read = region.capacity then
      (region.heap entries).table.IsFree (region.capacity - 1)
    else handler.Leaves region (callAfter region entries size k).heap (region.capacity - 1)

/-- The ways in which a handler and the call that it interrupts get into each other's
way. -/
inductive Clash (k : Nat) : Handler → Prop
  /-- A size that wraps is given the free end of the table, of which nothing is marked. -/
  | oversized {handler : Handler} (large : 0xFFFFF000 < size)
      (free : EndFree region entries size k handler) : Clash k handler
  | handlerOversized {other : Nat} (large : 0xFFFFF000 < other)
      (free : ¬ (callAfter region entries size k).heap.table.EndsTaken) :
      Clash k (.malloc other)
  /-- The handler is given the first block that the call has yet to mark, all of it from
  what the call has read. -/
  | sameBlock {other start : Nat}
      (run : RunStart (region.heap entries).table (blocksFor size) start)
      (left : (callAfter region entries size k).marked (totalBlocksOf size) <
        totalBlocksOf size)
      (again : RunStart (callAfter region entries size k).heap.table (blocksFor other)
        (start + (callAfter region entries size k).marked (totalBlocksOf size)))
      (behind : min (start +
          (callAfter region entries size k).marked (totalBlocksOf size) + blocksFor other)
          region.capacity ≤ (callAfter region entries size k).read) :
      Clash k (.malloc other)
  /-- The release clears a block that the call has marked. -/
  | unmarked {range : Range} {start block : Nat}
      (run : RunStart (region.heap entries).table (blocksFor size) start)
      (lower : start ≤ block)
      (upper : block <
        start + (callAfter region entries size k).marked (totalBlocksOf size))
      (cleared : (block : Int) ∈ heapFreeAccesses (callAfter region entries size k).heap
        (region.start + 4096 * range.first)) :
      Clash k (.free range)
  /-- The release clears a block of somebody else, and the call finds it. -/
  | stolen {range : Range} {start block : Nat}
      (run : RunStart (seenTable region entries size k (.free range)) (blocksFor size) start)
      (lower : start ≤ block) (upper : block < start + blocksFor size)
      (inside : block < region.capacity)
      (cleared : (block : Int) ∈ heapFreeAccesses (callAfter region entries size k).heap
        (region.start + 4096 * range.first))
      (live : ¬ (region.heap entries).table.IsFree block)
      (other : ¬ range.Contains block) :
      Clash k (.free range)

end Interrupt

/-- The call is still searching, has its run and has marked `marked` blocks of it, or
has found none. -/
inductive Snapshot (heap : Heap) (wanted : Nat) : (marked read : Nat) → Heap → Prop
  | searching {read : Nat} (inside : read ≤ heap.table.totalEntries)
      (none : NoRunBefore heap.table wanted read) : Snapshot heap wanted 0 read heap
  | running {start marked : Nat} {now : Heap} (run : RunStart heap.table wanted start)
      (marks : Marked heap start marked now) :
      Snapshot heap wanted marked heap.table.totalEntries now
  | refused {marked : Nat} (none : ∀ start, ¬ RunStart heap.table wanted start) :
      Snapshot heap wanted marked heap.table.totalEntries heap

theorem Reached.snapshot {heap : Heap} {totalBlocks wanted : Nat} {call : MallocCall}
    (reached : Reached heap totalBlocks wanted call) :
    Snapshot heap wanted (call.marked totalBlocks) call.read call.heap := by
  cases reached with
  | @searching remaining i currentBlock startBlock covers searching =>
      have inside : i ≤ heap.table.totalEntries := by omega
      exact .searching inside searching.none
  | found result =>
      cases result with
      | nowhere none => exact .refused none
      | run start run => exact .running run (.none heap start)
  | @marking after start count remaining entry run all marked taken =>
      unfold MallocCall.marked MallocCall.read
      simp only
      rw [marked.total, show totalBlocks - remaining = count by omega]
      exact .running run marked
  | refused none => exact .refused none
  | granted run marked =>
      unfold MallocCall.marked MallocCall.read
      simp only
      rw [marked.total]
      exact .running run marked

theorem Marked.free_of_free {before after : Heap} {start count block : Nat}
    (marked : Marked before start count after) (free : after.table.IsFree block) :
    before.table.IsFree block ∧ ¬ (start ≤ block ∧ block < start + count) := by
  have outside : ¬ (start ≤ block ∧ block < start + count) := fun inside =>
    marked.taken block inside.1 inside.2 free
  refine ⟨?_, outside⟩
  unfold HeapTable.IsFree at free ⊢
  rw [← marked.others block outside]
  exact free

theorem Marked.isFree_iff {before after : Heap} {start count block : Nat}
    (marked : Marked before start count after)
    (outside : ¬ (start ≤ block ∧ block < start + count)) :
    after.table.IsFree block ↔ before.table.IsFree block := by
  unfold HeapTable.IsFree
  rw [marked.others block outside]

namespace Snapshot

variable {heap now : Heap} {wanted marked read : Nat}

theorem total (snapshot : Snapshot heap wanted marked read now) :
    now.table.totalEntries = heap.table.totalEntries := by
  cases snapshot with
  | searching _ _ => rfl
  | running _ marks => exact marks.total
  | refused _ => rfl

theorem address (snapshot : Snapshot heap wanted marked read now) :
    now.startAddr = heap.startAddr := by
  cases snapshot with
  | searching _ _ => rfl
  | running _ marks => exact marks.address
  | refused _ => rfl

theorem read_le (snapshot : Snapshot heap wanted marked read now) :
    read ≤ heap.table.totalEntries := by
  cases snapshot with
  | searching inside _ => exact inside
  | running _ _ => exact le_rfl
  | refused _ => exact le_rfl

theorem free_of_free (snapshot : Snapshot heap wanted marked read now) {block : Nat}
    (free : now.table.IsFree block) : heap.table.IsFree block := by
  cases snapshot with
  | searching _ _ => exact free
  | running _ marks => exact (marks.free_of_free free).1
  | refused _ => exact free

end Snapshot

/-- What the search sees free was free when the call was made, or the handler leaves it
free. -/
theorem HeapTable.free_of_seen {before after : HeapTable} {read block : Nat}
    (seen : (before.changedBehind after read).IsFree block) :
    before.IsFree block ∨ read ≤ block ∧ after.IsFree block := by
  by_cases early : block < read
  · exact .inl ((HeapTable.isFree_changedBehind_before _ _ early).mp seen)
  · have late := not_lt.mp early
    exact .inr ⟨late, (HeapTable.isFree_changedBehind_after _ _ late).mp seen⟩

theorem HeapTable.changedBehind_self (table : HeapTable) (read : Nat) :
    table.changedBehind table read = table := by
  unfold HeapTable.changedBehind
  simp only [ite_self]

theorem heapMalloc_grant {heap : Heap} {size : Nat} (positive : 1 ≤ size)
    (word : size < 2 ^ 32) (bounded : heap.table.totalEntries < 2 ^ 20) :
    MallocGrant heap.table (totalBlocksOf size) (blocksFor size) 0 heap (heapMalloc heap size) := by
  have asks := asks_of_size positive word bounded
  have reached : Reached heap (totalBlocksOf size) (blocksFor size) (MallocCall.start heap) :=
    .searching (Nat.zero_add _) (.start _ asks.positive)
  have grant : MallocGrant (heap.table.changedBehind heap.table 0) (totalBlocksOf size)
      (blocksFor size) 0 heap (heapMalloc heap size) := reached.resume asks bounded rfl
  rw [HeapTable.changedBehind_self] at grant
  exact grant

theorem heapMarkBlocksFreeLoop_accessed (remaining : Nat) (i : Int) (entries : Int → Byte)
    {j : Int} (accessed : j ∈ heapMarkBlocksFreeAccesses remaining i entries) :
    heapMarkBlocksFreeLoop remaining i entries j = heapBlockTableEntryFree := by
  induction remaining generalizing i entries with
  | zero => exact absurd accessed List.not_mem_nil
  | succ remaining ih =>
      by_cases here : j = i
      · rw [here]
        exact heapMarkBlocksFreeLoop_head ..
      · simp only [heapMarkBlocksFreeAccesses] at accessed
        simp only [heapMarkBlocksFreeLoop]
        split at accessed
        · exact absurd (List.mem_singleton.mp accessed) here
        · rename_i flagged
          rw [if_neg flagged]
          exact ih _ _ ((List.mem_cons.mp accessed).resolve_left here)

theorem heapFree_isFree_iff (heap : Heap) (ptr block : Nat) :
    (heapFree heap ptr).table.IsFree block ↔
      heap.table.IsFree block ∨ (block : Int) ∈ heapFreeAccesses heap ptr := by
  unfold HeapTable.IsFree
  by_cases accessed : (block : Int) ∈ heapFreeAccesses heap ptr
  · have cleared : (heapFree heap ptr).table.entries block = heapBlockTableEntryFree := by
      simp only [heapFree, heapMarkBlocksFree, Heap.setEntries_entries]
      exact heapMarkBlocksFreeLoop_accessed _ _ _ accessed
    rw [cleared]
    exact iff_of_true (by decide) (.inr accessed)
  · rw [heapFree_unaccessed heap ptr accessed, or_iff_left accessed]

inductive Serves (table : HeapTable) (totalBlocks wanted marked : Nat) (heap : Heap) :
    Range → Heap → Prop
  | refused (none : ∀ start, ¬ RunStart table wanted start) :
      Serves table totalBlocks wanted marked heap ⟨0, 0⟩ heap
  | granted {after : Heap} {start : Nat} (run : RunStart table wanted start)
      (rest : Marked heap (start + marked) (totalBlocks - marked) after) :
      Serves table totalBlocks wanted marked heap ⟨start, wanted⟩ after

theorem MallocGrant.serves {region : Region} {table : HeapTable} {totalBlocks marked size : Nat}
    {heap : Heap} {result : Nat × Heap}
    (grant : MallocGrant table totalBlocks (blocksFor size) marked heap result)
    (address : heap.startAddr = region.start) (total : table.totalEntries = region.capacity) :
    Serves table totalBlocks (blocksFor size) marked heap
      (blocksAt region result.1 size) result.2 := by
  cases grant with
  | refused none => exact .refused none
  | @granted after start run rest =>
      have inside := run.inside
      have positive := region.start_pos
      have place : heapBlockToAddress heap start = region.start + 4096 * start := by
        rw [← region.address heap.table.entries (by omega : start < region.capacity)]
        unfold heapBlockToAddress
        rw [address]
        rfl
      have blocks : blocksAt region (heapBlockToAddress heap start) size =
          ⟨start, blocksFor size⟩ := by
        have offset : (region.start + 4096 * start - region.start) / 4096 = start := by omega
        unfold blocksAt Allocation.range
        rw [place, if_neg (by omega)]
        simp only [offset]
      rw [blocks]
      exact .granted run rest

/-- Runs of one table that share a block start together: neither can be extended to the
left. -/
theorem RunStart.eq_of_meet {table : HeapTable} {left right first second : Nat}
    (one : RunStart table left first) (other : RunStart table right second)
    (before : first < second + right) (behind : second < first + left) :
    first = second := by
  have oneInside := one.inside
  have otherInside := other.inside
  rcases Nat.lt_trichotomy first second with less | same | more
  · have taken := other.boundary.resolve_left (by omega)
    exact absurd (one.free (second - 1) (by omega) (by omega) (by omega)) taken
  · exact same
  · have taken := one.boundary.resolve_left (by omega)
    exact absurd (other.free (first - 1) (by omega) (by omega) (by omega)) taken

section Meeting

variable {heap now after : Heap} {wanted other marked read start second count : Nat}

theorem seen_of_behind (behind : min (second + other) heap.table.totalEntries ≤ read)
    (marks : Marked heap second count after) (most : count ≤ other) {block : Nat}
    (inside : block < heap.table.totalEntries) :
    (heap.table.changedBehind after.table read).IsFree block ↔ heap.table.IsFree block := by
  by_cases early : block < read
  · exact HeapTable.isFree_changedBehind_before _ _ early
  · rw [← marks.isFree_iff (by omega : ¬ (second ≤ block ∧ block < second + count))]
    exact HeapTable.isFree_changedBehind_after _ _ (not_lt.mp early)

theorem seen_run (snapshot : Snapshot heap wanted marked read now)
    (run : RunStart heap.table wanted start)
    (marks : Marked now (start + marked) count after) (most : count ≤ other)
    (behind : min (start + marked + other) heap.table.totalEntries ≤ read) :
    RunStart (heap.table.changedBehind after.table read) wanted start := by
  cases snapshot with
  | searching inside none =>
      exact run.congr rfl fun block bound => seen_of_behind behind marks most bound
  | running _ _ => exact (runStart_changedBehind_total ..).mpr run
  | refused none => exact absurd run (none start)

/-- A handler's run that meets that of a searching call has been read: if it went on
behind the entry that is read next, the run of the call would have been complete
before. -/
theorem behind_of_meet (none : NoRunBefore heap.table wanted read)
    (own : RunStart (heap.table.changedBehind after.table read) wanted start)
    (marks : Marked heap second other after) (positive : 0 < wanted)
    (otherPositive : 0 < other) (before : start < second + other)
    (behind : second < start + wanted) (inside : second < heap.table.totalEntries) :
    min (second + other) heap.table.totalEntries ≤ read := by
  by_contra unread
  have ownInside : start < heap.table.totalEntries := own.inside
  have free : ∀ block, start ≤ block → block < start + wanted →
      block < heap.table.totalEntries →
      (heap.table.changedBehind after.table read).IsFree block := own.free
  have taken (block : Nat) (late : read ≤ block) (lower : second ≤ block)
      (upper : block < second + other) :
      ¬ (heap.table.changedBehind after.table read).IsFree block := by
    rw [HeapTable.isFree_changedBehind_after _ _ late]
    exact marks.taken block lower upper
  obtain ⟨met, inOwn, inTheirs, bounds⟩ : ∃ met, start ≤ met ∧ second ≤ met ∧
      met < start + wanted ∧ met < second + other ∧ met < heap.table.totalEntries :=
    ⟨max start second, by omega, by omega, by omega, by omega, by omega⟩
  have early : met < read := by
    by_contra late
    exact taken met (not_lt.mp late) inTheirs bounds.2.1
      (free met inOwn bounds.1 bounds.2.2)
  have ends : start + wanted ≤ read := by
    by_contra longer
    exact taken read le_rfl (by omega) (by omega)
      (free read (by omega) (by omega) (by omega))
  refine not_freeRun_of_noRunBefore none ends ⟨by simp only [Range.stop]; omega, ?_⟩
  intro block contains
  have upper : block < start + wanted := contains.2
  have seen := free block contains.1 upper (by omega)
  exact (HeapTable.isFree_changedBehind_before _ _ (by omega)).mp seen

theorem meets_behind_marked (own : RunStart heap.table wanted start)
    (earlier : Marked heap start marked now) (theirs : RunStart now.table other second)
    (otherPositive : 0 < other) (before : start < second + other)
    (behind : second < start + wanted) : second = start + marked := by
  have ownInside : start < heap.table.totalEntries := own.inside
  have inside : second < heap.table.totalEntries := earlier.total ▸ theirs.inside
  have free : now.table.IsFree second :=
    theirs.free second le_rfl (by omega) theirs.inside
  have outside := (earlier.free_of_free free).2
  rcases Nat.lt_trichotomy second (start + marked) with less | same | more
  · have taken := own.boundary.resolve_left (by omega)
    have freeBefore : now.table.IsFree (start - 1) :=
      theirs.free (start - 1) (by omega) (by omega) (by rw [earlier.total]; omega)
    exact absurd (earlier.free_of_free freeBefore).1 taken
  · exact same
  · have taken := theirs.boundary.resolve_left (by omega)
    have freeBefore : heap.table.IsFree (second - 1) :=
      own.free (second - 1) (by omega) (by omega) (by omega)
    exact absurd ((earlier.isFree_iff (by omega)).mpr freeBefore) taken

theorem meeting (snapshot : Snapshot heap wanted marked read now)
    (own : RunStart (heap.table.changedBehind after.table read) wanted start)
    (theirs : RunStart now.table other second) (marks : Marked now second other after)
    (positive : 0 < wanted) (otherPositive : 0 < other)
    (before : start < second + other) (behind : second < start + wanted) :
    RunStart heap.table wanted start ∧ second = start + marked ∧
      min (second + other) heap.table.totalEntries ≤ read := by
  cases snapshot with
  | searching _ none =>
      have unseen := behind_of_meet none own marks positive otherPositive before behind
        theirs.inside
      have run : RunStart heap.table wanted start := own.congr rfl fun block bound =>
        (seen_of_behind unseen marks le_rfl bound).symm
      exact ⟨run, (run.eq_of_meet theirs before behind).symm, unseen⟩
  | @running first _ _ run earlier =>
      have own : RunStart heap.table wanted start := (runStart_changedBehind_total ..).mp own
      obtain rfl := run.unique own
      exact ⟨own, meets_behind_marked own earlier theirs otherPositive before behind,
        Nat.min_le_right _ _⟩
  | refused none =>
      exact absurd ((runStart_changedBehind_total ..).mp own) (none start)

end Meeting

section Outcomes

variable {heap now after final : Heap} {released own theirs : Range}
variable {totalBlocks wanted marked read others other : Nat}

theorem not_contains_empty (block : Nat) : ¬ Range.Contains ⟨0, 0⟩ block := by
  rintro ⟨-, upper⟩
  exact absurd upper (Nat.not_lt_zero block)

/-- The blocks that the call has marked are taken at its end, if the handler has left
them so. -/
theorem run_taken (snapshot : Snapshot heap wanted marked read now) {start : Nat}
    (run : RunStart (heap.table.changedBehind after.table read) wanted start)
    (rest : Marked after (start + marked) (totalBlocks - marked) final)
    (kept : ∀ first block, RunStart heap.table wanted first → first ≤ block →
      block < first + marked → ¬ now.table.IsFree block → ¬ after.table.IsFree block)
    {block : Nat} (lower : start ≤ block) (upper : block < start + totalBlocks) :
    ¬ final.table.IsFree block := by
  by_cases late : start + marked ≤ block
  · exact rest.taken block late (by omega)
  · refine fun free => ?_
    have early := (rest.free_of_free free).1
    cases snapshot with
    | searching _ _ => omega
    | running first marks =>
        obtain rfl := first.unique ((runStart_changedBehind_total ..).mp run)
        exact kept _ block first lower (by omega) (marks.taken block lower (by omega)) early
    | refused none => exact none start ((runStart_changedBehind_total ..).mp run)

theorem Serves.free_of_free {table : HeapTable} {block : Nat}
    (serves : Serves table totalBlocks wanted marked heap own after)
    (free : after.table.IsFree block) : heap.table.IsFree block := by
  cases serves with
  | refused _ => exact free
  | granted _ rest => exact (rest.free_of_free free).1

theorem Serves.keeps {table : HeapTable} {block : Nat}
    (serves : Serves table totalBlocks wanted 0 heap own after) (most : totalBlocks ≤ wanted)
    (free : heap.table.IsFree block) : after.table.IsFree block ∨ own.Contains block := by
  cases serves with
  | refused _ => exact .inl free
  | @granted _ start _ rest =>
      by_cases inside : start ≤ block ∧ block < start + wanted
      · exact .inr inside
      · exact .inl ((rest.isFree_iff (by omega)).mpr free)

theorem Serves.leaves {table : HeapTable} {block : Nat}
    (serves : Serves table totalBlocks wanted 0 heap own after) (most : totalBlocks ≤ wanted)
    (free : heap.table.IsFree block)
    (spared : ∀ start, RunStart table wanted start →
      ¬ Range.Contains ⟨start, wanted⟩ block) : after.table.IsFree block := by
  rcases serves.keeps most free with left | mine
  · exact left
  · cases serves with
    | refused _ => exact absurd mine (not_contains_empty block)
    | @granted _ start run _ => exact absurd mine (spared start run)

theorem Serves.spared {table : HeapTable} {block : Nat}
    (serves : Serves table totalBlocks wanted 0 heap own after)
    (exact : ∀ start, RunStart table wanted start → totalBlocks = wanted)
    (free : after.table.IsFree block) {start : Nat} (run : RunStart table wanted start) :
    ¬ Range.Contains ⟨start, wanted⟩ block := by
  intro contains
  cases serves with
  | refused none => exact none start run
  | @granted _ first given rest =>
      obtain rfl := given.unique run
      have upper : block < first + wanted := contains.2
      rw [exact first given] at rest
      exact rest.taken block contains.1 upper free

/-- What the search hands out was free when the call was made, or the handler has made
it so. -/
theorem own_fresh {table : HeapTable}
    (serves : Serves (table.changedBehind after.table read) totalBlocks wanted marked after
      own final)
    {block : Nat} (inside : block < table.totalEntries) (contains : own.Contains block) :
    table.IsFree block ∨ read ≤ block ∧ after.table.IsFree block := by
  cases serves with
  | refused _ => exact absurd contains (not_contains_empty block)
  | granted run _ => exact HeapTable.free_of_seen (run.free block contains.1 contains.2 inside)

theorem own_taken (snapshot : Snapshot heap wanted marked read now)
    (serves : Serves (heap.table.changedBehind after.table read) totalBlocks wanted marked
      after own final)
    (exact : ∀ start, RunStart (heap.table.changedBehind after.table read) wanted start →
      totalBlocks = wanted)
    (kept : ∀ first block, RunStart heap.table wanted first → first ≤ block →
      block < first + marked → ¬ now.table.IsFree block → ¬ after.table.IsFree block)
    {block : Nat} (contains : own.Contains block) : ¬ final.table.IsFree block := by
  cases serves with
  | refused _ => exact absurd contains (not_contains_empty block)
  | @granted _ start run rest =>
      have upper : block < start + wanted := contains.2
      exact run_taken snapshot run rest kept contains.1 (by rw [exact start run]; exact upper)

theorem oversized_disturbs (snapshot : Snapshot heap wanted 0 read now)
    (serves : Serves (heap.table.changedBehind after.table read) 0 wanted 0 after own final)
    (keeps : ∀ block, now.table.IsFree block →
      after.table.IsFree block ∨ theirs.Contains block)
    (positive : 0 < wanted) {start : Nat}
    (run : RunStart (heap.table.changedBehind after.table read) wanted start) :
    ¬ Undisturbed heap released own theirs final := by
  intro undisturbed
  cases serves with
  | refused none => exact none start run
  | @granted _ first given rest =>
      have mine : Range.Contains ⟨first, wanted⟩ first := Range.contains_first positive
      have taken : ¬ after.table.IsFree first := fun free =>
        undisturbed.taken first (.inl mine) ((rest.isFree_iff (by omega)).mpr free)
      have free : now.table.IsFree first := by
        have seen := given.free first le_rfl (by omega) given.inside
        have before := (HeapTable.free_of_seen seen).resolve_right fun late => taken late.2
        cases snapshot with
        | searching _ _ => exact before
        | running _ marks => exact (marks.isFree_iff (by omega)).mpr before
        | refused _ => exact before
      rcases keeps first free with free | meets
      · exact taken free
      · exact undisturbed.apart first mine meets

theorem handler_oversized_disturbs
    (serves : Serves (heap.table.changedBehind after.table read) totalBlocks wanted marked
      after own final) (most : totalBlocks ≤ wanted)
    (handler : Serves now.table 0 other 0 now theirs after) (positive : 0 < other)
    {start : Nat} (run : RunStart now.table other start) :
    ¬ Undisturbed heap released own theirs final := by
  intro undisturbed
  cases handler with
  | refused none => exact none start run
  | @granted _ first given rest =>
      have mine : Range.Contains ⟨first, other⟩ first := Range.contains_first positive
      have free : after.table.IsFree first := (rest.isFree_iff (by omega)).mpr
        (given.free first le_rfl (by omega) given.inside)
      cases serves with
      | refused _ => exact undisturbed.taken first (.inr mine) free
      | @granted _ second _ marks =>
          by_cases meets : second + marked ≤ first ∧
              first < second + marked + (totalBlocks - marked)
          · refine undisturbed.apart first ?_ mine
            rw [Range.contains_iff]
            simp only
            omega
          · exact undisturbed.taken first (.inr mine) ((marks.isFree_iff meets).mpr free)

theorem same_block_disturbs (snapshot : Snapshot heap wanted marked read now)
    (serves : Serves (heap.table.changedBehind after.table read) totalBlocks wanted marked
      after own final) (most : totalBlocks ≤ wanted)
    (handler : Serves now.table others other 0 now theirs after) (least : others ≤ other)
    (positive : 0 < other) {start : Nat} (run : RunStart heap.table wanted start)
    (left : marked < totalBlocks) (again : RunStart now.table other (start + marked))
    (behind : min (start + marked + other) heap.table.totalEntries ≤ read) :
    ¬ Undisturbed heap released own theirs final := by
  intro undisturbed
  cases handler with
  | refused none => exact none _ again
  | @granted _ second given rest =>
      obtain rfl := given.unique again
      have seen := seen_run snapshot run rest (by omega) behind
      cases serves with
      | refused none => exact none start seen
      | @granted _ first own' _ =>
          obtain rfl := own'.unique seen
          refine undisturbed.apart (first + marked) ?_ (Range.contains_first positive)
          rw [Range.contains_iff]
          simp only
          omega

theorem undisturbed_of_malloc (snapshot : Snapshot heap wanted marked read now)
    (serves : Serves (heap.table.changedBehind after.table read) totalBlocks wanted marked
      after own final)
    (handler : Serves now.table others other 0 now theirs after)
    (positive : 0 < wanted) (otherPositive : 0 < other)
    (exact : ∀ start, RunStart (heap.table.changedBehind after.table read) wanted start →
      totalBlocks = wanted)
    (otherExact : ∀ start, RunStart now.table other start → others = other)
    (apart : ∀ start, RunStart heap.table wanted start → marked < totalBlocks →
      RunStart now.table other (start + marked) →
      ¬ min (start + marked + other) heap.table.totalEntries ≤ read) :
    Undisturbed heap released own theirs final where
  apart block inOwn inTheirs := by
    cases serves with
    | refused _ => exact not_contains_empty block inOwn
    | @granted _ start run _ =>
        cases handler with
        | refused _ => exact not_contains_empty block inTheirs
        | @granted _ second given rest =>
            have ownLower : start ≤ block := inOwn.1
            have ownUpper : block < start + wanted := inOwn.2
            have lower : second ≤ block := inTheirs.1
            have upper : block < second + other := inTheirs.2
            rw [otherExact second given] at rest
            obtain ⟨first, place, behind⟩ := meeting snapshot run given rest positive
              otherPositive (by omega) (by omega)
            rw [place] at given behind
            exact apart start first (by rw [exact start run]; omega) given behind
  fresh block inside contains := by
    right
    rcases contains with mine | theirs
    · rcases own_fresh serves inside mine with before | ⟨-, late⟩
      · exact before
      · exact snapshot.free_of_free (handler.free_of_free late)
    · cases handler with
      | refused _ => exact absurd theirs (not_contains_empty block)
      | granted given _ =>
          exact snapshot.free_of_free
            (given.free block theirs.1 theirs.2 (by rw [snapshot.total]; exact inside))
  taken block contains := by
    rcases contains with mine | theirs
    · exact own_taken snapshot serves exact
        (fun _ _ _ _ _ taken => mt handler.free_of_free taken) mine
    · refine fun free => ?_
      have late := serves.free_of_free free
      cases handler with
      | refused _ => exact not_contains_empty block theirs
      | @granted _ second given rest =>
          have upper : block < second + other := theirs.2
          rw [otherExact second given] at rest
          exact rest.taken block theirs.1 (by omega) late

theorem unmarked_disturbs (snapshot : Snapshot heap wanted marked read now)
    (serves : Serves (heap.table.changedBehind after.table read) totalBlocks wanted marked
      after own final) (most : marked ≤ wanted) {start block : Nat}
    (run : RunStart heap.table wanted start) (lower : start ≤ block)
    (upper : block < start + marked) (cleared : after.table.IsFree block) :
    ¬ Undisturbed heap released own theirs final := by
  intro undisturbed
  have seen : RunStart (heap.table.changedBehind after.table read) wanted start := by
    cases snapshot with
    | searching _ _ => omega
    | running _ _ => exact (runStart_changedBehind_total ..).mpr run
    | refused none => exact absurd run (none start)
  cases serves with
  | refused none => exact none start seen
  | @granted _ first given rest =>
      obtain rfl := given.unique seen
      refine undisturbed.taken block (.inl ?_) ((rest.isFree_iff (by omega)).mpr cleared)
      rw [Range.contains_iff]
      simp only
      omega

theorem stolen_disturbs
    (serves : Serves (heap.table.changedBehind after.table read) totalBlocks wanted marked
      after own final) {start block : Nat}
    (run : RunStart (heap.table.changedBehind after.table read) wanted start)
    (lower : start ≤ block) (upper : block < start + wanted)
    (inside : block < heap.table.totalEntries) (live : ¬ heap.table.IsFree block)
    (spared : ¬ released.Contains block) : ¬ Undisturbed heap released own theirs final := by
  intro undisturbed
  cases serves with
  | refused none => exact none start run
  | @granted _ first given _ =>
      obtain rfl := given.unique run
      rcases undisturbed.fresh block inside (.inl ⟨lower, upper⟩) with back | free
      · exact spared back
      · exact live free

theorem undisturbed_of_free (snapshot : Snapshot heap wanted marked read now)
    (serves : Serves (heap.table.changedBehind after.table read) totalBlocks wanted marked
      after own final) {cleared : Nat → Prop}
    (release : ∀ block, after.table.IsFree block ↔ now.table.IsFree block ∨ cleared block)
    (exact : ∀ start, RunStart (heap.table.changedBehind after.table read) wanted start →
      totalBlocks = wanted)
    (marks : ∀ start block, RunStart heap.table wanted start → start ≤ block →
      block < start + marked → ¬ cleared block)
    (spares : ∀ start block,
      RunStart (heap.table.changedBehind after.table read) wanted start → start ≤ block →
      block < start + wanted → block < heap.table.totalEntries → cleared block →
      ¬ heap.table.IsFree block → released.Contains block) :
    Undisturbed heap released own ⟨0, 0⟩ final where
  apart block _ theirs := not_contains_empty block theirs
  fresh block inside contains := by
    have mine := contains.resolve_right (not_contains_empty block)
    rcases own_fresh serves inside mine with before | ⟨-, late⟩
    · exact .inr before
    · rcases (release block).mp late with free | hit
      · exact .inr (snapshot.free_of_free free)
      · by_cases before : heap.table.IsFree block
        · exact .inr before
        · cases serves with
          | refused _ => exact absurd mine (not_contains_empty block)
          | @granted _ start run _ =>
              exact .inl (spares start block run mine.1 mine.2 inside hit before)
  taken block contains := by
    have mine := contains.resolve_right (not_contains_empty block)
    refine own_taken snapshot serves exact (fun first block run lower upper taken free => ?_)
      mine
    exact ((release block).mp free).elim taken (marks first block run lower upper)

end Outcomes

theorem totalBlocksOf_le {size : Nat} (positive : 1 ≤ size) (word : size < 2 ^ 32) :
    totalBlocksOf size ≤ blocksFor size := by
  rcases (asks_of_size positive word (Nat.two_pow_pos 20)).exact with same | ⟨zero, -⟩
  · exact same.le
  · exact zero.le.trans (Nat.zero_le _)

theorem blocksFor_large (region : Region) {size : Nat} (large : 0xFFFFF000 < size) :
    region.capacity < blocksFor size := by
  have bounded := region.capacity_lt
  unfold blocksFor
  omega

theorem MallocCall.marked_le {heap : Heap} {totalBlocks wanted : Nat} {call : MallocCall}
    (reached : Reached heap totalBlocks wanted call) :
    call.marked totalBlocks ≤ totalBlocks := by
  cases reached with
  | searching _ _ => exact Nat.zero_le _
  | found _ => exact Nat.zero_le _
  | marking _ _ _ _ => exact Nat.sub_le _ _
  | refused _ => exact le_rfl
  | granted _ _ => exact le_rfl

section Calls

variable (region : Region) (entries : Int → Byte) {size : Nat}
variable (positive : 1 ≤ size) (word : size < 2 ^ 32)

include positive word

theorem callAfter_reached (k : Nat) :
    Reached (region.heap entries) (totalBlocksOf size) (blocksFor size)
      (callAfter region entries size k) :=
  reached_run (asks_of_size positive word region.capacity_lt) region.capacity_lt k

theorem callAfter_snapshot (k : Nat) :
    Snapshot (region.heap entries) (blocksFor size)
      ((callAfter region entries size k).marked (totalBlocksOf size))
      (callAfter region entries size k).read (callAfter region entries size k).heap :=
  (callAfter_reached region entries positive word k).snapshot

theorem heapAfter_address (k : Nat) (handler : Handler) :
    (heapAfter region entries size k handler).startAddr = region.start := by
  have before := (callAfter_snapshot region entries positive word k).address
  cases handler with
  | malloc other => exact (heapMalloc_startAddr _ other).trans before
  | free range => exact (heapFree_startAddr _ _).trans before

theorem own_serves (k : Nat) (handler : Handler) :
    Serves (seenTable region entries size k handler) (totalBlocksOf size) (blocksFor size)
      ((callAfter region entries size k).marked (totalBlocksOf size))
      (heapAfter region entries size k handler) (ownBlocks region entries size k handler)
      (outcome region entries size k handler).2 := by
  have address := heapAfter_address region entries positive word k handler
  have grant := (callAfter_reached region entries positive word k).resume
    (asks_of_size positive word region.capacity_lt) region.capacity_lt address
  exact grant.serves address rfl

theorem handler_serves (k : Nat) {other : Nat} (otherPositive : 1 ≤ other)
    (otherWord : other < 2 ^ 32) :
    Serves (callAfter region entries size k).heap.table (totalBlocksOf other)
      (blocksFor other) 0 (callAfter region entries size k).heap
      (handlerBlocks region entries size k (.malloc other))
      (heapAfter region entries size k (.malloc other)) := by
  have snapshot := callAfter_snapshot region entries positive word k
  have bounded : (callAfter region entries size k).heap.table.totalEntries < 2 ^ 20 := by
    rw [snapshot.total]
    exact region.capacity_lt
  exact (heapMalloc_grant otherPositive otherWord bounded).serves snapshot.address
    snapshot.total

theorem heapAfter_free (k : Nat) {handler : Handler} (allowed : handler.Allowed)
    {block : Nat} (left : handler.Leaves region (callAfter region entries size k).heap block) :
    (heapAfter region entries size k handler).table.IsFree block := by
  cases handler with
  | malloc other =>
      exact (handler_serves region entries positive word k allowed.1 allowed.2).leaves
        (totalBlocksOf_le allowed.1 allowed.2) left.1 left.2
  | free range => exact (heapFree_isFree_iff _ _ _).mpr left

theorem seen_end (k : Nat) (handler : Handler) (some : 0 < region.capacity) :
    (seenTable region entries size k handler).IsFree (region.capacity - 1) ↔
      if (callAfter region entries size k).read = region.capacity then
        (region.heap entries).table.IsFree (region.capacity - 1)
      else (heapAfter region entries size k handler).table.IsFree (region.capacity - 1) := by
  have inside : (callAfter region entries size k).read ≤ region.capacity :=
    (callAfter_snapshot region entries positive word k).read_le
  unfold seenTable
  by_cases all : (callAfter region entries size k).read = region.capacity
  · rw [if_pos all, HeapTable.isFree_changedBehind_before _ _ (by omega)]
  · rw [if_neg all, HeapTable.isFree_changedBehind_after _ _ (by omega)]

theorem endFree_run (k : Nat) {handler : Handler} (allowed : handler.Allowed)
    (large : 0xFFFFF000 < size) (free : EndFree region entries size k handler) :
    ∃ start, RunStart (seenTable region entries size k handler) (blocksFor size) start := by
  obtain ⟨some, last⟩ := free
  refine (exists_runStart_iff (blocksFor_large region large)).mpr ?_
  refine not_or.mpr ⟨some.ne', not_not_intro ?_⟩
  refine (seen_end region entries positive word k handler some).mpr ?_
  by_cases all : (callAfter region entries size k).read = region.capacity
  · rw [if_pos all] at last ⊢
    exact last
  · rw [if_neg all] at last ⊢
    exact heapAfter_free region entries positive word k allowed last

theorem run_endFree (k : Nat) {handler : Handler} (large : 0xFFFFF000 < size)
    (leaves : ∀ block, (heapAfter region entries size k handler).table.IsFree block →
      handler.Leaves region (callAfter region entries size k).heap block) {start : Nat}
    (run : RunStart (seenTable region entries size k handler) (blocksFor size) start) :
    EndFree region entries size k handler := by
  have ends := (exists_runStart_iff (blocksFor_large region large)).mp ⟨start, run⟩
  rw [HeapTable.EndsTaken, not_or, not_not] at ends
  have some : 0 < region.capacity := Nat.pos_of_ne_zero ends.1
  have seen := (seen_end region entries positive word k handler some).mp ends.2
  refine ⟨some, ?_⟩
  by_cases all : (callAfter region entries size k).read = region.capacity
  · rw [if_pos all] at seen ⊢
    exact seen
  · rw [if_neg all] at seen ⊢
    exact leaves _ seen

theorem oversized_clash (k : Nat) {handler : Handler} (allowed : handler.Allowed)
    (large : 0xFFFFF000 < size) (free : EndFree region entries size k handler) :
    ¬ Tolerates region entries size k handler := by
  obtain ⟨start, run⟩ := endFree_run region entries positive word k allowed large free
  have snapshot := callAfter_snapshot region entries positive word k
  have serves := own_serves region entries positive word k handler
  have zero : totalBlocksOf size = 0 := alignedBlocks_of_wrap large word
  have unmarked : (callAfter region entries size k).marked (totalBlocksOf size) = 0 :=
    Nat.le_zero.mp (zero ▸ MallocCall.marked_le (callAfter_reached region entries positive
      word k))
  rw [unmarked] at snapshot
  rw [unmarked, zero] at serves
  refine oversized_disturbs snapshot serves (fun block unused => ?_) (blocksFor_pos positive)
    run
  cases handler with
  | malloc other =>
      exact (handler_serves region entries positive word k allowed.1 allowed.2).keeps
        (totalBlocksOf_le allowed.1 allowed.2) unused
  | free range => exact .inl ((heapFree_isFree_iff _ _ _).mpr (.inl unused))

theorem tolerates_malloc_iff (k : Nat) {other : Nat} (otherPositive : 1 ≤ other)
    (otherWord : other < 2 ^ 32) :
    Tolerates region entries size k (.malloc other) ↔
      ¬ Clash region entries size k (.malloc other) := by
  have snapshot := callAfter_snapshot region entries positive word k
  have serves := own_serves region entries positive word k (.malloc other)
  have handler := handler_serves region entries positive word k otherPositive otherWord
  have most := totalBlocksOf_le positive word
  have otherMost := totalBlocksOf_le otherPositive otherWord
  have wide (large : 0xFFFFF000 < other) :
      (callAfter region entries size k).heap.table.totalEntries < blocksFor other := by
    rw [snapshot.total]
    exact blocksFor_large region large
  constructor
  · rintro tolerates clash
    cases clash with
    | oversized large free =>
        have allowed : (Handler.malloc other).Allowed := ⟨otherPositive, otherWord⟩
        exact oversized_clash region entries positive word k allowed large free tolerates
    | handlerOversized large free =>
        obtain ⟨start, run⟩ := (exists_runStart_iff (wide large)).mpr free
        have zero : totalBlocksOf other = 0 := alignedBlocks_of_wrap large otherWord
        rw [zero] at handler
        exact handler_oversized_disturbs serves most handler (blocksFor_pos otherPositive) run
          tolerates
    | sameBlock run left again behind =>
        exact same_block_disturbs snapshot serves most handler otherMost
          (blocksFor_pos otherPositive) run left again behind tolerates
  · intro clear
    have otherExact : ∀ start, RunStart (callAfter region entries size k).heap.table
        (blocksFor other) start → totalBlocksOf other = blocksFor other := fun start run => by
      by_contra different
      have large : 0xFFFFF000 < other :=
        not_le.mp fun fits => different (alignedBlocks_of_fits fits)
      exact clear (.handlerOversized large
        ((exists_runStart_iff (wide large)).mp ⟨start, run⟩))
    refine undisturbed_of_malloc snapshot serves handler (blocksFor_pos positive)
      (blocksFor_pos otherPositive) (fun start run => ?_) otherExact
      fun start run left again behind => clear (.sameBlock run left again behind)
    by_contra different
    have large : 0xFFFFF000 < size :=
      not_le.mp fun fits => different (alignedBlocks_of_fits fits)
    refine clear (.oversized large (run_endFree region entries positive word k large
      (fun block free => ⟨?_, fun first given => ?_⟩) run))
    · exact handler.free_of_free free
    · exact handler.spared otherExact free given

theorem tolerates_free_iff (k : Nat) (range : Range) :
    Tolerates region entries size k (.free range) ↔
      ¬ Clash region entries size k (.free range) := by
  have snapshot := callAfter_snapshot region entries positive word k
  have serves := own_serves region entries positive word k (.free range)
  have most := totalBlocksOf_le positive word
  have marked := MallocCall.marked_le (callAfter_reached region entries positive word k)
  have release := heapFree_isFree_iff (callAfter region entries size k).heap
    (region.start + 4096 * range.first)
  constructor
  · rintro tolerates clash
    cases clash with
    | oversized large free =>
        have allowed : (Handler.free range).Allowed := trivial
        exact oversized_clash region entries positive word k allowed large free tolerates
    | unmarked run lower upper cleared =>
        exact unmarked_disturbs snapshot serves (marked.trans most) run lower upper
          ((release _).mpr (.inr cleared)) tolerates
    | stolen run lower upper inside cleared live other =>
        exact stolen_disturbs serves run lower upper inside live other tolerates
  · intro clear
    refine undisturbed_of_free snapshot serves release (fun start run => ?_)
      (fun start block run lower upper cleared => ?_)
      fun start block run lower upper inside cleared live => ?_
    · by_contra different
      have large : 0xFFFFF000 < size :=
        not_le.mp fun fits => different (alignedBlocks_of_fits fits)
      exact clear (.oversized large (run_endFree region entries positive word k large
        (fun block => (heapFree_isFree_iff _ _ _).mp) run))
    · exact clear (.unmarked run lower upper cleared)
    · by_contra other
      exact clear (.stolen run lower upper inside cleared live other)

/-- Whenever the handler comes, both callers are served as they should be unless it and
the call clash. -/
theorem tolerates_handler_iff (k : Nat) {handler : Handler} (allowed : handler.Allowed) :
    Tolerates region entries size k handler ↔ ¬ Clash region entries size k handler := by
  cases handler with
  | malloc other => exact tolerates_malloc_iff region entries positive word k allowed.1 allowed.2
  | free range => exact tolerates_free_iff region entries positive word k range

end Calls

/-- The handler comes after the last block has been marked. -/
theorem tolerates_handler_iff_marked :
    Tolerates threeBlocks (fun _ => 0) 4096 3 (.malloc 4096) := by
  have allowed : (Handler.malloc 4096).Allowed := by
    unfold Handler.Allowed
    decide
  refine (tolerates_handler_iff threeBlocks (fun _ => 0) (by decide) (by decide) 3
    allowed).mpr fun clash => ?_
  cases clash with
  | oversized large _ => exact absurd large (by decide)
  | handlerOversized large _ => exact absurd large (by decide)
  | sameBlock _ left _ _ => exact absurd left (by decide +kernel)

/-- The handler comes between the search and the marking: both callers get block 0. -/
theorem block_handed_out_twice :
    ¬ Tolerates threeBlocks (fun _ => 0) 4096 1 (.malloc 4096) := by
  intro tolerates
  exact tolerates.apart 0 (by decide +kernel) (by decide +kernel)

end LazyOS.Memory

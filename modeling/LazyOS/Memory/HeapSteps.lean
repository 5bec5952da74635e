import LazyOS.Memory.HeapCalls

namespace LazyOS.Memory

open LazyOS.Data

/-! `heap_malloc` from one access of the table to the next, for an interrupt that
finds it on the way. -/

/-- Where a call is: at the head of the search loop, behind the search, at the head of
the marking loop, or back at its caller. -/
inductive MallocPoint
  | searching (remaining i currentBlock : Nat) (startBlock : Int)
  | found (startBlock : Int)
  | marking (address : Nat) (endBlock : Int) (remaining : Nat) (i : Int) (entry : Byte)
  | returned (address : Nat)

structure MallocCall where
  heap : Heap
  point : MallocPoint

namespace MallocCall

def start (heap : Heap) : MallocCall :=
  ⟨heap, .searching heap.table.totalEntries 0 0 (-1)⟩

def foundBlock (startBlock : Int) : MallocPoint :=
  .found (if startBlock = -1 then -noMemory else startBlock)

def step (totalBlocks : Nat) (call : MallocCall) : MallocCall :=
  match call.point with
  | .searching 0 _ _ startBlock => { call with point := foundBlock startBlock }
  | .searching (remaining + 1) i currentBlock startBlock =>
      if heapGetEntryType (call.heap.table.entries i) ≠ heapBlockTableEntryFree then
        { call with point := .searching remaining (i + 1) 0 (-1) }
      else
        let startBlock := if startBlock = -1 then toInt32 i else startBlock
        if currentBlock + 1 = totalBlocks then
          { call with point := foundBlock startBlock }
        else
          { call with point := .searching remaining (i + 1) (currentBlock + 1) startBlock }
  | .found startBlock =>
      if startBlock < 0 then { call with point := .returned 0 }
      else
        let endBlock := toInt32 ((startBlock.toNat : Int) + totalBlocks - 1)
        let first := toInt32 startBlock.toNat
        let entry :=
          if 1 < totalBlocks then
            heapBlockTableEntryTaken ||| heapBlockIsFirst ||| heapBlockHasNext
          else heapBlockTableEntryTaken ||| heapBlockIsFirst
        { call with
          point := .marking (heapBlockToAddress call.heap startBlock.toNat) endBlock
            (endBlock - first + 1).toNat first entry }
  | .marking address _ 0 _ _ => { call with point := .returned address }
  | .marking address endBlock (remaining + 1) i entry =>
      { heap := call.heap.setEntries (Function.update call.heap.table.entries i entry)
        point := .marking address endBlock remaining (i + 1)
          (if i ≠ endBlock then heapBlockTableEntryTaken ||| heapBlockHasNext
            else heapBlockTableEntryTaken) }
  | .returned _ => call

def mark (heap : Heap) (totalBlocks : Nat) (startBlock : Int) : Nat × Heap :=
  if startBlock < 0 then (0, heap)
  else
    (heapBlockToAddress heap startBlock.toNat,
      heapMarkBlocksTaken heap startBlock.toNat totalBlocks)

def resume (totalBlocks : Nat) (call : MallocCall) : Nat × Heap :=
  match call.point with
  | .searching remaining i currentBlock startBlock =>
      let startBlock := heapGetStartBlockLoop call.heap.table totalBlocks remaining i
        currentBlock startBlock
      mark call.heap totalBlocks (if startBlock = -1 then -noMemory else startBlock)
  | .found startBlock => mark call.heap totalBlocks startBlock
  | .marking address endBlock remaining i entry =>
      (address, call.heap.setEntries
        (heapMarkBlocksTakenLoop endBlock remaining i entry call.heap.table.entries))
  | .returned address => (address, call.heap)

theorem resume_start (heap : Heap) (size : Nat) :
    (start heap).resume (heapAligneValueToUpper size / heapBlockSize) =
      heapMalloc heap size :=
  rfl

theorem resume_step (totalBlocks : Nat) (call : MallocCall) :
    (call.step totalBlocks).resume totalBlocks = call.resume totalBlocks := by
  obtain ⟨heap, point⟩ := call
  cases point with
  | searching remaining i currentBlock startBlock =>
      cases remaining with
      | zero => rfl
      | succ remaining =>
          simp only [step, resume, heapGetStartBlockLoop]
          by_cases taken : heapGetEntryType (heap.table.entries i) ≠ heapBlockTableEntryFree
          · rw [if_pos taken, if_pos taken]
          · rw [if_neg taken, if_neg taken]
            by_cases enough : currentBlock + 1 = totalBlocks
            · rw [if_pos enough, if_pos enough]
              rfl
            · rw [if_neg enough, if_neg enough]
  | found startBlock =>
      simp only [step, resume, mark]
      by_cases none : startBlock < 0
      · rw [if_pos none, if_pos none]
      · rw [if_neg none, if_neg none]
        rfl
  | marking address endBlock remaining i entry =>
      cases remaining with
      | zero => rfl
      | succ remaining => rfl
  | returned address => rfl

theorem resume_run (totalBlocks : Nat) (call : MallocCall) (k : Nat) :
    ((step totalBlocks)^[k] call).resume totalBlocks = call.resume totalBlocks := by
  induction k with
  | zero => rfl
  | succ k ih => rw [Function.iterate_succ_apply', resume_step, ih]

def Returns (totalBlocks : Nat) (call : MallocCall) : Prop :=
  ∃ k heap address, (step totalBlocks)^[k] call = ⟨heap, .returned address⟩

theorem Returns.of_step {totalBlocks : Nat} {call : MallocCall}
    (later : Returns totalBlocks (call.step totalBlocks)) : Returns totalBlocks call := by
  obtain ⟨k, heap, address, reached⟩ := later
  exact ⟨k + 1, heap, address, reached⟩

theorem marking_returns (totalBlocks address : Nat) (endBlock : Int) (remaining : Nat)
    (i : Int) (entry : Byte) (heap : Heap) :
    Returns totalBlocks ⟨heap, .marking address endBlock remaining i entry⟩ := by
  induction remaining generalizing i entry heap with
  | zero => exact ⟨1, heap, address, rfl⟩
  | succ remaining ih => exact .of_step (ih _ _ _)

theorem found_returns (totalBlocks : Nat) (startBlock : Int) (heap : Heap) :
    Returns totalBlocks ⟨heap, .found startBlock⟩ := by
  refine .of_step ?_
  simp only [step]
  by_cases none : startBlock < 0
  · rw [if_pos none]
    exact ⟨0, heap, 0, rfl⟩
  · rw [if_neg none]
    exact marking_returns ..

theorem searching_returns (totalBlocks remaining i currentBlock : Nat) (startBlock : Int)
    (heap : Heap) :
    Returns totalBlocks ⟨heap, .searching remaining i currentBlock startBlock⟩ := by
  induction remaining generalizing i currentBlock startBlock with
  | zero => exact .of_step (found_returns ..)
  | succ remaining ih =>
      refine .of_step ?_
      simp only [step]
      by_cases taken : heapGetEntryType (heap.table.entries i) ≠ heapBlockTableEntryFree
      · rw [if_pos taken]
        exact ih ..
      · rw [if_neg taken]
        by_cases enough : currentBlock + 1 = totalBlocks
        · rw [if_pos enough]
          exact found_returns ..
        · rw [if_neg enough]
          exact ih ..

theorem resume_returns (totalBlocks : Nat) (call : MallocCall) :
    ∃ k, (step totalBlocks)^[k] call =
      ⟨(call.resume totalBlocks).2, .returned (call.resume totalBlocks).1⟩ := by
  have ends : Returns totalBlocks call := by
    obtain ⟨heap, point⟩ := call
    cases point with
    | searching remaining i currentBlock startBlock => exact searching_returns ..
    | found startBlock => exact found_returns ..
    | marking address endBlock remaining i entry => exact marking_returns ..
    | returned address => exact ⟨0, heap, address, rfl⟩
  obtain ⟨k, heap, address, reached⟩ := ends
  refine ⟨k, ?_⟩
  rw [← resume_run totalBlocks call k, reached]
  rfl

theorem start_returns (heap : Heap) (size : Nat) :
    ∃ k, (step (heapAligneValueToUpper size / heapBlockSize))^[k] (start heap) =
      ⟨(heapMalloc heap size).2, .returned (heapMalloc heap size).1⟩ := by
  rw [← resume_start]
  exact resume_returns _ _

end MallocCall

/-- The run that a search for `totalBlocks` hands out: the leftmost of that length, or
else the free tail of the table. -/
structure RunStart (table : HeapTable) (totalBlocks start : Nat) : Prop where
  inside : start < table.totalEntries
  boundary : start = 0 ∨ ¬ table.IsFree (start - 1)
  free : ∀ block, start ≤ block → block < start + totalBlocks →
    block < table.totalEntries → table.IsFree block
  least : ∀ first < start, ¬ table.FreeRun ⟨first, totalBlocks⟩

theorem RunStart.not_before {table : HeapTable} {totalBlocks left right : Nat}
    (first : RunStart table totalBlocks left) (second : RunStart table totalBlocks right) :
    ¬ left < right := by
  intro less
  have inside := second.inside
  by_cases fits : left + totalBlocks ≤ table.totalEntries
  · refine second.least left less ⟨fits, fun block contains => ?_⟩
    have upper : block < left + totalBlocks := contains.2
    exact first.free block contains.1 upper (by omega)
  · have taken := second.boundary.resolve_left (by omega)
    exact taken (first.free (right - 1) (by omega) (by omega) (by omega))

theorem RunStart.unique {table : HeapTable} {totalBlocks left right : Nat}
    (first : RunStart table totalBlocks left) (second : RunStart table totalBlocks right) :
    left = right :=
  Nat.le_antisymm (not_lt.mp (second.not_before first)) (not_lt.mp (first.not_before second))

theorem exists_runStart_iff {table : HeapTable} {wanted : Nat}
    (larger : table.totalEntries < wanted) :
    (∃ start, RunStart table wanted start) ↔ ¬ table.EndsTaken := by
  constructor
  · rintro ⟨start, run⟩ ends
    have inside := run.inside
    have last := run.free (table.totalEntries - 1) (by omega) (by omega) (by omega)
    exact ends.elim (fun empty => by omega) (fun taken => taken last)
  · intro ends
    rw [HeapTable.EndsTaken, not_or, not_not] at ends
    obtain ⟨some, last⟩ := ends
    have tails : ∃ start, start < table.totalEntries ∧
        ∀ block, start ≤ block → block < table.totalEntries → table.IsFree block := by
      refine ⟨table.totalEntries - 1, by omega, fun block lower upper => ?_⟩
      obtain rfl : block = table.totalEntries - 1 := by omega
      exact last
    classical
    obtain ⟨start, ⟨inside, free⟩, least⟩ := Nat.findX tails
    refine ⟨start, inside, ?_, fun block lower _ upper => free block lower upper,
      fun first _ run => ?_⟩
    · by_contra opens
      rw [not_or, not_not] at opens
      refine least (start - 1) (by omega) ⟨by omega, fun block lower upper => ?_⟩
      by_cases here : block = start - 1
      · rw [here]
        exact opens.2
      · exact free block (by omega) upper
    · have fits : first + wanted ≤ table.totalEntries := run.1
      omega

/-- The result of `heap_get_start_block`. -/
inductive SearchResult (table : HeapTable) (totalBlocks : Nat) : Int → Prop
  | nowhere (none : ∀ start, ¬ RunStart table totalBlocks start) :
      SearchResult table totalBlocks (-noMemory)
  | run (start : Nat) (run : RunStart table totalBlocks start) :
      SearchResult table totalBlocks start

/-- How many blocks are searched for and marked where `wanted` are needed: none when the
size has wrapped, and then the search ends like one for more blocks than there are. -/
structure Asks (totalBlocks wanted capacity : Nat) : Prop where
  positive : 0 < wanted
  bounded : wanted ≤ 2 ^ 20
  exact : totalBlocks = wanted ∨ totalBlocks = 0 ∧ capacity < wanted

theorem asks_of_size {size capacity : Nat} (positive : 1 ≤ size) (word : size < 2 ^ 32)
    (small : capacity < 2 ^ 20) :
    Asks (heapAligneValueToUpper size / heapBlockSize) (blocksFor size) capacity where
  positive := blocksFor_pos positive
  bounded := by
    unfold blocksFor
    omega
  exact := by
    by_cases fits : size ≤ 0xFFFFF000
    · exact .inl (alignedBlocks_of_fits fits)
    · refine .inr ⟨alignedBlocks_of_wrap (not_le.mp fits) word, ?_⟩
      unfold blocksFor
      omega

theorem Asks.small {totalBlocks wanted capacity : Nat}
    (asks : Asks totalBlocks wanted capacity) : totalBlocks ≤ 2 ^ 20 := by
  rcases asks.exact with same | ⟨zero, -⟩
  · exact same ▸ asks.bounded
  · omega

theorem Asks.meets {totalBlocks wanted capacity currentBlock : Nat}
    (asks : Asks totalBlocks wanted capacity) (before : currentBlock < capacity) :
    currentBlock + 1 = totalBlocks ↔ currentBlock + 1 = wanted := by
  rcases asks.exact with same | ⟨zero, larger⟩ <;> omega

structure Searching (table : HeapTable) (wanted i currentBlock : Nat) (startBlock : Int) :
    Prop where
  search : SearchAt table wanted i currentBlock startBlock
  none : NoRunBefore table wanted i

namespace Searching

variable {table : HeapTable} {wanted i currentBlock : Nat} {startBlock : Int}

theorem start (table : HeapTable) {wanted : Nat} (positive : 0 < wanted) :
    Searching table wanted 0 0 (-1) where
  search := .closed (.inl rfl)
  none := fun first ends => by omega

theorem reaches (searching : Searching table wanted i currentBlock startBlock) :
    currentBlock ≤ i := by
  cases searching.search with
  | closed _ => exact Nat.zero_le i
  | opened _ _ _ reaches _ _ => omega

theorem taken (searching : Searching table wanted i currentBlock startBlock)
    (positive : 0 < wanted) (taken : ¬ table.IsFree i) :
    Searching table wanted (i + 1) 0 (-1) where
  search := .closed (.inr taken)
  none := noRunBefore_succ_of_taken searching.none positive taken

theorem more (searching : Searching table wanted i currentBlock startBlock)
    (positive : 0 < wanted) (freeHere : table.IsFree i) (bounded : i < 2 ^ 31)
    (short : currentBlock + 1 ≠ wanted) :
    Searching table wanted (i + 1) (currentBlock + 1)
      (if startBlock = -1 then toInt32 i else startBlock) := by
  obtain ⟨start, startEq, reaches, free, boundary⟩ :=
    searching.search.extend freeHere bounded
  have notLonger := searching.search.notLonger positive
  rw [startEq]
  exact ⟨.opened start (by omega) (by omega) (by omega) free boundary,
    noRunBefore_succ_of_short searching.none boundary (by omega) (by omega)⟩

theorem enough (searching : Searching table wanted i currentBlock startBlock)
    (freeHere : table.IsFree i) (inside : i < table.totalEntries) (bounded : i < 2 ^ 31)
    (enough : currentBlock + 1 = wanted) :
    ∃ start : Nat, (if startBlock = -1 then toInt32 i else startBlock) = start ∧
      RunStart table wanted start := by
  obtain ⟨start, startEq, reaches, free, boundary⟩ :=
    searching.search.extend freeHere bounded
  refine ⟨start, startEq, by omega, boundary, fun block lower upper _ => ?_,
    fun first earlier => ?_⟩
  · exact free block lower (by omega)
  · exact not_freeRun_before_start searching.none boundary (by omega) earlier

theorem ends (searching : Searching table wanted table.totalEntries currentBlock startBlock) :
    SearchResult table wanted (if startBlock = -1 then -noMemory else startBlock) := by
  obtain ⟨search, none⟩ := searching
  have nowhere : ∀ first, ¬ table.FreeRun ⟨first, wanted⟩ := fun first run =>
    not_freeRun_of_noRunBefore none run.1 run
  cases search with
  | closed boundary =>
      rw [if_pos rfl]
      refine .nowhere fun start run => ?_
      have inside := run.inside
      by_cases fits : start + wanted ≤ table.totalEntries
      · refine nowhere start ⟨fits, fun block contains => ?_⟩
        have upper : block < start + wanted := contains.2
        exact run.free block contains.1 upper (by omega)
      · have last := boundary.resolve_left (by omega)
        exact last (run.free _ (by omega) (by omega) (by omega))
  | opened start opened short reaches free boundary =>
      rw [if_neg (by omega)]
      exact .run start ⟨by omega, boundary, fun block lower _ upper => free block lower upper,
        fun first _ => nowhere first⟩

end Searching

theorem heapGetStartBlockLoop_result (table : HeapTable) {totalBlocks wanted : Nat}
    (asks : Asks totalBlocks wanted table.totalEntries)
    (bounded : table.totalEntries < 2 ^ 20) (remaining i currentBlock : Nat)
    (startBlock : Int) (covers : i + remaining = table.totalEntries)
    (searching : Searching table wanted i currentBlock startBlock) :
    SearchResult table wanted
      (if heapGetStartBlockLoop table totalBlocks remaining i currentBlock startBlock = -1
        then -noMemory
        else heapGetStartBlockLoop table totalBlocks remaining i currentBlock startBlock) := by
  induction remaining generalizing i currentBlock startBlock with
  | zero =>
      obtain rfl : i = table.totalEntries := covers
      exact searching.ends
  | succ remaining ih =>
      simp only [heapGetStartBlockLoop]
      by_cases taken : heapGetEntryType (table.entries i) ≠ heapBlockTableEntryFree
      · rw [if_pos taken]
        exact ih (i + 1) 0 (-1) (by omega) (searching.taken asks.positive taken)
      · rw [if_neg taken]
        have freeHere : table.IsFree i := not_not.mp taken
        have reaches := searching.reaches
        have meets := asks.meets (by omega : currentBlock < table.totalEntries)
        by_cases enough : currentBlock + 1 = totalBlocks
        · obtain ⟨start, startEq, run⟩ :=
            searching.enough freeHere (by omega) (by omega) (meets.mp enough)
          rw [if_pos enough, startEq, if_neg (by omega)]
          exact .run start run
        · rw [if_neg enough]
          exact ih (i + 1) (currentBlock + 1) _ (by omega)
            (searching.more asks.positive freeHere (by omega) (mt meets.mpr enough))

/-- The first `count` blocks of a run from `start` are marked, and nothing else has
changed. -/
structure Marked (before : Heap) (start count : Nat) (after : Heap) : Prop where
  total : after.table.totalEntries = before.table.totalEntries
  address : after.startAddr = before.startAddr
  taken : ∀ block, start ≤ block → block < start + count → ¬ after.table.IsFree block
  others : ∀ block : Nat, ¬ (start ≤ block ∧ block < start + count) →
    after.table.entries block = before.table.entries block

theorem Marked.none (heap : Heap) (start : Nat) : Marked heap start 0 heap :=
  ⟨rfl, rfl, fun _ _ _ => by omega, fun _ _ => rfl⟩

theorem Marked.next {before after : Heap} {start count : Nat}
    (marked : Marked before start count after) {entry : Byte}
    (taken : heapGetEntryType entry ≠ heapBlockTableEntryFree) :
    Marked before start (count + 1)
      (after.setEntries
        (Function.update after.table.entries (start + count : Nat) entry)) where
  total := marked.total
  address := marked.address
  taken block lower upper := by
    unfold HeapTable.IsFree
    rw [Heap.setEntries_entries]
    by_cases last : block = start + count
    · rw [last, Function.update_self]
      exact taken
    · rw [Function.update_of_ne (by omega)]
      exact marked.taken block lower (by omega)
  others block outside := by
    rw [Heap.setEntries_entries, Function.update_of_ne (by omega)]
    exact marked.others block (by omega)

inductive Reached (heap : Heap) (totalBlocks wanted : Nat) : MallocCall → Prop
  | searching {remaining i currentBlock : Nat} {startBlock : Int}
      (covers : i + remaining = heap.table.totalEntries)
      (searching : Searching heap.table wanted i currentBlock startBlock) :
      Reached heap totalBlocks wanted
        ⟨heap, .searching remaining i currentBlock startBlock⟩
  | found {startBlock : Int} (result : SearchResult heap.table wanted startBlock) :
      Reached heap totalBlocks wanted ⟨heap, .found startBlock⟩
  | marking {after : Heap} {start count remaining : Nat} {entry : Byte}
      (run : RunStart heap.table wanted start) (all : count + remaining = totalBlocks)
      (marked : Marked heap start count after)
      (taken : heapGetEntryType entry ≠ heapBlockTableEntryFree) :
      Reached heap totalBlocks wanted
        ⟨after, .marking (heapBlockToAddress heap start)
          ((start : Int) + totalBlocks - 1) remaining (start + count : Nat) entry⟩
  | refused (none : ∀ start, ¬ RunStart heap.table wanted start) :
      Reached heap totalBlocks wanted ⟨heap, .returned 0⟩
  | granted {after : Heap} {start : Nat} (run : RunStart heap.table wanted start)
      (marked : Marked heap start totalBlocks after) :
      Reached heap totalBlocks wanted ⟨after, .returned (heapBlockToAddress heap start)⟩

theorem Reached.step {heap : Heap} {totalBlocks wanted : Nat} {call : MallocCall}
    (asks : Asks totalBlocks wanted heap.table.totalEntries)
    (bounded : heap.table.totalEntries < 2 ^ 20)
    (reached : Reached heap totalBlocks wanted call) :
    Reached heap totalBlocks wanted (call.step totalBlocks) := by
  cases reached with
  | @searching remaining i currentBlock startBlock covers searching =>
      cases remaining with
      | zero =>
          obtain rfl : i = heap.table.totalEntries := covers
          exact .found searching.ends
      | succ remaining =>
          simp only [MallocCall.step]
          by_cases taken : heapGetEntryType (heap.table.entries i) ≠ heapBlockTableEntryFree
          · rw [if_pos taken]
            exact .searching (by omega) (searching.taken asks.positive taken)
          · have freeHere : heap.table.IsFree i := not_not.mp taken
            have reaches := searching.reaches
            have meets := asks.meets (by omega : currentBlock < heap.table.totalEntries)
            rw [if_neg taken]
            by_cases enough : currentBlock + 1 = totalBlocks
            · obtain ⟨start, startEq, run⟩ :=
                searching.enough freeHere (by omega) (by omega) (meets.mp enough)
              rw [if_pos enough, startEq, MallocCall.foundBlock, if_neg (by omega)]
              exact .found (.run start run)
            · rw [if_neg enough]
              exact .searching (by omega)
                (searching.more asks.positive freeHere (by omega) (mt meets.mpr enough))
  | @found startBlock result =>
      simp only [MallocCall.step]
      cases result with
      | nowhere none =>
          rw [if_pos (by decide)]
          exact .refused none
      | run start run =>
          have inside := run.inside
          have small := asks.small
          have first : toInt32 start = start := toInt32_of_range (by omega) (by omega)
          have last : toInt32 ((start : Int) + totalBlocks - 1) =
              (start : Int) + totalBlocks - 1 := toInt32_of_range (by omega) (by omega)
          have turns : ((start : Int) + totalBlocks - 1 - start + 1).toNat = totalBlocks := by
            omega
          rw [if_neg (by omega), Int.toNat_natCast, first, last, turns]
          refine .marking run (Nat.zero_add totalBlocks) (.none heap start) ?_
          split <;> decide
  | @marking after start count remaining entry run all marked taken =>
      cases remaining with
      | zero =>
          obtain rfl : count = totalBlocks := all
          exact .granted run marked
      | succ remaining =>
          refine .marking run (by omega) (marked.next taken) ?_
          split <;> decide
  | refused none => exact .refused none
  | granted run marked => exact .granted run marked

theorem reached_run {heap : Heap} {totalBlocks wanted : Nat}
    (asks : Asks totalBlocks wanted heap.table.totalEntries)
    (bounded : heap.table.totalEntries < 2 ^ 20) (k : Nat) :
    Reached heap totalBlocks wanted
      ((MallocCall.step totalBlocks)^[k] (MallocCall.start heap)) := by
  induction k with
  | zero => exact .searching (Nat.zero_add _) (.start _ asks.positive)
  | succ k ih =>
      rw [Function.iterate_succ_apply']
      exact ih.step asks bounded

def MallocCall.read (call : MallocCall) : Nat :=
  match call.point with
  | .searching _ i _ _ => i
  | _ => call.heap.table.totalEntries

def MallocCall.marked (totalBlocks : Nat) (call : MallocCall) : Nat :=
  match call.point with
  | .marking _ _ remaining _ _ => totalBlocks - remaining
  | .returned _ => totalBlocks
  | _ => 0

/-- What the search sees of a table that is replaced behind its first `read` entries. -/
def HeapTable.changedBehind (before after : HeapTable) (read : Nat) : HeapTable where
  entries block := if block < read then before.entries block else after.entries block
  totalEntries := before.totalEntries

theorem HeapTable.isFree_changedBehind_before (before after : HeapTable) {read block : Nat}
    (seen : block < read) :
    (before.changedBehind after read).IsFree block ↔ before.IsFree block := by
  have entry : (before.changedBehind after read).entries block = before.entries block :=
    if_pos (Int.ofNat_lt.mpr seen)
  unfold HeapTable.IsFree
  rw [entry]

theorem HeapTable.changedBehind_after (before after : HeapTable) {read block : Nat}
    (unseen : read ≤ block) :
    (before.changedBehind after read).entries block = after.entries block :=
  if_neg (by omega)

theorem HeapTable.isFree_changedBehind_after (before after : HeapTable) {read block : Nat}
    (unseen : read ≤ block) :
    (before.changedBehind after read).IsFree block ↔ after.IsFree block := by
  unfold HeapTable.IsFree
  rw [HeapTable.changedBehind_after _ _ unseen]

theorem RunStart.congr {table other : HeapTable} {totalBlocks start : Nat}
    (run : RunStart table totalBlocks start) (total : other.totalEntries = table.totalEntries)
    (agree : ∀ block < table.totalEntries, (other.IsFree block ↔ table.IsFree block)) :
    RunStart other totalBlocks start where
  inside := total ▸ run.inside
  boundary := by
    have inside := run.inside
    exact run.boundary.imp_right fun taken => mt (agree _ (by omega)).mp taken
  free block lower upper inside := by
    rw [total] at inside
    exact (agree block inside).mpr (run.free block lower upper inside)
  least first earlier other := by
    have fits : first + totalBlocks ≤ table.totalEntries := total ▸ other.1
    refine run.least first earlier ⟨fits, fun block contains => ?_⟩
    have upper : block < first + totalBlocks := contains.2
    exact (agree block (by omega)).mp (other.2 block contains)

theorem runStart_changedBehind_total (before after : HeapTable) (totalBlocks start : Nat) :
    RunStart (before.changedBehind after before.totalEntries) totalBlocks start ↔
      RunStart before totalBlocks start := by
  have agree : ∀ block < before.totalEntries,
      ((before.changedBehind after before.totalEntries).IsFree block ↔
        before.IsFree block) := fun block inside =>
    HeapTable.isFree_changedBehind_before _ _ inside
  exact ⟨fun run => run.congr rfl fun block inside => (agree block inside).symm,
    fun run => run.congr rfl agree⟩

theorem Searching.changedBehind {before : HeapTable} {wanted i currentBlock : Nat}
    {startBlock : Int} (searching : Searching before wanted i currentBlock startBlock)
    (after : HeapTable) :
    Searching (before.changedBehind after i) wanted i currentBlock startBlock := by
  have agree : ∀ block < i, ((before.changedBehind after i).IsFree block ↔
      before.IsFree block) := fun block seen =>
    HeapTable.isFree_changedBehind_before _ _ seen
  obtain ⟨search, none⟩ := searching
  refine ⟨?_, fun first ends => ?_⟩
  · cases search with
    | closed boundary =>
        rcases Nat.eq_zero_or_pos i with rfl | positive
        · exact .closed (.inl rfl)
        · have taken := boundary.resolve_left (by omega)
          exact .closed (.inr (mt (agree _ (by omega)).mp taken))
    | opened start opened short reaches free boundary =>
        refine .opened start opened short reaches (fun block lower upper => ?_) ?_
        · exact (agree block upper).mpr (free block lower upper)
        · exact boundary.imp_right fun taken => mt (agree _ (by omega)).mp taken
  · obtain ⟨block, lower, upper, taken⟩ := none first ends
    exact ⟨block, lower, upper, mt (agree block (by omega)).mp taken⟩

theorem heapGetStartBlockLoop_congr {table other : HeapTable} (totalBlocks remaining : Nat)
    {i : Nat} (agree : ∀ block : Nat, i ≤ block → other.entries block = table.entries block)
    (currentBlock : Nat) (startBlock : Int) :
    heapGetStartBlockLoop other totalBlocks remaining i currentBlock startBlock =
      heapGetStartBlockLoop table totalBlocks remaining i currentBlock startBlock := by
  induction remaining generalizing i currentBlock startBlock with
  | zero => rfl
  | succ remaining ih =>
      have later : ∀ block : Nat, i + 1 ≤ block →
          other.entries block = table.entries block :=
        fun block lower => agree block (by omega)
      simp only [heapGetStartBlockLoop, agree i le_rfl, ih later]

theorem heapMarkBlocksTaken_marked (heap : Heap) {start totalBlocks : Nat}
    (bounded : start + totalBlocks < 2 ^ 31) :
    Marked heap start totalBlocks (heapMarkBlocksTaken heap start totalBlocks) := by
  rcases Nat.eq_zero_or_pos totalBlocks with rfl | positive
  · rw [heapMarkBlocksTaken_zero heap (by omega)]
    exact .none heap start
  · have entries := heapMarkBlocksTaken_apply heap ⟨start, totalBlocks⟩ positive bounded
    refine ⟨rfl, rfl, fun block lower upper => ?_, fun block outside => ?_⟩
    · unfold HeapTable.IsFree
      rw [entries block, if_pos ⟨lower, upper⟩]
      exact heapGetEntryType_blockMark _ block
    · have away : ¬ Range.Contains ⟨start, totalBlocks⟩ block := outside
      rw [entries block, if_neg away]

theorem heapMarkBlocksTakenLoop_marked (heap : Heap) {first remaining : Nat}
    {endBlock : Int} {entry : Byte} (ends : (first : Int) + remaining ≤ endBlock + 1)
    (taken : heapGetEntryType entry ≠ heapBlockTableEntryFree) :
    Marked heap first remaining (heap.setEntries
      (heapMarkBlocksTakenLoop endBlock remaining first entry heap.table.entries)) where
  total := rfl
  address := rfl
  taken block lower upper := by
    unfold HeapTable.IsFree
    rw [Heap.setEntries_entries, heapMarkBlocksTakenLoop_apply _ _ _ _ _ ends]
    by_cases here : block = first
    · rw [if_pos (by omega)]
      exact taken
    · rw [if_neg (by omega), if_pos (by omega)]
      decide
  others block outside := by
    rw [Heap.setEntries_entries, heapMarkBlocksTakenLoop_apply _ _ _ _ _ ends,
      if_neg (by omega), if_neg (by omega)]

/-- What a call comes to whose search sees `table`, with `marked` blocks marked before
it goes on in `heap`. -/
inductive MallocGrant (table : HeapTable) (totalBlocks wanted marked : Nat) (heap : Heap) :
    Nat × Heap → Prop
  | refused (none : ∀ start, ¬ RunStart table wanted start) :
      MallocGrant table totalBlocks wanted marked heap (0, heap)
  | granted {after : Heap} {start : Nat} (run : RunStart table wanted start)
      (rest : Marked heap (start + marked) (totalBlocks - marked) after) :
      MallocGrant table totalBlocks wanted marked heap (heapBlockToAddress heap start, after)

theorem mark_grant (table : HeapTable) {totalBlocks wanted : Nat} {heap : Heap}
    (asks : Asks totalBlocks wanted table.totalEntries)
    (bounded : table.totalEntries < 2 ^ 20) {startBlock : Int}
    (result : SearchResult table wanted startBlock) :
    MallocGrant table totalBlocks wanted 0 heap (MallocCall.mark heap totalBlocks startBlock) := by
  unfold MallocCall.mark
  cases result with
  | nowhere none =>
      rw [if_pos (by decide)]
      exact .refused none
  | run start run =>
      have inside := run.inside
      have small := asks.small
      rw [if_neg (by omega), Int.toNat_natCast]
      exact .granted run (heapMarkBlocksTaken_marked heap (by omega))

theorem Reached.resume {heap : Heap} {totalBlocks wanted : Nat} {call : MallocCall}
    (asks : Asks totalBlocks wanted heap.table.totalEntries)
    (bounded : heap.table.totalEntries < 2 ^ 20)
    (reached : Reached heap totalBlocks wanted call) {changed : Heap}
    (address : changed.startAddr = heap.startAddr) :
    MallocGrant (heap.table.changedBehind changed.table call.read) totalBlocks wanted
      (call.marked totalBlocks) changed
      (MallocCall.resume totalBlocks ⟨changed, call.point⟩) := by
  have same (start : Nat) : heapBlockToAddress heap start = heapBlockToAddress changed start :=
    congrArg (fun first : Nat => toUInt32 (first + start * heapBlockSize)) address.symm
  have seen {start : Nat} (run : RunStart heap.table wanted start) :
      RunStart (heap.table.changedBehind changed.table heap.table.totalEntries) wanted start :=
    (runStart_changedBehind_total ..).mpr run
  cases reached with
  | @searching remaining i currentBlock startBlock covers searching =>
      have result := heapGetStartBlockLoop_result
        (heap.table.changedBehind changed.table i) asks bounded remaining i currentBlock
        startBlock covers (searching.changedBehind changed.table)
      rw [heapGetStartBlockLoop_congr totalBlocks remaining fun block lower =>
        HeapTable.changedBehind_after heap.table changed.table lower] at result
      exact mark_grant (heap.table.changedBehind changed.table i) asks bounded result
  | @found startBlock result =>
      refine mark_grant (heap.table.changedBehind changed.table heap.table.totalEntries)
        asks bounded ?_
      cases result with
      | nowhere none =>
          exact .nowhere fun start run => none start ((runStart_changedBehind_total ..).mp run)
      | run start run => exact .run start (seen run)
  | @marking after start count remaining entry run all marked taken =>
      have ends : ((start + count : Nat) : Int) + remaining ≤
          (start : Int) + totalBlocks - 1 + 1 := by omega
      have rest := heapMarkBlocksTakenLoop_marked changed ends taken
      have done : totalBlocks - remaining = count := by omega
      have left : totalBlocks - count = remaining := by omega
      unfold MallocCall.read MallocCall.marked MallocCall.resume
      simp only
      rw [same, marked.total, done]
      refine .granted (seen run) ?_
      rw [left]
      exact rest
  | refused none =>
      exact .refused fun start run => none start ((runStart_changedBehind_total ..).mp run)
  | @granted after start run marked =>
      unfold MallocCall.read MallocCall.marked MallocCall.resume
      simp only
      rw [same, marked.total]
      refine .granted (seen run) ?_
      rw [Nat.sub_self]
      exact .none changed _

end LazyOS.Memory

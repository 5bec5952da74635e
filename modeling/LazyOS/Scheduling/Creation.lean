import LazyOS.Memory.FreshPages
import LazyOS.Scheduling.Reaping
import LazyOS.Scheduling.RoundRobin

namespace LazyOS.Scheduling

open LazyOS.Data
open LazyOS.Memory

/-! The memory a creation takes: a directory, the structure that names it, one table,
and the two frames of the stack. -/

def stackFlags : Word := pagingIsPresent ||| pagingIsWritable

theorem stack_indexes :
    pagingGetIndexes (pageAt procStackVirt 0) = some (64, 0) ∧
      pagingGetIndexes (pageAt procStackVirt 1) = some (64, 1) := by decide +kernel

theorem stack_behind : ∀ k < 0 + 2, ∃ i,
    pagingGetIndexes (pageAt procStackVirt k) = some (64, i) := by
  intro k less
  rcases (by omega : k = 0 ∨ k = 1) with rfl | rfl
  · exact ⟨0, stack_indexes.1⟩
  · exact ⟨1, stack_indexes.2⟩

theorem stackAlloc_eq (heap : PageHeap) (directory : Nat) (s : PagingState) :
    vmmAlloc heap directory procStackVirt (BitVec.ofNat 32 (pagingPageSize * 2))
      stackFlags s =
      (if (vmmAllocLoop heap directory procStackVirt stackFlags 2 0 s).1 then 0x10002000
        else 0,
        (vmmAllocLoop heap directory procStackVirt stackFlags 2 0 s).2) := by
  have count : pageCount (BitVec.ofNat 32 (pagingPageSize * 2)) = 2 := by decide
  have top : toInt32 (pageAt procStackVirt 2).toNat = 0x10002000 := by decide +kernel
  unfold vmmAlloc
  rw [if_neg (by decide), count]
  generalize vmmAllocLoop heap directory procStackVirt stackFlags 2 0 s = result
  obtain ⟨mapped, after⟩ := result
  cases mapped with
  | false => rfl
  | true =>
      simp only [top]
      rfl

/-- `phys_base` of `create_process`. -/
def physBase (directory : Nat) (virtTop : Int) (ram : Ram) : Word :=
  pagingGetPhysical ram directory
    (BitVec.ofInt 32 virtTop - BitVec.ofNat 32 pagingPageSize)

section Stack

variable {heap : PageHeap} {directory : Nat} {s after : PagingState}

theorem physBase_short (blank : s.ram.load directory 1023 = 0) :
    physBase directory 0 s.ram = 0 := by
  have indexes : pagingGetIndexes
      (BitVec.ofInt 32 0 - BitVec.ofNat 32 pagingPageSize) = some (1023, 1023) := by
    decide +kernel
  simp only [physBase, pagingGetPhysical, indexes, blank, if_neg not_present_zero]

theorem top_indexes : pagingGetIndexes
    (BitVec.ofInt 32 0x10002000 - BitVec.ofNat 32 pagingPageSize) = some (64, 1) := by
  decide +kernel

theorem physBase_bare (blank : s.ram.load directory 64 = 0) :
    physBase directory 0x10002000 s.ram = 0 := by
  simp only [physBase, pagingGetPhysical, top_indexes, blank, if_neg not_present_zero]

theorem physBase_mapped {low high table : Nat}
    (mapped : TwoMapped directory 64 0 1 stackFlags s after low high table) :
    physBase directory 0x10002000 after.ram ≠ 0 := by
  have apart := mapped.frames.apart
  have bound := mapped.frames.bound
  have page : IsPage (4096 * high) := by
    constructor
    · exact Nat.dvd_mul_right 4096 high
    · unfold pagingPageSize
      omega
  have behind : (frameOf (BitVec.ofNat 32 table ||| tableFlags)).toNat = table :=
    tableOf_or mapped.page (by decide)
  have frame : tableOf (BitVec.ofNat 32 (4096 * high) ||| stackFlags) = 4096 * high :=
    tableOf_or page (by decide)
  have offset : (BitVec.ofInt 32 0x10002000 - BitVec.ofNat 32 pagingPageSize) &&&
      (0xFFF : Word) = 0 := by decide +kernel
  simp only [physBase, pagingGetPhysical, top_indexes, mapped.entry,
    if_pos (present_or _ (by decide : Present tableFlags)), behind, mapped.second,
    if_pos (present_or _ (by decide : Present stackFlags)), offset]
  intro zero
  have cleared : frameOf (BitVec.ofNat 32 (4096 * high) ||| stackFlags) = 0 :=
    BitVec.or_zero.symm.trans zero
  rw [tableOf, cleared] at frame
  change 0 = 4096 * high at frame
  omega

theorem stackAlloc_mapped
    (persistent : heap.answer s.calls s.used = 0 →
      heap.answer (s.calls + 1) s.used = 0)
    (fresh : FreshDirectory directory s) {virtTop : Int}
    (allocated : vmmAlloc heap directory procStackVirt
      (BitVec.ofNat 32 (pagingPageSize * 2)) stackFlags s = (virtTop, after))
    (reachable : physBase directory virtTop after.ram ≠ 0) :
    ∃ low high table,
      TwoMapped directory 64 0 1 stackFlags s after low high table := by
  have pages := vmmAllocLoop_two stackFlags persistent fresh
    stack_indexes.1 stack_indexes.2 (by decide) (by decide)
  rw [stackAlloc_eq] at allocated
  generalize vmmAllocLoop heap directory procStackVirt stackFlags 2 0 s = result
    at pages allocated
  cases pages with
  | short few blank =>
      cases allocated
      exact absurd (physBase_short (blank 1023 (by decide) (by decide) (by decide)))
        reachable
  | bare none blank =>
      cases allocated
      exact absurd (physBase_bare blank) reachable
  | mapped mapped =>
      cases allocated
      exact ⟨_, _, _, mapped⟩

theorem stackAlloc_served (memory : heap.answer s.calls s.used ≠ 0)
    (frames : HasTwoFrames s.bitmap) (fresh : FreshDirectory directory s) :
    ∃ after low high table,
      vmmAlloc heap directory procStackVirt (BitVec.ofNat 32 (pagingPageSize * 2))
        stackFlags s = (0x10002000, after) ∧
      TwoMapped directory 64 0 1 stackFlags s after low high table := by
  have pages := vmmAllocLoop_two stackFlags
    (fun none => absurd none memory) fresh stack_indexes.1 stack_indexes.2
    (by decide) (by decide)
  rw [stackAlloc_eq]
  generalize vmmAllocLoop heap directory procStackVirt stackFlags 2 0 s = result
    at pages
  cases pages with
  | short few _ => exact absurd frames few
  | bare none _ => exact absurd none memory
  | mapped mapped => exact ⟨_, _, _, _, rfl, mapped⟩

end Stack

/-- The frames that the call of `vmm_alloc` in `create_process` maps at
`PROC_STACK_VIRT`, as the hardware finds them. -/
def Sched.stackFrames (heap : PageHeap) (kernelDirectory : Nat) (s : Sched) : List Nat :=
  let (pd, memory) := pagingNewProcessDirectory heap kernelDirectory s.memory
  let directory := (memory.ram.load pd 0).toNat
  let mapped := (vmmAlloc heap directory procStackVirt
    (BitVec.ofNat 32 (pagingPageSize * 2)) stackFlags memory).2
  (List.range 2).filterMap fun i =>
    (translation mapped.ram directory
      ((pageAt procStackVirt i).toNat / pagingPageSize)).map fun entries =>
        (frameOf entries.2).toNat / pagingPageSize

structure Takes (heap : PageHeap) (kernelDirectory : Nat) (s after : Sched)
    (low high : Nat) : Prop where
  frames : TwoFrames s.memory.bitmap after.memory.bitmap low high
  mapped : s.stackFrames heap kernelDirectory = [low, high]
  used : ∃ directory table, after.memory.used = table :: directory :: s.memory.used
  calls : after.memory.calls = s.memory.calls + 3

section Creation

variable {heap : PageHeap} {kernelDirectory : Nat} {entry exitAddress : Word}
  {s : Sched}

theorem frame_of_entry {frame : Nat} (bound : frame < 2 ^ 20) :
    (frameOf (BitVec.ofNat 32 (4096 * frame) ||| stackFlags)).toNat / pagingPageSize =
      frame := by
  have page : IsPage (4096 * frame) := by
    constructor
    · exact Nat.dvd_mul_right 4096 frame
    · unfold pagingPageSize
      omega
  have behind := tableOf_or page (by decide : stackFlags.toNat < 4096)
  unfold tableOf at behind
  rw [behind]
  exact Nat.mul_div_cancel_left frame (by decide)

theorem stackFrames_eq {pd : Nat} {memory mapped : PagingState} {virtTop : Int}
    (made : pagingNewProcessDirectory heap kernelDirectory s.memory = (pd, memory))
    (allocated : vmmAlloc heap (memory.ram.load pd 0).toNat procStackVirt
      (BitVec.ofNat 32 (pagingPageSize * 2)) stackFlags memory = (virtTop, mapped))
    {low high table : Nat}
    (pages : TwoMapped (memory.ram.load pd 0).toNat 64 0 1 stackFlags memory mapped low
      high table) : s.stackFrames heap kernelDirectory = [low, high] := by
  have first := pages.translation (by decide : Present stackFlags)
    ((pageAt procStackVirt 0).toNat / pagingPageSize) low
    (by decide +kernel) (.inl ⟨by decide +kernel, rfl⟩)
  have second := pages.translation (by decide : Present stackFlags)
    ((pageAt procStackVirt 1).toNat / pagingPageSize) high
    (by decide +kernel) (.inr ⟨by decide +kernel, rfl⟩)
  have range : List.range 2 = [0, 1] := rfl
  have bound := pages.frames.bound
  simp only [Sched.stackFrames, made, allocated, range, List.filterMap_cons,
    List.filterMap_nil, first, second, Option.map_some, frame_of_entry bound,
    frame_of_entry (pages.frames.apart.trans bound)]

theorem createProcess_takes {slot : Slot} {after : Sched}
    (persistent : heap.Persistent)
    (created : s.createProcess heap kernelDirectory entry exitAddress =
      (some slot, after)) :
    ∃ low high, Takes heap kernelDirectory s after low high := by
  obtain ⟨pd, memory, virtTop, mapped, creates⟩ := Sched.createProcess_creates created
  obtain ⟨fresh, calls, used, -⟩ :=
    pagingNewProcessDirectory_fresh creates.made creates.nonzero
  have bitmap := pagingNewProcessDirectory_bitmap heap kernelDirectory s.memory
  rw [creates.made] at bitmap
  obtain ⟨low, high, table, pages⟩ := stackAlloc_mapped (persistent _ _) fresh
    creates.allocated creates.reachable
  rw [creates.result]
  refine ⟨low, high, ?_, stackFrames_eq creates.made creates.allocated pages,
    ⟨(memory.ram.load pd 0).toNat, table, ?_⟩, ?_⟩
  · exact bitmap ▸ pages.frames
  · exact pages.used.trans (congrArg _ used)
  · exact pages.calls.trans (congrArg (· + 1) calls)

/-- The heap serves the three requests of a creation, and two frames are free. -/
structure HasStackMemory (heap : PageHeap) (memory : PagingState) : Prop where
  directory : heap.answer memory.calls memory.used ≠ 0
  pointer : heap.answer (memory.calls + 1)
    (heap.answer memory.calls memory.used :: memory.used) ≠ 0
  table : heap.answer (memory.calls + 2)
    (heap.answer memory.calls memory.used :: memory.used) ≠ 0
  frames : HasTwoFrames memory.bitmap

theorem createProcess_succeeds {slot : Slot} (unused : s.unusedSlot = some slot)
    (memory : HasStackMemory heap s.memory) :
    ∃ after, s.createProcess heap kernelDirectory entry exitAddress =
      (some slot, after) := by
  obtain ⟨nonzero, uses⟩ := pagingNewProcessDirectory_served kernelDirectory
    memory.directory memory.pointer
  have bitmap := pagingNewProcessDirectory_bitmap heap kernelDirectory s.memory
  cases made : pagingNewProcessDirectory heap kernelDirectory s.memory with
  | mk pd fresh =>
      rw [made] at nonzero uses bitmap
      obtain ⟨isFresh, calls, -⟩ := pagingNewProcessDirectory_fresh made nonzero
      obtain ⟨after, low, high, table, allocated, pages⟩ := stackAlloc_served
        (by rw [calls, uses]; exact memory.table) (bitmap ▸ memory.frames) isFresh
      exact createProcess_returns unused made nonzero rfl allocated
        (physBase_mapped pages)

end Creation

theorem unusedSlot_iff {life : Life} (inv : CensusInv life.census) :
    (∃ slot, life.sched.unusedSlot = some slot) ↔ life.created.length < maxProcs := by
  constructor
  · rintro ⟨slot, found⟩
    have unused := List.find?_some found
    simp only [decide_eq_true_eq] at unused
    have notCreated : slot ∉ life.created := fun member =>
      (inv.used slot).mp member unused
    have distinct : (slot :: life.created).Nodup :=
      List.nodup_cons.mpr ⟨notCreated, inv.once⟩
    have bound := distinct.length_le_card
    rwa [List.length_cons, Fintype.card_fin] at bound
  · intro few
    cases found : life.sched.unusedSlot with
    | some slot => exact ⟨slot, rfl⟩
    | none =>
        have covered : List.finRange maxProcs ⊆ life.created := by
          intro slot member
          refine (inv.used slot).mpr fun unused => ?_
          have taken := List.find?_eq_none.mp found slot member
          simp only [decide_eq_true_eq] at taken
          exact taken unused
        have bound :=
          (List.subperm_of_subset (List.nodup_finRange maxProcs) covered).length_le
        rw [List.length_finRange] at bound
        exact absurd few (not_lt.mpr bound)

theorem Sched.createProcess_unused {heap : PageHeap} {kernelDirectory : Nat}
    {entry exitAddress : Word} {s after : Sched} {slot : Slot}
    (created : s.createProcess heap kernelDirectory entry exitAddress =
      (some slot, after)) : s.unusedSlot = some slot := by
  obtain ⟨pd, memory, virtTop, mapped, creates⟩ := createProcess_creates created
  exact creates.unused

/-- In every state of every run, with memory at hand, a creation succeeds exactly when
fewer than `maxProcs` processes were created before: no slot is used twice. -/
theorem creation_finds_slot {start : Sched} (booted : Booted start)
    {ops : List SchedOp} {life : Life} (run : Run CallStep ⟨start, [], []⟩ ops life)
    {heap : PageHeap} (memory : HasStackMemory heap life.sched.memory)
    (kernelDirectory : Nat) (entry exitAddress : Word) :
    (∃ slot after, life.sched.createProcess heap kernelDirectory entry exitAddress =
      (some slot, after)) ↔ life.created.length < maxProcs := by
  rw [← unusedSlot_iff (callRun_inv booted run)]
  constructor
  · rintro ⟨slot, after, created⟩
    exact ⟨slot, Sched.createProcess_unused created⟩
  · rintro ⟨slot, unused⟩
    obtain ⟨after, created⟩ := createProcess_succeeds unused memory
    exact ⟨slot, after, created⟩

def manyPages : PageHeap := pageHeap 64 (by norm_num)

def blankMemory : PagingState := ⟨fun _ => 0, fun _ => 0, 0, [0x100000]⟩

structure Plenty (taken : Nat) (memory : PagingState) : Prop where
  blocks : memory.used.length ≤ taken
  frames : ∀ frame, taken ≤ frame → frame < 2 ^ 20 → bitAt memory.bitmap frame = false

theorem plenty_blankMemory : Plenty 1 blankMemory := by
  refine ⟨le_refl 1, fun frame _ _ => ?_⟩
  simp [bitAt, blankMemory]

theorem manyPages_answer {used : List Nat} (short : used.length < 64) (calls : Nat) :
    manyPages.answer calls used ≠ 0 := by
  change firstFreePage 64 used ≠ 0
  rcases firstFreePage_cases 64 used with ⟨-, long⟩ | ⟨i, -, block, -⟩ <;> omega

theorem hasStackMemory_manyPages {memory : PagingState}
    (blocks : memory.used.length < 63) (frames : HasTwoFrames memory.bitmap) :
    HasStackMemory manyPages memory := by
  have more : (manyPages.answer memory.calls memory.used :: memory.used).length < 64 := by
    rw [List.length_cons]
    omega
  exact ⟨manyPages_answer (by omega) _, manyPages_answer more _,
    manyPages_answer more _, frames⟩

theorem Plenty.hasStackMemory {taken : Nat} {memory : PagingState}
    (plenty : Plenty taken memory) (few : taken < 63) :
    HasStackMemory manyPages memory := by
  have blocks := plenty.blocks
  refine hasStackMemory_manyPages (by omega) ⟨taken, taken + 1, by omega, by omega, ?_, ?_⟩
  · exact plenty.frames taken (by omega) (by omega)
  · exact plenty.frames (taken + 1) (by omega) (by omega)

theorem Plenty.takes {taken : Nat} {s after : Sched} {kernelDirectory low high : Nat}
    (plenty : Plenty taken s.memory) (few : taken < 63)
    (takes : Takes manyPages kernelDirectory s after low high) :
    Plenty (taken + 2) after.memory := by
  obtain ⟨directory, table, used⟩ := takes.used
  have blocks := plenty.blocks
  have apart := takes.frames.apart
  -- Of the two frames from `taken` on, one at most is the lower one.
  have lowest : high ≤ taken + 1 := by
    by_contra later
    have frees := plenty.frames
    by_cases same : taken = low
    · have full := takes.frames.below (taken + 1) (by omega) (by omega)
      rw [frees (taken + 1) (by omega) (by omega)] at full
      exact Bool.noConfusion full
    · have full := takes.frames.below taken (by omega) same
      rw [frees taken (by omega) (by omega)] at full
      exact Bool.noConfusion full
  constructor
  · rw [used, List.length_cons, List.length_cons]
    omega
  · intro frame above bound
    rw [takes.frames.marked, plenty.frames frame (by omega) bound,
      decide_eq_false (by omega), decide_eq_false (by omega)]
    rfl

theorem stackPage_one : pageCount (BitVec.ofNat 32 pagingPageSize) = 1 := by decide

theorem Plenty.freed {taken : Nat} {memory : PagingState} (plenty : Plenty taken memory)
    (few : taken < 62) (directory : Nat) :
    HasStackMemory manyPages
      { (freeVmm directory procStackVirt (BitVec.ofNat 32 pagingPageSize) memory).2 with
        used := (freeVmm directory procStackVirt (BitVec.ofNat 32 pagingPageSize)
          memory).2.used.erase directory } := by
  obtain ⟨used, frame, others⟩ :=
    freeVmm_one directory procStackVirt memory stackPage_one
  have blocks := plenty.blocks
  have clear : ∀ position, position ≠ frame → taken ≤ position → position < 2 ^ 20 →
      bitAt (freeVmm directory procStackVirt (BitVec.ofNat 32 pagingPageSize)
        memory).2.bitmap position = false := by
    intro position other above bound
    rw [others position other]
    exact plenty.frames position above bound
  refine hasStackMemory_manyPages ?_ ?_
  · have shorter := List.length_erase_le (a := directory) (l := memory.used)
    rw [used]
    simp only
    omega
  · by_cases first : frame ≤ taken
    · exact ⟨taken + 1, taken + 2, by omega, by omega,
        clear _ (by omega) (by omega) (by omega), clear _ (by omega) (by omega) (by omega)⟩
    · by_cases second : frame = taken + 1
      · exact ⟨taken, taken + 2, by omega, by omega,
          clear _ (by omega) (by omega) (by omega),
          clear _ (by omega) (by omega) (by omega)⟩
      · exact ⟨taken, taken + 1, by omega, by omega,
          clear _ (by omega) (by omega) (by omega),
          clear _ (by omega) (by omega) (by omega)⟩

theorem manyPages_persistent : manyPages.Persistent := fun _ _ none => none

theorem createProcess_plenty (taken : Nat) (s : Sched) (slot : Slot)
    (plenty : Plenty taken s.memory) (few : taken < 63)
    (unused : s.unusedSlot = some slot) :
    ∃ sp cr3 memory, Plenty (taken + 2) memory ∧
      s.createProcess manyPages 0x100000 0x8000 0x9000 =
        (some slot, s.enlist slot sp cr3 memory) := by
  obtain ⟨after, created⟩ := createProcess_succeeds unused (plenty.hasStackMemory few)
  obtain ⟨low, high, takes⟩ := createProcess_takes manyPages_persistent created
  have more := plenty.takes few takes
  obtain ⟨-, sp, cr3, memory, rfl⟩ := Sched.createProcess_cases created
  exact ⟨sp, cr3, memory, more, created⟩

/-- The clock takes the CPU from one of two processes and gives it to the other. -/
theorem processes_accounted_for_preempted :
    ∃ started life, Run LifeStep ⟨bootSched blankMemory, [], []⟩
        [.create manyPages 0x100000 0x8000 0x9000, .start ⟨0, .code⟩,
          .create manyPages 0x100000 0x8000 0x9000] started ∧
      Run LifeStep started [.tick ⟨0, .code⟩ 100] life ∧
      started.sched.executingProcess = some 0 ∧ life.sched.executingProcess = some 1 ∧
      life.sched.live.Nodup ∧ ∀ slot, slot ∈ life.sched.live ↔ slot = 0 ∨ slot = 1 := by
  obtain ⟨sp, cr3, memory, plenty, first⟩ :=
    createProcess_plenty 1 (bootSched blankMemory) 0 plenty_blankMemory (by decide) rfl
  generalize one : (bootSched blankMemory).enlist 0 sp cr3 memory = s1 at first
  have idle : s1.executingProcess = none := one ▸ rfl
  obtain ⟨sp', cr3', memory', -, second⟩ :=
    createProcess_plenty 3 (s1.startProcesses ⟨0, .code⟩) 1 (one ▸ plenty) (by decide)
      (one ▸ rfl)
  generalize two : (s1.startProcesses ⟨0, .code⟩).enlist 1 sp' cr3' memory' = s2 at second
  have executing : s2.executingProcess = some 0 := two ▸ one ▸ rfl
  have ended : s2.expiring 100 = none := two ▸ one ▸ rfl
  have turn : Sched.Turn s2 0 1 [] := by
    refine ⟨executing, two ▸ one ▸ rfl, two ▸ one ▸ (by decide : 1 < maxProcesses), ?_⟩
    intro slot member
    rcases List.mem_pair.mp member with rfl | rfl
    · rfl
    · exact two ▸ one ▸ rfl
  have next := (turn.tick
    (show TickStep s2 ⟨⟨0, .code⟩, 100⟩ _ from ⟨ended, rfl⟩)).1.executing
  have run : Run LifeStep ⟨bootSched blankMemory, [], []⟩
      [.create manyPages 0x100000 0x8000 0x9000, .start ⟨0, .code⟩,
        .create manyPages 0x100000 0x8000 0x9000] ⟨s2, [1, 0], []⟩ :=
    .next (.create first) <| .next (.start idle) <| .next (.create second) (.done _)
  have ticks : Run LifeStep ⟨s2, [1, 0], []⟩ [.tick ⟨0, .code⟩ 100] _ :=
    .next .tick (.done _)
  obtain ⟨nodup, exact, -⟩ :=
    processes_accounted_for (fresh_bootSched blankMemory) (run.append ticks)
  refine ⟨_, _, run, ticks, executing, next, nodup, fun slot => (exact slot).trans ?_⟩
  simp only [ended]
  revert slot
  decide

theorem creation_finds_slot_second :
    ∃ life, Run CallStep ⟨bootSched blankMemory, [], []⟩
      [.create manyPages 0x100000 0x8000 0x9000] life ∧ life.created = [0] ∧
      ∃ slot after, life.sched.createProcess manyPages 0x100000 0x8000 0x9000 =
        (some slot, after) := by
  obtain ⟨sp, cr3, memory, plenty, first⟩ :=
    createProcess_plenty 1 (bootSched blankMemory) 0 plenty_blankMemory (by decide) rfl
  have run : Run CallStep ⟨bootSched blankMemory, [], []⟩
      [.create manyPages 0x100000 0x8000 0x9000] _ :=
    .next (lifeStep_call (.create first)) (.done _)
  refine ⟨_, run, rfl, ?_⟩
  exact (creation_finds_slot (booted_bootSched blankMemory) run
    (plenty.hasStackMemory (by decide)) 0x100000 0x8000 0x9000).mpr
      (by decide : 1 < maxProcs)

theorem four_processes :
    ∃ s : Sched, Run LifeStep ⟨bootSched blankMemory, [], []⟩
      (List.replicate 4 (.create manyPages 0x100000 0x8000 0x9000))
      ⟨s, [3, 2, 1, 0], []⟩ ∧
      s.executingProcess = none ∧ s.zombie = none ∧ Plenty 9 s.memory := by
  obtain ⟨sp0, cr30, memory0, plenty, first⟩ :=
    createProcess_plenty 1 (bootSched blankMemory) 0 plenty_blankMemory (by decide) rfl
  generalize one : (bootSched blankMemory).enlist 0 sp0 cr30 memory0 = s1 at first
  obtain ⟨sp1, cr31, memory1, plenty, second⟩ :=
    createProcess_plenty 3 s1 1 (one ▸ plenty) (by decide) (one ▸ rfl)
  generalize two : s1.enlist 1 sp1 cr31 memory1 = s2 at second
  obtain ⟨sp2, cr32, memory2, plenty, third⟩ :=
    createProcess_plenty 5 s2 2 (two ▸ plenty) (by decide) (two ▸ one ▸ rfl)
  generalize three : s2.enlist 2 sp2 cr32 memory2 = s3 at third
  obtain ⟨sp3, cr33, memory3, plenty, fourth⟩ :=
    createProcess_plenty 7 s3 3 (three ▸ plenty) (by decide) (three ▸ two ▸ one ▸ rfl)
  refine ⟨s3.enlist 3 sp3 cr33 memory3, ?_, three ▸ two ▸ one ▸ rfl,
    three ▸ two ▸ one ▸ rfl, plenty⟩
  exact .next (.create first) <| .next (.create second) <| .next (.create third) <|
    .next (.create fourth) (.done _)

theorem expiring_zero {life : Life} (inv : LifeInv life) : life.sched.expiring 0 = none := by
  unfold Sched.expiring
  cases executing : life.sched.executingProcess with
  | none => rfl
  | some slot =>
      have live : slot ∈ life.sched.live := by
        simp [Sched.live, executing]
      have burst := inv.burst slot live
      have counted : life.sched.burstAfter 0 slot = (life.sched.procs slot).burstTime := by
        unfold Sched.burstAfter
        rw [Int.sub_zero, ite_self]
      rw [Option.filter_some, counted, if_neg (by simpa using burst)]

theorem one_of_four_exits (env : SwitchEnv) :
    ∃ (ops : List SchedOp) (s : Sched) (slot : Slot),
      Run LifeStep ⟨bootSched blankMemory, [], []⟩ ops ⟨s, [3, 2, 1, 0], [slot]⟩ ∧
        s.zombie = some slot ∧ Plenty 9 s.memory := by
  obtain ⟨s, creations, idle, -, plenty⟩ := four_processes
  have inv := creations.invariant LifeInv
    (fun _ _ _ inv step => (lifeStep_spec inv step).1)
    (lifeInv_fresh (fresh_bootSched blankMemory))
  have waits : (0 : Slot) ∈ s.readyQueue.contents := by
    have live := (inv.exact 0).mpr ⟨by simp, List.not_mem_nil⟩
    simpa [Sched.live, idle] using live
  have nonempty : s.readyQueue.pqIsEmpty = false := by
    cases empty : s.readyQueue.pqIsEmpty with
    | false => rfl
    | true =>
        rw [PriorityQueue.contents_eq_nil empty] at waits
        cases waits
  have started : s.startProcesses env = s.runNext env (some .kernel) := by
    unfold Sched.startProcesses
    rw [nonempty, if_neg Bool.false_ne_true]
  obtain ⟨slot, executing⟩ := Option.ne_none_iff_exists'.mp
    (started ▸ Sched.runNext_busy env (some .kernel) nonempty)
  obtain ⟨memory, zombie, -⟩ := Sched.processExit_undisturbed env (s.startProcesses env)
  have starts : LifeStep ⟨s, [3, 2, 1, 0], []⟩ (.start env) _ := .start idle
  have exits : LifeStep ⟨s.startProcesses env, [3, 2, 1, 0], []⟩ (.exit env) _ :=
    .exit executing
  refine ⟨_, (s.startProcesses env).processExit env, slot,
    creations.append (.next starts (.next exits (.done _))),
    zombie.trans executing, ?_⟩
  rw [memory]
  exact (s.startProcesses_undisturbed env).memory ▸ plenty

/-- Four processes are created, one of them exits and is reaped: three are alive and
there is memory, but no slot is unused. -/
theorem reaped_slot_not_reused :
    ∃ ops life, Run CallStep ⟨bootSched blankMemory, [], []⟩ ops life ∧
      (life.created.filter (· ∉ life.ended)).length < maxProcs ∧
      (∀ slot ∈ life.ended, life.sched.freed.count slot = 1) ∧
      HasStackMemory manyPages life.sched.memory ∧
      ¬ ∃ slot after, life.sched.createProcess manyPages 0x100000 0x8000 0x9000 =
        (some slot, after) := by
  obtain ⟨ops, s, slot, run, isZombie, plenty⟩ := one_of_four_exits ⟨0, .code⟩
  have expiring := expiring_zero (run.invariant LifeInv
    (fun _ _ _ inv step => (lifeStep_spec inv step).1)
    (lifeInv_fresh (fresh_bootSched blankMemory)))
  have calls := run.mono fun _ _ _ => lifeStep_call
  have inv := callRun_inv (booted_bootSched blankMemory) calls
  have zombieOnly : Life.Reaped ⟨s, [3, 2, 1, 0], [slot]⟩ := by
    intro other member
    rw [List.mem_singleton.mp member]
    exact .inl isZombie
  have ended : (Life.call ⟨s, [3, 2, 1, 0], [slot]⟩ (.tick ⟨0, .code⟩ 0)).ended =
      [slot] := by
    simp only [Life.call, expiring, Option.toList_none, List.nil_append]
  have reaped := (call_reaped inv zombieOnly (.tick ⟨0, .code⟩ 0)).mpr expiring
  obtain ⟨memory, noZombie, -⟩ := Sched.scheduler_undisturbed ⟨0, .code⟩ s 0
  rw [s.reap_zombie] at noZombie
  have ticks : Run CallStep ⟨s, [3, 2, 1, 0], [slot]⟩ [.tick ⟨0, .code⟩ 0] _ :=
    .next rfl (.done _)
  refine ⟨_, _, calls.append ticks, ?_, ?_, ?_, ?_⟩
  · rw [ended]
    have three : ∀ gone : Slot,
        (([3, 2, 1, 0] : List Slot).filter (· ∉ [gone])).length < maxProcs := by decide
    exact three slot
  · intro other member
    refine (reaped other member).resolve_left fun zombie => ?_
    cases noZombie.symm.trans zombie
  · change HasStackMemory manyPages (s.scheduler ⟨0, .code⟩ 0).memory
    rw [memory]
    simp only [Sched.reap, isZombie]
    exact plenty.freed (by decide) _
  · rintro ⟨other, after, created⟩
    have few := (unusedSlot_iff (call_inv inv (.tick ⟨0, .code⟩ 0))).mp
      ⟨other, Sched.createProcess_unused created⟩
    exact absurd few (by decide : ¬ 4 < maxProcs)

end LazyOS.Scheduling

import LazyOS.Memory.PageRequests
import LazyOS.Scheduling.Creation

namespace LazyOS.Scheduling

open LazyOS.Data
open LazyOS.Memory

/-! Creations that fail.  What was taken on the way is not given back. -/

/-- Nothing that `create_process` takes or fills has changed.  The table of the heap is
the one after the requests that were made. -/
structure Untouched (region : Region) (entries : Int → Byte) (s after : Sched) :
    Prop where
  bitmap : after.memory.bitmap = s.memory.bitmap
  table : requestPages region (after.memory.calls - s.memory.calls) entries = entries
  procs : after.procs = s.procs
  readyQueue : after.readyQueue = s.readyQueue
  indx : after.indx = s.indx

theorem Untouched.refl (region : Region) (entries : Int → Byte) (s : Sched) :
    Untouched region entries s s :=
  ⟨rfl, (requestPages_eq_iff region entries _).mpr (.inl (Nat.sub_self _)), rfl, rfl, rfl⟩

/-- A call on the kernel's heap that returns no process leaves everything as it was. -/
def FailsUntouched (region : Region) (entries : Int → Byte) (kernelDirectory : Nat)
    (entry exitAddress : Word) (s : Sched) : Prop :=
  let result := s.createProcess (kernelPages region entries s.memory.calls)
    kernelDirectory entry exitAddress
  result.1 = none → Untouched region entries s result.2

section Needs

variable {heap : PageHeap} {kernelDirectory : Nat} {entry exitAddress : Word}
  {s after : Sched} {slot : Slot}

theorem createProcess_noSlot (unused : s.unusedSlot = none) :
    s.createProcess heap kernelDirectory entry exitAddress = (none, s) := by
  unfold Sched.createProcess
  rw [unused]

theorem createProcess_noDirectory (unused : s.unusedSlot = some slot)
    (refused : heap.answer s.memory.calls s.memory.used = 0) :
    s.createProcess heap kernelDirectory entry exitAddress =
      (none, { s with memory := { s.memory with calls := s.memory.calls + 1 } }) := by
  have failed : pagingNewProcessDirectory heap kernelDirectory s.memory =
      (0, { s.memory with calls := s.memory.calls + 1 }) := by
    simp only [pagingNewProcessDirectory, kzalloc, if_pos refused, if_true]
  unfold Sched.createProcess
  rw [unused]
  simp only [failed, if_true]

theorem stackAlloc_unserved {directory : Nat} {memory mapped : PagingState}
    {virtTop : Int} (fresh : FreshDirectory directory memory)
    (none : ∀ k < 2, heap.answer (memory.calls + k) memory.used = 0)
    (allocated : vmmAlloc heap directory procStackVirt
      (BitVec.ofNat 32 (pagingPageSize * 2)) stackFlags memory = (virtTop, mapped)) :
    physBase directory virtTop mapped.ram = 0 := by
  have blank : ∀ k, kernelSharedPdEntries ≤ k → k < 1024 →
      memory.ram.load directory k = 0 := fresh.blank
  have ram := vmmAllocLoop_unserved stackFlags (blank 64 (by decide) (by decide)) none
    stack_behind
  rw [stackAlloc_eq] at allocated
  generalize vmmAllocLoop heap directory procStackVirt stackFlags 2 0 memory = result
    at ram allocated
  obtain ⟨served, last⟩ := result
  simp only at ram
  cases served with
  | false =>
      cases allocated
      refine physBase_short ?_
      rw [ram]
      exact blank 1023 (by decide) (by decide)
  | true =>
      cases allocated
      refine physBase_bare ?_
      rw [ram]
      exact blank 64 (by decide) (by decide)

theorem createProcess_needs
    (persistent : ∀ used, used = heap.answer s.memory.calls s.memory.used :: s.memory.used →
      heap.answer (s.memory.calls + 2) used = 0 →
        heap.answer (s.memory.calls + 3) used = 0)
    (created : s.createProcess heap kernelDirectory entry exitAddress =
      (some slot, after)) : HasStackMemory heap s.memory := by
  obtain ⟨pd, memory, virtTop, mapped, creates⟩ := Sched.createProcess_creates created
  obtain ⟨fresh, calls, -⟩ :=
    pagingNewProcessDirectory_fresh creates.made creates.nonzero
  have nonzero : (pagingNewProcessDirectory heap kernelDirectory s.memory).1 ≠ 0 := by
    rw [creates.made]
    exact creates.nonzero
  obtain ⟨directory, pointer⟩ := pagingNewProcessDirectory_needs nonzero
  have named := (pagingNewProcessDirectory_served kernelDirectory directory pointer).2
  have bitmap := pagingNewProcessDirectory_bitmap heap kernelDirectory s.memory
  rw [creates.made] at bitmap named
  have again : heap.answer memory.calls memory.used = 0 →
      heap.answer (memory.calls + 1) memory.used = 0 := by
    rw [calls]
    exact persistent memory.used named
  obtain ⟨low, high, table, pages⟩ :=
    stackAlloc_mapped again fresh creates.allocated creates.reachable
  refine ⟨directory, pointer, ?_, ?_⟩
  · rw [← calls]
    intro none
    rw [← named] at none
    refine creates.reachable (stackAlloc_unserved fresh (fun k less => ?_)
      creates.allocated)
    rcases (by omega : k = 0 ∨ k = 1) with rfl | rfl
    · exact none
    · exact again none
  · rw [← bitmap]
    exact ⟨low, high, pages.frames.apart, pages.frames.bound, pages.frames.lowClear,
      pages.frames.highClear⟩

theorem createProcess_calls (heap : PageHeap) (kernelDirectory : Nat)
    (entry exitAddress : Word) (unused : s.unusedSlot = some slot) :
    s.memory.calls <
      (s.createProcess heap kernelDirectory entry exitAddress).2.memory.calls := by
  have made := pagingNewProcessDirectory_calls heap kernelDirectory s.memory
  unfold Sched.createProcess
  rw [unused]
  generalize pagingNewProcessDirectory heap kernelDirectory s.memory = result at made
  obtain ⟨pd, memory⟩ := result
  simp only
  split
  · exact made
  · have mapped := vmmAlloc_calls heap (memory.ram.load pd 0).toNat procStackVirt
      (BitVec.ofNat 32 (pagingPageSize * 2)) (pagingIsPresent ||| pagingIsWritable) memory
    generalize vmmAlloc heap _ procStackVirt _ _ memory = last at mapped
    split
    · exact made.trans_le mapped
    · exact made.trans_le mapped

end Needs

section Kernel

variable {region : Region} {entries : Int → Byte} {s : Sched}
  (owned : ∀ block, FreeBlock region entries block →
    region.start + 4096 * block ∉ s.memory.used)

include owned

theorem kernelPages_directory :
    (kernelPages region entries s.memory.calls).answer s.memory.calls s.memory.used =
      if 0 < freeBlocks region entries then
        region.start + 4096 * freeBlock region entries 0
      else 0 :=
  kernelPages_answer s.memory.calls 0 fun enough => owned _ (freeBlock_spec enough).1

theorem kernelPages_later {count : Nat} (later : 0 < count) :
    (kernelPages region entries s.memory.calls).answer (s.memory.calls + count)
        ((kernelPages region entries s.memory.calls).answer s.memory.calls s.memory.used ::
          s.memory.used) ≠ 0 ↔ count < freeBlocks region entries := by
  apply kernelPages_serves
  intro enough member
  have some : 0 < freeBlocks region entries := by omega
  rw [kernelPages_directory owned, if_pos some] at member
  rcases List.mem_cons.mp member with same | used
  · have equal := freeBlock_injective enough some (by omega)
    omega
  · exact owned _ (freeBlock_spec enough).1 used

theorem hasStackMemory_kernelPages :
    HasStackMemory (kernelPages region entries s.memory.calls) s.memory ↔
      3 ≤ freeBlocks region entries ∧ HasTwoFrames s.memory.bitmap := by
  have directory := kernelPages_serves s.memory.calls 0 fun enough =>
    owned _ (freeBlock_spec enough).1
  constructor
  · intro memory
    exact ⟨(kernelPages_later owned Nat.two_pos).mp memory.table, memory.frames⟩
  · rintro ⟨enough, frames⟩
    exact ⟨directory.mpr (by omega), (kernelPages_later owned Nat.one_pos).mpr (by omega),
      (kernelPages_later owned Nat.two_pos).mpr enough, frames⟩

theorem createProcess_kernelPages {kernelDirectory : Nat} {entry exitAddress : Word}
    {after : Sched} {slot : Slot}
    (created : s.createProcess (kernelPages region entries s.memory.calls) kernelDirectory
      entry exitAddress = (some slot, after)) :
    3 ≤ freeBlocks region entries ∧ HasTwoFrames s.memory.bitmap := by
  rw [← hasStackMemory_kernelPages owned]
  refine createProcess_needs (fun used same none => ?_) created
  subst same
  by_contra served
  have enough := (kernelPages_later owned (by decide : 0 < 3)).mp served
  exact (kernelPages_later owned Nat.two_pos).mpr (by omega) none

theorem createProcess_leaves (kernelDirectory : Nat) (entry exitAddress : Word)
    {slot : Slot} (unused : s.unusedSlot = some slot) (free : freeBlocks region entries ≠ 0)
    (short : ¬ (3 ≤ freeBlocks region entries ∧ HasTwoFrames s.memory.bitmap)) :
    ¬ FailsUntouched region entries kernelDirectory entry exitAddress s := by
  intro untouched
  have failed : (s.createProcess (kernelPages region entries s.memory.calls)
      kernelDirectory entry exitAddress).1 = none := by
    rw [Option.eq_none_iff_forall_ne_some]
    intro slot created
    exact short (createProcess_kernelPages owned (Prod.ext created rfl))
  have counted := createProcess_calls (kernelPages region entries s.memory.calls)
    kernelDirectory entry exitAddress unused
  rcases (requestPages_eq_iff region entries _).mp (untouched failed).table with
    none | full
  · omega
  · exact free full

/-- A creation that fails leaves everything as it was exactly when it has no slot or
gets no block at all, or has the memory to succeed. -/
theorem creation_fails_untouched_iff (kernelDirectory : Nat) (entry exitAddress : Word) :
    FailsUntouched region entries kernelDirectory entry exitAddress s ↔
      s.unusedSlot = none ∨ freeBlocks region entries = 0 ∨
        3 ≤ freeBlocks region entries ∧ HasTwoFrames s.memory.bitmap := by
  constructor
  · intro untouched
    by_contra condition
    rw [not_or, not_or] at condition
    obtain ⟨found, free, short⟩ := condition
    obtain ⟨slot, unused⟩ := Option.ne_none_iff_exists'.mp found
    exact createProcess_leaves owned kernelDirectory entry exitAddress unused free short
      untouched
  · intro condition failed
    cases unused : s.unusedSlot with
    | none =>
        rw [createProcess_noSlot unused]
        exact .refl region entries s
    | some slot =>
        rcases condition with none | full | memory
        · rw [unused] at none
          cases none
        · have refused := kernelPages_directory owned
          rw [full, if_neg (lt_irrefl 0)] at refused
          rw [createProcess_noDirectory unused refused]
          have table := (requestPages_eq_iff region entries
            (s.memory.calls + 1 - s.memory.calls)).mpr (.inr full)
          exact ⟨rfl, table, rfl, rfl, rfl⟩
        · obtain ⟨after, created⟩ := createProcess_succeeds unused
            ((hasStackMemory_kernelPages owned).mpr memory)
          rw [created] at failed
          cases failed

end Kernel

def fullMemory : PagingState := ⟨fun _ => 0, fun _ => 0xFF, 0, [0x100000]⟩

theorem kernelRegion_free {block : Nat} (inside : block < 25600) :
    FreeBlock kernelRegion (fun _ => 0) block :=
  ⟨inside, (by decide : heapGetEntryType 0 = heapBlockTableEntryFree)⟩

theorem kernelRegion_owned (block : Nat) :
    kernelRegion.start + 4096 * block ∉ [0x100000] := by
  have start : kernelRegion.start = 0x01000000 := rfl
  rw [List.mem_singleton, start]
  omega

theorem creation_fails_untouched_iff_first :
    FailsUntouched kernelRegion (fun _ => 0) 0x100000 0x8000 0x9000
      (bootSched blankMemory) := by
  refine (creation_fails_untouched_iff (fun block _ => kernelRegion_owned block)
    0x100000 0x8000 0x9000).mpr (.inr (.inr ⟨?_, ?_⟩))
  · have counted : Nat.count (FreeBlock kernelRegion fun _ => 0) 2 = 2 := by decide +kernel
    have third := (kernelRegion_free (by decide : 2 < 25600)).counted
    omega
  · exact ⟨0, 1, by decide, by decide, rfl, rfl⟩

/-- All of the heap is free and no frame is: the directory and its structure are lost. -/
theorem failed_creation_keeps_directory :
    ¬ ∀ (region : Region) (entries : Int → Byte) (kernelDirectory : Nat)
      (entry exitAddress : Word) (s : Sched),
      (∀ block, FreeBlock region entries block →
        region.start + 4096 * block ∉ s.memory.used) →
      FailsUntouched region entries kernelDirectory entry exitAddress s := by
  intro failsClean
  have owned : ∀ block, FreeBlock kernelRegion (fun _ => 0) block →
      kernelRegion.start + 4096 * block ∉ (bootSched fullMemory).memory.used :=
    fun block _ => kernelRegion_owned block
  have free := (kernelRegion_free (by decide : 0 < 25600)).counted
  have unused : (bootSched fullMemory).unusedSlot = some 0 := by decide
  refine createProcess_leaves owned 0x100000 0x8000 0x9000 unused (by omega) ?_
    (failsClean kernelRegion (fun _ => 0) 0x100000 0x8000 0x9000 _ owned)
  rintro ⟨-, low, high, -, -, clear, -⟩
  have set : ∀ k < 8, (0xFF : Byte).getLsbD k = true := by decide
  exact Bool.noConfusion ((set (low % 8) (Nat.mod_lt _ (by decide))).symm.trans clear)

end LazyOS.Scheduling

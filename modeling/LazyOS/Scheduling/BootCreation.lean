import LazyOS.Memory.BootHeap
import LazyOS.Scheduling.FirstSwitch
import LazyOS.Scheduling.Reaper
import LazyOS.Scheduling.RoundRobin

namespace LazyOS.Scheduling

open LazyOS.Data
open LazyOS.Memory

/-! `create_process` on a heap that only grows: with two frames it succeeds, with fewer it
fails, and in both cases the processes created before keep what they have. -/

structure StackAt (ram : Ram) (directory low high : Nat) : Prop where
  low : ∃ entry, translation ram directory 0x10000 =
    some (entry, BitVec.ofNat 32 (4096 * low) ||| stackFlags)
  high : ∃ entry, translation ram directory 0x10001 =
    some (entry, BitVec.ofNat 32 (4096 * high) ||| stackFlags)

theorem StackAt.kept {before after : Ram} {directory low high : Nat}
    (stack : StackAt before directory low high)
    (same : ∀ page < totalPages,
      translation after directory page = translation before directory page) :
    StackAt after directory low high := by
  obtain ⟨lowEntry, lowPage⟩ := stack.low
  obtain ⟨highEntry, highPage⟩ := stack.high
  exact ⟨⟨lowEntry, (same 0x10000 (by decide)).trans lowPage⟩,
    ⟨highEntry, (same 0x10001 (by decide)).trans highPage⟩⟩

def Grows (region : Region) (first : Nat) (s after : PagingState) : Prop :=
  ∃ requests ≤ 4, Grown region first s.calls requests after

inductive Creation (region : Region) (kernel : Nat) (directories : List Nat) (first : Nat)
    (s : Sched) (slot : Slot) : Option Slot × Sched → Prop
  | starved {memory : PagingState} (few : ¬ HasTwoFrames s.memory.bitmap)
      (marks : ∀ position, bitAt s.memory.bitmap position = true →
        bitAt memory.bitmap position = true)
      (grows : Grows region first s.memory memory)
      (kept : SpacesKept kernel directories s.memory memory) :
      Creation region kernel directories first s slot (none, { s with memory := memory })
  | created {sp : Word} {directory low high : Nat} {memory : PagingState}
      (frames : TwoFrames s.memory.bitmap memory.bitmap low high)
      (grows : Grows region first s.memory memory)
      (kept : SpacesKept kernel directories s.memory memory)
      (spaces : SpacesInv kernel memory (directory :: directories))
      (stack : StackAt memory.ram directory low high) :
      Creation region kernel directories first s slot
        (some slot, s.enlist slot sp directory memory)

section Creation

variable {region : Region} {entries : Int → Byte} {kernel first : Nat}
  {directories : List Nat} {s : Sched} {slot : Slot}

theorem stack_above : RangeAbove procStackVirt 2 0 := by
  intro k _ less
  rcases (by omega : k = 0 ∨ k = 1) with rfl | rfl
  · decide +kernel
  · decide +kernel

theorem pushFrame_words {memory : PagingState} {high : Nat} {base : Word} {frame : List Word}
    (ten : frame.length = 10) (place : base.toNat = 4096 * high)
    (holds : UsedBelow region region.capacity memory.used)
    (apart : ∀ block < region.capacity, 4096 * high ≠ region.start + 4096 * block) :
    ∀ block ∈ memory.used, ∀ j < 1024,
      (Sched.pushFrame memory.ram (base + BitVec.ofNat 32 pagingPageSize - 40) frame).load
        block j = memory.ram.load block j := by
  intro block member j j_lt
  obtain ⟨number, inside, rfl⟩ := holds block member
  have different := apart number inside
  have start := region.start_aligned
  have bound := base.isLt
  have sp : (base + BitVec.ofNat 32 pagingPageSize - 40).toNat = base.toNat + 4056 :=
    frame_toNat (by omega)
  unfold heapBlockSize at start
  apply pushFrame_other
  · rw [sp, ten]
    omega
  · rw [sp, ten]
    omega

theorem TwoMapped.physBase {memory after : PagingState} {directory low high table : Nat}
    (mapped : TwoMapped directory 64 0 1 stackFlags memory after low high table) :
    (physBase directory 0x10002000 after.ram).toNat = 4096 * high := by
  have top := topMapped_of_physBase (physBase_mapped mapped)
  have page : IsPage (4096 * high) := by
    have bound := mapped.frames.bound
    refine ⟨Nat.dvd_mul_right 4096 high, ?_⟩
    unfold pagingPageSize
    omega
  have behind : tableOf (after.ram.load directory 64) = table := by
    rw [mapped.entry, tableOf_or mapped.page (by decide)]
  rw [top.frame, behind, mapped.second]
  exact tableOf_or page (by decide)

structure StackLoop (region : Region) (kernel directory first since : Nat)
    (directories : List Nat) (s after : PagingState) : Prop where
  grows : ∃ more ≤ 2, Grown region first since (2 + more) after
  inv : SpacesInv kernel after (directory :: directories)
  kept : SpacesKept kernel directories s after
  marks : ∀ position, bitAt s.bitmap position = true → bitAt after.bitmap position = true

theorem stackLoop {since directory : Nat} {memory : PagingState}
    (below : TakenBelow region entries first) (room : first + 4 ≤ region.capacity)
    (grown : Grown region first since 2 memory)
    (inv : SpacesInv kernel memory (directory :: directories)) (member : kernel ∈ directories)
    (other : directory ∉ directories) :
    StackLoop region kernel directory first since directories memory
      (vmmAllocLoop (kernelPages region entries since) directory procStackVirt stackFlags 2 0
        memory).2 := by
  have keeps := vmmAllocLoop_keeps (kernelPages region entries since) procStackVirt
    stackFlags 2 0 inv List.mem_cons_self
  exact ⟨vmmAllocLoop_grown below procStackVirt stackFlags 2 0 (by omega) grown, keeps.inv,
    keeps.kept stack_above member other, fun _ => vmmAllocLoop_marks _ _ _ _ _⟩

section Calls

variable {heap : PageHeap} {entry exitAddress : Word} {pd : Nat}
  {memory after : PagingState}

theorem createProcess_starved (unused : s.unusedSlot = some slot)
    (made : pagingNewProcessDirectory heap kernel s.memory = (pd, memory))
    (nonzero : pd ≠ 0)
    (allocated : vmmAlloc heap (memory.ram.load pd 0).toNat procStackVirt
      (BitVec.ofNat 32 (pagingPageSize * 2)) stackFlags memory = (0, after))
    (blank : after.ram.load (memory.ram.load pd 0).toNat 1023 = 0) :
    s.createProcess heap kernel entry exitAddress = (none, { s with memory := after }) := by
  have unreachable := physBase_short blank
  unfold stackFlags at allocated
  unfold physBase at unreachable
  unfold Sched.createProcess
  rw [unused]
  simp only [made, if_neg nonzero, allocated, unreachable, if_true]

theorem createProcess_enlists (unused : s.unusedSlot = some slot)
    (made : pagingNewProcessDirectory heap kernel s.memory = (pd, memory))
    (nonzero : pd ≠ 0)
    (allocated : vmmAlloc heap (memory.ram.load pd 0).toNat procStackVirt
      (BitVec.ofNat 32 (pagingPageSize * 2)) stackFlags memory = (0x10002000, after))
    (reachable : physBase (memory.ram.load pd 0).toNat 0x10002000 after.ram ≠ 0) :
    s.createProcess heap kernel entry exitAddress =
      (some slot, s.enlist slot (BitVec.ofInt 32 0x10002000 - 40)
        (memory.ram.load pd 0).toNat
        { after with
          ram := Sched.pushFrame after.ram
            (physBase (memory.ram.load pd 0).toNat 0x10002000 after.ram +
              BitVec.ofNat 32 pagingPageSize - 40)
            (Sched.initialFrame entry exitAddress) }) := by
  unfold stackFlags at allocated
  unfold physBase at reachable ⊢
  unfold Sched.createProcess
  rw [unused]
  simp only [made, if_neg nonzero, allocated, if_neg reachable]
  rfl

end Calls

theorem createProcess_creation (entry exitAddress : Word)
    (below : TakenBelow region entries first) (room : first + 4 ≤ region.capacity)
    (holds : UsedBelow region first s.memory.used)
    (inv : SpacesInv kernel s.memory directories)
    (apart : ∀ frame < 2 ^ 20, bitAt s.memory.bitmap frame = false →
      ∀ block < region.capacity, 4096 * frame ≠ region.start + 4096 * block)
    (unused : s.unusedSlot = some slot) :
    Creation region kernel directories first s slot
      (s.createProcess (kernelPages region entries s.memory.calls) kernel entry
        exitAddress) := by
  obtain ⟨nonzero, grown⟩ := pagingNewProcessDirectory_grown kernel below
    (by omega) holds
  have start := region.start_pos
  have answered := below.answer s.memory.calls 2 (by omega) grown.used
  rw [← grown.calls] at answered
  have bitmap := pagingNewProcessDirectory_bitmap
    (kernelPages region entries s.memory.calls) kernel s.memory
  cases made : pagingNewProcessDirectory (kernelPages region entries s.memory.calls) kernel
    s.memory with
  | mk pd memory =>
      rw [made] at nonzero grown bitmap answered
      dsimp only at nonzero grown bitmap answered
      obtain ⟨fresh, -⟩ := pagingNewProcessDirectory_fresh made nonzero
      obtain ⟨spaces, kept, other⟩ := pagingNewProcessDirectory_kept inv made nonzero
      have loop := stackLoop below room grown spaces inv.shared.kernelIn other
      have served : (kernelPages region entries s.memory.calls).answer memory.calls
          memory.used ≠ 0 := by omega
      have pages := vmmAllocLoop_two stackFlags (fun none => absurd none served) fresh
        stack_indexes.1 stack_indexes.2 (by decide) (by decide)
      have allocated := stackAlloc_eq (kernelPages region entries s.memory.calls)
        (memory.ram.load pd 0).toNat memory
      generalize vmmAllocLoop (kernelPages region entries s.memory.calls)
        (memory.ram.load pd 0).toNat procStackVirt stackFlags 2 0 memory = result
        at pages allocated loop
      obtain ⟨more, few, grows⟩ := loop.grows
      have requests : Grows region first s.memory result.2 := ⟨2 + more, by omega, grows⟩
      cases pages with
      | short few blank =>
          rw [createProcess_starved unused made nonzero allocated
            (blank 1023 (by decide) (by decide) (by decide))]
          exact .starved (bitmap ▸ few) (bitmap ▸ loop.marks) requests (kept.trans loop.kept)
      | bare none blank => exact absurd none served
      | @mapped after low high table mapped =>
          have physical := TwoMapped.physBase mapped
          have frames := mapped.frames
          rw [createProcess_enlists unused made nonzero allocated (physBase_mapped mapped)]
          have pushed := pushFrame_words (initialFrame_length entry exitAddress)
            physical (grows.used.mono (by omega)) (apart high frames.bound
              (bitmap ▸ frames.highClear))
          have last : SpacesKept kernel ((memory.ram.load pd 0).toNat :: directories) after
              { after with
                ram := Sched.pushFrame after.ram
                  (physBase (memory.ram.load pd 0).toNat 0x10002000 after.ram +
                    BitVec.ofNat 32 pagingPageSize - 40)
                  (Sched.initialFrame entry exitAddress) } :=
            loop.inv.kept_of_words rfl pushed
          refine .created (bitmap ▸ frames) ⟨2 + more, by omega, grows.calls, grows.used⟩
            ((kept.trans loop.kept).trans (last.tail inv.shared.kernelIn)) last.spaces
            ⟨⟨BitVec.ofNat 32 table ||| tableFlags, ?_⟩,
              ⟨BitVec.ofNat 32 table ||| tableFlags, ?_⟩⟩
          · rw [last.same _ List.mem_cons_self 0x10000 (by decide)]
            exact mapped.translation (by decide) 0x10000 low (by decide)
              (.inl ⟨by decide, rfl⟩)
          · rw [last.same _ List.mem_cons_self 0x10001 (by decide)]
            exact mapped.translation (by decide) 0x10001 high (by decide)
              (.inr ⟨by decide, rfl⟩)

end Creation

def createdSlots (count : Nat) : List Slot := (List.finRange maxProcs).take count

theorem mem_createdSlots {count : Nat} {slot : Slot} :
    slot ∈ createdSlots count ↔ slot.val < count := by
  unfold createdSlots
  rw [List.mem_take_iff_getElem]
  constructor
  · rintro ⟨i, inside, rfl⟩
    rw [List.getElem_finRange]
    exact (lt_min_iff.mp inside).1
  · intro less
    exact ⟨slot, by simpa using less, by simp⟩

theorem createdSlots_succ {count : Nat} (less : count < maxProcs) :
    createdSlots (count + 1) = createdSlots count ++ [⟨count, less⟩] := by
  unfold createdSlots
  rw [List.take_succ_eq_append_getElem (by simpa using less), List.getElem_finRange]
  rfl

theorem createdSlots_length {count : Nat} (few : count ≤ maxProcs) :
    (createdSlots count).length = count := by
  simpa [createdSlots] using few

/-- `count` processes have been created and wait in the order of their slots. -/
structure Queued (s : Sched) (count : Nat) : Prop where
  unused : ∀ slot, (s.procs slot).state = .unused ↔ count ≤ slot.val
  level : ∀ slot ∈ createdSlots count, s.priority slot = 1
  queue : s.readyQueue.contents = createdSlots count
  saved : ∀ slot ∈ createdSlots count, s.saved (.slot slot) = ⟨.slot slot, .code⟩
  idle : s.executingProcess = none
  cpu : s.cpu = ⟨.kernel, .code⟩

theorem Sched.contextSwitch_started (env : SwitchEnv) {s : Sched} {next : Slot}
    (saved : s.saved (.slot next) = ⟨.slot next, .code⟩) :
    (s.contextSwitch env (some .kernel) (.slot next)).cpu = ⟨.slot next, .code⟩ := by
  have kept : (s.saveContext env (some .kernel)).saved (.slot next) = ⟨.slot next, .code⟩ := by
    have other : ProcPtr.slot next ≠ .kernel := by simp
    exact (Function.update_of_ne other s.cpu s.saved).trans saved
  rw [contextSwitch_cpu (by rw [kept]), kept]

def Sched.directory (s : Sched) (slot : Slot) : Nat := (s.procs slot).cr3

theorem Sched.directory_setState (s : Sched) (slot : Slot) (state : ProcessState) :
    (s.setState slot state).directory = s.directory :=
  field_update Process.cr3 s.procs rfl

theorem Sched.directory_contextSwitch (env : SwitchEnv) (curr : Option ProcPtr)
    (next : ProcPtr) (s : Sched) :
    (s.contextSwitch env curr next).directory = s.directory :=
  field_contextSwitch Process.cr3 (fun _ _ => rfl) (fun _ _ => rfl) env curr next s

def lastFirst {α : Type*} (waiting : List α) : List α :=
  waiting.getLast?.toList ++ waiting.dropLast

theorem PriorityQueue.pqPop_lastFirst {α : Type*} {priority : α → Nat}
    {q : PriorityQueue α} {top : α} {tail : List α} {level : Nat}
    (contents : q.contents = top :: tail)
    (equal : ∀ i < q.size, priority (q.data i) = level) :
    ∃ rest, pqPop priority q = (some top, rest) ∧ rest.contents = lastFirst tail := by
  obtain ⟨size, rfl, others⟩ := contents_cons contents
  refine ⟨_, pqPop_level size equal, ?_⟩
  have order := congrArg lastFirst others
  rw [← order]
  generalize tail.length = last
  cases last with
  | zero => rfl
  | succ last =>
      have kept : ∀ i ∈ List.range last,
          Function.update q.data 0 (q.data (last + 1)) (i + 1) = q.data (i + 1) :=
        fun i _ => Function.update_of_ne (Nat.succ_ne_zero i) _ _
      unfold lastFirst
      rw [List.range_succ, List.map_append, List.map_singleton, List.getLast?_concat,
        List.dropLast_concat]
      simp only [PriorityQueue.contents, List.range_succ_eq_map, List.map_cons,
        Function.update_self, List.map_map]
      exact congrArg (q.data (last + 1) :: ·) (List.map_congr_left kept)

theorem Sched.directory_enlist (s : Sched) (slot : Slot) (sp : Word) (cr3 : Nat)
    (memory : PagingState) :
    (s.enlist slot sp cr3 memory).directory = Function.update s.directory slot cr3 :=
  Function.comp_update Process.cr3 s.procs slot _

namespace Queued

variable {s : Sched} {count : Nat}

theorem unusedSlot (queued : Queued s count) (less : count < maxProcs) :
    s.unusedSlot = some ⟨count, less⟩ := by
  unfold Sched.unusedSlot
  rw [find?_finRange, decide_eq_true_eq, queued.unused]
  refine ⟨le_refl count, fun earlier before => ?_⟩
  rw [decide_eq_false_iff_not, queued.unused, not_le]
  exact before

theorem withMemory (queued : Queued s count) (memory : PagingState) :
    Queued { s with memory := memory } count :=
  ⟨queued.unused, queued.level, queued.queue, queued.saved, queued.idle, queued.cpu⟩

theorem data_level (queued : Queued s count) :
    ∀ i < s.readyQueue.size, s.priority (s.readyQueue.data i) = 1 := by
  intro i inside
  refine queued.level _ (queued.queue ▸ ?_)
  exact List.mem_map.mpr ⟨i, List.mem_range.mpr inside, rfl⟩

theorem size (queued : Queued s count) (few : count ≤ maxProcs) :
    s.readyQueue.size = count := by
  rw [← PriorityQueue.contents_length, queued.queue, createdSlots_length few]

theorem enlist (queued : Queued s count) (less : count < maxProcs) (sp : Word) (cr3 : Nat)
    (memory : PagingState) :
    Queued (s.enlist ⟨count, less⟩ sp cr3 memory) (count + 1) := by
  have size := queued.size less.le
  have other : ∀ slot ∈ createdSlots count, slot ≠ ⟨count, less⟩ := by
    rintro slot member rfl
    exact lt_irrefl count (mem_createdSlots.mp member)
  have others : ∀ slot ∈ createdSlots count,
      (s.enlist ⟨count, less⟩ sp cr3 memory).procs slot = s.procs slot :=
    fun slot member => Function.update_of_ne (other slot member) _ _
  have itself : (s.enlist ⟨count, less⟩ sp cr3 memory).procs ⟨count, less⟩ =
      ⟨sp, cr3, .ready, 1, BitVec.ofNat 8 s.indx, 400, 0⟩ := Function.update_self _ _ _
  have level : ∀ slot ∈ createdSlots (count + 1),
      (s.enlist ⟨count, less⟩ sp cr3 memory).priority slot = 1 := by
    intro slot member
    rw [createdSlots_succ less, List.mem_append, List.mem_singleton] at member
    unfold Sched.priority
    rcases member with member | rfl
    · rw [others slot member]
      exact queued.level slot member
    · rw [itself]
      rfl
  have pushed : (s.enlist ⟨count, less⟩ sp cr3 memory).readyQueue =
      ⟨Function.update s.readyQueue.data s.readyQueue.size ⟨count, less⟩,
        s.readyQueue.size + 1⟩ := by
    refine PriorityQueue.pqPush_level ?_ fun i inside => ?_
    · rw [size]
      exact less.trans (by decide)
    · have here := level ⟨count, less⟩ (mem_createdSlots.mpr (Nat.lt_succ_self count))
      have waits : s.readyQueue.data i ∈ createdSlots count :=
        queued.queue ▸ List.mem_map.mpr ⟨i, List.mem_range.mpr inside, rfl⟩
      have there := level _ (mem_createdSlots.mpr (Nat.lt_succ_of_lt (mem_createdSlots.mp waits)))
      exact (here.trans there.symm).le
  refine ⟨fun slot => ?_, level, ?_, fun slot member => ?_, queued.idle, queued.cpu⟩
  · by_cases same : slot = ⟨count, less⟩
    · subst same
      rw [itself]
      exact iff_of_false (by simp) (by simp)
    · have moved : (s.enlist ⟨count, less⟩ sp cr3 memory).procs slot = s.procs slot :=
        Function.update_of_ne same _ _
      have apart : slot.val ≠ count := fun number => same (Fin.ext number)
      rw [moved, queued.unused]
      omega
  · rw [pushed, createdSlots_succ less, ← queued.queue]
    exact s.readyQueue.contents_snoc _
  · rw [createdSlots_succ less, List.mem_append, List.mem_singleton] at member
    rcases member with member | rfl
    · refine Eq.trans (Function.update_of_ne ?_ _ _) (queued.saved slot member)
      simpa using other slot member
    · exact Function.update_self _ _ _

structure Begun (s : Sched) (count : Nat) (after : Sched) : Prop where
  executing : after.executingProcess = (createdSlots count).head?
  queue : after.readyQueue.contents = lastFirst (createdSlots count).tail
  cpu : after.cpu = ⟨(createdSlots count).head?.elim .kernel .slot, .code⟩
  directory : after.directory = s.directory
  memory : after.memory = s.memory

theorem start (queued : Queued s count) (env : SwitchEnv) :
    Begun s count (s.startProcesses env) := by
  have memory := (s.startProcesses_undisturbed env).memory
  cases slots : createdSlots count with
  | nil =>
      have empty : s.readyQueue.pqIsEmpty = true := by
        have length := congrArg List.length (queued.queue.trans slots)
        rw [PriorityQueue.contents_length] at length
        exact decide_eq_true length
      unfold Sched.startProcesses at memory ⊢
      rw [if_pos empty] at memory ⊢
      refine ⟨?_, ?_, ?_, rfl, memory⟩
      · rw [slots]
        exact queued.idle
      · rw [slots, queued.queue, slots]
        rfl
      · rw [slots]
        exact queued.cpu
  | cons top tail =>
      obtain ⟨rest, popped, contents⟩ :=
        PriorityQueue.pqPop_lastFirst (queued.queue.trans slots) queued.data_level
      have nonempty : ¬ s.readyQueue.pqIsEmpty = true := by
        intro empty
        have nothing := PriorityQueue.contents_eq_nil empty
        rw [queued.queue, slots] at nothing
        cases nothing
      obtain ⟨executing, queue, -, -⟩ := Sched.runNext_of_pop env (some .kernel) popped
      unfold Sched.startProcesses at memory ⊢
      rw [if_neg nonempty] at memory ⊢
      refine ⟨?_, ?_, ?_, ?_, memory⟩
      · rw [slots]
        exact executing
      · rw [queue, contents, slots]
        rfl
      · rw [slots]
        have mine : top ∈ createdSlots count := slots ▸ List.mem_cons_self
        simp only [Sched.runNext, popped]
        exact Sched.contextSwitch_started env (queued.saved top mine)
      · simp only [Sched.runNext, popped]
        exact (Sched.directory_contextSwitch ..).trans (s.directory_setState top .running)

end Queued

end LazyOS.Scheduling

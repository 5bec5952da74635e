import LazyOS.Fs.Fat12
import LazyOS.Memory.E820
import LazyOS.Memory.HeapBounds
import LazyOS.Scheduling.BootCreation
import LazyOS.Scheduling.RoundRobin

namespace LazyOS.Boot

open LazyOS.Data
open LazyOS.Fs
open LazyOS.Memory
open LazyOS.Scheduling

/-! `kernel_main` of `kernel.c`, from memory with any contents to the first process on
the CPU. -/

/-- What is there before: the bytes where the heap's table goes, the bitmap of the
frames, the memory, and the map that `do_e820` has left. -/
structure PowerOn where
  heapTable : Int → Byte
  bitmap : Bitmap
  ram : Ram
  map : E820Map

def kheapInit (heapTable : Int → Byte) : Heap :=
  (createHeap heapAddress (heapAddress + heapSizeBytes)
    ⟨heapTable, heapSizeBytes / heapBlockSize⟩).2

def keyboardBufferSize : Nat := 4096

def initKeyboardBuffer (heap : Heap) : Heap := (heapMalloc heap keyboardBufferSize).2

def reserveBitmapPmm (heap : Heap) : Heap := (heapMalloc heap pmmEntries).2

def sizeofDiskStream : Nat := 8

/-- The heap's side of `FAT12_table_init`: the table stays, the stream it is read
through is closed again. -/
def reserveFat12Table (heap : Heap) : Heap :=
  mallocThenFree (heapMalloc heap (2 * totalFat12Entreis)).2 sizeofDiskStream

/-- `kernel_heap`, `directory_pointer` of `PD_ptr`, which is set once, and what
`process.c` works on. -/
structure Kernel where
  heap : Heap
  directory : Nat
  sched : Sched

def pageRequests (heap : Heap) (memory : PagingState) : PageHeap :=
  kernelPages kernelRegion heap.table.entries memory.calls

def heapAfter (heap : Heap) (before after : PagingState) : Heap :=
  kernelRegion.heap
    (requestPages kernelRegion (after.calls - before.calls) heap.table.entries)

def bootFlags : Word :=
  pagingIsWritable ||| pagingIsPresent ||| pagingAccessForomAll

def initQueue (directory : Nat) (s : Sched) : Sched :=
  { s with
    readyQueue := s.readyQueue.pqInit
    kernelProc := { s.kernelProc with cr3 := directory, state := .ready } }

def PowerOn.frames (m : PowerOn) : Bitmap := getE820Mmap (initBitmapPmm m.bitmap) m.map

def PowerOn.paging (m : PowerOn) : PagingState := ⟨m.ram, m.frames, 0, []⟩

/-- `kernel_main` up to `initQueue`. -/
def bootKernel (m : PowerOn) : Kernel :=
  let heap := reserveBitmapPmm (initKeyboardBuffer (kheapInit m.heapTable))
  let made := pagingNew4gb (pageRequests heap m.paging) bootFlags m.paging
  let directory := (made.2.ram.load made.1 0).toNat
  ⟨reserveFat12Table (heapAfter heap m.paging made.2), directory,
    initQueue directory (bootSched made.2)⟩

namespace Kernel

def createProcess (entry exitAddress : Word) (k : Kernel) : Option Slot × Kernel :=
  let created :=
    k.sched.createProcess (pageRequests k.heap k.sched.memory) k.directory entry exitAddress
  (created.1,
    { k with
      heap := heapAfter k.heap k.sched.memory created.2.memory
      sched := created.2 })

def createProcesses (exitAddress : Word) : List Word → Kernel → List (Option Slot) × Kernel
  | [], k => ([], k)
  | entry :: entries, k =>
      let first := k.createProcess entry exitAddress
      let rest := first.2.createProcesses exitAddress entries
      (first.1 :: rest.1, rest.2)

end Kernel

def kernelMain (m : PowerOn) (procAEntry procBEntry procCEntry exitAddress : Word)
    (env : SwitchEnv) : List (Option Slot) × Kernel :=
  let created :=
    (bootKernel m).createProcesses exitAddress [procAEntry, procBEntry, procCEntry]
  (created.1, { created.2 with sched := created.2.sched.startProcesses env })

theorem kheapInit_below (heapTable : Int → Byte) :
    ∃ entries, kheapInit heapTable = kernelRegion.heap entries ∧
      TakenBelow kernelRegion entries 0 := by
  have accepted : (createHeap kernelRegion.start kernelRegion.stop
      ⟨heapTable, heapSizeBytes / heapBlockSize⟩).1 = 0 := by
    have blocks : heapSizeBytes / heapBlockSize =
        toUInt32 ((kernelRegion.stop : Int) - kernelRegion.start) / heapBlockSize := by
      decide +kernel
    rw [createHeap_code]
    exact if_pos blocks
  have zero := (bootState_inv accepted).freeMeansZero
  have heap := zero.heap_eq
  refine ⟨_, heap, fun block => ?_, heap ▸ zero⟩
  refine ⟨fun free => ⟨Nat.zero_le _, free.1⟩, fun inside => ⟨inside.2, ?_⟩⟩
  have cleared := createHeap_cleared accepted (show block < _ from inside.2)
  unfold HeapTable.IsFree
  rw [Region.heap_entries]
  exact (congrArg heapGetEntryType cleared).trans (by decide)

theorem initKeyboardBuffer_below {entries : Int → Byte} {first : Nat}
    (below : TakenBelow kernelRegion entries first) (room : first < kernelRegion.capacity) :
    ∃ after, initKeyboardBuffer (kernelRegion.heap entries) = kernelRegion.heap after ∧
      TakenBelow kernelRegion after (first + 1) := by
  obtain ⟨after, called, taken⟩ := below.malloc keyboardBufferSize (by decide) (by decide)
    (by rw [show blocksFor keyboardBufferSize = 1 from by decide]; exact room)
  exact ⟨after, congrArg Prod.snd called, taken⟩

theorem reserveBitmapPmm_below {entries : Int → Byte} {first : Nat}
    (below : TakenBelow kernelRegion entries first)
    (room : first + 32 ≤ kernelRegion.capacity) :
    ∃ after, reserveBitmapPmm (kernelRegion.heap entries) = kernelRegion.heap after ∧
      TakenBelow kernelRegion after (first + 32) := by
  have blocks : blocksFor pmmEntries = 32 := by decide
  obtain ⟨after, called, taken⟩ := below.malloc pmmEntries (by decide) (by decide)
    (by rw [blocks]; exact room)
  rw [blocks] at taken
  exact ⟨after, congrArg Prod.snd called, taken⟩

theorem reserveFat12Table_below {entries : Int → Byte} {first : Nat}
    (below : TakenBelow kernelRegion entries first)
    (room : first + 2 < kernelRegion.capacity) :
    ∃ after, reserveFat12Table (kernelRegion.heap entries) = kernelRegion.heap after ∧
      TakenBelow kernelRegion after (first + 2) := by
  have two : blocksFor (2 * totalFat12Entreis) = 2 := by decide
  have capacity : kernelRegion.capacity < 2 ^ 19 := by decide +kernel
  obtain ⟨after, called, taken⟩ := below.malloc (2 * totalFat12Entreis) (by decide)
    (by decide) (by omega)
  rw [two] at taken
  unfold reserveFat12Table
  rw [called]
  exact taken.release (by decide) room (by omega)

theorem kernelRegion_capacity : kernelRegion.capacity = 25600 := by decide +kernel

/-- The lowest `first` blocks are taken, and the directories and tables are in them. -/
def HeapBelow (heap : Heap) (used : List Nat) (first : Nat) : Prop :=
  ∃ entries, heap = kernelRegion.heap entries ∧ TakenBelow kernelRegion entries first ∧
    UsedBelow kernelRegion first used

theorem pageRequests_heap (entries : Int → Byte) (memory : PagingState) :
    pageRequests (kernelRegion.heap entries) memory =
      kernelPages kernelRegion entries memory.calls := rfl

theorem heapAfter_below {entries : Int → Byte} {first requests : Nat}
    (before : PagingState) {after : PagingState}
    (below : TakenBelow kernelRegion entries first)
    (room : first + requests ≤ kernelRegion.capacity)
    (grown : Grown kernelRegion first before.calls requests after) :
    HeapBelow (heapAfter (kernelRegion.heap entries) before after) after.used
      (first + requests) := by
  refine ⟨_, ?_, below.pages requests room, grown.used⟩
  unfold heapAfter
  rw [grown.calls, Nat.add_sub_cancel_left]
  rfl

/-- No frame of the heap is left for `vmm_alloc`. -/
def HeapTaken (frames : Bitmap) : Prop :=
  ∀ block < kernelRegion.capacity, bitAt frames (4096 + block) = true

theorem PowerOn.heapTaken (m : PowerOn) : HeapTaken m.frames := by
  intro block inside
  rw [kernelRegion_capacity] at inside
  refine (bitAt_bootWithMap m.bitmap m.map (by omega)).mpr (.inl (.inr ?_))
  omega

def Kernel.directories (k : Kernel) (count : Nat) : List Nat :=
  (createdSlots count).reverse.map k.sched.directory ++ [k.directory]

/-- The kernel's directory maps every page to itself.  Each process has its own tables
and a stack of two frames, the next free ones when the processes come one by one. -/
structure Mapped (frames : Bitmap) (count : Nat) (k : Kernel) : Prop where
  spaces : SpacesInv k.directory k.sched.memory (k.directories count)
  identity : IdentityTranslated k.sched.memory.ram k.directory bootFlags
  stackAt : ∀ slot ∈ createdSlots count,
    StackAt k.sched.memory.ram (k.sched.directory slot) (freeFrame frames (2 * slot))
      (freeFrame frames (2 * slot + 1))

/-- How many of the first `tried` processes there are frames for. -/
def servedCount (frames : Bitmap) (tried : Nat) : Nat := min tried (freeFrames frames / 2)

/-- `create_process` has been called `tried` times since `start`. -/
structure Prepared (frames : Bitmap) (tried : Nat) (start : Sched) (k : Kernel) : Prop where
  heap : ∃ first ≤ 1061 + 4 * tried, HeapBelow k.heap k.sched.memory.used first
  left : FramesLeft frames tried k.sched.memory.bitmap
  mapped : Mapped frames (servedCount frames tried) k
  queued : Queued k.sched (servedCount frames tried)
  ran : ∃ ops, Run CallStep ⟨start, [], []⟩ ops
    ⟨k.sched, (createdSlots (servedCount frames tried)).reverse, []⟩

theorem booted_initQueue (directory : Nat) (memory : PagingState) :
    Booted (initQueue directory (bootSched memory)) := ⟨rfl, rfl, rfl, rfl, fun _ => rfl⟩

theorem queued_initQueue (directory : Nat) (memory : PagingState) :
    Queued (initQueue directory (bootSched memory)) 0 := by
  have none : ∀ slot, slot ∉ createdSlots 0 := fun slot member =>
    Nat.not_lt_zero _ (mem_createdSlots.mp member)
  exact ⟨fun _ => iff_of_true rfl (Nat.zero_le _), fun slot member => absurd member (none slot),
    rfl, fun slot member => absurd member (none slot), rfl, rfl⟩

theorem bootKernel_spec (m : PowerOn) :
    ∃ entries directory memory,
      bootKernel m =
        ⟨kernelRegion.heap entries, directory, initQueue directory (bootSched memory)⟩ ∧
      TakenBelow kernelRegion entries 1061 ∧
      BootDirectory kernelRegion 33 m.paging.calls bootFlags m.frames directory memory := by
  obtain ⟨cleared, heap, blank⟩ := kheapInit_below m.heapTable
  obtain ⟨buffered, buffer, first⟩ :=
    initKeyboardBuffer_below blank (by rw [kernelRegion_capacity]; decide)
  obtain ⟨entries, reserve, below⟩ :=
    reserveBitmapPmm_below first (by rw [kernelRegion_capacity]; decide)
  have room : 33 + 1026 ≤ kernelRegion.capacity := by
    rw [kernelRegion_capacity]
    decide
  obtain ⟨ptr, memory, called, made⟩ := pagingNew4gb_below (s := m.paging) below bootFlags
    room rfl
  have booted : bootKernel m =
      ⟨reserveFat12Table (heapAfter (kernelRegion.heap entries) m.paging memory),
        (memory.ram.load ptr 0).toNat,
        initQueue (memory.ram.load ptr 0).toNat (bootSched memory)⟩ := by
    simp only [bootKernel, heap, buffer, reserve, pageRequests_heap, called]
  obtain ⟨later, same, taken, -⟩ := heapAfter_below m.paging below room made.grown
  obtain ⟨last, reserved, rest⟩ := reserveFat12Table_below taken (by
    rw [kernelRegion_capacity]
    decide)
  rw [same, reserved] at booted
  exact ⟨last, _, memory, booted, rest, made⟩

theorem bootKernel_prepared (m : PowerOn) :
    Booted (bootKernel m).sched ∧
      Prepared m.frames 0 (bootKernel m).sched (bootKernel m) := by
  obtain ⟨entries, directory, memory, booted, below, made⟩ := bootKernel_spec m
  have pages := made.grown.used.isPage (by
    rw [kernelRegion_capacity]
    decide)
  have spaces := made.maps.spaces pages (by decide) (by decide)
  have none : servedCount m.frames 0 = 0 := Nat.zero_min _
  rw [booted]
  refine ⟨booted_initQueue directory memory,
    ⟨1061, le_refl _, entries, rfl, below, made.grown.used.mono (by decide)⟩, ?_, ?_, ?_, ?_⟩
  · rw [show (initQueue directory (bootSched memory)).memory.bitmap = m.frames from
      made.bitmap]
    exact .none _
  · rw [none]
    refine ⟨spaces, made.maps.identityTranslated (by decide) (by decide), ?_⟩
    exact fun slot member => absurd (mem_createdSlots.mp member) (Nat.not_lt_zero _)
  · rw [none]
    exact queued_initQueue directory memory
  · rw [none]
    exact ⟨[], .done _⟩

def served (frames : Bitmap) (place : Nat) : Option Slot :=
  (createdSlots (freeFrames frames / 2))[place]?

section Creations

variable {frames bitmap : Bitmap} {tried : Nat} {start : Sched} {k : Kernel}

theorem served_eq (less : tried < maxProcs) :
    served frames tried = if tried < freeFrames frames / 2 then some ⟨tried, less⟩ else none := by
  unfold served createdSlots
  rw [List.getElem?_take]
  split
  · rw [List.getElem?_eq_getElem (by simpa using less), List.getElem_finRange]
    rfl
  · rfl

theorem servedCount_succ_of_lt (enough : tried < freeFrames frames / 2) :
    servedCount frames tried = tried ∧ servedCount frames (tried + 1) = tried + 1 := by
  unfold servedCount
  omega

theorem servedCount_succ_of_le (few : freeFrames frames / 2 ≤ tried) :
    servedCount frames (tried + 1) = servedCount frames tried := by
  unfold servedCount
  omega

theorem Kernel.mem_directories {count : Nat} {slot : Slot}
    (member : slot ∈ createdSlots count) : k.sched.directory slot ∈ k.directories count :=
  List.mem_append_left _ (List.mem_map_of_mem (List.mem_reverse.mpr member))

theorem Kernel.kernel_mem_directories (count : Nat) : k.directory ∈ k.directories count :=
  List.mem_append_right _ (List.mem_singleton.mpr rfl)

theorem Mapped.kept {count : Nat} {memory : PagingState} (mapped : Mapped frames count k)
    (kept : SpacesKept k.directory (k.directories count) k.sched.memory memory)
    (heap : Heap) :
    Mapped frames count ⟨heap, k.directory, { k.sched with memory := memory }⟩ := by
  refine ⟨kept.spaces, fun page inside => ?_, fun slot member => ?_⟩
  · rw [kept.same _ (Kernel.kernel_mem_directories count) page inside]
    exact mapped.identity page inside
  · exact (mapped.stackAt slot member).kept (kept.same _ (Kernel.mem_directories member))

theorem Kernel.directories_enlist {count : Nat} (less : count < maxProcs) (sp : Word)
    (directory : Nat) (memory : PagingState) (heap : Heap) :
    Kernel.directories
        ⟨heap, k.directory, k.sched.enlist ⟨count, less⟩ sp directory memory⟩ (count + 1) =
      directory :: k.directories count := by
  have others : ∀ slot ∈ (createdSlots count).reverse,
      (k.sched.enlist ⟨count, less⟩ sp directory memory).directory slot =
        k.sched.directory slot := by
    intro slot member
    rw [Sched.directory_enlist]
    refine Function.update_of_ne ?_ _ _
    rintro rfl
    exact lt_irrefl count (mem_createdSlots.mp (List.mem_reverse.mp member))
  unfold Kernel.directories
  rw [createdSlots_succ less, List.reverse_append, List.reverse_singleton,
    List.singleton_append, List.map_cons, List.map_congr_left others,
    Sched.directory_enlist, Function.update_self, List.cons_append]

theorem Mapped.created {count : Nat} {memory : PagingState} {directory : Nat}
    (mapped : Mapped frames count k) (less : count < maxProcs)
    (kept : SpacesKept k.directory (k.directories count) k.sched.memory memory)
    (spaces : SpacesInv k.directory memory (directory :: k.directories count))
    (stack : StackAt memory.ram directory (freeFrame frames (2 * count))
      (freeFrame frames (2 * count + 1))) (sp : Word) (heap : Heap) :
    Mapped frames (count + 1)
      ⟨heap, k.directory, k.sched.enlist ⟨count, less⟩ sp directory memory⟩ := by
  refine ⟨?_, fun page inside => ?_, fun slot member => ?_⟩
  · rw [Kernel.directories_enlist less]
    exact spaces
  · change ∃ entry, translation memory.ram k.directory page = _
    rw [kept.same _ (Kernel.kernel_mem_directories count) page inside]
    exact mapped.identity page inside
  · change StackAt memory.ram
      ((k.sched.enlist ⟨count, less⟩ sp directory memory).directory slot) _ _
    rw [Sched.directory_enlist]
    rw [createdSlots_succ less, List.mem_append, List.mem_singleton] at member
    rcases member with member | rfl
    · rw [Function.update_of_ne (by
        rintro rfl
        exact lt_irrefl count (mem_createdSlots.mp member))]
      exact (mapped.stackAt slot member).kept (kept.same _ (Kernel.mem_directories member))
    · rw [Function.update_self]
      exact stack

theorem heap_apart (taken : HeapTaken frames) (left : FramesLeft frames tried bitmap) :
    ∀ frame < 2 ^ 20, bitAt bitmap frame = false →
      ∀ block < kernelRegion.capacity, 4096 * frame ≠ kernelRegion.start + 4096 * block := by
  intro frame _ clear block inside same
  have start : kernelRegion.start = 4096 * 4096 := rfl
  have here : frame = 4096 + block := by omega
  have set := left.marked _ (taken block inside)
  rw [here, set] at clear
  cases clear

theorem Prepared.create (taken : HeapTaken frames) (prepared : Prepared frames tried start k)
    (less : tried < maxProcs) (entry exitAddress : Word) :
    (k.createProcess entry exitAddress).1 = served frames tried ∧
      Prepared frames (tried + 1) start (k.createProcess entry exitAddress).2 := by
  obtain ⟨⟨first, low, entries, heap, below, used⟩, left, mapped, queued, ops, run⟩ := prepared
  have four : tried < 4 := less
  have room : first + 4 ≤ kernelRegion.capacity := by
    rw [kernelRegion_capacity]
    omega
  have slots : servedCount frames tried < maxProcs := (Nat.min_le_left _ _).trans_lt less
  generalize counted : servedCount frames tried = count at mapped queued run slots
  have ends := createProcess_creation entry exitAddress below room used mapped.spaces
    (heap_apart taken left) (queued.unusedSlot slots)
  simp only [Kernel.createProcess, heap, pageRequests_heap]
  cases called : k.sched.createProcess
    (kernelPages kernelRegion entries k.sched.memory.calls) k.directory entry exitAddress with
  | mk slot sched =>
      rw [called] at ends
      have call : CallStep ⟨k.sched, (createdSlots count).reverse, []⟩
          (.create (kernelPages kernelRegion entries k.sched.memory.calls) k.directory entry
            exitAddress) ⟨sched, slot.toList ++ (createdSlots count).reverse, []⟩ := by
        simp only [CallStep, Life.call, called]
      have next := run.append (.next call (.done _))
      rw [served_eq less]
      cases ends with
      | starved few marks grows kept =>
          have short : freeFrames frames / 2 ≤ tried := by
            rw [left.hasTwoFrames_iff] at few
            omega
          obtain ⟨requests, few_requests, grown⟩ := grows
          have same : servedCount frames (tried + 1) = count :=
            (servedCount_succ_of_le short).trans counted
          rw [if_neg (by omega)]
          refine ⟨rfl, ⟨first + requests, by omega, ?_⟩, left.refused few marks, ?_, ?_, ?_⟩
          · exact heapAfter_below k.sched.memory below (by omega) grown
          · rw [same]
            exact mapped.kept kept _
          · rw [same]
            exact queued.withMemory _
          · rw [same]
            exact ⟨_, next⟩
      | @created sp directory low high memory pair grows kept spaces stack =>
          obtain ⟨leaves, rfl, rfl⟩ := left.granted pair
          have enough : tried < freeFrames frames / 2 := by
            rw [← left.hasTwoFrames_iff]
            exact ⟨_, _, pair.apart, pair.bound, pair.lowClear, pair.highClear⟩
          obtain ⟨before, after⟩ := servedCount_succ_of_lt enough
          obtain rfl : tried = count := before.symm.trans counted
          obtain ⟨requests, few_requests, grown⟩ := grows
          rw [if_pos enough]
          refine ⟨rfl, ⟨first + requests, by omega, ?_⟩, leaves, ?_, ?_, ?_⟩
          · exact heapAfter_below k.sched.memory below (by omega) grown
          · rw [after]
            exact mapped.created less kept spaces stack sp _
          · rw [after]
            exact queued.enlist less sp directory memory
          · rw [after, createdSlots_succ less, List.reverse_append]
            exact ⟨_, next⟩

theorem Prepared.createProcesses (taken : HeapTaken frames)
    (prepared : Prepared frames tried start k) (exitAddress : Word) (entries : List Word)
    (room : tried + entries.length ≤ maxProcs) :
    (k.createProcesses exitAddress entries).1 =
        (List.range' tried entries.length).map (served frames) ∧
      Prepared frames (tried + entries.length) start
        (k.createProcesses exitAddress entries).2 := by
  induction entries generalizing tried k with
  | nil => exact ⟨rfl, prepared⟩
  | cons entry entries ih =>
      rw [List.length_cons] at room ⊢
      obtain ⟨first, next⟩ := prepared.create taken (by omega) entry exitAddress
      obtain ⟨rest, last⟩ := ih next (by omega)
      rw [Nat.add_right_comm, Nat.add_assoc] at last
      simp only [Kernel.createProcesses]
      rw [first, rest, List.range'_succ, List.map_cons]
      exact ⟨rfl, last⟩

theorem Mapped.begun {count : Nat} {after : Sched} (mapped : Mapped frames count k)
    (begun : Queued.Begun k.sched count after) :
    Mapped frames count { k with sched := after } := by
  have directories : Kernel.directories { k with sched := after } count =
      k.directories count := by
    unfold Kernel.directories
    rw [begun.directory]
  refine ⟨?_, ?_, ?_⟩
  · rw [directories, begun.memory]
    exact mapped.spaces
  · rw [begun.memory]
    exact mapped.identity
  · rw [begun.memory, begun.directory]
    exact mapped.stackAt

end Creations

/-- What `kernel_main` leaves: as many of the three processes as there are pairs of free
frames, the first of them on the CPU and the others in the queue. -/
structure Started (frames : Bitmap) (result : List (Option Slot) × Kernel) : Prop where
  created : result.1 = (List.range 3).map (served frames)
  executing : result.2.sched.executingProcess = (createdSlots (servedCount frames 3)).head?
  waiting : result.2.sched.readyQueue.contents =
    lastFirst (createdSlots (servedCount frames 3)).tail
  cpu : result.2.sched.cpu =
    ⟨(createdSlots (servedCount frames 3)).head?.elim .kernel .slot, .code⟩
  memory : Mapped frames (servedCount frames 3) result.2
  heap : ∃ first ≤ 1073, HeapBelow result.2.heap result.2.sched.memory.used first
  ran : ∃ start ops, Booted start ∧ Run CallStep ⟨start, [], []⟩ ops
    ⟨result.2.sched, (createdSlots (servedCount frames 3)).reverse, []⟩

theorem Prepared.start {frames : Bitmap} {start : Sched} {slots : List (Option Slot)}
    {k : Kernel} (created : slots = (List.range 3).map (served frames))
    (prepared : Prepared frames 3 start k) (booted : Booted start) (env : SwitchEnv) :
    Started frames (slots, { k with sched := k.sched.startProcesses env }) := by
  obtain ⟨heap, -, mapped, queued, ops, run⟩ := prepared
  have begun := queued.start env
  have started : CallStep
      ⟨k.sched, (createdSlots (servedCount frames 3)).reverse, []⟩ (.start env)
      ⟨k.sched.startProcesses env, (createdSlots (servedCount frames 3)).reverse, []⟩ := rfl
  refine ⟨created, begun.executing, begun.queue, begun.cpu, mapped.begun begun, ?_, ?_⟩
  · rw [begun.memory]
    exact heap
  · exact ⟨_, _, booted, run.append (.next started (.done _))⟩

/-- On any memory and any map `kernel_main` gets as far as there are frames. -/
theorem kernel_main_starts (m : PowerOn)
    (procAEntry procBEntry procCEntry exitAddress : Word) (env : SwitchEnv) :
    Started m.frames (kernelMain m procAEntry procBEntry procCEntry exitAddress env) := by
  obtain ⟨booted, ready⟩ := bootKernel_prepared m
  obtain ⟨created, prepared⟩ := ready.createProcesses m.heapTaken exitAddress
    [procAEntry, procBEntry, procCEntry] (show 3 ≤ 4 by decide)
  unfold kernelMain
  exact Prepared.start created prepared booted env

end LazyOS.Boot

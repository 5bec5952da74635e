import LazyOS.Interrupts.ContextSwitch
import LazyOS.Memory.PageWalk
import LazyOS.Scheduling.Creation

namespace LazyOS.Scheduling

open LazyOS.Data
open LazyOS.Interrupts
open LazyOS.Memory

/-! The first switch to a new process.  `create_process` pushes its first frame through
physical addresses, and `context_switch` pops it through the directory of the process. -/

/-- The words from an address to the end of its page, as the processor finds them under
a directory. -/
def pageWords (ram : Ram) (directory : Nat) (address : Word) : List Word :=
  (List.range ((pagingPageSize - address.toNat % pagingPageSize) / 4)).map fun k =>
    ram (hardwareWalk ram directory (address + BitVec.ofNat 32 (4 * k))).toNat

/-- The record of a new process and the words on its stack, while another context has
the core. -/
structure ShowsNew (p : Word) (process : Process) (ram : Ram) (w : World) : Prop where
  nonnull : p ≠ 0
  sp : w.sp p = process.sp
  directory : w.directory p = BitVec.ofNat 32 process.cr3
  words : w.memory (w.directory p) (w.sp p) = pageWords ram process.cr3 process.sp

/-- The core is at the first instruction of a process, with nothing in its registers, and
its stack returns to `process_exit`. -/
structure Starts (entry exitAddress : Word) (ram : Ram) (directory : Nat) (w : World) :
    Prop where
  cr3 : w.cr3 = BitVec.ofNat 32 directory
  eip : w.core.eip = entry
  regs : w.core.regs = ⟨0, 0, 0, procStackVirt + 0x1FFC, 0, 0, 0, 0⟩
  mapped : Present (directoryEntry ram directory w.core.regs.esp) ∧
    Present (tableEntry ram directory w.core.regs.esp)
  word : ram (hardwareWalk ram directory w.core.regs.esp).toNat = exitAddress
  top : w.core.peek 0 = exitAddress

section Push

variable {ram : Ram} {sp : Word}

theorem frameAddress (sp : Word) {k : Nat} (inside : sp.toNat + 4 * k < 2 ^ 32) :
    (sp + BitVec.ofNat 32 (4 * k)).toNat = sp.toNat + 4 * k := by
  rw [BitVec.toNat_add, BitVec.toNat_ofNat]
  omega

theorem pushFrom_other (frame : List Word) {first address : Nat}
    (inside : sp.toNat + 4 * (first + frame.length) ≤ 2 ^ 32)
    (outside : address < sp.toNat + 4 * first ∨
      sp.toNat + 4 * (first + frame.length) ≤ address) :
    (frame.zipIdx first).foldl (fun ram word =>
      Function.update ram (sp + BitVec.ofNat 32 (4 * word.2)).toNat word.1) ram address =
      ram address := by
  induction frame generalizing first ram with
  | nil => rfl
  | cons word frame ih =>
      rw [List.length_cons] at inside outside
      rw [List.zipIdx_cons, List.foldl_cons, ih (by omega) (by omega)]
      apply Function.update_of_ne
      rw [frameAddress sp (by omega)]
      omega

theorem pushFrom_word (ram : Ram) (frame : List Word) (first : Nat) {k : Nat} {word : Word}
    (inside : sp.toNat + 4 * (first + frame.length) ≤ 2 ^ 32)
    (pushed : frame[k]? = some word) :
    (frame.zipIdx first).foldl (fun ram word =>
      Function.update ram (sp + BitVec.ofNat 32 (4 * word.2)).toNat word.1) ram
        (sp.toNat + 4 * (first + k)) = word := by
  induction frame generalizing first k ram with
  | nil => cases pushed
  | cons head frame ih =>
      rw [List.length_cons] at inside
      rw [List.zipIdx_cons, List.foldl_cons]
      cases k with
      | zero =>
          rw [List.getElem?_cons_zero, Option.some.injEq] at pushed
          rw [pushFrom_other _ (by omega) (by omega), ← frameAddress sp (by omega)]
          exact (Function.update_self ..).trans pushed
      | succ k =>
          rw [List.getElem?_cons_succ] at pushed
          have later := ih (Function.update ram
            (sp + BitVec.ofNat 32 (4 * first)).toNat head) (first + 1) (by omega) pushed
          have place : first + 1 + k = first + (k + 1) := by omega
          rwa [place] at later

theorem pushFrame_other {frame : List Word} {address : Nat}
    (inside : sp.toNat + 4 * frame.length ≤ 2 ^ 32)
    (outside : address < sp.toNat ∨ sp.toNat + 4 * frame.length ≤ address) :
    Sched.pushFrame ram sp frame address = ram address :=
  pushFrom_other frame (by omega) (by omega)

theorem pushFrame_word {frame : List Word} {k : Nat} {word : Word}
    (inside : sp.toNat + 4 * frame.length ≤ 2 ^ 32) (pushed : frame[k]? = some word) :
    Sched.pushFrame ram sp frame (sp.toNat + 4 * k) = word := by
  have whole : sp.toNat + 4 * (0 + frame.length) ≤ 2 ^ 32 := by omega
  have found := pushFrom_word ram frame 0 whole pushed
  rwa [Nat.zero_add] at found

end Push

section Top

variable {ram : Ram} {directory : Nat} {virt : Word}

structure TopMapped (ram : Ram) (directory : Nat) (physBase : Word) : Prop where
  table : Present (ram.load directory 64)
  page : Present (ram.load (tableOf (ram.load directory 64)) 1)
  frame : physBase = frameOf (ram.load (tableOf (ram.load directory 64)) 1)

theorem topMapped_of_physBase (reachable : physBase directory 0x10002000 ram ≠ 0) :
    TopMapped ram directory (physBase directory 0x10002000 ram) := by
  have offset : (BitVec.ofInt 32 0x10002000 - BitVec.ofNat 32 pagingPageSize) &&&
      (0xFFF : Word) = 0 := by decide +kernel
  simp only [physBase, pagingGetPhysical, top_indexes, offset] at reachable ⊢
  by_cases table : Present (ram.load directory 64)
  · rw [if_pos table] at reachable ⊢
    by_cases page : Present (ram.load (tableOf (ram.load directory 64)) 1)
    · exact ⟨table, page, (if_pos page).trans BitVec.or_zero⟩
    · exact absurd (if_neg page) reachable
  · exact absurd (if_neg table) reachable

theorem TopMapped.aligned {base : Word} (mapped : TopMapped ram directory base) :
    base.toNat % 4096 = 0 := by
  have value := tableOf_eq (ram.load (tableOf (ram.load directory 64)) 1)
  rw [tableOf, ← mapped.frame] at value
  omega

theorem directoryEntry_top (here : pageOf virt = 0x10001) :
    directoryEntry ram directory virt = ram.load directory 64 := by
  rw [directoryEntry, shiftRight_22, here]

theorem tableEntry_top (here : pageOf virt = 0x10001) :
    tableEntry ram directory virt = ram.load (tableOf (ram.load directory 64)) 1 := by
  rw [tableEntry, shiftRight_12_and, here, directoryEntry_top here]
  rfl

theorem TopMapped.present {base : Word} (mapped : TopMapped ram directory base)
    (here : pageOf virt = 0x10001) :
    Present (directoryEntry ram directory virt) ∧
      Present (tableEntry ram directory virt) := by
  rw [directoryEntry_top here, tableEntry_top here]
  exact ⟨mapped.table, mapped.page⟩

theorem TopMapped.walk {base : Word} (mapped : TopMapped ram directory base)
    (here : pageOf virt = 0x10001) :
    (hardwareWalk ram directory virt).toNat = base.toNat + virt.toNat % 4096 := by
  have aligned := mapped.aligned
  have frame : base.toNat = 2 ^ 12 * (base.toNat / 4096) := by omega
  have offset : virt.toNat % 4096 < 2 ^ 12 := by omega
  have entry : tableEntry ram directory virt &&& 0xFFFFF000 = base := by
    rw [tableEntry_top here]
    exact mapped.frame.symm
  rw [hardwareWalk, if_pos (mapped.present here), entry, BitVec.toNat_or, and_0xFFF,
    frame, ← Nat.two_pow_add_eq_or_of_lt offset]

end Top

section Frame

variable {ram : Ram} {directory : Nat} {base : Word} {frame : List Word}

theorem frame_toNat (aligned : base.toNat % 4096 = 0) :
    (base + BitVec.ofNat 32 pagingPageSize - 40).toNat = base.toNat + 4056 := by
  have bound := base.isLt
  have forty : (40 : Word).toNat = 40 := rfl
  unfold pagingPageSize
  rw [BitVec.toNat_sub, BitVec.toNat_add, BitVec.toNat_ofNat, forty]
  omega

theorem TopMapped.kept (mapped : TopMapped ram directory base) (ten : frame.length = 10)
    {block j : Nat} (page : 4096 ∣ block) (low : j < 1014) :
    (Sched.pushFrame ram (base + BitVec.ofNat 32 pagingPageSize - 40) frame).load block j =
      ram.load block j := by
  have aligned := mapped.aligned
  have bound := base.isLt
  apply pushFrame_other
  · rw [frame_toNat aligned, ten]
    omega
  · rw [frame_toNat aligned, ten]
    omega

theorem TopMapped.push (mapped : TopMapped ram directory base) (ten : frame.length = 10)
    (page : 4096 ∣ directory) :
    TopMapped (Sched.pushFrame ram (base + BitVec.ofNat 32 pagingPageSize - 40) frame)
      directory base := by
  have entry := mapped.kept ten page (by decide : 64 < 1014)
  have value := tableOf_eq (ram.load directory 64)
  have table : 4096 ∣ tableOf (ram.load directory 64) := by omega
  refine ⟨?_, ?_, ?_⟩
  · rw [entry]
    exact mapped.table
  · rw [entry, mapped.kept ten table (by decide : 1 < 1014)]
    exact mapped.page
  · rw [entry, mapped.kept ten table (by decide : 1 < 1014)]
    exact mapped.frame

theorem TopMapped.word (mapped : TopMapped ram directory base) (ten : frame.length = 10)
    (page : 4096 ∣ directory) {k : Nat} {word : Word} (pushed : frame[k]? = some word)
    {virt : Word} (place : virt.toNat = 0x10001FD8 + 4 * k) :
    let after := Sched.pushFrame ram (base + BitVec.ofNat 32 pagingPageSize - 40) frame
    after (hardwareWalk after directory virt).toNat = word := by
  obtain ⟨less, -⟩ := List.getElem?_eq_some_iff.mp pushed
  have aligned := mapped.aligned
  have bound := base.isLt
  have here : pageOf virt = 0x10001 := by
    unfold pageOf pagingPageSize
    omega
  have address : base.toNat + virt.toNat % 4096 =
      (base + BitVec.ofNat 32 pagingPageSize - 40).toNat + 4 * k := by
    rw [frame_toNat aligned]
    omega
  intro after
  rw [(mapped.push ten page).walk here, address]
  apply pushFrame_word _ pushed
  rw [frame_toNat aligned, ten]
  omega

theorem TopMapped.pageWords (mapped : TopMapped ram directory base)
    (ten : frame.length = 10) (page : 4096 ∣ directory) :
    pageWords (Sched.pushFrame ram (base + BitVec.ofNat 32 pagingPageSize - 40) frame)
      directory 0x10001FD8 = frame := by
  have count : (pagingPageSize - (0x10001FD8 : Word).toNat % pagingPageSize) / 4 = 10 := by
    decide
  unfold Scheduling.pageWords
  rw [count]
  apply List.ext_getElem?
  intro k
  rw [List.getElem?_map]
  by_cases less : k < 10
  · obtain ⟨word, pushed⟩ : ∃ word, frame[k]? = some word :=
      ⟨frame[k], List.getElem?_eq_getElem (by omega)⟩
    rw [List.getElem?_range less, pushed, Option.map_some, Option.some.injEq]
    refine mapped.word ten page pushed ?_
    have start : (0x10001FD8 : Word).toNat = 0x10001FD8 := rfl
    rw [frameAddress _ (by rw [start]; omega), start]
  · rw [List.getElem?_eq_none (by rw [List.length_range]; omega),
      List.getElem?_eq_none (by omega)]
    rfl

end Frame

section Creation

variable {heap : PageHeap} {kernelDirectory : Nat} {entry exitAddress : Word}
  {s after : Sched} {slot : Slot}

theorem initialFrame_length (entry exitAddress : Word) :
    (Sched.initialFrame entry exitAddress).length = 10 := rfl

theorem popa_initialFrame {loaded : Core} (esp : loaded.regs.esp = 0x10001FD8)
    (words : loaded.stack = Sched.initialFrame entry exitAddress) :
    loaded.popa.sti.ret.eip = entry ∧
      loaded.popa.sti.ret.regs = ⟨0, 0, 0, procStackVirt + 0x1FFC, 0, 0, 0, 0⟩ ∧
      loaded.popa.sti.ret.peek 0 = exitAddress := by
  simp only [Core.ret, Core.sti, Core.popa, Core.discard, Core.peek, esp, words]
  exact ⟨rfl, rfl, rfl⟩

/-- When the frames run out no page at the top of the address space is mapped, so the
call fails. -/
theorem Creates.virtTop_eq {pd : Nat} {memory mapped : PagingState} {virtTop : Int}
    (creates : Creates heap kernelDirectory entry exitAddress s slot after pd memory
      virtTop mapped) : virtTop = 0x10002000 := by
  obtain ⟨fresh, -⟩ := pagingNewProcessDirectory_fresh creates.made creates.nonzero
  have inv := vmmAllocLoop_oneTable heap stackFlags
    (fresh.oneTable (by decide) (by decide)) stack_behind
  have allocated := creates.allocated
  rw [← stackFlags, stackAlloc_eq] at allocated
  generalize vmmAllocLoop heap (memory.ram.load pd 0).toNat procStackVirt stackFlags 2 0
    memory = result at inv allocated
  obtain ⟨served, last⟩ := result
  cases served with
  | false =>
      cases allocated
      have blank := inv.blank 1023 (by decide) (by decide) (by decide)
      exact absurd (physBase_short blank) creates.reachable
  | true =>
      cases allocated
      rfl

structure NewStack (entry exitAddress : Word) (s : Sched) (process : Process)
    (memory : PagingState) (ram : Ram) (base : Word) : Prop where
  sp : process.sp = 0x10001FD8
  page : IsPage process.cr3
  unused : process.cr3 ∉ 0 :: s.memory.used
  mapped : TopMapped ram process.cr3 base
  pushed : memory.ram = Sched.pushFrame ram
    (base + BitVec.ofNat 32 pagingPageSize - 40) (Sched.initialFrame entry exitAddress)

theorem createProcess_newStack
    (created : s.createProcess heap kernelDirectory entry exitAddress =
      (some slot, after)) :
    ∃ ram base, NewStack entry exitAddress s (after.procs slot) after.memory ram base := by
  obtain ⟨pd, memory, virtTop, mapped, creates⟩ := Sched.createProcess_creates created
  obtain ⟨fresh, -, -, unused⟩ :=
    pagingNewProcessDirectory_fresh creates.made creates.nonzero
  obtain rfl := creates.virtTop_eq
  have process : after.procs slot =
      { sp := BitVec.ofInt 32 0x10002000 - 40
        cr3 := (memory.ram.load pd 0).toNat
        state := .ready
        priority := 1
        pid := BitVec.ofNat 8 s.indx
        burstTime := 400
        spinning := 0 } := by
    rw [creates.result]
    exact Function.update_self ..
  refine ⟨mapped.ram, physBase (memory.ram.load pd 0).toNat 0x10002000 mapped.ram,
    ?_, ?_, ?_, ?_, ?_⟩
  · have below : BitVec.ofInt 32 0x10002000 - 40 = (0x10001FD8 : Word) := by
      decide +kernel
    rw [process]
    exact below
  · rw [process]
    exact fresh.page
  · rw [process]
    exact unused
  · rw [process]
    exact topMapped_of_physBase creates.reachable
  · unfold physBase
    rw [creates.result]
    simp only [Sched.enlist]

variable {p : Word} {w back : World}

theorem NewStack.parked {process : Process} {memory : PagingState} {ram : Ram} {base : Word}
    (stack : NewStack entry exitAddress s process memory ram base)
    (shown : ShowsNew p process memory.ram w) (caller : w.cr3.toNat ∈ s.memory.used) :
    World.Parked p 0x10001FD8 (Sched.initialFrame entry exitAddress) w := by
  have named : (w.directory p).toNat = process.cr3 := by
    rw [shown.directory, toNat_of_isPage stack.page]
  obtain ⟨nonzero, unused⟩ := not_or.mp (List.mem_cons.not.mp stack.unused)
  refine ⟨shown.nonnull, ?_, ?_, ?_, ?_⟩
  · intro zero
    rw [zero] at named
    exact nonzero named.symm
  · intro same
    rw [same, named] at caller
    exact unused caller
  · rw [shown.sp, stack.sp]
  · have words := shown.words
    rw [shown.sp, stack.sp, stack.pushed, stack.mapped.pageWords
      (initialFrame_length entry exitAddress) stack.page.aligned] at words
    exact words

/-- A new process starts at its entry with cleared registers and `process_exit` to
return to, whatever frames back its stack and whatever runs before it. -/
theorem new_process_starts
    (created : s.createProcess heap kernelDirectory entry exitAddress =
      (some slot, after))
    (shown : ShowsNew p (after.procs slot) after.memory.ram w)
    (caller : w.cr3.toNat ∈ s.memory.used)
    (others : Relation.ReflTransGen (World.Elsewhere p) w back)
    (curr : back.core.peek 1 ≠ p) (next : back.core.peek 2 = p) :
    Starts entry exitAddress after.memory.ram (after.procs slot).cr3
      back.contextSwitch := by
  obtain ⟨ram, base, stack⟩ := createProcess_newStack created
  obtain ⟨parked, directory⟩ := (stack.parked shown caller).others others
  obtain ⟨cr3, loaded, esp, words, core⟩ := parked.loads curr next
  obtain ⟨eip, regs, top⟩ := popa_initialFrame esp words
  rw [← core] at eip regs top
  refine ⟨?_, eip, regs, ?_, ?_, top⟩
  · rw [cr3, directory, shown.directory]
  · rw [regs, stack.pushed]
    refine (stack.mapped.push (initialFrame_length entry exitAddress)
      stack.page.aligned).present ?_
    decide
  · rw [regs, stack.pushed]
    exact stack.mapped.word (initialFrame_length entry exitAddress) stack.page.aligned
      (k := 9) rfl rfl

end Creation

/-- A call `context_switch(&kernel_proc, next)`, with the records at 0x5000 and
0x6000. -/
def startWorld (next : Process) (ram : Ram) : World where
  core := ⟨⟨0, 0, 0, 0x7000, 0, 0, 0, 0⟩, 0, 8, 2, [0x1234, 0x5000, 0x6000]⟩
  cr3 := 0x100000
  memory := fun _ _ => pageWords ram next.cr3 next.sp
  sp := fun _ => next.sp
  directory := fun _ => BitVec.ofNat 32 next.cr3
  state := fun _ => next.state

theorem new_process_starts_first :
    ∃ after, (bootSched blankMemory).createProcess manyPages 0x100000 0x8000 0x9000 =
        (some 0, after) ∧
      Starts 0x8000 0x9000 after.memory.ram (after.procs 0).cr3
        (startWorld (after.procs 0) after.memory.ram).contextSwitch := by
  obtain ⟨sp, cr3, memory, -, created⟩ :=
    createProcess_plenty 1 (bootSched blankMemory) 0 plenty_blankMemory (by decide) rfl
  generalize (bootSched blankMemory).enlist 0 sp cr3 memory = after at created
  have shown : ShowsNew 0x6000 (after.procs 0) after.memory.ram
      (startWorld (after.procs 0) after.memory.ram) :=
    ⟨by decide, rfl, rfl, rfl⟩
  exact ⟨after, created, new_process_starts created shown List.mem_cons_self .refl
    (by decide : (0x5000 : Word) ≠ 0x6000) rfl⟩

end LazyOS.Scheduling

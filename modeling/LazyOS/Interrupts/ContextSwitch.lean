import LazyOS.Data.Machine
import LazyOS.Scheduling.Process
import Mathlib.Logic.Relation

namespace LazyOS.Interrupts

open LazyOS.Data
open LazyOS.Scheduling

/-! The switch of contexts, from `process.asm`, as the context that calls it sees it:
whatever runs in between, `context_switch` returns like any other function. -/

/-- The core and the directory it runs under, the words from an address upwards in the
memory of each directory, and the fields of the processes that `context_switch` uses,
by the address of the process. -/
structure World where
  core : Core
  cr3 : Word
  memory : Word → Word → List Word
  sp : Word → Word
  directory : Word → Word
  state : Word → ProcessState

namespace World

def onCore (w : World) (instruction : Core → Core) : World :=
  { w with core := instruction w.core }

def spill (w : World) : World :=
  { w with
    memory := Function.update w.memory w.cr3
      (Function.update (w.memory w.cr3) w.core.regs.esp w.core.stack) }

/-- `mov esp, value`. -/
def moveEsp (w : World) (value : Word) : World :=
  { w with
    core :=
      { w.core with
        regs := { w.core.regs with esp := value }
        stack := w.memory w.cr3 value } }

def arguments (c : Core) : Core :=
  { c with regs := { c.regs with eax := c.peek 1, edx := c.peek 2 } }

def saveContext (w : World) : World :=
  let curr := w.core.peek 1
  let w := w.onCore arguments
  if curr = 0 then w
  else
    let w := w.onCore Core.pusha
    { w with sp := Function.update w.sp curr w.core.regs.esp }

-- `ebx` and `ecx` hold the two directories meanwhile; `popa` loads them again.
def switchDirectory (w : World) (next : Word) : World :=
  if w.directory next = 0 then w
  else if w.directory next = w.cr3 then w
  else { w with cr3 := w.directory next }

def markRunning (w : World) (next : Word) : World :=
  { w with state := Function.update w.state next (.ofCode asmProcessRunning) }

def loadContext (w : World) (next : Word) : World :=
  let w := (w.markRunning next).spill.switchDirectory next
  ((w.moveEsp (w.sp next)).onCore Core.popa).onCore fun c => c.sti.ret

/-- `context_switch` from its first instruction, with its arguments on the stack. -/
def contextSwitch (w : World) : World :=
  let next := w.core.peek 2
  w.saveContext.loadContext next

structure Running (p : Word) (w : World) : Prop where
  process : p ≠ 0
  mapped : w.directory p ≠ 0
  loaded : w.cr3 = w.directory p

structure Parked (p esp : Word) (stack : List Word) (w : World) : Prop where
  process : p ≠ 0
  mapped : w.directory p ≠ 0
  away : w.cr3 ≠ w.directory p
  sp : w.sp p = esp
  words : w.memory (w.directory p) esp = stack

inductive Elsewhere (p : Word) : World → World → Prop
  | code {w after : World} (directory : after.directory p = w.directory p)
      (sp : after.sp p = w.sp p)
      (memory : after.memory (w.directory p) = w.memory (w.directory p))
      (away : after.cr3 ≠ w.directory p) : Elsewhere p w after
  | switch {w : World} (curr : w.core.peek 1 ≠ p) (next : w.core.peek 2 ≠ p)
      (away : w.contextSwitch.cr3 ≠ w.directory p) : Elsewhere p w w.contextSwitch

/-- `p` calls `context_switch` for itself and gets the core back, at once or when
another context calls it for `p`. -/
inductive Resumes (p : Word) : World → World → Prop
  | same {w : World} (curr : w.core.peek 1 = p) (next : w.core.peek 2 = p) :
      Resumes p w w.contextSwitch
  | later {w back : World} (curr : w.core.peek 1 = p) (next : w.core.peek 2 ≠ p)
      (away : w.contextSwitch.cr3 ≠ w.directory p)
      (others : Relation.ReflTransGen (Elsewhere p) w.contextSwitch back)
      (notSaved : back.core.peek 1 ≠ p) (resumed : back.core.peek 2 = p) :
      Resumes p w back.contextSwitch

variable {p next esp : Word} {stack : List Word} {w after : World}

theorem switchDirectory_eq (w : World) (next : Word) :
    w.switchDirectory next = { w with cr3 := (w.switchDirectory next).cr3 } := by
  unfold switchDirectory
  split
  · rfl
  · split
    · rfl
    · rfl

theorem switchDirectory_mapped (mapped : w.directory next ≠ 0) :
    (w.switchDirectory next).cr3 = w.directory next := by
  unfold switchDirectory
  rw [if_neg mapped]
  split
  case isTrue same => exact same.symm
  case isFalse => rfl

/-- What is loaded: the words at the saved stack pointer, in the memory of the
directory. -/
theorem loadContext_core (mapped : w.directory next ≠ 0) :
    (w.loadContext next).core =
      ({ w.core with
        regs := { w.core.regs with esp := w.sp next }
        stack := w.spill.memory (w.directory next) (w.sp next) } : Core).popa.sti.ret := by
  have cr3 : ((w.markRunning next).spill.switchDirectory next).cr3 = w.directory next :=
    switchDirectory_mapped mapped
  simp only [loadContext]
  rw [switchDirectory_eq, cr3]
  rfl

theorem loadContext_cr3 (mapped : w.directory next ≠ 0) :
    (w.loadContext next).cr3 = w.directory next :=
  switchDirectory_mapped (w := (w.markRunning next).spill) mapped

theorem loadContext_fields (w : World) (next : Word) :
    (w.loadContext next).sp = w.sp ∧ (w.loadContext next).directory = w.directory ∧
      (w.loadContext next).memory = w.spill.memory := by
  simp only [loadContext]
  rw [switchDirectory_eq]
  exact ⟨rfl, rfl, rfl⟩

theorem saveContext_cr3 (w : World) :
    w.saveContext.cr3 = w.cr3 ∧ w.saveContext.memory = w.memory ∧
      w.saveContext.directory = w.directory := by
  simp only [saveContext]
  split
  · exact ⟨rfl, rfl, rfl⟩
  · exact ⟨rfl, rfl, rfl⟩

theorem saveContext_sp (other : w.core.peek 1 ≠ p) : w.saveContext.sp p = w.sp p := by
  simp only [saveContext]
  split
  · rfl
  · exact Function.update_of_ne other.symm ..

theorem saveContext_self (process : p ≠ 0) (curr : w.core.peek 1 = p) :
    w.saveContext =
      { w with
        core := (arguments w.core).pusha
        sp := Function.update w.sp p (arguments w.core).pusha.regs.esp } := by
  simp only [saveContext, curr, if_neg process]
  rfl

theorem spill_memory_self (w : World) :
    w.spill.memory w.cr3 w.core.regs.esp = w.core.stack := by
  simp only [spill, Function.update_self]

theorem spill_memory_other {directory : Word} (away : w.cr3 ≠ directory) :
    w.spill.memory directory = w.memory directory :=
  Function.update_of_ne away.symm ..

theorem contextSwitch_fields (w : World) :
    w.contextSwitch.sp = w.saveContext.sp ∧ w.contextSwitch.directory = w.directory ∧
      w.contextSwitch.memory = w.saveContext.spill.memory := by
  obtain ⟨sp, directory, memory⟩ := w.saveContext.loadContext_fields (w.core.peek 2)
  exact ⟨sp, directory.trans w.saveContext_cr3.2.2, memory⟩

theorem contextSwitch_state (w : World) :
    w.contextSwitch.state =
      Function.update w.state (w.core.peek 2) (.ofCode asmProcessRunning) := by
  have saved : w.saveContext.state = w.state := by
    simp only [saveContext]
    split
    · rfl
    · rfl
  rw [← saved]
  simp only [contextSwitch, loadContext]
  rw [switchDirectory_eq]
  rfl

theorem Running.parked (running : Running p w) (curr : w.core.peek 1 = p)
    (away : w.contextSwitch.cr3 ≠ w.directory p) :
    Parked p (arguments w.core).pusha.regs.esp (arguments w.core).pusha.stack
      w.contextSwitch := by
  obtain ⟨sp, directory, memory⟩ := w.contextSwitch_fields
  have saved := saveContext_self running.process curr
  have core : w.saveContext.core = (arguments w.core).pusha := congrArg World.core saved
  have words := w.saveContext.spill_memory_self
  rw [core, w.saveContext_cr3.1, running.loaded] at words
  refine ⟨running.process, ?_, ?_, ?_, ?_⟩
  · rw [directory]
    exact running.mapped
  · rw [directory]
    exact away
  · rw [sp, congrArg World.sp saved]
    exact Function.update_self ..
  · rw [memory, directory]
    exact words

theorem Parked.elsewhere (parked : Parked p esp stack w) (step : Elsewhere p w after) :
    Parked p esp stack after := by
  cases step with
  | code directory sp memory away =>
      refine ⟨parked.process, ?_, ?_, sp.trans parked.sp, ?_⟩
      · exact directory ▸ parked.mapped
      · exact directory ▸ away
      · rw [directory, memory]
        exact parked.words
  | switch curr next away =>
      obtain ⟨sp, directory, memory⟩ := w.contextSwitch_fields
      obtain ⟨sameCr3, sameMemory, -⟩ := w.saveContext_cr3
      have others : w.saveContext.cr3 ≠ w.directory p := sameCr3 ▸ parked.away
      refine ⟨parked.process, ?_, ?_, ?_, ?_⟩
      · rw [directory]
        exact parked.mapped
      · rw [directory]
        exact away
      · rw [sp, saveContext_sp curr]
        exact parked.sp
      · rw [directory, memory, spill_memory_other others, sameMemory]
        exact parked.words

theorem Elsewhere.directory (step : Elsewhere p w after) :
    after.directory p = w.directory p := by
  cases step with
  | code directory => exact directory
  | switch => rw [w.contextSwitch_fields.2.1]

theorem Parked.others (parked : Parked p esp stack w)
    (others : Relation.ReflTransGen (Elsewhere p) w after) :
    Parked p esp stack after ∧ after.directory p = w.directory p := by
  induction others with
  | refl => exact ⟨parked, rfl⟩
  | tail _ step ih => exact ⟨ih.1.elsewhere step, step.directory.trans ih.2⟩

theorem Parked.loads (parked : Parked p esp stack w) (notSaved : w.core.peek 1 ≠ p)
    (resumed : w.core.peek 2 = p) :
    w.contextSwitch.cr3 = w.directory p ∧
      ∃ loaded : Core, loaded.regs.esp = esp ∧ loaded.stack = stack ∧
        w.contextSwitch.core = loaded.popa.sti.ret := by
  obtain ⟨sameCr3, sameMemory, sameDirectory⟩ := w.saveContext_cr3
  have sp : w.saveContext.sp p = esp := (saveContext_sp notSaved).trans parked.sp
  have mapped : w.saveContext.directory p ≠ 0 := sameDirectory ▸ parked.mapped
  have others : w.saveContext.cr3 ≠ w.directory p := sameCr3 ▸ parked.away
  have words : w.saveContext.spill.memory (w.saveContext.directory p) esp = stack := by
    rw [sameDirectory, spill_memory_other others, sameMemory]
    exact parked.words
  rw [contextSwitch, resumed]
  refine ⟨?_, _, ?_, ?_, loadContext_core mapped⟩
  · rw [loadContext_cr3 mapped, sameDirectory]
  · exact sp
  · simp only [sp]
    exact words

theorem cdecl_of_loaded {entry loaded : Core}
    (esp : loaded.regs.esp = (arguments entry).pusha.regs.esp)
    (words : loaded.stack = (arguments entry).pusha.stack) :
    Cdecl entry loaded.popa.sti.ret := by
  have regs : loaded.popa.regs = (arguments entry).regs := Core.popa_regs esp words
  have stack : loaded.popa.stack = (arguments entry).stack := Core.popa_stack words
  have kept : loaded.popa.sti.ret.regs =
      { (arguments entry).regs with esp := (arguments entry).regs.esp + 4 } := by
    rw [← regs]
    rfl
  refine ⟨?_, ?_, ?_, ?_, ?_, ?_, ?_⟩
  · simp only [Core.ret, Core.sti, Core.peek, stack, arguments]
  · rw [kept]
    rfl
  · simp only [Core.ret, Core.sti, Core.discard, stack, arguments]
  · rw [kept]
    rfl
  · rw [kept]
    rfl
  · rw [kept]
    rfl
  · rw [kept]
    rfl

theorem loadContext_resumes {entry : Core} (process : p ≠ 0)
    (mapped : w.directory p ≠ 0) (sp : w.sp p = (arguments entry).pusha.regs.esp)
    (words : w.spill.memory (w.directory p) (w.sp p) = (arguments entry).pusha.stack) :
    Cdecl entry (w.loadContext p).core ∧ Running p (w.loadContext p) := by
  obtain ⟨-, directory, -⟩ := w.loadContext_fields p
  refine ⟨?_, process, ?_, ?_⟩
  · rw [loadContext_core mapped]
    exact cdecl_of_loaded sp words
  · rw [directory]
    exact mapped
  · rw [directory]
    exact loadContext_cr3 mapped

theorem Resumes.cdecl (running : Running p w) (resumes : Resumes p w after) :
    Cdecl w.core after.core ∧ Running p after := by
  cases resumes with
  | same curr next =>
      obtain ⟨sameCr3, -, sameDirectory⟩ := w.saveContext_cr3
      have saved := saveContext_self running.process curr
      have core : w.saveContext.core = (arguments w.core).pusha :=
        congrArg World.core saved
      have sp : w.saveContext.sp p = (arguments w.core).pusha.regs.esp := by
        rw [saved]
        exact Function.update_self ..
      rw [contextSwitch, next]
      refine loadContext_resumes running.process ?_ sp ?_
      · exact sameDirectory ▸ running.mapped
      · rw [sp, sameDirectory, ← running.loaded, ← sameCr3, ← core]
        exact w.saveContext.spill_memory_self
  | @later back curr next away others notSaved resumed =>
      obtain ⟨parked, -⟩ := (running.parked curr away).others others
      obtain ⟨cr3, loaded, esp, stack, core⟩ := parked.loads notSaved resumed
      obtain ⟨-, directory, -⟩ := back.contextSwitch_fields
      refine ⟨?_, parked.process, ?_, ?_⟩
      · rw [core]
        exact cdecl_of_loaded esp stack
      · rw [directory]
        exact parked.mapped
      · rw [directory]
        exact cr3

end World

def process (s : Sched) : ProcPtr → Process
  | .kernel => s.kernelProc
  | .slot slot => s.procs slot

structure Shows (address : ProcPtr → Word) (w : World) (s : Sched) : Prop where
  sp : ∀ ptr, w.sp (address ptr) = (process s ptr).sp
  directory : ∀ ptr, w.directory (address ptr) = BitVec.ofNat 32 (process s ptr).cr3
  state : ∀ ptr, w.state (address ptr) = (process s ptr).state

theorem process_saveContext (env : SwitchEnv) (curr : Option ProcPtr) (ptr : ProcPtr)
    (s : Sched) :
    process (s.saveContext env curr) ptr =
      { process s ptr with
        sp := if curr = some ptr then env.esp else (process s ptr).sp } := by
  rcases curr with _ | _ | slot
  · rfl
  · cases ptr with
    | kernel => rfl
    | slot other => rfl
  · cases ptr with
    | kernel => rfl
    | slot other =>
        by_cases same : slot = other
        · subst same
          simp [process, Sched.saveContext]
        · simp [process, Sched.saveContext, same, Ne.symm same]

theorem process_markRunning (next ptr : ProcPtr) (s : Sched) :
    process (s.markRunning next) ptr =
      { process s ptr with
        state :=
          if ptr = next then .ofCode asmProcessRunning else (process s ptr).state } := by
  cases next with
  | kernel =>
      cases ptr with
      | kernel => rfl
      | slot other => rfl
  | slot slot =>
      cases ptr with
      | kernel => rfl
      | slot other =>
          by_cases same : other = slot
          · subst same
            simp [process, Sched.markRunning, Sched.setState]
          · simp [process, Sched.markRunning, Sched.setState, same]

/-- The instructions of `context_switch` do to the records what the switch of the
scheduler does to the processes. -/
theorem contextSwitch_shows {address : ProcPtr → Word} {w : World} {s : Sched}
    {curr : Option ProcPtr} {next : ProcPtr} {env : SwitchEnv} (shown : Shows address w s)
    (injective : Function.Injective address) (nonnull : ∀ ptr, address ptr ≠ 0)
    (first : w.core.peek 1 = curr.elim 0 address) (second : w.core.peek 2 = address next)
    (esp : env.esp = (World.arguments w.core).pusha.regs.esp) :
    Shows address w.contextSwitch (s.contextSwitch env curr next) := by
  have switched : ∀ ptr, process (s.contextSwitch env curr next) ptr =
      process ((s.saveContext env curr).markRunning next) ptr := fun _ => rfl
  obtain ⟨sp, directory, -⟩ := w.contextSwitch_fields
  refine ⟨fun ptr => ?_, fun ptr => ?_, fun ptr => ?_⟩
  · rw [switched, process_markRunning, process_saveContext, sp, ← shown.sp]
    cases curr with
    | none => simp [World.saveContext, first, World.onCore]
    | some curr =>
        rw [World.saveContext_self (nonnull curr) first, esp]
        by_cases same : curr = ptr
        · subst same
          simp
        · have apart : address ptr ≠ address curr := fun equal => same (injective equal).symm
          simp [apart, same]
  · rw [switched, process_markRunning, process_saveContext, directory]
    exact shown.directory ptr
  · rw [switched, process_markRunning, process_saveContext, w.contextSwitch_state, second]
    by_cases same : ptr = next
    · subst same
      simp
    · have apart : address ptr ≠ address next := fun equal => same (injective equal)
      simp [apart, same, shown.state]

end LazyOS.Interrupts

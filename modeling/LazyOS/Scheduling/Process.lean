import LazyOS.Memory.Paging
import LazyOS.Scheduling.Queue

namespace LazyOS.Scheduling

open LazyOS.Data
open LazyOS.Memory

/-! Processes and their scheduling, from `process.c` and `process.asm`.  Burst and
time slice are whole milliseconds.  A context that is not on the CPU is known by the
place in its code where it goes on. -/

abbrev maxProcs : Nat := 4

def procStackVirt : Word := 0x10000000

abbrev Slot := Fin maxProcs

inductive ProcessState where
  | unused
  | ready
  | running
  | terminated
deriving DecidableEq

def ProcessState.ofCode : Nat → ProcessState
  | 0 => .unused
  | 1 => .ready
  | 2 => .running
  | _ => .terminated

/-- `PROCESS_RUNNING` as `process.asm` defines it. -/
def asmProcessRunning : Nat := 3

structure Process where
  sp : Word
  cr3 : Nat
  state : ProcessState
  priority : Byte
  pid : Byte
  burstTime : Int
  spinning : Byte

inductive ProcPtr where
  | kernel
  | slot (slot : Slot)
deriving DecidableEq

inductive ExitPoint where
  | start
  | mark (dying : Option Slot)
  | publish (dying : Option Slot)
  | test (dying : Option Slot)
  | clear (dying : Option Slot)
  | leave (dying : Option Slot)
  | pop (dying : Option Slot)
  | run (dying : Option Slot) (next : Slot)
  | assign (dying : Option Slot) (next : Slot)
  | switch (dying : Option Slot) (next : Slot)
deriving DecidableEq

inductive Control where
  | code
  | exiting (point : ExitPoint)
deriving DecidableEq

structure Context where
  owner : ProcPtr
  control : Control
deriving DecidableEq

/-- What the run has done to processes: `freed` comes with `executing_process` and
the ready queue at the call of `free_proc`. -/
inductive Event where
  | freed (slot : Slot) (executing : Option Slot) (ready : List Slot)
  | dispatched (next : ProcPtr)
deriving DecidableEq

structure Sched where
  procs : Slot → Process
  kernelProc : Process
  zombie : Option Slot
  indx : Nat
  readyQueue : PriorityQueue Slot
  executingProcess : Option Slot
  memory : PagingState
  saved : ProcPtr → Context
  cpu : Context
  log : List Event

/-- What a switch depends on besides the state: the stack pointer behind `pusha`,
and where a context goes on whose stack is not the one it was saved on. -/
structure SwitchEnv where
  esp : Word
  stray : Control

namespace Sched

def priority (s : Sched) (slot : Slot) : Nat := (s.procs slot).priority.toNat

def setState (s : Sched) (slot : Slot) (state : ProcessState) : Sched :=
  { s with procs := Function.update s.procs slot { s.procs slot with state := state } }

def setControl (s : Sched) (control : Control) : Sched :=
  { s with cpu := { s.cpu with control := control } }

def saveContext (env : SwitchEnv) (s : Sched) : Option ProcPtr → Sched
  | none => s
  | some .kernel =>
      { s with
        kernelProc := { s.kernelProc with sp := env.esp }
        saved := Function.update s.saved .kernel s.cpu }
  | some (.slot slot) =>
      { s with
        procs := Function.update s.procs slot { s.procs slot with sp := env.esp }
        saved := Function.update s.saved (.slot slot) s.cpu }

def markRunning (s : Sched) : ProcPtr → Sched
  | .kernel =>
      { s with kernelProc :=
        { s.kernelProc with state := .ofCode asmProcessRunning } }
  | .slot slot => s.setState slot (.ofCode asmProcessRunning)

/-- A saved stack pointer only means the saved context under the directory it was
saved under. -/
def loadContext (env : SwitchEnv) (s : Sched) (next : ProcPtr) : Context :=
  if (s.saved next).owner = next then s.saved next else ⟨next, env.stray⟩

def contextSwitch (env : SwitchEnv) (curr : Option ProcPtr) (next : ProcPtr)
    (s : Sched) : Sched :=
  let s := (s.saveContext env curr).markRunning next
  { s with cpu := s.loadContext env next, log := .dispatched next :: s.log }

/-- `next = pq_pop(&ready_queue)` and the three statements that follow it wherever
it occurs. -/
def runNext (env : SwitchEnv) (curr : Option ProcPtr) (s : Sched) : Sched :=
  match PriorityQueue.pqPop s.priority s.readyQueue with
  | (none, _) => s
  | (some next, queue) =>
      contextSwitch env curr (.slot next)
        { s.setState next .running with
          readyQueue := queue
          executingProcess := some next }

def runKernel (env : SwitchEnv) (s : Sched) : Sched :=
  contextSwitch env none .kernel { s with executingProcess := none }

def processExit (env : SwitchEnv) (s : Sched) : Sched :=
  let dying := s.executingProcess
  let s :=
    match dying with
    | none => s
    | some dying => s.setState dying .terminated
  let s := { s with zombie := dying }
  if s.readyQueue.pqIsEmpty then runKernel env s
  else runNext env (dying.map .slot) s

def startProcesses (env : SwitchEnv) (s : Sched) : Sched :=
  if s.readyQueue.pqIsEmpty then s else runNext env (some .kernel) s

def freeProc (s : Sched) (proc : Slot) : Sched :=
  let memory :=
    (freeVmm (s.procs proc).cr3 procStackVirt (BitVec.ofNat 32 pagingPageSize)
      s.memory).2
  { s with
    memory := { memory with used := memory.used.erase (s.procs proc).cr3 }
    log := .freed proc s.executingProcess s.readyQueue.contents :: s.log }

def reap (s : Sched) : Sched :=
  match s.zombie with
  | none => s
  | some proc => { s.freeProc proc with zombie := none }

def burstAfter (s : Sched) (timeSlice : Int) (prev : Slot) : Int :=
  if (s.procs prev).spinning = 0 then (s.procs prev).burstTime - timeSlice
  else (s.procs prev).burstTime

def setBurst (s : Sched) (slot : Slot) (burstTime : Int) : Sched :=
  { s with
    procs := Function.update s.procs slot
      { s.procs slot with burstTime := burstTime } }

def scheduler (env : SwitchEnv) (timeSlice : Int) (s : Sched) : Sched :=
  let s := s.reap
  match s.executingProcess with
  | none => s
  | some prev =>
      let burstTime := s.burstAfter timeSlice prev
      let s := s.setBurst prev burstTime
      if burstTime ≤ 0 then
        let s := s.setState prev .terminated
        if s.readyQueue.pqIsEmpty then runKernel env s else runNext env none s
      else if s.readyQueue.pqIsEmpty then s
      else
        let s := s.setState prev .ready
        runNext env (some (.slot prev))
          { s with readyQueue := PriorityQueue.pqPush s.priority s.readyQueue prev }

def unusedSlot (s : Sched) : Option Slot :=
  (List.finRange maxProcs).find? fun i => (s.procs i).state = .unused

def initialFrame (entry exitAddress : Word) : List Word :=
  List.replicate 8 0 ++ [entry, exitAddress]

def pushFrame (ram : Ram) (sp : Word) (frame : List Word) : Ram :=
  frame.zipIdx.foldl (fun ram word =>
    Function.update ram (sp + BitVec.ofNat 32 (4 * word.2)).toNat word.1) ram

/-- The end of `create_process`: the fields of the process and its place in the
queue. -/
def enlist (s : Sched) (proc : Slot) (sp : Word) (cr3 : Nat) (memory : PagingState) :
    Sched :=
  let process : Process :=
    { sp := sp
      cr3 := cr3
      state := .ready
      priority := 1
      pid := BitVec.ofNat 8 s.indx
      burstTime := 400
      spinning := 0 }
  let s := { s with
    procs := Function.update s.procs proc process
    indx := s.indx + 1
    memory := memory
    saved := Function.update s.saved (.slot proc) ⟨.slot proc, .code⟩ }
  { s with readyQueue := PriorityQueue.pqPush s.priority s.readyQueue proc }

/-- `exitAddress` is the address of `process_exit`, `kernelDirectory` the directory
of `PD_ptr`. -/
def createProcess (heap : PageHeap) (kernelDirectory : Nat)
    (entry exitAddress : Word) (s : Sched) : Option Slot × Sched :=
  match s.unusedSlot with
  | none => (none, s)
  | some proc =>
      let (pd, memory) := pagingNewProcessDirectory heap kernelDirectory s.memory
      if pd = 0 then (none, { s with memory := memory })
      else
        let directory := (memory.ram.load pd 0).toNat
        let (virtTop, memory) := vmmAlloc heap directory procStackVirt
          (BitVec.ofNat 32 (pagingPageSize * 2))
          (pagingIsPresent ||| pagingIsWritable) memory
        let topPageVirt := BitVec.ofInt 32 virtTop - BitVec.ofNat 32 pagingPageSize
        let physBase := pagingGetPhysical memory.ram directory topPageVirt
        if physBase = 0 then (none, { s with memory := memory })
        else
          let frame := initialFrame entry exitAddress
          let used := BitVec.ofNat 32 (4 * frame.length)
          let physTop := physBase + BitVec.ofNat 32 pagingPageSize
          let memory := { memory with
            ram := pushFrame memory.ram (physTop - used) frame }
          (some proc, s.enlist proc (BitVec.ofInt 32 virtTop - used) directory memory)

/-- `setLock` of the executing process around its wait. -/
def setSpinning (s : Sched) (spinning : Byte) : Sched :=
  match s.executingProcess with
  | none => s
  | some slot =>
      { s with
        procs := Function.update s.procs slot
          { s.procs slot with spinning := spinning } }

end Sched

end LazyOS.Scheduling

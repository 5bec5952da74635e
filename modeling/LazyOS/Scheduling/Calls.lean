import LazyOS.Scheduling.Census
import LazyOS.Scheduling.Lifecycle

namespace LazyOS.Scheduling

open LazyOS.Data
open LazyOS.Memory

/-! The calls of the scheduler, in any order and in any state, as events of the
census. -/

def Event.freedSlot : Event → Option Slot
  | .freed slot _ _ => some slot
  | .dispatched _ => none

def Sched.freed (s : Sched) : List Slot := s.log.filterMap Event.freedSlot

def Sched.state (s : Sched) (slot : Slot) : ProcessState := (s.procs slot).state

namespace Life

def call (life : Life) : SchedOp → Life
  | .create heap kernelDirectory entry exitAddress =>
      let (slot, after) :=
        life.sched.createProcess heap kernelDirectory entry exitAddress
      ⟨after, slot.toList ++ life.created, life.ended⟩
  | .start env => ⟨life.sched.startProcesses env, life.created, life.ended⟩
  | .tick env timeSlice =>
      ⟨life.sched.scheduler env timeSlice, life.created,
        (life.sched.expiring timeSlice).toList ++ life.ended⟩
  | .exit env =>
      ⟨life.sched.processExit env, life.created,
        life.sched.executingProcess.toList ++ life.ended⟩
  | .spin spinning => ⟨life.sched.setSpinning spinning, life.created, life.ended⟩

def census (life : Life) : Census Slot where
  executing := life.sched.executingProcess
  ready := life.sched.readyQueue.contents
  state := life.sched.state
  zombie := life.sched.zombie
  freed := life.sched.freed
  created := life.created
  ended := life.ended

end Life

theorem Life.call_create {life : Life} {heap : PageHeap} {kernelDirectory : Nat}
    {entry exitAddress : Word} {slot : Option Slot} {after : Sched}
    (result : life.sched.createProcess heap kernelDirectory entry exitAddress =
      (slot, after)) :
    life.call (.create heap kernelDirectory entry exitAddress) =
      ⟨after, slot.toList ++ life.created, life.ended⟩ := by
  simp only [call, result]

def CallStep (life : Life) (op : SchedOp) (after : Life) : Prop := after = life.call op

namespace Sched

theorem state_setState (s : Sched) (slot : Slot) (state : ProcessState) :
    (s.setState slot state).state = Function.update s.state slot state :=
  Function.comp_update Process.state s.procs slot _

theorem state_contextSwitch_slot (env : SwitchEnv) (curr : Option ProcPtr)
    (next : Slot) (s : Sched) :
    (s.contextSwitch env curr (.slot next)).state =
      Function.update s.state next (.ofCode asmProcessRunning) := by
  have saved : (s.saveContext env curr).state = s.state := by
    rcases curr with _ | _ | other
    · rfl
    · rfl
    · exact field_update Process.state s.procs rfl
  rw [← saved]
  exact state_setState ..

theorem freed_contextSwitch_eq (env : SwitchEnv) (curr : Option ProcPtr)
    (next : ProcPtr) (s : Sched) :
    (s.contextSwitch env curr next).freed = s.freed := by
  rw [freed, contextSwitch_log]
  exact List.filterMap_cons_none rfl

variable {s : Sched} {c : Census Slot}

structure Agrees (s : Sched) (c : Census Slot) : Prop where
  ready : c.ready = s.readyQueue.contents
  state : c.state = s.state
  zombie : c.zombie = s.zombie
  freed : c.freed = s.freed

theorem Agrees.setState (agrees : s.Agrees c) (slot : Slot) (state : ProcessState)
    (executing : Option Slot) (ended : List Slot) :
    (s.setState slot state).Agrees
      { c with
        executing := executing
        state := Function.update c.state slot state
        ended := ended } :=
  ⟨agrees.ready, by rw [s.state_setState, ← agrees.state], agrees.zombie,
    agrees.freed⟩

theorem runNext_event (env : SwitchEnv) (curr : Option ProcPtr) (agrees : Agrees s c)
    (nonempty : s.readyQueue.pqIsEmpty = false) :
    ∃ next, CensusStep c (.dispatched next)
      (Life.census ⟨s.runNext env curr, c.created, c.ended⟩) := by
  obtain ⟨next, rest, popped, perm⟩ :=
    PriorityQueue.pqPop_perm s.priority nonempty
  have ready : c.ready = next ::ₘ (rest.contents : Multiset Slot) := by
    rw [agrees.ready, Multiset.cons_coe]
    exact Multiset.coe_eq_coe.mpr perm.symm
  have result : Life.census ⟨s.runNext env curr, c.created, c.ended⟩ =
      { c with
        executing := some next
        ready := rest.contents
        state := Function.update c.state next (.ofCode asmProcessRunning) } := by
    simp only [runNext, popped]
    ext1
    · exact contextSwitch_executingProcess ..
    · simp only [Life.census, contextSwitch_readyQueue]
    · refine (state_contextSwitch_slot ..).trans ?_
      rw [agrees.state]
      change Function.update (s.setState next .running).state next _ = _
      rw [state_setState, Function.update_idem]
    · exact (contextSwitch_zombie ..).trans agrees.zombie.symm
    · exact (freed_contextSwitch_eq ..).trans agrees.freed.symm
    · rfl
    · rfl
  rw [result]
  exact ⟨next, .dispatched ready⟩

theorem runKernel_census (env : SwitchEnv) (agrees : Agrees s c) :
    Life.census ⟨s.runKernel env, c.created, c.ended⟩ = { c with executing := none } := by
  ext1
  · exact contextSwitch_executingProcess ..
  · simp only [Life.census, runKernel, contextSwitch_readyQueue, agrees.ready]
  · exact agrees.state.symm
  · exact (contextSwitch_zombie ..).trans agrees.zombie.symm
  · exact (freed_contextSwitch_eq ..).trans agrees.freed.symm
  · rfl
  · rfl

theorem createProcess_fails {heap : PageHeap} {kernelDirectory : Nat}
    {entry exitAddress : Word} {after : Sched}
    (failed : s.createProcess heap kernelDirectory entry exitAddress =
      (none, after)) :
    ∃ memory, after = { s with memory := memory } := by
  unfold createProcess at failed
  cases unused : s.unusedSlot with
  | none =>
      rw [unused] at failed
      cases failed
      exact ⟨s.memory, rfl⟩
  | some proc =>
      rw [unused] at failed
      simp only at failed
      split at failed
      · cases failed
        exact ⟨_, rfl⟩
      · split at failed
        · cases failed
          exact ⟨_, rfl⟩
        · cases failed

def leaving (s : Sched) (timeSlice : Int) : List (CensusEvent Slot) :=
  match s.executingProcess with
  | none => []
  | some prev =>
      if s.burstAfter timeSlice prev ≤ 0 then [.expired prev]
      else if s.readyQueue.pqIsEmpty then []
      else [.preempted prev]

end Sched

def Life.events (life : Life) : SchedOp → List (CensusEvent Slot)
  | .create heap kernelDirectory entry exitAddress =>
      (life.sched.createProcess heap kernelDirectory entry
        exitAddress).1.toList.map .created
  | .start _ => []
  | .tick _ timeSlice =>
      life.sched.zombie.toList.map .reaped ++ life.sched.leaving timeSlice
  | .exit _ =>
      match life.sched.executingProcess with
      | none => [.exitedIdle]
      | some dying => [.exited dying]
  | .spin _ => []

def Settles (c : Census Slot) (after : Life) : Prop :=
  after.census = c ∨ ∃ next, CensusStep c (.dispatched next) after.census

section Calls

variable {life : Life}

theorem Life.agrees (life : Life) : life.sched.Agrees life.census := ⟨rfl, rfl, rfl, rfl⟩

theorem CensusInv.room (inv : CensusInv life.census) :
    life.sched.readyQueue.size < maxProcesses :=
  readyQueue_room (Multiset.coe_nodup.mp inv.distinct)

/-- From a state without an executing process, the CPU goes to the queue or, when it
is empty, to the kernel. -/
theorem settles_of_agrees (env : SwitchEnv) (curr : Option ProcPtr) {s after : Sched}
    {c : Census Slot} (agrees : s.Agrees c) (idle : c.executing = none)
    (goes : after = if s.readyQueue.pqIsEmpty then s.runKernel env
      else s.runNext env curr) : Settles c ⟨after, c.created, c.ended⟩ := by
  cases empty : s.readyQueue.pqIsEmpty with
  | true =>
      rw [empty, if_pos rfl] at goes
      subst goes
      refine .inl ((Sched.runKernel_census env agrees).trans ?_)
      rw [← idle]
  | false =>
      rw [empty, if_neg Bool.false_ne_true] at goes
      subst goes
      exact .inr (Sched.runNext_event env curr agrees empty)

theorem create_events (inv : CensusInv life.census) (heap : PageHeap)
    (kernelDirectory : Nat) (entry exitAddress : Word) :
    Run CensusStep life.census
      (life.events (.create heap kernelDirectory entry exitAddress))
      (life.call (.create heap kernelDirectory entry exitAddress)).census := by
  cases result : life.sched.createProcess heap kernelDirectory entry exitAddress with
  | mk slot after =>
      simp only [Life.events, Life.call, result]
      cases slot with
      | none =>
          obtain ⟨memory, rfl⟩ := Sched.createProcess_fails result
          exact .done _
      | some slot =>
          obtain ⟨unused, sp, cr3, memory, rfl⟩ := Sched.createProcess_cases result
          refine .next ?_ (.done _)
          have census : Life.census ⟨life.sched.enlist slot sp cr3 memory,
              slot :: life.created, life.ended⟩ =
              { life.census with
                ready := slot ::ₘ life.census.ready
                state := Function.update life.census.state slot .ready
                created := slot :: life.census.created } := by
            ext1
            · rfl
            · exact Multiset.coe_eq_coe.mpr
                (PriorityQueue.pqPush_perm _ slot inv.room)
            · exact Function.comp_update Process.state life.sched.procs slot _
            · rfl
            · rfl
            · rfl
            · rfl
          rw [Option.toList_some, List.singleton_append, census]
          exact .created unused

theorem start_settles (env : SwitchEnv) :
    Settles life.census (life.call (.start env)) := by
  simp only [Life.call, Sched.startProcesses]
  cases empty : life.sched.readyQueue.pqIsEmpty with
  | true => exact .inl rfl
  | false => exact .inr (Sched.runNext_event env (some .kernel) life.agrees empty)

theorem exit_events (env : SwitchEnv) :
    ∃ middle, Run CensusStep life.census (life.events (.exit env)) middle ∧
      Settles middle (life.call (.exit env)) := by
  simp only [Life.events, Life.call]
  cases executing : life.sched.executingProcess with
  | none =>
      refine ⟨_, .next (.exitedIdle executing) (.done _), ?_⟩
      refine settles_of_agrees env none (s := { life.sched with zombie := none })
        ⟨rfl, rfl, rfl, rfl⟩ executing ?_
      simp only [Sched.processExit, executing]
      rfl
  | some dying =>
      refine ⟨_, .next (.exited executing) (.done _), ?_⟩
      refine settles_of_agrees env (some (.slot dying))
        (s := { life.sched.setState dying .terminated with zombie := some dying })
        ⟨rfl, ?_, rfl, rfl⟩ rfl ?_
      · exact (life.sched.state_setState dying .terminated).symm
      · simp only [Sched.processExit, executing]
        rfl

theorem reap_events (life : Life) :
    Run CensusStep life.census (life.sched.zombie.toList.map .reaped)
      (Life.census ⟨life.sched.reap, life.created, life.ended⟩) := by
  unfold Sched.reap
  cases isZombie : life.sched.zombie with
  | none => exact .done _
  | some proc => exact .next (.reaped isZombie) (.done _)

theorem Sched.state_setBurst (s : Sched) (slot : Slot) (burstTime : Int) :
    (s.setBurst slot burstTime).state = s.state :=
  funext fun other => s.setBurst_state slot other burstTime

theorem counted_agrees (life : Life) (prev : Slot) (burstTime : Int) :
    (life.sched.reap.setBurst prev burstTime).Agrees
      (Life.census ⟨life.sched.reap, life.created, life.ended⟩) :=
  ⟨rfl, (Sched.state_setBurst ..).symm, rfl, rfl⟩

theorem tick_expires (env : SwitchEnv) {timeSlice : Int} {prev : Slot}
    (executing : life.sched.executingProcess = some prev)
    (expired : life.sched.burstAfter timeSlice prev ≤ 0) :
    ∃ middle,
      Run CensusStep (Life.census ⟨life.sched.reap, life.created, life.ended⟩)
        [.expired prev] middle ∧
      Settles middle
        ⟨life.sched.scheduler env timeSlice, life.created, prev :: life.ended⟩ := by
  have onCpu : life.sched.reap.executingProcess = some prev :=
    life.sched.reap_eq.2.2.1.trans executing
  rw [Sched.scheduler_eq env timeSlice executing]
  simp only [if_pos expired]
  have agrees := counted_agrees life prev (life.sched.burstAfter timeSlice prev)
  generalize life.sched.reap.setBurst prev _ = s at agrees
  exact ⟨_, .next (.expired onCpu) (.done _), settles_of_agrees env none
    (agrees.setState prev .terminated none (prev :: life.ended)) rfl rfl⟩

theorem tick_preempts (inv : CensusInv life.census) (env : SwitchEnv) {timeSlice : Int}
    {prev : Slot} (executing : life.sched.executingProcess = some prev)
    (left : ¬ life.sched.burstAfter timeSlice prev ≤ 0) :
    ∃ middle,
      Run CensusStep (Life.census ⟨life.sched.reap, life.created, life.ended⟩)
        (if life.sched.readyQueue.pqIsEmpty then [] else [.preempted prev]) middle ∧
      Settles middle
        ⟨life.sched.scheduler env timeSlice, life.created, life.ended⟩ := by
  obtain ⟨-, queue, exec, -⟩ := life.sched.reap_eq
  have onCpu : life.sched.reap.executingProcess = some prev := exec.trans executing
  have agrees := counted_agrees life prev (life.sched.burstAfter timeSlice prev)
  rw [Sched.scheduler_eq env timeSlice executing]
  simp only [if_neg left]
  generalize life.sched.burstAfter timeSlice prev = burstTime at agrees
  have sameQueue : (life.sched.reap.setBurst prev burstTime).readyQueue =
      life.sched.readyQueue := queue
  rw [sameQueue]
  cases empty : life.sched.readyQueue.pqIsEmpty with
  | true =>
      refine ⟨_, .done _, .inl ?_⟩
      rw [if_pos rfl]
      ext1
      · rfl
      · rfl
      · exact Sched.state_setBurst ..
      · rfl
      · rfl
      · rfl
      · rfl
  | false =>
      rw [if_neg Bool.false_ne_true, if_neg Bool.false_ne_true]
      refine ⟨_, .next (.preempted onCpu) (.done _), .inr ?_⟩
      refine Sched.runNext_event env _
        ⟨?_, ?_, agrees.zombie, agrees.freed⟩ ?_
      · rw [agrees.ready, sameQueue]
        exact (Multiset.coe_eq_coe.mpr
          (PriorityQueue.pqPush_perm _ prev inv.room)).symm
      · refine Eq.trans ?_ (Sched.state_setState _ prev .ready).symm
        rw [← agrees.state]
      · exact PriorityQueue.pqPush_nonempty _ prev inv.room

theorem tick_leaves (inv : CensusInv life.census) (env : SwitchEnv) (timeSlice : Int) :
    ∃ middle,
      Run CensusStep (Life.census ⟨life.sched.reap, life.created, life.ended⟩)
        (life.sched.leaving timeSlice) middle ∧
      Settles middle (life.call (.tick env timeSlice)) := by
  simp only [Life.call, Sched.leaving, Sched.expiring]
  cases executing : life.sched.executingProcess with
  | none =>
      have idle : life.sched.scheduler env timeSlice = life.sched.reap := by
        simp only [Sched.scheduler, life.sched.reap_eq.2.2.1, executing]
      rw [idle]
      exact ⟨_, .done _, .inl rfl⟩
  | some prev =>
      simp only [Option.filter_some, decide_eq_true_eq]
      by_cases expired : life.sched.burstAfter timeSlice prev ≤ 0
      · rw [if_pos expired, if_pos expired]
        exact tick_expires env executing expired
      · rw [if_neg expired, if_neg expired]
        exact tick_preempts inv env executing expired

theorem spin_census (spinning : Byte) :
    (life.call (.spin spinning)).census = life.census := by
  simp only [Life.call, Sched.setSpinning]
  cases executing : life.sched.executingProcess with
  | none => rfl
  | some slot =>
      ext1
      · exact executing.symm
      · rfl
      · exact Sched.field_update Process.state life.sched.procs rfl
      · rfl
      · rfl
      · rfl
      · rfl

theorem call_events (inv : CensusInv life.census) (op : SchedOp) :
    ∃ middle, Run CensusStep life.census (life.events op) middle ∧
      Settles middle (life.call op) := by
  cases op with
  | create heap kernelDirectory entry exitAddress =>
      exact ⟨_, create_events inv .., .inl rfl⟩
  | start env => exact ⟨_, .done _, start_settles env⟩
  | tick env timeSlice =>
      obtain ⟨middle, leaves, settles⟩ := tick_leaves inv env timeSlice
      exact ⟨middle, (reap_events life).append leaves, settles⟩
  | exit env => exact exit_events env
  | spin spinning => exact ⟨_, .done _, .inl (spin_census spinning)⟩

theorem call_inv (inv : CensusInv life.census) (op : SchedOp) :
    CensusInv (life.call op).census := by
  obtain ⟨middle, run, settles⟩ := call_events inv op
  have kept := censusRun_inv inv run
  rcases settles with same | ⟨next, step⟩
  · rw [same]
    exact kept
  · exact censusStep_inv kept step

end Calls

theorem lifeStep_call {life after : Life} {op : SchedOp} (step : LifeStep life op after) :
    CallStep life op after := by
  cases step with
  | create created => exact (Life.call_create created).symm
  | start _ => rfl
  | tick => rfl
  | exit executing =>
      unfold CallStep Life.call
      rw [executing]
      rfl
  | spin => rfl

theorem Sched.runNext_busy (env : SwitchEnv) (curr : Option ProcPtr) {s : Sched}
    (nonempty : s.readyQueue.pqIsEmpty = false) :
    (s.runNext env curr).executingProcess ≠ none := by
  intro idle
  obtain ⟨-, -, process, -⟩ := s.runNext_spec env curr nonempty
  apply process
  simp only [Sched.running, idle]

namespace Sched

structure Undisturbed (s after : Sched) : Prop where
  memory : after.memory = s.memory
  zombie : after.zombie = s.zombie
  freed : after.freed = s.freed

variable (env : SwitchEnv) (s : Sched)

theorem contextSwitch_undisturbed (curr : Option ProcPtr) (next : ProcPtr) :
    Undisturbed s (s.contextSwitch env curr next) := by
  refine ⟨?_, contextSwitch_zombie .., freed_contextSwitch_eq ..⟩
  rcases curr with _ | _ | _ <;> cases next <;> rfl

theorem runNext_undisturbed (curr : Option ProcPtr) :
    Undisturbed s (s.runNext env curr) := by
  unfold runNext
  split
  · exact ⟨rfl, rfl, rfl⟩
  · rename_i next queue _
    obtain ⟨memory, zombie, freed⟩ := contextSwitch_undisturbed env
      { s.setState next .running with
        readyQueue := queue
        executingProcess := some next } curr (.slot next)
    exact ⟨memory, zombie, freed⟩

theorem dispatch_undisturbed (curr : Option ProcPtr) :
    Undisturbed s (if s.readyQueue.pqIsEmpty then s.runKernel env
      else s.runNext env curr) := by
  split
  · obtain ⟨memory, zombie, freed⟩ :=
      contextSwitch_undisturbed env { s with executingProcess := none } none .kernel
    exact ⟨memory, zombie, freed⟩
  · exact runNext_undisturbed ..

theorem startProcesses_undisturbed : Undisturbed s (s.startProcesses env) := by
  unfold startProcesses
  split
  · exact ⟨rfl, rfl, rfl⟩
  · exact runNext_undisturbed ..

theorem processExit_undisturbed :
    Undisturbed { s with zombie := s.executingProcess } (s.processExit env) := by
  unfold processExit
  cases s.executingProcess with
  | none =>
      obtain ⟨memory, zombie, freed⟩ :=
        dispatch_undisturbed env { s with zombie := none } none
      exact ⟨memory, zombie, freed⟩
  | some dying =>
      obtain ⟨memory, zombie, freed⟩ := dispatch_undisturbed env
        { s.setState dying .terminated with zombie := some dying } (some (.slot dying))
      exact ⟨memory, zombie, freed⟩

theorem setSpinning_undisturbed (spinning : Byte) :
    Undisturbed s (s.setSpinning spinning) := by
  unfold setSpinning
  split <;> exact ⟨rfl, rfl, rfl⟩

theorem reap_zombie : s.reap.zombie = none := by
  unfold reap
  cases isZombie : s.zombie with
  | none => exact isZombie
  | some proc => rfl

theorem scheduler_undisturbed (timeSlice : Int) :
    Undisturbed s.reap (s.scheduler env timeSlice) := by
  cases executing : s.executingProcess with
  | none =>
      have idle : s.scheduler env timeSlice = s.reap := by
        simp only [scheduler, s.reap_eq.2.2.1, executing]
      rw [idle]
      exact ⟨rfl, rfl, rfl⟩
  | some prev =>
      rw [scheduler_eq env timeSlice executing]
      simp only
      generalize s.burstAfter timeSlice prev = burstTime
      split
      · obtain ⟨memory, zombie, freed⟩ := dispatch_undisturbed env
          ((s.reap.setBurst prev burstTime).setState prev .terminated) none
        exact ⟨memory, zombie, freed⟩
      · split
        · exact ⟨rfl, rfl, rfl⟩
        · obtain ⟨memory, zombie, freed⟩ := runNext_undisturbed env
            { (s.reap.setBurst prev burstTime).setState prev .ready with
              readyQueue := PriorityQueue.pqPush
                ((s.reap.setBurst prev burstTime).setState prev .ready).priority
                (s.reap.setBurst prev burstTime).readyQueue prev } (some (.slot prev))
          exact ⟨memory, zombie, freed⟩

end Sched

end LazyOS.Scheduling

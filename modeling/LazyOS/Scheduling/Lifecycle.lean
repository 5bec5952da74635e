import LazyOS.Data.Run
import LazyOS.Memory.Isolation
import LazyOS.Memory.PmmRuns
import LazyOS.Scheduling.Process

namespace LazyOS.Scheduling

open LazyOS.Data
open LazyOS.Memory

/-! No process is lost or duplicated.  The executing process and the ready queue
together are the processes that were created and have not ended. -/

namespace Sched

def live (s : Sched) : List Slot :=
  s.executingProcess.toList ++ s.readyQueue.contents

def running (s : Sched) : ProcPtr :=
  match s.executingProcess with
  | none => .kernel
  | some slot => .slot slot

/-- What switching leaves as it is in the process table: no slot becomes unused and
no burst changes. -/
structure Steady (s after : Sched) : Prop where
  used : ∀ slot, (after.procs slot).state = .unused → (s.procs slot).state = .unused
  burst : ∀ slot, (after.procs slot).burstTime = (s.procs slot).burstTime

variable {s middle after : Sched}

theorem field_update {Field : Type} (field : Process → Field) (procs : Slot → Process)
    {slot : Slot} {process : Process} (same : field process = field (procs slot)) :
    (fun other => field (Function.update procs slot process other)) =
      fun other => field (procs other) := by
  have moved := Function.comp_update field procs slot process
  rw [same] at moved
  exact moved.trans (Function.update_eq_self slot (field ∘ procs))

theorem Steady.refl (s : Sched) : Steady s s := ⟨fun _ unused => unused, fun _ => rfl⟩

theorem Steady.trans (first : Steady s middle) (second : Steady middle after) :
    Steady s after :=
  ⟨fun slot unused => first.used slot (second.used slot unused),
    fun slot => (second.burst slot).trans (first.burst slot)⟩

theorem steady_of_procs (procs : after.procs = s.procs) : Steady s after :=
  ⟨fun _ unused => by rwa [procs] at unused, fun _ => by rw [procs]⟩

theorem steady_update {slot : Slot} {process : Process}
    (procs : after.procs = Function.update s.procs slot process)
    (used : process.state = .unused → (s.procs slot).state = .unused)
    (burst : process.burstTime = (s.procs slot).burstTime) : Steady s after := by
  constructor
  · intro other unused
    rw [procs] at unused
    by_cases same : other = slot
    · subst same
      exact used (by rwa [Function.update_self] at unused)
    · rwa [Function.update_of_ne same] at unused
  · intro other
    rw [procs]
    exact congrFun (field_update Process.burstTime s.procs burst) other

theorem steady_setState (s : Sched) (slot : Slot) {state : ProcessState}
    (used : state ≠ .unused) : Steady s (s.setState slot state) :=
  steady_update rfl (fun unused => absurd unused used) rfl

theorem steady_contextSwitch (env : SwitchEnv) (curr : Option ProcPtr)
    (next : ProcPtr) (s : Sched) : Steady s (s.contextSwitch env curr next) := by
  have saves : Steady s (s.saveContext env curr) := by
    cases curr with
    | none => exact .refl s
    | some curr =>
        cases curr with
        | kernel => exact steady_of_procs rfl
        | slot slot => exact steady_update rfl (fun unused => unused) rfl
  have marks : Steady (s.saveContext env curr)
      ((s.saveContext env curr).markRunning next) := by
    cases next with
    | kernel => exact steady_of_procs rfl
    | slot slot => exact steady_setState _ slot (by decide)
  exact saves.trans (marks.trans (steady_of_procs rfl))

theorem contextSwitch_executingProcess (env : SwitchEnv) (curr : Option ProcPtr)
    (next : ProcPtr) (s : Sched) :
    (s.contextSwitch env curr next).executingProcess = s.executingProcess := by
  rcases curr with _ | _ | _ <;> cases next <;> rfl

theorem contextSwitch_readyQueue (env : SwitchEnv) (curr : Option ProcPtr)
    (next : ProcPtr) (s : Sched) :
    (s.contextSwitch env curr next).readyQueue = s.readyQueue := by
  rcases curr with _ | _ | _ <;> cases next <;> rfl

theorem contextSwitch_zombie (env : SwitchEnv) (curr : Option ProcPtr)
    (next : ProcPtr) (s : Sched) :
    (s.contextSwitch env curr next).zombie = s.zombie := by
  rcases curr with _ | _ | _ <;> cases next <;> rfl

theorem contextSwitch_log (env : SwitchEnv) (curr : Option ProcPtr)
    (next : ProcPtr) (s : Sched) :
    (s.contextSwitch env curr next).log = .dispatched next :: s.log := by
  rcases curr with _ | _ | _ <;> cases next <;> rfl

theorem contextSwitch_owner (env : SwitchEnv) (curr : Option ProcPtr)
    (next : ProcPtr) (s : Sched) :
    (s.contextSwitch env curr next).cpu.owner = next := by
  simp only [contextSwitch, loadContext]
  split
  · assumption
  · rfl

theorem runNext_spec (env : SwitchEnv) (curr : Option ProcPtr) (s : Sched)
    (nonempty : s.readyQueue.pqIsEmpty = false) :
    (s.runNext env curr).live.Perm s.readyQueue.contents ∧
    (s.runNext env curr).cpu.owner = (s.runNext env curr).running ∧
    (s.runNext env curr).running ≠ .kernel ∧
    Steady s (s.runNext env curr) := by
  obtain ⟨next, rest, popped, perm⟩ :=
    PriorityQueue.pqPop_perm s.priority nonempty
  have switched : s.runNext env curr = contextSwitch env curr (.slot next)
      { s.setState next .running with
        readyQueue := rest
        executingProcess := some next } := by
    simp only [runNext, popped]
  have running : (s.runNext env curr).running = .slot next := by
    rw [switched]
    simp only [Sched.running, contextSwitch_executingProcess]
  refine ⟨?_, ?_, ?_, ?_⟩
  · rw [switched]
    simp only [live, contextSwitch_executingProcess, contextSwitch_readyQueue]
    exact perm
  · rw [running, switched]
    exact contextSwitch_owner ..
  · rw [running]
    exact ProcPtr.noConfusion
  · rw [switched]
    have marked : Steady s (s.setState next .running) :=
      steady_setState s next (by decide)
    refine Steady.trans ?_ (steady_contextSwitch ..)
    exact marked.trans (steady_of_procs rfl)

theorem runKernel_spec (env : SwitchEnv) (s : Sched) :
    (s.runKernel env).live = s.readyQueue.contents ∧
    (s.runKernel env).cpu.owner = (s.runKernel env).running ∧
    Steady s (s.runKernel env) := by
  refine ⟨?_, ?_, ?_⟩
  · simp only [runKernel, live, contextSwitch_executingProcess,
      contextSwitch_readyQueue, Option.toList_none, List.nil_append]
  · rw [runKernel, contextSwitch_owner]
    simp only [running, contextSwitch_executingProcess]
  · refine Steady.trans ?_ (steady_contextSwitch ..)
    exact steady_of_procs rfl

theorem reap_eq (s : Sched) :
    s.reap.procs = s.procs ∧ s.reap.readyQueue = s.readyQueue ∧
    s.reap.executingProcess = s.executingProcess ∧ s.reap.cpu = s.cpu := by
  unfold reap
  cases s.zombie <;> exact ⟨rfl, rfl, rfl, rfl⟩

end Sched

theorem readyQueue_room {queue : PriorityQueue Slot} (nodup : queue.contents.Nodup) :
    queue.size < maxProcesses := by
  have short : queue.contents.length ≤ maxProcs := by
    simpa using nodup.length_le_card
  rw [PriorityQueue.contents_length] at short
  exact short.trans_lt (by decide)

structure Life where
  sched : Sched
  created : List Slot
  ended : List Slot

inductive SchedOp where
  | create (heap : PageHeap) (kernelDirectory : Nat) (entry exitAddress : Word)
  | start (env : SwitchEnv)
  | tick (env : SwitchEnv) (timeSlice : Int)
  | exit (env : SwitchEnv)
  | spin (spinning : Byte)

def Sched.expiring (s : Sched) (timeSlice : Int) : Option Slot :=
  s.executingProcess.filter fun slot => s.burstAfter timeSlice slot ≤ 0

/-- Creations succeed, processes are started while none executes, and the process
that exits is the executing one. -/
inductive LifeStep (life : Life) : SchedOp → Life → Prop
  | create {heap : PageHeap} {kernelDirectory : Nat} {entry exitAddress : Word}
      {slot : Slot} {after : Sched}
      (created : life.sched.createProcess heap kernelDirectory entry exitAddress =
        (some slot, after)) :
      LifeStep life (.create heap kernelDirectory entry exitAddress)
        ⟨after, slot :: life.created, life.ended⟩
  | start {env : SwitchEnv} (idle : life.sched.executingProcess = none) :
      LifeStep life (.start env)
        ⟨life.sched.startProcesses env, life.created, life.ended⟩
  | tick {env : SwitchEnv} {timeSlice : Int} :
      LifeStep life (.tick env timeSlice)
        ⟨life.sched.scheduler env timeSlice, life.created,
          (life.sched.expiring timeSlice).toList ++ life.ended⟩
  | exit {env : SwitchEnv} {slot : Slot}
      (executing : life.sched.executingProcess = some slot) :
      LifeStep life (.exit env)
        ⟨life.sched.processExit env, life.created, slot :: life.ended⟩
  | spin {spinning : Byte} :
      LifeStep life (.spin spinning)
        ⟨life.sched.setSpinning spinning, life.created, life.ended⟩

structure LifeInv (life : Life) : Prop where
  nodup : life.sched.live.Nodup
  exact : ∀ slot, slot ∈ life.sched.live ↔ slot ∈ life.created ∧ slot ∉ life.ended
  used : ∀ slot ∈ life.created, (life.sched.procs slot).state ≠ .unused
  ended : ∀ slot ∈ life.ended, slot ∈ life.created
  burst : ∀ slot ∈ life.sched.live, 0 < (life.sched.procs slot).burstTime
  onCpu : life.sched.cpu.owner = life.sched.running

namespace LifeInv

variable {life : Life} {after : Sched}

theorem room (inv : LifeInv life) :
    life.sched.readyQueue.size < maxProcesses :=
  readyQueue_room (List.nodup_append.mp inv.nodup).2.1

theorem keep (inv : LifeInv life) (live : after.live.Perm life.sched.live)
    (steady : Sched.Steady life.sched after) (onCpu : after.cpu.owner = after.running) :
    LifeInv ⟨after, life.created, life.ended⟩ where
  nodup := live.nodup_iff.mpr inv.nodup
  exact := fun slot => live.mem_iff.trans (inv.exact slot)
  used := fun slot member unused => inv.used slot member (steady.used slot unused)
  ended := inv.ended
  burst := fun slot member => by
    rw [steady.burst]
    exact inv.burst slot (live.mem_iff.mp member)
  onCpu := onCpu

theorem retire (inv : LifeInv life) {slot : Slot}
    (executing : life.sched.executingProcess = some slot)
    (live : after.live.Perm life.sched.readyQueue.contents)
    (used : ∀ other, (after.procs other).state = .unused →
      (life.sched.procs other).state = .unused)
    (burst : ∀ other, other ≠ slot →
      (after.procs other).burstTime = (life.sched.procs other).burstTime)
    (onCpu : after.cpu.owner = after.running) :
    LifeInv ⟨after, life.created, slot :: life.ended⟩ := by
  have split : life.sched.live = slot :: life.sched.readyQueue.contents := by
    simp only [Sched.live, executing, Option.toList_some, List.singleton_append]
  have nodup := inv.nodup
  rw [split, List.nodup_cons] at nodup
  have others : ∀ other, other ∈ after.live ↔
      other ∈ life.sched.live ∧ other ≠ slot := by
    intro other
    rw [live.mem_iff, split, List.mem_cons]
    constructor
    · intro member
      refine ⟨.inr member, ?_⟩
      rintro rfl
      exact nodup.1 member
    · rintro ⟨rfl | member, different⟩
      · exact absurd rfl different
      · exact member
  refine ⟨live.nodup_iff.mpr nodup.2, ?_, ?_, ?_, ?_, onCpu⟩
  · intro other
    simp only [others, inv.exact, List.mem_cons, not_or]
    tauto
  · exact fun other member unused => inv.used other member (used other unused)
  · intro other member
    rcases List.mem_cons.mp member with rfl | member
    · exact ((inv.exact _).mp (split ▸ List.mem_cons_self)).1
    · exact inv.ended other member
  · intro other member
    obtain ⟨before, different⟩ := (others other).mp member
    rw [burst other different]
    exact inv.burst other before

end LifeInv

variable {life : Life}

theorem startProcesses_life (env : SwitchEnv) (inv : LifeInv life)
    (idle : life.sched.executingProcess = none) :
    LifeInv ⟨life.sched.startProcesses env, life.created, life.ended⟩ := by
  have waiting : life.sched.live = life.sched.readyQueue.contents := by
    simp only [Sched.live, idle, Option.toList_none, List.nil_append]
  unfold Sched.startProcesses
  split
  · exact inv.keep (.refl _) (.refl _) inv.onCpu
  · rename_i nonempty
    obtain ⟨live, onCpu, -, steady⟩ :=
      Sched.runNext_spec env (some .kernel) _ (Bool.eq_false_iff.mpr nonempty)
    exact inv.keep (waiting ▸ live) steady onCpu

theorem processExit_life (env : SwitchEnv) (inv : LifeInv life) {slot : Slot}
    (executing : life.sched.executingProcess = some slot) :
    LifeInv ⟨life.sched.processExit env, life.created, slot :: life.ended⟩ ∧
      ((life.sched.processExit env).cpu.owner = .kernel →
        (life.sched.processExit env).live = []) := by
  have marked : Sched.Steady life.sched
      { life.sched.setState slot .terminated with zombie := some slot } :=
    Sched.Steady.trans (Sched.steady_setState _ slot (by decide))
      (Sched.steady_of_procs rfl)
  unfold Sched.processExit
  simp only [executing]
  split
  · rename_i empty
    obtain ⟨live, onCpu, steady⟩ := Sched.runKernel_spec env
      { life.sched.setState slot .terminated with zombie := some slot }
    have steady := marked.trans steady
    refine ⟨inv.retire executing (.of_eq live) steady.used
      (fun other _ => steady.burst other) onCpu, fun _ => ?_⟩
    rw [live]
    exact PriorityQueue.contents_eq_nil empty
  · rename_i nonempty
    obtain ⟨live, onCpu, process, steady⟩ :=
      Sched.runNext_spec env ((some slot).map .slot)
        { life.sched.setState slot .terminated with zombie := some slot }
        (Bool.eq_false_iff.mpr nonempty)
    have steady := marked.trans steady
    exact ⟨inv.retire executing live steady.used (fun other _ => steady.burst other)
      onCpu, fun onKernel => absurd (onCpu.symm.trans onKernel) process⟩

theorem Sched.steady_reap (s : Sched) : Steady s s.reap := steady_of_procs s.reap_eq.1

theorem Sched.burstAfter_reap (s : Sched) (timeSlice : Int) (slot : Slot) :
    s.reap.burstAfter timeSlice slot = s.burstAfter timeSlice slot := by
  unfold burstAfter
  rw [s.reap_eq.1]

theorem Sched.scheduler_eq (env : SwitchEnv) (timeSlice : Int) {s : Sched}
    {prev : Slot} (executing : s.executingProcess = some prev) :
    s.scheduler env timeSlice =
      let burstTime := s.burstAfter timeSlice prev
      let s := s.reap.setBurst prev burstTime
      if burstTime ≤ 0 then
        if s.readyQueue.pqIsEmpty then (s.setState prev .terminated).runKernel env
        else (s.setState prev .terminated).runNext env none
      else if s.readyQueue.pqIsEmpty then s
      else
        runNext env (some (.slot prev))
          { s.setState prev .ready with
            readyQueue := PriorityQueue.pqPush (s.setState prev .ready).priority
              s.readyQueue prev } := by
  simp only [scheduler, s.reap_eq.2.2.1, executing, burstAfter_reap]
  rfl

theorem Sched.setBurst_state (s : Sched) (slot other : Slot) (burstTime : Int) :
    ((s.setBurst slot burstTime).procs other).state = (s.procs other).state := by
  have kept : (fun other => ((s.setBurst slot burstTime).procs other).state) =
      fun other => (s.procs other).state := field_update Process.state s.procs rfl
  exact congrFun kept other

theorem Sched.setBurst_burst (s : Sched) (slot other : Slot) (burstTime : Int) :
    ((s.setBurst slot burstTime).procs other).burstTime =
      if other = slot then burstTime else (s.procs other).burstTime := by
  unfold setBurst
  by_cases same : other = slot
  · subst same
    simp
  · simp [same]

theorem scheduler_expired (env : SwitchEnv) {timeSlice : Int} (inv : LifeInv life)
    {prev : Slot} (executing : life.sched.executingProcess = some prev)
    (expired : life.sched.burstAfter timeSlice prev ≤ 0) :
    LifeInv ⟨life.sched.scheduler env timeSlice, life.created, prev :: life.ended⟩ ∧
      ((life.sched.scheduler env timeSlice).cpu.owner = .kernel →
        (life.sched.scheduler env timeSlice).live = []) := by
  obtain ⟨procs, queue, exec, cpu⟩ := life.sched.reap_eq
  rw [Sched.scheduler_eq env timeSlice executing]
  generalize life.sched.burstAfter timeSlice prev = burstTime at expired
  simp only [if_pos expired]
  have marked : Sched.Steady (life.sched.reap.setBurst prev burstTime)
      ((life.sched.reap.setBurst prev burstTime).setState prev .terminated) :=
    Sched.steady_setState _ prev (by decide)
  have contents : (life.sched.reap.setBurst prev burstTime).readyQueue =
      life.sched.readyQueue := queue
  have used : ∀ {after : Sched},
      Sched.Steady (life.sched.reap.setBurst prev burstTime) after → ∀ other,
        (after.procs other).state = .unused →
          (life.sched.procs other).state = .unused := by
    intro after steady other unused
    have before := steady.used other unused
    rwa [Sched.setBurst_state, procs] at before
  have burst : ∀ {after : Sched},
      Sched.Steady (life.sched.reap.setBurst prev burstTime) after → ∀ other,
        other ≠ prev →
          (after.procs other).burstTime = (life.sched.procs other).burstTime := by
    intro after steady other different
    rw [steady.burst, Sched.setBurst_burst, if_neg different, procs]
  split
  · rename_i empty
    obtain ⟨live, onCpu, steady⟩ := Sched.runKernel_spec env
      ((life.sched.reap.setBurst prev burstTime).setState prev .terminated)
    have steady := marked.trans steady
    refine ⟨inv.retire executing ?_ (used steady) (burst steady) onCpu, fun _ => ?_⟩
    · rw [live]
      exact .of_eq (congrArg PriorityQueue.contents contents)
    · rw [live]
      exact PriorityQueue.contents_eq_nil empty
  · rename_i nonempty
    obtain ⟨live, onCpu, process, steady⟩ := Sched.runNext_spec env none
      ((life.sched.reap.setBurst prev burstTime).setState prev .terminated)
      (Bool.eq_false_iff.mpr nonempty)
    have steady := marked.trans steady
    refine ⟨inv.retire executing ?_ (used steady) (burst steady) onCpu,
      fun onKernel => absurd (onCpu.symm.trans onKernel) process⟩
    exact live.trans (.of_eq (congrArg PriorityQueue.contents contents))

theorem scheduler_unexpired (env : SwitchEnv) {timeSlice : Int} (inv : LifeInv life)
    {prev : Slot} (executing : life.sched.executingProcess = some prev)
    (left : 0 < life.sched.burstAfter timeSlice prev) :
    LifeInv ⟨life.sched.scheduler env timeSlice, life.created, life.ended⟩ ∧
      (life.sched.scheduler env timeSlice).cpu.owner ≠ .kernel := by
  obtain ⟨procs, queue, exec, cpu⟩ := life.sched.reap_eq
  rw [Sched.scheduler_eq env timeSlice executing]
  generalize life.sched.burstAfter timeSlice prev = burstTime at left
  simp only [if_neg (not_le.mpr left)]
  have sameLive : (life.sched.reap.setBurst prev burstTime).live = life.sched.live := by
    simp only [Sched.live, Sched.setBurst, queue, exec]
  have counted : LifeInv
      ⟨life.sched.reap.setBurst prev burstTime, life.created, life.ended⟩ := by
    refine ⟨sameLive ▸ inv.nodup, ?_, ?_, inv.ended, ?_, ?_⟩
    · intro slot
      simp only [sameLive]
      exact inv.exact slot
    · intro slot member
      simp only [Sched.setBurst_state, procs]
      exact inv.used slot member
    · intro slot member
      simp only [Sched.setBurst_burst, procs]
      split
      · exact left
      · exact inv.burst slot (sameLive ▸ member)
    · have onCpu := inv.onCpu
      unfold Sched.running at onCpu ⊢
      simp only [Sched.setBurst, cpu, exec]
      exact onCpu
  split
  · refine ⟨counted, ?_⟩
    rw [counted.onCpu]
    simp only [Sched.running, Sched.setBurst, exec, executing]
    exact ProcPtr.noConfusion
  · have pushed := PriorityQueue.pqPush_perm
      ((life.sched.reap.setBurst prev burstTime).setState prev .ready).priority prev
      counted.room
    generalize requeued : ({
      (life.sched.reap.setBurst prev burstTime).setState prev .ready with
      readyQueue := PriorityQueue.pqPush
        ((life.sched.reap.setBurst prev burstTime).setState prev .ready).priority
        (life.sched.reap.setBurst prev burstTime).readyQueue prev } : Sched) = ready
    have queueEq : ready.readyQueue = PriorityQueue.pqPush
        ((life.sched.reap.setBurst prev burstTime).setState prev .ready).priority
        (life.sched.reap.setBurst prev burstTime).readyQueue prev := by
      rw [← requeued]
    have marked : Sched.Steady (life.sched.reap.setBurst prev burstTime) ready := by
      rw [← requeued]
      exact Sched.Steady.trans (Sched.steady_setState _ prev (by decide))
        (Sched.steady_of_procs rfl)
    have nonempty : ready.readyQueue.pqIsEmpty = false := by
      rw [queueEq]
      exact PriorityQueue.pqPush_nonempty _ prev counted.room
    obtain ⟨live, onCpu, process, steady⟩ :=
      Sched.runNext_spec env (some (.slot prev)) ready nonempty
    refine ⟨counted.keep ?_ (marked.trans steady) onCpu, onCpu ▸ process⟩
    have split : (life.sched.reap.setBurst prev burstTime).live =
        prev :: (life.sched.reap.setBurst prev burstTime).readyQueue.contents := by
      simp only [Sched.live, Sched.setBurst, exec, executing, Option.toList_some,
        List.singleton_append]
    rw [split]
    exact live.trans (queueEq ▸ pushed)

theorem scheduler_idle (env : SwitchEnv) (timeSlice : Int) (inv : LifeInv life)
    (idle : life.sched.executingProcess = none) :
    LifeInv ⟨life.sched.scheduler env timeSlice, life.created, life.ended⟩ ∧
      (life.sched.scheduler env timeSlice).cpu = life.sched.cpu := by
  obtain ⟨procs, queue, exec, cpu⟩ := life.sched.reap_eq
  have reaped : life.sched.scheduler env timeSlice = life.sched.reap := by
    simp only [Sched.scheduler, exec, idle]
  rw [reaped]
  refine ⟨inv.keep (.of_eq ?_) life.sched.steady_reap ?_, cpu⟩
  · simp only [Sched.live, queue, exec]
  · rw [cpu, inv.onCpu]
    simp only [Sched.running, exec]

structure Creates (heap : PageHeap) (kernelDirectory : Nat) (entry exitAddress : Word)
    (s : Sched) (slot : Slot) (after : Sched) (pd : Nat) (memory : PagingState)
    (virtTop : Int) (mapped : PagingState) : Prop where
  unused : s.unusedSlot = some slot
  made : pagingNewProcessDirectory heap kernelDirectory s.memory = (pd, memory)
  nonzero : pd ≠ 0
  allocated : vmmAlloc heap (memory.ram.load pd 0).toNat procStackVirt
    (BitVec.ofNat 32 (pagingPageSize * 2)) (pagingIsPresent ||| pagingIsWritable)
    memory = (virtTop, mapped)
  reachable : pagingGetPhysical mapped.ram (memory.ram.load pd 0).toNat
    (BitVec.ofInt 32 virtTop - BitVec.ofNat 32 pagingPageSize) ≠ 0
  result : after = s.enlist slot (BitVec.ofInt 32 virtTop - 40)
    (memory.ram.load pd 0).toNat
    { mapped with
      ram := Sched.pushFrame mapped.ram
        (pagingGetPhysical mapped.ram (memory.ram.load pd 0).toNat
          (BitVec.ofInt 32 virtTop - BitVec.ofNat 32 pagingPageSize) +
            BitVec.ofNat 32 pagingPageSize - 40)
        (Sched.initialFrame entry exitAddress) }

theorem Sched.createProcess_creates {heap : PageHeap} {kernelDirectory : Nat}
    {entry exitAddress : Word} {s after : Sched} {slot : Slot}
    (created : s.createProcess heap kernelDirectory entry exitAddress =
      (some slot, after)) :
    ∃ pd memory virtTop mapped, Creates heap kernelDirectory entry exitAddress s slot
      after pd memory virtTop mapped := by
  unfold createProcess at created
  cases unused : s.unusedSlot with
  | none =>
      rw [unused] at created
      cases created
  | some proc =>
      rw [unused] at created
      cases made : pagingNewProcessDirectory heap kernelDirectory s.memory with
      | mk pd memory =>
          simp only [made] at created
          split at created
          · cases created
          · rename_i nonzero
            cases allocated : vmmAlloc heap (memory.ram.load pd 0).toNat procStackVirt
                (BitVec.ofNat 32 (pagingPageSize * 2))
                (pagingIsPresent ||| pagingIsWritable) memory with
            | mk virtTop mapped =>
                simp only [allocated] at created
                split at created
                · cases created
                · rename_i reachable
                  rw [Prod.mk.injEq, Option.some.injEq] at created
                  obtain ⟨rfl, rfl⟩ := created
                  exact ⟨pd, memory, virtTop, mapped, unused, made, nonzero, allocated,
                    reachable, rfl⟩

theorem Sched.createProcess_cases {heap : PageHeap} {kernelDirectory : Nat}
    {entry exitAddress : Word} {s after : Sched} {slot : Slot}
    (created : s.createProcess heap kernelDirectory entry exitAddress =
      (some slot, after)) :
    (s.procs slot).state = .unused ∧
      ∃ sp cr3 memory, after = s.enlist slot sp cr3 memory := by
  obtain ⟨pd, memory, virtTop, mapped, creates⟩ := createProcess_creates created
  have state := List.find?_some creates.unused
  simp only [decide_eq_true_eq] at state
  exact ⟨state, _, _, _, creates.result⟩

theorem enlist_life (inv : LifeInv life) {slot : Slot}
    (unused : (life.sched.procs slot).state = .unused) (sp : Word) (cr3 : Nat)
    (memory : PagingState) :
    LifeInv ⟨life.sched.enlist slot sp cr3 memory, slot :: life.created,
      life.ended⟩ := by
  have fresh : slot ∉ life.created := fun created => inv.used slot created unused
  have absent : slot ∉ life.sched.live := fun member =>
    fresh ((inv.exact slot).mp member).1
  have live : (life.sched.enlist slot sp cr3 memory).live.Perm
      (slot :: life.sched.live) := by
    unfold Sched.live
    exact ((PriorityQueue.pqPush_perm _ slot inv.room).append_left _).trans
      List.perm_middle
  have others : ∀ other, other ≠ slot →
      (life.sched.enlist slot sp cr3 memory).procs other = life.sched.procs other :=
    fun other different => Function.update_of_ne different ..
  refine ⟨?_, ?_, ?_, ?_, ?_, inv.onCpu⟩
  · exact live.nodup_iff.mpr (List.nodup_cons.mpr ⟨absent, inv.nodup⟩)
  · intro other
    simp only [live.mem_iff, List.mem_cons, inv.exact]
    constructor
    · rintro (rfl | ⟨created, alive⟩)
      · exact ⟨.inl rfl, fun ended => fresh (inv.ended _ ended)⟩
      · exact ⟨.inr created, alive⟩
    · rintro ⟨rfl | created, alive⟩
      · exact .inl rfl
      · exact .inr ⟨created, alive⟩
  · intro other member
    by_cases same : other = slot
    · subst same
      simp [Sched.enlist]
    · simp only [others other same]
      exact inv.used other ((List.mem_cons.mp member).resolve_left same)
  · exact fun other ended => List.mem_cons_of_mem _ (inv.ended other ended)
  · intro other member
    by_cases same : other = slot
    · subst same
      simp [Sched.enlist]
    · simp only [others other same]
      exact inv.burst other
        ((List.mem_cons.mp (live.mem_iff.mp member)).resolve_left same)

theorem setSpinning_life (inv : LifeInv life) (spinning : Byte) :
    LifeInv ⟨life.sched.setSpinning spinning, life.created, life.ended⟩ := by
  unfold Sched.setSpinning
  split
  · exact inv
  · rename_i slot executing
    exact inv.keep (.refl _)
      (Sched.steady_update rfl (fun unused => unused) rfl) inv.onCpu

structure Fresh (s : Sched) : Prop where
  idle : s.executingProcess = none
  empty : s.readyQueue.size = 0
  onKernel : s.cpu.owner = .kernel

theorem lifeInv_fresh {s : Sched} (fresh : Fresh s) : LifeInv ⟨s, [], []⟩ := by
  have live : s.live = [] := by
    simp [Sched.live, fresh.idle, PriorityQueue.contents, fresh.empty]
  refine ⟨?_, ?_, ?_, ?_, ?_, ?_⟩
  · simp [live]
  · simp [live]
  · simp
  · simp
  · simp [live]
  · rw [fresh.onKernel]
    simp [Sched.running, fresh.idle]

/-- A step keeps the invariant, and gives the CPU back to the kernel only when no
process is left. -/
theorem lifeStep_spec {op : SchedOp} {after : Life} (inv : LifeInv life)
    (step : LifeStep life op after) :
    LifeInv after ∧ (life.sched.cpu.owner ≠ .kernel → after.sched.cpu.owner = .kernel →
      after.sched.live = []) := by
  cases step with
  | create created =>
      obtain ⟨unused, sp, cr3, memory, rfl⟩ := Sched.createProcess_cases created
      exact ⟨enlist_life inv unused sp cr3 memory,
        fun busy onKernel => absurd onKernel busy⟩
  | start idle =>
      refine ⟨startProcesses_life _ inv idle, fun busy _ => absurd ?_ busy⟩
      rw [inv.onCpu]
      simp [Sched.running, idle]
  | tick =>
      rename_i env timeSlice
      cases executing : life.sched.executingProcess with
      | none =>
          obtain ⟨kept, cpu⟩ := scheduler_idle env timeSlice inv executing
          simp only [Sched.expiring, executing, Option.filter_none, Option.toList_none,
            List.nil_append]
          exact ⟨kept, fun busy onKernel => absurd (cpu ▸ onKernel) busy⟩
      | some prev =>
          by_cases expired : life.sched.burstAfter timeSlice prev ≤ 0
          · obtain ⟨kept, left⟩ := scheduler_expired env inv executing expired
            simp only [Sched.expiring, executing, Option.filter_some, expired,
              decide_true, if_true, Option.toList_some, List.singleton_append]
            exact ⟨kept, fun _ => left⟩
          · obtain ⟨kept, busy⟩ := scheduler_unexpired env inv executing
              (not_le.mp expired)
            simp only [Sched.expiring, executing, Option.filter_some, expired,
              decide_false, Bool.false_eq_true, if_false, Option.toList_none,
              List.nil_append]
            exact ⟨kept, fun _ onKernel => absurd onKernel busy⟩
  | exit executing =>
      obtain ⟨kept, left⟩ := processExit_life _ inv executing
      exact ⟨kept, fun _ => left⟩
  | spin =>
      rename_i spinning
      refine ⟨setSpinning_life inv spinning, fun busy onKernel => absurd ?_ busy⟩
      unfold Sched.setSpinning at onKernel
      split at onKernel <;> exact onKernel

/-- In every state of every run the executing process and the ready queue are, without
repetition, the processes created and not ended; queued processes have burst left; the
queue is not full; and the kernel gets the CPU back only when no process is left. -/
theorem processes_accounted_for {start : Sched} (fresh : Fresh start)
    {ops : List SchedOp} {life : Life} (run : Run LifeStep ⟨start, [], []⟩ ops life) :
    life.sched.live.Nodup ∧
    (∀ slot, slot ∈ life.sched.live ↔ slot ∈ life.created ∧ slot ∉ life.ended) ∧
    (∀ slot ∈ life.sched.readyQueue.contents,
      0 < (life.sched.procs slot).burstTime) ∧
    life.sched.readyQueue.size < maxProcesses ∧
    ∀ op after, LifeStep life op after → life.sched.cpu.owner ≠ .kernel →
      after.sched.cpu.owner = .kernel → after.sched.live = [] := by
  have inv := run.invariant LifeInv
    (fun _ _ _ inv step => (lifeStep_spec inv step).1) (lifeInv_fresh fresh)
  exact ⟨inv.nodup, inv.exact,
    fun slot member => inv.burst slot (List.mem_append_right _ member), inv.room,
    fun op after step => (lifeStep_spec inv step).2⟩

theorem createProcess_returns {heap : PageHeap} {kernelDirectory : Nat}
    {entry exitAddress : Word} {s : Sched} {slot : Slot} {pd directory : Nat}
    {memory mapped : PagingState} {virtTop : Int}
    (unused : s.unusedSlot = some slot)
    (made : pagingNewProcessDirectory heap kernelDirectory s.memory = (pd, memory))
    (nonzero : pd ≠ 0) (named : (memory.ram.load pd 0).toNat = directory)
    (allocated : vmmAlloc heap directory procStackVirt
      (BitVec.ofNat 32 (pagingPageSize * 2)) (pagingIsPresent ||| pagingIsWritable)
      memory = (virtTop, mapped))
    (reachable : pagingGetPhysical mapped.ram directory
      (BitVec.ofInt 32 virtTop - BitVec.ofNat 32 pagingPageSize) ≠ 0) :
    ∃ after, s.createProcess heap kernelDirectory entry exitAddress =
      (some slot, after) := by
  unfold Sched.createProcess
  rw [unused]
  simp only [made, if_neg nonzero, named, allocated, if_neg reachable]
  exact ⟨_, rfl⟩

/-- The stack of a process, taken from a bitmap in which only frame 0 of each byte is
taken. -/
theorem vmmAlloc_stack (heap : PageHeap) (directory : Nat) {s : PagingState}
    (bitmap : s.bitmap = fun _ => 1) :
    vmmAlloc heap directory procStackVirt (BitVec.ofNat 32 (pagingPageSize * 2))
      (pagingIsPresent ||| pagingIsWritable) s =
      (0x10002000,
        (pagingSet heap directory (pageAt procStackVirt 1)
          (8192 ||| (pagingIsPresent ||| pagingIsWritable))
          { (pagingSet heap directory (pageAt procStackVirt 0)
              (4096 ||| (pagingIsPresent ||| pagingIsWritable))
              { s with bitmap := Bitmap.orByte (fun _ => 1) 0 2 }).2 with
            bitmap := Bitmap.orByte (Bitmap.orByte (fun _ => 1) 0 2) 0 4 }).2) := by
  have count : pageCount (BitVec.ofNat 32 (pagingPageSize * 2)) = 2 := by decide
  have top : toInt32 (pageAt procStackVirt 2).toNat = 0x10002000 := by decide +kernel
  have first : getFreePhysicalAddress s.bitmap =
      (4096, Bitmap.orByte (fun _ => 1) 0 2) := by
    have bit : freeBitLoop (~~~(1 : Byte)) 8 0 = 1 := by decide
    rw [bitmap, getFreePhysicalAddress_of_first (by decide), bit]
    rfl
  have second : getFreePhysicalAddress (Bitmap.orByte (fun _ => 1) 0 2) =
      (8192, Bitmap.orByte (Bitmap.orByte (fun _ => 1) 0 2) 0 4) := by
    have bit : freeBitLoop (~~~(Bitmap.orByte (fun _ => 1) 0 2 0)) 8 0 = 2 := by decide
    rw [getFreePhysicalAddress_of_first (by decide), bit]
    rfl
  unfold vmmAlloc
  rw [if_neg (by decide), count]
  simp only [vmmAllocLoop, first]
  rw [if_neg (by decide), pagingSet_bitmap]
  simp only [second]
  rw [if_neg (by decide)]
  simp only [top]
  rfl

def bootSched (memory : PagingState) : Sched where
  procs := fun _ => ⟨0, 0, .unused, 0, 0, 0, 0⟩
  kernelProc := ⟨0, 0, .ready, 0, 0, 0, 0⟩
  zombie := none
  indx := 1
  readyQueue := ⟨fun _ => 0, 0⟩
  executingProcess := none
  memory := memory
  saved := fun ptr => ⟨ptr, .code⟩
  cpu := ⟨.kernel, .code⟩
  log := []

theorem fresh_bootSched (memory : PagingState) : Fresh (bootSched memory) :=
  ⟨rfl, rfl, rfl⟩

def smallMemory : PagingState := ⟨fun _ => 0, fun _ => 1, 0, [0x100000]⟩

def eightPages : PageHeap := pageHeap 8 (by norm_num)

theorem createProcess_bootSched :
    ∃ after, (bootSched smallMemory).createProcess eightPages 0x100000 0x8000 0x9000 =
      (some 0, after) := by
  have unused : (bootSched smallMemory).unusedSlot = some 0 := by decide
  have nonzero : (pagingNewProcessDirectory eightPages 0x100000 smallMemory).1 ≠ 0 := by
    decide +kernel
  have named : ((pagingNewProcessDirectory eightPages 0x100000 smallMemory).2.ram.load
      (pagingNewProcessDirectory eightPages 0x100000 smallMemory).1 0).toNat =
        4096 := by
    decide +kernel
  have bitmap : (pagingNewProcessDirectory eightPages 0x100000 smallMemory).2.bitmap =
      fun _ => 1 := pagingNewProcessDirectory_bitmap ..
  have stack := vmmAlloc_stack eightPages 4096 bitmap
  refine createProcess_returns unused Prod.mk.eta.symm nonzero named stack ?_
  decide +kernel

end LazyOS.Scheduling

import LazyOS.Scheduling.Exit

namespace LazyOS.Scheduling

open LazyOS.Data
open LazyOS.Memory

/-! The reaper against `process_exit`.  The zombie is announced while its process
still has the CPU; a tick in that gap frees the process that runs. -/

/-- In the order of time, last event first: whoever is freed neither executes nor
waits, and whoever gets the CPU has not been freed. -/
def ReaperSafe : List Event → Prop
  | [] => True
  | .freed slot executing ready :: earlier =>
      executing ≠ some slot ∧ slot ∉ ready ∧ ReaperSafe earlier
  | .dispatched .kernel :: earlier => ReaperSafe earlier
  | .dispatched (.slot next) :: earlier =>
      (∀ executing ready, .freed next executing ready ∉ earlier) ∧ ReaperSafe earlier

inductive ReaperOp where
  | create (heap : PageHeap) (kernelDirectory : Nat) (entry exitAddress : Word)
  | start (env : SwitchEnv)
  | tick (env : SwitchEnv) (timeSlice : Int)
  | ret
  | statement (env : SwitchEnv)
  | spin (spinning : Byte)

/-- `ret` is the return of an entry function into `process_exit`, `statement` the
next statement there; the clock ticks at any time. -/
inductive ReaperStep (s : Sched) : ReaperOp → Sched → Prop
  | create {heap : PageHeap} {kernelDirectory : Nat} {entry exitAddress : Word}
      {slot : Slot} {after : Sched} (inCode : s.cpu.control = .code)
      (created : s.createProcess heap kernelDirectory entry exitAddress =
        (some slot, after)) :
      ReaperStep s (.create heap kernelDirectory entry exitAddress) after
  | start {env : SwitchEnv} (onKernel : s.cpu = ⟨.kernel, .code⟩) :
      ReaperStep s (.start env) (s.startProcesses env)
  | tick {env : SwitchEnv} {timeSlice : Int} :
      ReaperStep s (.tick env timeSlice) (s.scheduler env timeSlice)
  | ret {slot : Slot} (inCode : s.cpu = ⟨.slot slot, .code⟩) :
      ReaperStep s .ret (s.setControl (.exiting .start))
  | statement {env : SwitchEnv} {point : ExitPoint}
      (inExit : s.cpu.control = .exiting point) :
      ReaperStep s (.statement env) (s.exitStep env)
  | spin {spinning : Byte} {slot : Slot} (inCode : s.cpu = ⟨.slot slot, .code⟩) :
      ReaperStep s (.spin spinning) (s.setSpinning spinning)

def ExitPoint.InGap : ExitPoint → Prop
  | .test _ | .clear _ | .pop _ | .run _ _ | .assign _ _ => True
  | _ => False

/-- A tick does not fall in the gap, and behind the assignment it does not save the
dying context as that of the next process. -/
def Sched.TickMissesGap (s : Sched) (timeSlice : Int) : Prop :=
  match s.cpu.control with
  | .code => True
  | .exiting (.switch _ next) =>
      s.readyQueue.pqIsEmpty = true ∨ s.burstAfter timeSlice next ≤ 0
  | .exiting point => ¬ point.InGap

def ReaperOp.MissesGap (s : Sched) : ReaperOp → Prop
  | .tick _ timeSlice => s.TickMissesGap timeSlice
  | _ => True

def Sched.Freed (s : Sched) (slot : Slot) : Prop :=
  ∃ executing ready, Event.freed slot executing ready ∈ s.log

inductive Unannounced (slot : Slot) : Control → Prop
  | code : Unannounced slot .code
  | start : Unannounced slot (.exiting .start)
  | mark : Unannounced slot (.exiting (.mark (some slot)))
  | publish : Unannounced slot (.exiting (.publish (some slot)))

structure Resumable (slot : Slot) (context : Context) : Prop where
  owner : context.owner = .slot slot
  control : Unannounced slot context.control

inductive GapAt (slot : Slot) : ExitPoint → Prop
  | test : GapAt slot (.test (some slot))
  | clear : GapAt slot (.clear (some slot))
  | pop : GapAt slot (.pop (some slot))
  | run (next : Slot) : GapAt slot (.run (some slot) next)
  | assign (next : Slot) : GapAt slot (.assign (some slot) next)

theorem GapAt.inGap {slot : Slot} {point : ExitPoint} (place : GapAt slot point) :
    point.InGap := by
  cases place <;> trivial

theorem Unannounced.not_inGap {slot : Slot} {point : ExitPoint}
    (place : Unannounced slot (.exiting point)) : ¬ point.InGap := by
  cases place <;> exact id

structure Waiting (s : Sched) (ready : List Slot) (saved : ProcPtr → Context) :
    Prop where
  nodup : ready.Nodup
  zombie : ∀ slot, s.zombie = some slot → slot ∉ ready
  freed : ∀ slot, s.Freed slot → slot ∉ ready
  used : ∀ slot, slot ∈ ready ∨ s.zombie = some slot ∨ s.Freed slot →
    (s.procs slot).state ≠ .unused
  resumable : ∀ slot ∈ ready, Resumable slot (saved (.slot slot))
  kernel : saved .kernel = ⟨.kernel, .code⟩
  safe : ReaperSafe s.log

def Sched.held (s : Sched) : List Slot :=
  match s.cpu.control with
  | .exiting (.run _ next) => [next]
  | .exiting (.assign _ next) => [next]
  | _ => []

inductive OnCpu (s : Sched) : Prop
  | kernel (cpu : s.cpu = ⟨.kernel, .code⟩) (idle : s.executingProcess = none)
  | process (slot : Slot) (executing : s.executingProcess = some slot)
      (resumable : Resumable slot s.cpu)
  | gap (slot : Slot) (point : ExitPoint) (cpu : s.cpu = ⟨.slot slot, .exiting point⟩)
      (place : GapAt slot point)
      (executing : s.executingProcess = some slot) (zombie : s.zombie = some slot)
  | leave (slot : Slot) (cpu : s.cpu = ⟨.slot slot, .exiting (.leave (some slot))⟩)
      (idle : s.executingProcess = none)
  | switch (slot next : Slot)
      (cpu : s.cpu = ⟨.slot slot, .exiting (.switch (some slot) next)⟩)
      (executing : s.executingProcess = some next) (different : next ≠ slot)
      (gone : s.zombie = some slot ∨ s.Freed slot)
      (saved : Resumable next (s.saved (.slot next)))

structure ReaperInv (s : Sched) : Prop where
  waiting : Waiting s (s.held ++ s.readyQueue.contents) s.saved
  onCpu : OnCpu s
  apart : ∀ slot, s.executingProcess = some slot →
    slot ∉ s.held ++ s.readyQueue.contents
  alive : ∀ slot, s.executingProcess = some slot →
    ¬ s.Freed slot ∧ (s.procs slot).state ≠ .unused
  notZombie : ∀ slot, s.executingProcess = some slot → s.zombie = some slot →
    ∃ point, s.cpu.control = .exiting point ∧ point.InGap

theorem OnCpu.transfer {s after : Sched} (onCpu : OnCpu s) (cpu : after.cpu = s.cpu)
    (executing : after.executingProcess = s.executingProcess)
    (zombie : ∀ slot, s.executingProcess = some slot → s.zombie = some slot →
      after.zombie = some slot)
    (gone : ∀ slot, s.zombie = some slot ∨ s.Freed slot →
      after.zombie = some slot ∨ after.Freed slot)
    (saved : ∀ slot, s.executingProcess = some slot →
      after.saved (.slot slot) = s.saved (.slot slot)) : OnCpu after := by
  cases onCpu with
  | kernel here idle => exact .kernel (cpu.trans here) (executing.trans idle)
  | process slot isSlot resumable =>
      exact .process slot (executing.trans isSlot) (cpu ▸ resumable)
  | gap slot point here place isSlot isZombie =>
      exact .gap slot point (cpu.trans here) place (executing.trans isSlot)
        (zombie slot isSlot isZombie)
  | leave slot here idle => exact .leave slot (cpu.trans here) (executing.trans idle)
  | switch slot next here isNext different isGone resumable =>
      exact .switch slot next (cpu.trans here) (executing.trans isNext) different
        (gone slot isGone) (saved next isNext ▸ resumable)

theorem Resumable.held_eq_nil {s : Sched} {slot : Slot}
    (resumable : Resumable slot s.cpu) : s.held = [] := by
  have place := resumable.control
  unfold Sched.held
  generalize s.cpu.control = control at place
  cases place <;> rfl

theorem Sched.Freed.of_log {s after : Sched} {slot : Slot} (freed : after.Freed slot)
    (log : ∀ executing ready, Event.freed slot executing ready ∈ after.log →
      Event.freed slot executing ready ∈ s.log) : s.Freed slot := by
  obtain ⟨executing, ready, event⟩ := freed
  exact ⟨executing, ready, log executing ready event⟩

/-- Fewer processes waiting, in a state with the same zombie in which nobody else has
been freed. -/
theorem Waiting.transfer {s after : Sched} {ready less : List Slot}
    {saved other : ProcPtr → Context} (waiting : Waiting s ready saved)
    (zombie : after.zombie = s.zombie)
    (past : ∀ slot, after.Freed slot → s.Freed slot)
    (used : ∀ slot, (after.procs slot).state = .unused →
      (s.procs slot).state = .unused)
    (nodup : less.Nodup) (subset : ∀ slot ∈ less, slot ∈ ready)
    (same : ∀ slot ∈ less, other (.slot slot) = saved (.slot slot))
    (kernel : other .kernel = saved .kernel) (safe : ReaperSafe after.log) :
    Waiting after less other := by
  refine ⟨nodup, ?_, ?_, ?_, ?_, kernel.trans waiting.kernel, safe⟩
  · intro slot isZombie member
    exact waiting.zombie slot (zombie ▸ isZombie) (subset slot member)
  · intro slot freed member
    exact waiting.freed slot (past slot freed) (subset slot member)
  · intro slot known unused
    refine waiting.used slot ?_ (used slot unused)
    rcases known with member | isZombie | freed
    · exact .inl (subset slot member)
    · exact .inr (.inl (zombie ▸ isZombie))
    · exact .inr (.inr (past slot freed))
  · intro slot member
    rw [same slot member]
    exact waiting.resumable slot (subset slot member)

theorem Waiting.weaken {s after : Sched} {ready less : List Slot}
    {saved other : ProcPtr → Context} (waiting : Waiting s ready saved)
    (zombie : after.zombie = s.zombie) (log : after.log = s.log)
    (used : ∀ slot, (after.procs slot).state = .unused →
      (s.procs slot).state = .unused)
    (nodup : less.Nodup) (subset : ∀ slot ∈ less, slot ∈ ready)
    (same : ∀ slot ∈ less, other (.slot slot) = saved (.slot slot))
    (kernel : other .kernel = saved .kernel) : Waiting after less other :=
  waiting.transfer zombie
    (fun _ freed => freed.of_log fun _ _ event => log ▸ event) used nodup subset same
    kernel (log ▸ waiting.safe)

namespace Sched

variable (env : SwitchEnv) (curr : Option ProcPtr) (next : ProcPtr) (s : Sched)

theorem contextSwitch_saved :
    (s.contextSwitch env curr next).saved = (s.saveContext env curr).saved := by
  rcases curr with _ | _ | _ <;> cases next <;> rfl

theorem contextSwitch_cpu {env : SwitchEnv} {curr : Option ProcPtr} {next : ProcPtr}
    {s : Sched} (own : ((s.saveContext env curr).saved next).owner = next) :
    (s.contextSwitch env curr next).cpu = (s.saveContext env curr).saved next := by
  have load : (s.contextSwitch env curr next).cpu =
      if ((s.saveContext env curr).saved next).owner = next then
        (s.saveContext env curr).saved next
      else ⟨next, env.stray⟩ := by
    cases next <;> rfl
  rw [load, if_pos own]

theorem freed_contextSwitch {env : SwitchEnv} {curr : Option ProcPtr} {next : ProcPtr}
    {s : Sched} {slot : Slot} (freed : (s.contextSwitch env curr next).Freed slot) :
    s.Freed slot := by
  refine freed.of_log fun _ _ event => ?_
  rw [contextSwitch_log] at event
  exact (List.mem_cons.mp event).resolve_left Event.noConfusion

end Sched

theorem Waiting.contextSwitch {env : SwitchEnv} {curr : Option ProcPtr}
    {next : ProcPtr} {s : Sched} {ready less : List Slot}
    (waiting : Waiting s ready (s.saveContext env curr).saved) (nodup : less.Nodup)
    (subset : ∀ slot ∈ less, slot ∈ ready)
    (safe : ReaperSafe (.dispatched next :: s.log)) :
    Waiting (s.contextSwitch env curr next) less
      (s.contextSwitch env curr next).saved := by
  have steady := Sched.steady_contextSwitch env curr next s
  have saved := Sched.contextSwitch_saved env curr next s
  refine waiting.transfer (Sched.contextSwitch_zombie env curr next s)
    (fun _ => Sched.freed_contextSwitch) steady.used nodup subset
    (fun slot _ => congrFun saved (.slot slot)) (congrFun saved .kernel) ?_
  rw [Sched.contextSwitch_log]
  exact safe

theorem reaperInv_switch_slot (env : SwitchEnv) (curr : Option ProcPtr) {next : Slot}
    {s : Sched} (executing : s.executingProcess = some next)
    (waiting : Waiting s (next :: s.readyQueue.contents)
      (s.saveContext env curr).saved) :
    ReaperInv (s.contextSwitch env curr (.slot next)) := by
  obtain ⟨alone, nodup⟩ := List.nodup_cons.mp waiting.nodup
  have notFreed : ¬ s.Freed next := fun freed =>
    waiting.freed next freed List.mem_cons_self
  have resumable := waiting.resumable next List.mem_cons_self
  have cpu := Sched.contextSwitch_cpu resumable.owner
  have exec : (s.contextSwitch env curr (.slot next)).executingProcess = some next := by
    rw [Sched.contextSwitch_executingProcess, executing]
  have held : (s.contextSwitch env curr (.slot next)).held = [] :=
    Resumable.held_eq_nil (cpu ▸ resumable)
  have here : ∀ slot,
      (s.contextSwitch env curr (.slot next)).executingProcess = some slot →
        slot = next := fun slot isSlot => Option.some.inj (isSlot.symm.trans exec)
  refine ⟨?_, .process next exec (cpu ▸ resumable), ?_, ?_, ?_⟩
  · rw [held, Sched.contextSwitch_readyQueue]
    refine waiting.contextSwitch nodup
      (fun slot member => List.mem_cons_of_mem _ member) ⟨?_, waiting.safe⟩
    exact fun exec ready event => notFreed ⟨exec, ready, event⟩
  · intro slot isSlot
    rw [held, Sched.contextSwitch_readyQueue, here slot isSlot]
    exact alone
  · intro slot isSlot
    rw [here slot isSlot]
    exact ⟨fun freed => notFreed (Sched.freed_contextSwitch freed), fun unused =>
      waiting.used next (.inl List.mem_cons_self)
        ((Sched.steady_contextSwitch env curr (.slot next) s).used next unused)⟩
  · intro slot isSlot isZombie
    rw [here slot isSlot, Sched.contextSwitch_zombie] at isZombie
    exact absurd List.mem_cons_self (waiting.zombie next isZombie)

theorem reaperInv_switch_kernel (env : SwitchEnv) {s : Sched}
    (idle : s.executingProcess = none)
    (waiting : Waiting s s.readyQueue.contents s.saved) :
    ReaperInv (s.contextSwitch env none .kernel) := by
  have own : ((s.saveContext env none).saved .kernel).owner = .kernel := by
    have kernel : (s.saveContext env none).saved .kernel = ⟨.kernel, .code⟩ :=
      waiting.kernel
    rw [kernel]
  have cpu : (s.contextSwitch env none .kernel).cpu = ⟨.kernel, .code⟩ :=
    (Sched.contextSwitch_cpu own).trans waiting.kernel
  have exec : (s.contextSwitch env none .kernel).executingProcess = none := by
    rw [Sched.contextSwitch_executingProcess, idle]
  have held : (s.contextSwitch env none .kernel).held = [] := by
    unfold Sched.held
    rw [cpu]
  have none' : ∀ slot,
      (s.contextSwitch env none .kernel).executingProcess ≠ some slot := by
    intro slot isSlot
    rw [exec] at isSlot
    cases isSlot
  refine ⟨?_, .kernel cpu exec, fun slot isSlot => absurd isSlot (none' slot),
    fun slot isSlot => absurd isSlot (none' slot),
    fun slot isSlot => absurd isSlot (none' slot)⟩
  rw [held, Sched.contextSwitch_readyQueue]
  exact Waiting.contextSwitch waiting waiting.nodup (fun _ member => member)
    waiting.safe

theorem Sched.saveContext_saved_of_cpu (env : SwitchEnv) (curr : Option ProcPtr)
    {s after : Sched} (saved : after.saved = s.saved) (cpu : after.cpu = s.cpu) :
    (after.saveContext env curr).saved = (s.saveContext env curr).saved := by
  rcases curr with _ | _ | _ <;> simp only [saveContext, saved, cpu]

theorem reaperInv_runNext (env : SwitchEnv) (curr : Option ProcPtr) {s : Sched}
    (nonempty : s.readyQueue.pqIsEmpty = false)
    (waiting : Waiting s s.readyQueue.contents (s.saveContext env curr).saved) :
    ReaperInv (s.runNext env curr) := by
  obtain ⟨next, rest, popped, perm⟩ :=
    PriorityQueue.pqPop_perm s.priority nonempty
  have marked : Sched.Steady s (s.setState next .running) :=
    Sched.steady_setState s next (by decide)
  have saved : (Sched.saveContext env { s.setState next .running with
      readyQueue := rest
      executingProcess := some next } curr).saved = (s.saveContext env curr).saved :=
    Sched.saveContext_saved_of_cpu env curr rfl rfl
  simp only [Sched.runNext, popped]
  refine reaperInv_switch_slot env curr rfl ?_
  rw [saved]
  exact waiting.weaken rfl rfl marked.used
    (perm.nodup_iff.mpr waiting.nodup) (fun slot member => perm.mem_iff.mp member)
    (fun _ _ => rfl) rfl

theorem reaperInv_runKernel (env : SwitchEnv) {s : Sched}
    (waiting : Waiting s s.readyQueue.contents s.saved) :
    ReaperInv (s.runKernel env) :=
  reaperInv_switch_kernel env rfl (waiting.weaken rfl rfl (fun _ unused => unused)
    waiting.nodup (fun _ member => member) (fun _ _ => rfl) rfl)

theorem ReaperInv.move {s after : Sched} (inv : ReaperInv s)
    (used : ∀ slot, (after.procs slot).state = .unused → (s.procs slot).state = .unused)
    (queue : after.readyQueue = s.readyQueue)
    (executing : after.executingProcess = s.executingProcess)
    (zombie : after.zombie = s.zombie) (log : after.log = s.log)
    (saved : after.saved = s.saved) (held : after.held = s.held) (onCpu : OnCpu after)
    (notZombie : ∀ slot, after.executingProcess = some slot →
      after.zombie = some slot →
        ∃ point, after.cpu.control = .exiting point ∧ point.InGap) :
    ReaperInv after := by
  refine ⟨?_, onCpu, ?_, ?_, notZombie⟩
  · rw [held, queue, saved]
    exact inv.waiting.weaken zombie log used inv.waiting.nodup
      (fun _ member => member) (fun _ _ => rfl) rfl
  · intro slot isSlot
    rw [held, queue]
    exact inv.apart slot (executing ▸ isSlot)
  · intro slot isSlot
    obtain ⟨notFreed, inUse⟩ := inv.alive slot (executing ▸ isSlot)
    exact ⟨fun freed => notFreed (freed.of_log fun _ _ event => log ▸ event),
      fun unused => inUse (used slot unused)⟩

theorem ReaperInv.setProcs {s : Sched} (inv : ReaperInv s) {procs : Slot → Process}
    (used : ∀ slot, (procs slot).state = .unused → (s.procs slot).state = .unused) :
    ReaperInv { s with procs := procs } :=
  inv.move used rfl rfl rfl rfl rfl rfl
    (inv.onCpu.transfer rfl rfl (fun _ _ isZombie => isZombie) (fun _ gone => gone)
      fun _ _ => rfl) inv.notZombie

theorem Waiting.push {s after : Sched} {ready more : List Slot}
    {saved : ProcPtr → Context} (waiting : Waiting s ready saved)
    (zombie : after.zombie = s.zombie) (log : after.log = s.log)
    (used : ∀ slot, (after.procs slot).state = .unused →
      (s.procs slot).state = .unused) {proc : Slot} {context : Context}
    (perm : more.Perm (proc :: ready)) (absent : proc ∉ ready)
    (notZombie : s.zombie ≠ some proc) (notFreed : ¬ s.Freed proc)
    (inUse : (after.procs proc).state ≠ .unused) (resumable : Resumable proc context) :
    Waiting after more (Function.update saved (.slot proc) context) := by
  have past : ∀ slot, after.Freed slot → s.Freed slot :=
    fun slot freed => freed.of_log fun _ _ event => log ▸ event
  have either : ∀ slot ∈ more, slot = proc ∨ slot ∈ ready :=
    fun slot member => List.mem_cons.mp (perm.mem_iff.mp member)
  refine ⟨perm.nodup_iff.mpr (List.nodup_cons.mpr ⟨absent, waiting.nodup⟩),
    ?_, ?_, ?_, ?_, ?_, log ▸ waiting.safe⟩
  · intro slot isZombie member
    rw [zombie] at isZombie
    rcases either slot member with rfl | member
    · exact notZombie isZombie
    · exact waiting.zombie slot isZombie member
  · intro slot freed member
    rcases either slot member with rfl | member
    · exact notFreed (past _ freed)
    · exact waiting.freed slot (past slot freed) member
  · intro slot known unused
    by_cases same : slot = proc
    · subst same
      exact inUse unused
    · refine waiting.used slot ?_ (used slot unused)
      rcases known with member | isZombie | freed
      · exact .inl ((either slot member).resolve_left same)
      · exact .inr (.inl (zombie ▸ isZombie))
      · exact .inr (.inr (past slot freed))
  · intro slot member
    by_cases same : slot = proc
    · subst same
      rw [Function.update_self]
      exact resumable
    · rw [Function.update_of_ne fun eq => same (ProcPtr.slot.inj eq)]
      exact waiting.resumable slot ((either slot member).resolve_left same)
  · rw [Function.update_of_ne ProcPtr.noConfusion]
    exact waiting.kernel

theorem ReaperInv.room {s : Sched} (inv : ReaperInv s) :
    s.readyQueue.size < maxProcesses :=
  readyQueue_room (List.nodup_append.mp inv.waiting.nodup).2.1

theorem ReaperInv.queued {s after : Sched} (inv : ReaperInv s)
    (queue : after.readyQueue = s.readyQueue) (zombie : after.zombie = s.zombie)
    (log : after.log = s.log) (saved : after.saved = s.saved)
    (used : ∀ slot, (after.procs slot).state = .unused →
      (s.procs slot).state = .unused) :
    Waiting after after.readyQueue.contents after.saved := by
  rw [queue, saved]
  exact inv.waiting.weaken zombie log used (List.nodup_append.mp inv.waiting.nodup).2.1
    (fun _ member => List.mem_append_right _ member) (fun _ _ => rfl) rfl

theorem reaperInv_reap {s : Sched} (inv : ReaperInv s)
    (away : ∀ slot, s.zombie = some slot → s.executingProcess ≠ some slot) :
    ReaperInv s.reap ∧ s.reap.zombie = none := by
  unfold Sched.reap
  cases isZombie : s.zombie with
  | none => exact ⟨inv, isZombie⟩
  | some dead =>
      have freed : ∀ {slot : Slot},
          ({ s.freeProc dead with zombie := none } : Sched).Freed slot →
            slot = dead ∨ s.Freed slot := by
        rintro slot ⟨executing, ready, event⟩
        rcases List.mem_cons.mp event with now | before
        · exact .inl (Event.freed.inj now).1
        · exact .inr ⟨executing, ready, before⟩
      have absent := inv.waiting.zombie dead isZombie
      refine ⟨⟨⟨inv.waiting.nodup, ?_, ?_, ?_, inv.waiting.resumable,
        inv.waiting.kernel, away dead isZombie, ?_, inv.waiting.safe⟩,
        ?_, inv.apart, ?_, ?_⟩, rfl⟩
      · intro slot none'
        cases none'
      · intro slot gone member
        rcases freed gone with rfl | before
        · exact absent member
        · exact inv.waiting.freed slot before member
      · rintro slot (member | none' | gone)
        · exact inv.waiting.used slot (.inl member)
        · cases none'
        · rcases freed gone with rfl | before
          · exact inv.waiting.used _ (.inr (.inl isZombie))
          · exact inv.waiting.used slot (.inr (.inr before))
      · exact fun member => absent (List.mem_append_right _ member)
      · refine inv.onCpu.transfer rfl rfl (fun slot executing zombie =>
          absurd executing (away slot zombie)) (fun slot gone => .inr ?_) fun _ _ => rfl
        rcases gone with zombie | ⟨exec, ready, before⟩
        · obtain rfl := Option.some.inj (isZombie.symm.trans zombie)
          exact ⟨_, _, List.mem_cons_self⟩
        · exact ⟨exec, ready, List.mem_cons_of_mem _ before⟩
      · intro slot isSlot
        obtain ⟨notFreed, inUse⟩ := inv.alive slot isSlot
        refine ⟨fun gone => ?_, inUse⟩
        rcases freed gone with rfl | before
        · exact away _ isZombie isSlot
        · exact notFreed before
      · intro slot _ none'
        cases none'

theorem reaperInv_requeue (env : SwitchEnv) {s : Sched} {prev : Slot}
    (inv : ReaperInv s) (noZombie : s.zombie = none)
    (executing : s.executingProcess = some prev) (resumable : Resumable prev s.cpu) :
    ReaperInv (Sched.runNext env (some (.slot prev))
      { s.setState prev .ready with
        readyQueue := PriorityQueue.pqPush (s.setState prev .ready).priority
          s.readyQueue prev }) := by
  have pushed := PriorityQueue.pqPush_perm (s.setState prev .ready).priority prev
    inv.room
  have marked : Sched.Steady s (s.setState prev .ready) :=
    Sched.steady_setState s prev (by decide)
  obtain ⟨notFreed, inUse⟩ := inv.alive prev executing
  generalize requeued : ({
    s.setState prev .ready with
    readyQueue := PriorityQueue.pqPush (s.setState prev .ready).priority
      s.readyQueue prev } : Sched) = ready
  have contents : ready.readyQueue.contents.Perm (prev :: s.readyQueue.contents) := by
    rw [← requeued]
    exact pushed
  have nonempty : ready.readyQueue.pqIsEmpty = false := by
    rw [← requeued]
    exact PriorityQueue.pqPush_nonempty _ prev inv.room
  have used : ∀ slot, (ready.procs slot).state = .unused →
      (s.procs slot).state = .unused := by
    rw [← requeued]
    exact marked.used
  have saved : (ready.saveContext env (some (.slot prev))).saved =
      Function.update s.saved (.slot prev) s.cpu := by
    rw [← requeued]
    rfl
  refine reaperInv_runNext env _ nonempty ?_
  rw [saved]
  refine Waiting.push (inv.queued rfl rfl rfl rfl fun _ unused => unused) ?_ ?_ used
    contents (fun member => inv.apart prev executing (List.mem_append_right _ member))
    ?_ notFreed (fun unused => inUse (used prev unused)) resumable
  · rw [← requeued]
    rfl
  · rw [← requeued]
    rfl
  · rw [noZombie]
    exact (Option.some_ne_none prev).symm

theorem ReaperInv.away {s : Sched} {timeSlice : Int} (inv : ReaperInv s)
    (misses : s.TickMissesGap timeSlice) (slot : Slot)
    (isZombie : s.zombie = some slot) : s.executingProcess ≠ some slot := by
  intro executing
  obtain ⟨point, control, inGap⟩ := inv.notZombie slot executing isZombie
  unfold Sched.TickMissesGap at misses
  rw [control] at misses
  cases point with
  | switch dying next => exact inGap
  | _ => exact misses inGap

/-- Where a process is executing and its burst is not used up, the tick that misses the
gap saves the context of that process. -/
theorem ReaperInv.resumable {s : Sched} {timeSlice : Int} {prev : Slot}
    (inv : ReaperInv s) (misses : s.TickMissesGap timeSlice)
    (executing : s.executingProcess = some prev)
    (left : ¬ s.burstAfter timeSlice prev ≤ 0)
    (nonempty : ¬ s.readyQueue.pqIsEmpty = true) : Resumable prev s.cpu := by
  cases inv.onCpu with
  | kernel cpu idle =>
      rw [idle] at executing
      cases executing
  | process slot isExecuting resumable =>
      obtain rfl := Option.some.inj (isExecuting.symm.trans executing)
      exact resumable
  | gap slot point cpu place isExecuting zombie =>
      exact absurd isExecuting (inv.away misses slot zombie)
  | leave slot cpu idle =>
      rw [idle] at executing
      cases executing
  | switch slot next cpu isExecuting different gone saved =>
      obtain rfl := Option.some.inj (isExecuting.symm.trans executing)
      unfold Sched.TickMissesGap at misses
      rw [cpu] at misses
      rcases misses with empty | expired
      · exact absurd empty nonempty
      · exact absurd expired left

theorem reaperInv_tick (env : SwitchEnv) {timeSlice : Int} {s : Sched}
    (inv : ReaperInv s) (misses : s.TickMissesGap timeSlice) :
    ReaperInv (s.scheduler env timeSlice) := by
  obtain ⟨-, queue, exec, cpu⟩ := s.reap_eq
  obtain ⟨reaped, noZombie⟩ := reaperInv_reap inv (inv.away misses)
  cases executing : s.executingProcess with
  | none =>
      have idle : s.scheduler env timeSlice = s.reap := by
        simp only [Sched.scheduler, exec, executing]
      rw [idle]
      exact reaped
  | some prev =>
      have resumable := inv.resumable misses executing
      rw [Sched.scheduler_eq env timeSlice executing]
      simp only
      generalize s.burstAfter timeSlice prev = burstTime at resumable ⊢
      have counted : ReaperInv (s.reap.setBurst prev burstTime) :=
        reaped.setProcs fun slot unused =>
          (s.reap.setBurst_state prev slot burstTime).symm.trans unused
      rw [← queue, ← cpu] at resumable
      have noZombie : (s.reap.setBurst prev burstTime).zombie = none := noZombie
      have executing : (s.reap.setBurst prev burstTime).executingProcess = some prev :=
        exec.trans executing
      generalize later : s.reap.setBurst prev burstTime = after at *
      have sameCpu : s.reap.cpu = after.cpu := by
        rw [← later]
        rfl
      have sameQueue : s.reap.readyQueue = after.readyQueue := by
        rw [← later]
        rfl
      rw [sameCpu, sameQueue] at resumable
      have marked : Sched.Steady after (after.setState prev .terminated) :=
        Sched.steady_setState after prev (by decide)
      have ended : Waiting (after.setState prev .terminated)
          (after.setState prev .terminated).readyQueue.contents
          (after.setState prev .terminated).saved :=
        counted.queued rfl rfl rfl rfl marked.used
      split
      · split
        · exact reaperInv_runKernel env ended
        · rename_i nonempty
          exact reaperInv_runNext env none (Bool.eq_false_iff.mpr nonempty) ended
      · rename_i left
        split
        · exact counted
        · rename_i nonempty
          exact reaperInv_requeue env counted noZombie executing
            (resumable left nonempty)

end LazyOS.Scheduling

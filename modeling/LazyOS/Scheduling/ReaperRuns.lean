import LazyOS.Scheduling.Reaper

namespace LazyOS.Scheduling

open LazyOS.Data
open LazyOS.Memory

/-! The statements of `process_exit`. -/

section Statements

variable {s : Sched} {slot next : Slot}

theorem ReaperInv.zombie_ne (inv : ReaperInv s) (executing : s.executingProcess = some slot)
    (resumable : Resumable slot s.cpu) : s.zombie ≠ some slot := by
  intro isZombie
  obtain ⟨point, control, inGap⟩ := inv.notZombie slot executing isZombie
  exact (control ▸ resumable.control).not_inGap inGap

theorem reaperInv_setControl (inv : ReaperInv s)
    (executing : s.executingProcess = some slot) (resumable : Resumable slot s.cpu)
    {control : Control} (goes : Resumable slot ⟨s.cpu.owner, control⟩) :
    ReaperInv (s.setControl control) := by
  have held : (s.setControl control).held = s.held :=
    (Resumable.held_eq_nil goes).trans resumable.held_eq_nil.symm
  refine inv.move (fun _ unused => unused) rfl rfl rfl rfl rfl held
    (.process slot executing goes) ?_
  intro other isOther isZombie
  obtain rfl := Option.some.inj (executing.symm.trans isOther)
  exact absurd isZombie (inv.zombie_ne executing resumable)

theorem reaperInv_mark (inv : ReaperInv s) (executing : s.executingProcess = some slot)
    (resumable : Resumable slot s.cpu) :
    ReaperInv ((s.setState slot .terminated).setControl
      (.exiting (.publish (some slot)))) := by
  have marked : Sched.Steady s (s.setState slot .terminated) :=
    Sched.steady_setState s slot (by decide)
  have terminated : ReaperInv (s.setState slot .terminated) := inv.setProcs marked.used
  exact reaperInv_setControl terminated executing resumable
    ⟨resumable.owner, .publish⟩

theorem reaperInv_publish (inv : ReaperInv s)
    (executing : s.executingProcess = some slot) (resumable : Resumable slot s.cpu) :
    ReaperInv ({ s with zombie := some slot }.setControl
      (.exiting (.test (some slot)))) := by
  have held := resumable.held_eq_nil
  have nil : ({ s with zombie := some slot }.setControl
      (.exiting (.test (some slot)))).held = [] := rfl
  have apart := inv.apart slot executing
  obtain ⟨notFreed, inUse⟩ := inv.alive slot executing
  have waiting := inv.waiting
  rw [held] at apart waiting
  refine ⟨?_, ?_, ?_, inv.alive, ?_⟩
  · rw [nil]
    refine ⟨waiting.nodup, ?_, waiting.freed, ?_, waiting.resumable, waiting.kernel,
      waiting.safe⟩
    · rintro other isZombie
      obtain rfl := Option.some.inj isZombie
      exact apart
    · rintro other (member | isZombie | freed)
      · exact waiting.used other (.inl member)
      · obtain rfl := Option.some.inj isZombie
        exact inUse
      · exact waiting.used other (.inr (.inr freed))
  · refine .gap slot _ ?_ .test executing rfl
    exact congrArg (Context.mk · _) resumable.owner
  · intro other isOther
    obtain rfl := Option.some.inj (executing.symm.trans isOther)
    rw [nil]
    exact apart
  · exact fun other _ _ => ⟨_, rfl, trivial⟩

theorem reaperInv_gap {point later : ExitPoint} (inv : ReaperInv s)
    (cpu : s.cpu = ⟨.slot slot, .exiting point⟩)
    (executing : s.executingProcess = some slot) (zombie : s.zombie = some slot)
    (held : (s.setControl (.exiting later)).held = s.held)
    (place : GapAt slot later) :
    ReaperInv (s.setControl (.exiting later)) := by
  have moves : (s.setControl (.exiting later)).cpu = ⟨.slot slot, .exiting later⟩ := by
    simp only [Sched.setControl, cpu]
  exact inv.move (fun _ unused => unused) rfl rfl rfl rfl rfl held
    (.gap slot later moves place executing zombie) fun _ _ _ =>
      ⟨later, rfl, place.inGap⟩

theorem reaperInv_clear (inv : ReaperInv s)
    (cpu : s.cpu = ⟨.slot slot, .exiting (.clear (some slot))⟩) :
    ReaperInv ({ s with executingProcess := none }.setControl
      (.exiting (.leave (some slot)))) := by
  have held : s.held = [] := by
    simp only [Sched.held, cpu]
  have waiting := inv.waiting
  rw [held] at waiting
  have idle : ∀ other, ({ s with executingProcess := none }.setControl
      (.exiting (.leave (some slot)))).executingProcess ≠ some other :=
    fun other => (Option.some_ne_none other).symm
  refine ⟨?_, ?_, fun other executing => absurd executing (idle other),
    fun other executing => absurd executing (idle other),
    fun other executing => absurd executing (idle other)⟩
  · exact waiting.weaken rfl rfl (fun _ unused => unused) waiting.nodup
      (fun _ member => member) (fun _ _ => rfl) rfl
  · refine .leave slot ?_ rfl
    simp only [Sched.setControl, cpu]

theorem reaperInv_pop (inv : ReaperInv s)
    (cpu : s.cpu = ⟨.slot slot, .exiting (.pop (some slot))⟩)
    (executing : s.executingProcess = some slot) (zombie : s.zombie = some slot)
    {rest : PriorityQueue Slot}
    (perm : (next :: rest.contents).Perm s.readyQueue.contents) :
    ReaperInv ({ s with readyQueue := rest }.setControl
      (.exiting (.run (some slot) next))) := by
  have held : s.held = [] := by
    simp only [Sched.held, cpu]
  have waiting := inv.waiting
  have apart := inv.apart
  rw [held] at waiting apart
  refine ⟨?_, ?_, ?_, inv.alive, fun _ _ _ => ⟨_, rfl, trivial⟩⟩
  · exact waiting.weaken rfl rfl (fun _ unused => unused)
      (perm.nodup_iff.mpr waiting.nodup) (fun _ member => perm.mem_iff.mp member)
      (fun _ _ => rfl) rfl
  · refine .gap slot _ ?_ (.run next) executing zombie
    simp only [Sched.setControl, cpu]
  · exact fun other isOther member => apart other isOther (perm.mem_iff.mp member)

theorem reaperInv_assign (inv : ReaperInv s)
    (cpu : s.cpu = ⟨.slot slot, .exiting (.assign (some slot) next)⟩)
    (zombie : s.zombie = some slot) :
    ReaperInv ({ s with executingProcess := some next }.setControl
      (.exiting (.switch (some slot) next))) := by
  have held : s.held = [next] := by
    simp only [Sched.held, cpu]
  have waiting := inv.waiting
  rw [held] at waiting
  obtain ⟨alone, nodup⟩ := List.nodup_cons.mp waiting.nodup
  have different : next ≠ slot := by
    rintro rfl
    exact waiting.zombie _ zombie List.mem_cons_self
  refine ⟨?_, ?_, ?_, ?_, ?_⟩
  · exact waiting.weaken rfl rfl (fun _ unused => unused) nodup
      (fun _ member => List.mem_cons_of_mem _ member) (fun _ _ => rfl) rfl
  · refine .switch slot next ?_ rfl different (.inl zombie)
      (waiting.resumable next List.mem_cons_self)
    simp only [Sched.setControl, cpu]
  · rintro other isOther
    obtain rfl := Option.some.inj isOther
    exact alone
  · rintro other isOther
    obtain rfl := Option.some.inj isOther
    exact ⟨fun freed => waiting.freed _ freed List.mem_cons_self,
      waiting.used _ (.inl List.mem_cons_self)⟩
  · rintro other isOther isZombie
    obtain rfl := Option.some.inj isOther
    exact absurd (Option.some.inj (isZombie.symm.trans zombie)) different

theorem reaperInv_leaveTo (env : SwitchEnv) (inv : ReaperInv s)
    (cpu : s.cpu = ⟨.slot slot, .exiting (.switch (some slot) next)⟩)
    (executing : s.executingProcess = some next) (different : next ≠ slot)
    (gone : s.zombie = some slot ∨ s.Freed slot)
    (saved : Resumable next (s.saved (.slot next))) :
    ReaperInv (s.contextSwitch env (some (.slot slot)) (.slot next)) := by
  have held : s.held = [] := by
    simp only [Sched.held, cpu]
  have waiting := inv.waiting
  have apart := inv.apart next executing
  obtain ⟨notFreed, inUse⟩ := inv.alive next executing
  rw [held] at waiting apart
  have notZombie : s.zombie ≠ some next := by
    intro isZombie
    obtain ⟨point, control, inGap⟩ := inv.notZombie next executing isZombie
    rw [cpu] at control
    cases control
    exact inGap
  have absent : slot ∉ s.readyQueue.contents := by
    rcases gone with isZombie | freed
    · exact waiting.zombie slot isZombie
    · exact waiting.freed slot freed
  have queued : Waiting s (next :: s.readyQueue.contents)
      (Function.update s.saved (.slot next) (s.saved (.slot next))) :=
    waiting.push rfl rfl (fun _ unused => unused) (.refl _) apart notZombie notFreed
      inUse saved
  rw [Function.update_eq_self] at queued
  refine reaperInv_switch_slot env _ executing ?_
  refine queued.weaken rfl rfl (fun _ unused => unused) queued.nodup
    (fun _ member => member) ?_ ?_
  · intro other member
    have other_ne : other ≠ slot := by
      rintro rfl
      rcases List.mem_cons.mp member with rfl | waits
      · exact different rfl
      · exact absent waits
    exact Function.update_of_ne (fun same => other_ne (ProcPtr.slot.inj same)) ..
  · have kernel : ProcPtr.kernel ≠ .slot slot := ProcPtr.noConfusion
    exact Function.update_of_ne kernel s.cpu s.saved

theorem Sched.exitStep_eq (env : SwitchEnv) {point : ExitPoint}
    (control : s.cpu.control = .exiting point) :
    s.exitStep env = s.exitPoint env point := by
  simp only [exitStep, control]

theorem reaperInv_exitStep (env : SwitchEnv) (inv : ReaperInv s) :
    ReaperInv (s.exitStep env) := by
  cases inv.onCpu with
  | kernel cpu idle =>
      have stays : s.exitStep env = s := by
        simp only [Sched.exitStep, cpu]
      rw [stays]
      exact inv
  | process slot executing resumable =>
      have place := resumable.control
      generalize control : s.cpu.control = current at place
      cases place with
      | code =>
          have stays : s.exitStep env = s := by
            simp only [Sched.exitStep, control]
          rw [stays]
          exact inv
      | start =>
          rw [Sched.exitStep_eq env control]
          simp only [Sched.exitPoint, executing]
          exact reaperInv_setControl inv executing resumable ⟨resumable.owner, .mark⟩
      | mark =>
          rw [Sched.exitStep_eq env control]
          exact reaperInv_mark inv executing resumable
      | publish =>
          rw [Sched.exitStep_eq env control]
          exact reaperInv_publish inv executing resumable
  | gap slot point cpu place executing zombie =>
      rw [Sched.exitStep_eq env (congrArg Context.control cpu)]
      cases place with
      | test =>
          have held : s.held = [] := by
            simp only [Sched.held, cpu]
          simp only [Sched.exitPoint]
          split
          · exact reaperInv_gap inv cpu executing zombie held.symm .clear
          · exact reaperInv_gap inv cpu executing zombie held.symm .pop
      | clear => exact reaperInv_clear inv cpu
      | pop =>
          simp only [Sched.exitPoint]
          cases empty : s.readyQueue.pqIsEmpty with
          | true =>
              have nothing : PriorityQueue.pqPop s.priority s.readyQueue =
                  (none, s.readyQueue) := if_pos (of_decide_eq_true empty)
              rw [nothing]
              exact inv
          | false =>
              obtain ⟨next, rest, popped, perm⟩ :=
                PriorityQueue.pqPop_perm s.priority empty
              rw [popped]
              exact reaperInv_pop inv cpu executing zombie perm
      | run next =>
          have marked : Sched.Steady s (s.setState next .running) :=
            Sched.steady_setState s next (by decide)
          have held : s.held = [next] := by
            simp only [Sched.held, cpu]
          have ready : ReaperInv (s.setState next .running) := inv.setProcs marked.used
          exact reaperInv_gap ready cpu executing zombie held.symm (.assign next)
      | assign next => exact reaperInv_assign inv cpu zombie
  | leave slot cpu idle =>
      rw [Sched.exitStep_eq env (congrArg Context.control cpu)]
      exact reaperInv_switch_kernel env idle
        (inv.queued rfl rfl rfl rfl fun _ unused => unused)
  | switch slot next cpu executing different gone saved =>
      rw [Sched.exitStep_eq env (congrArg Context.control cpu)]
      exact reaperInv_leaveTo env inv cpu executing different gone saved

end Statements

theorem reaperInv_enlist {s : Sched} (inv : ReaperInv s) {slot : Slot}
    (inCode : s.cpu.control = .code) (unused : (s.procs slot).state = .unused)
    (sp : Word) (cr3 : Nat) (memory : PagingState) :
    ReaperInv (s.enlist slot sp cr3 memory) := by
  have held : s.held = [] := by
    simp only [Sched.held, inCode]
  have waiting := inv.waiting
  have apart := inv.apart
  rw [held] at waiting apart
  have pushed : (s.enlist slot sp cr3 memory).readyQueue.contents.Perm
      (slot :: s.readyQueue.contents) := PriorityQueue.pqPush_perm _ slot inv.room
  have ready : ((s.enlist slot sp cr3 memory).procs slot).state ≠ .unused := by
    simp [Sched.enlist]
  have others : ∀ other, other ≠ slot →
      (s.enlist slot sp cr3 memory).procs other = s.procs other :=
    fun other different => Function.update_of_ne different ..
  have used : ∀ other, ((s.enlist slot sp cr3 memory).procs other).state = .unused →
      (s.procs other).state = .unused := by
    intro other isUnused
    by_cases same : other = slot
    · subst same
      exact unused
    · rwa [others other same] at isUnused
  have fresh : ¬ (slot ∈ s.readyQueue.contents ∨ s.zombie = some slot ∨
      s.Freed slot) := fun known => waiting.used slot known unused
  obtain ⟨absent, notZombie, notFreed⟩ := by simpa only [not_or] using fresh
  have stays : ∀ other, s.executingProcess = some other → other ≠ slot := by
    rintro other executing rfl
    exact (inv.alive _ executing).2 unused
  refine ⟨?_, ?_, ?_, ?_, inv.notZombie⟩
  · have held : (s.enlist slot sp cr3 memory).held = [] := held
    have resumable : Resumable slot ⟨.slot slot, .code⟩ := ⟨rfl, .code⟩
    rw [held]
    refine waiting.push ?_ ?_ used pushed absent notZombie notFreed ready resumable
    · rfl
    · rfl
  · refine inv.onCpu.transfer rfl rfl (fun _ _ isZombie => isZombie)
      (fun _ gone => gone) fun other executing => ?_
    exact Function.update_of_ne (fun same =>
      stays other executing (ProcPtr.slot.inj same)) ..
  · intro other executing member
    have held : (s.enlist slot sp cr3 memory).held = [] := held
    rw [held] at member
    rcases List.mem_cons.mp (pushed.mem_iff.mp member) with rfl | waits
    · exact stays _ executing rfl
    · exact apart other executing waits
  · intro other executing
    rw [others other (stays other executing)]
    exact inv.alive other executing

theorem reaperInv_start (env : SwitchEnv) {s : Sched} (inv : ReaperInv s)
    (onKernel : s.cpu = ⟨.kernel, .code⟩) : ReaperInv (s.startProcesses env) := by
  unfold Sched.startProcesses
  split
  · exact inv
  · rename_i nonempty
    have waiting : Waiting s s.readyQueue.contents s.saved :=
      inv.queued rfl rfl rfl rfl fun _ unused => unused
    have saved : Function.update s.saved .kernel s.cpu = s.saved := by
      rw [onKernel, ← waiting.kernel, Function.update_eq_self]
    refine reaperInv_runNext env (some .kernel) (Bool.eq_false_iff.mpr nonempty) ?_
    simp only [Sched.saveContext, saved]
    exact waiting

theorem reaperInv_ret {s : Sched} (inv : ReaperInv s) {slot : Slot}
    (inCode : s.cpu = ⟨.slot slot, .code⟩) :
    ReaperInv (s.setControl (.exiting .start)) := by
  cases inv.onCpu with
  | process other executing resumable =>
      exact reaperInv_setControl inv executing resumable
        ⟨resumable.owner, .start⟩
  | kernel cpu _ => cases cpu.symm.trans inCode
  | gap other point cpu _ _ _ => cases cpu.symm.trans inCode
  | leave other cpu _ => cases cpu.symm.trans inCode
  | switch other next cpu _ _ _ _ => cases cpu.symm.trans inCode

theorem reaperInv_spin {s : Sched} (inv : ReaperInv s) (spinning : Byte) :
    ReaperInv (s.setSpinning spinning) := by
  unfold Sched.setSpinning
  split
  · exact inv
  · rename_i slot executing
    refine inv.setProcs fun other unused => ?_
    by_cases same : other = slot
    · subst same
      rwa [Function.update_self] at unused
    · rwa [Function.update_of_ne same] at unused

theorem reaperStep_inv {s after : Sched} {op : ReaperOp} (inv : ReaperInv s)
    (step : ReaperStep s op after) (misses : op.MissesGap s) : ReaperInv after := by
  cases step with
  | create inCode created =>
      obtain ⟨unused, sp, cr3, memory, rfl⟩ := Sched.createProcess_cases created
      exact reaperInv_enlist inv inCode unused sp cr3 memory
  | start onKernel => exact reaperInv_start _ inv onKernel
  | tick => exact reaperInv_tick _ inv misses
  | ret inCode => exact reaperInv_ret inv inCode
  | statement inExit => exact reaperInv_exitStep _ inv
  | spin inCode => exact reaperInv_spin inv _

structure ReaperFresh (s : Sched) : Prop where
  idle : s.executingProcess = none
  empty : s.readyQueue.size = 0
  noZombie : s.zombie = none
  past : s.log = []
  onKernel : s.cpu = ⟨.kernel, .code⟩
  kernel : s.saved .kernel = ⟨.kernel, .code⟩

theorem reaperInv_fresh {s : Sched} (fresh : ReaperFresh s) : ReaperInv s := by
  have held : s.held = [] := by
    simp only [Sched.held, fresh.onKernel]
  have contents : s.readyQueue.contents = [] :=
    PriorityQueue.contents_eq_nil (decide_eq_true fresh.empty)
  have idle : ∀ slot, s.executingProcess ≠ some slot := by
    intro slot executing
    cases fresh.idle.symm.trans executing
  have notFreed : ∀ slot, ¬ s.Freed slot := by
    rintro slot ⟨executing, ready, event⟩
    rw [fresh.past] at event
    cases event
  refine ⟨?_, .kernel fresh.onKernel fresh.idle,
    fun slot executing => absurd executing (idle slot),
    fun slot executing => absurd executing (idle slot),
    fun slot executing => absurd executing (idle slot)⟩
  rw [held, contents]
  refine ⟨List.nodup_nil, fun _ _ => List.not_mem_nil, fun _ _ => List.not_mem_nil,
    ?_, fun _ member => absurd member List.not_mem_nil, fresh.kernel, ?_⟩
  · rintro slot (member | isZombie | freed)
    · cases member
    · cases fresh.noZombie.symm.trans isZombie
    · exact absurd freed (notFreed slot)
  · rw [fresh.past]
    trivial

/-- In every run whose ticks miss the gap, whoever was freed neither executed nor
waited then, and no freed process got the CPU. -/
theorem reaper_safe_run {start : Sched} (fresh : ReaperFresh start)
    {ops : List ReaperOp} {last : Sched}
    (run : Run (fun s op after => ReaperStep s op after ∧ op.MissesGap s) start ops
      last) :
    ReaperSafe last.log :=
  (run.invariant ReaperInv (fun _ _ _ inv step => reaperStep_inv inv step.1 step.2)
    (reaperInv_fresh fresh)).waiting.safe

theorem reaperFresh_bootSched (memory : PagingState) :
    ReaperFresh (bootSched memory) := ⟨rfl, rfl, rfl, rfl, rfl, rfl⟩

/-- One process is created and started, its entry returns, and a tick comes before the
zombie is announced. -/
theorem reaper_safe_run_early_tick :
    ∃ ops last, ops.length = 6 ∧
      Run (fun s op after => ReaperStep s op after ∧ op.MissesGap s)
        (bootSched smallMemory) ops last ∧ ReaperSafe last.log := by
  obtain ⟨after, created⟩ := createProcess_bootSched
  obtain ⟨-, sp, cr3, memory, rfl⟩ := Sched.createProcess_cases created
  have run : Run (fun s op after => ReaperStep s op after ∧ op.MissesGap s)
      (bootSched smallMemory)
      [.create eightPages 0x100000 0x8000 0x9000, .start ⟨0, .code⟩, .ret,
        .statement ⟨0, .code⟩, .statement ⟨0, .code⟩, .tick ⟨0, .code⟩ 100] _ :=
    .next ⟨.create rfl created, trivial⟩ <| .next ⟨.start rfl, trivial⟩ <|
      .next ⟨.ret rfl, trivial⟩ <| .next ⟨.statement rfl, trivial⟩ <|
      .next ⟨.statement rfl, trivial⟩ <| .next ⟨.tick, id⟩ (.done _)
  exact ⟨_, _, rfl, run, reaper_safe_run (reaperFresh_bootSched smallMemory) run⟩

theorem ReaperSafe.of_append {events earlier : List Event}
    (safe : ReaperSafe (events ++ earlier)) : ReaperSafe earlier := by
  induction events with
  | nil => exact safe
  | cons event events ih =>
      cases event with
      | freed slot executing ready => exact ih safe.2.2
      | dispatched next =>
          cases next with
          | kernel => exact ih safe
          | slot next => exact ih safe.2

theorem Sched.runNext_log (env : SwitchEnv) (curr : Option ProcPtr) (s : Sched) :
    ∃ events, (s.runNext env curr).log = events ++ s.log := by
  unfold runNext
  split
  · exact ⟨[], rfl⟩
  · exact ⟨[_], contextSwitch_log ..⟩

theorem Sched.scheduler_log (env : SwitchEnv) (timeSlice : Int) (s : Sched) :
    ∃ events, (s.scheduler env timeSlice).log = events ++ s.reap.log := by
  cases executing : s.executingProcess with
  | none =>
      have idle : s.scheduler env timeSlice = s.reap := by
        simp only [scheduler, s.reap_eq.2.2.1, executing]
      exact ⟨[], by rw [idle, List.nil_append]⟩
  | some prev =>
      rw [scheduler_eq env timeSlice executing]
      simp only
      split
      · split
        · exact ⟨[_], contextSwitch_log ..⟩
        · exact runNext_log ..
      · split
        · exact ⟨[], rfl⟩
        · exact runNext_log ..

theorem not_reaperSafe_tick (env : SwitchEnv) (timeSlice : Int) {s : Sched}
    {slot : Slot} (isZombie : s.zombie = some slot)
    (executing : s.executingProcess = some slot) :
    ¬ ReaperSafe (s.scheduler env timeSlice).log := by
  intro safe
  obtain ⟨events, log⟩ := s.scheduler_log env timeSlice
  rw [log] at safe
  have reaped : s.reap.log =
      .freed slot s.executingProcess s.readyQueue.contents :: s.log := by
    simp only [Sched.reap, isZombie, Sched.freeProc]
  have away := safe.of_append
  rw [reaped] at away
  exact away.1 executing

/-- One process is created and started, its entry returns, and a tick comes right
behind `zombie = dying`. -/
theorem running_process_freed :
    ∃ last, Run ReaperStep (bootSched smallMemory)
      [.create eightPages 0x100000 0x8000 0x9000, .start ⟨0, .code⟩, .ret,
        .statement ⟨0, .code⟩, .statement ⟨0, .code⟩, .statement ⟨0, .code⟩,
        .tick ⟨0, .code⟩ 100] last ∧ ¬ ReaperSafe last.log := by
  obtain ⟨after, created⟩ := createProcess_bootSched
  obtain ⟨-, sp, cr3, memory, rfl⟩ := Sched.createProcess_cases created
  refine ⟨_, .next (.create rfl created) <| .next (.start rfl) <| .next (.ret rfl) <|
    .next (.statement rfl) <| .next (.statement rfl) <| .next (.statement rfl) <|
    .next .tick (.done _), ?_⟩
  exact not_reaperSafe_tick _ _ rfl rfl

end LazyOS.Scheduling

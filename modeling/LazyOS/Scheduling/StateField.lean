import LazyOS.Scheduling.Reaping

namespace LazyOS.Scheduling

open LazyOS.Data
open LazyOS.Memory

/-! The state field of the processes, after any sequence of calls. -/

def SchedOp.LeavesCpu (life : Life) : SchedOp → Prop
  | .create _ _ _ _ | .spin _ => life.sched.executingProcess = none
  | .start _ =>
      life.sched.executingProcess = none ∧ life.sched.readyQueue.pqIsEmpty = true
  | .tick _ timeSlice =>
      life.sched.executingProcess = none ∨
        life.sched.expiring timeSlice ≠ none ∧ life.sched.readyQueue.pqIsEmpty = true
  | .exit _ => life.sched.readyQueue.pqIsEmpty = true

theorem Sched.dispatch_idle_iff (env : SwitchEnv) (curr : Option ProcPtr) (s : Sched) :
    (if s.readyQueue.pqIsEmpty then s.runKernel env
      else s.runNext env curr).executingProcess = none ↔
        s.readyQueue.pqIsEmpty = true := by
  cases empty : s.readyQueue.pqIsEmpty with
  | true => exact iff_of_true (contextSwitch_executingProcess ..) rfl
  | false => exact iff_of_false (runNext_busy env curr empty) Bool.false_ne_true

theorem tick_idle_iff {life : Life} (inv : CensusInv life.census) (env : SwitchEnv)
    (timeSlice : Int) :
    (life.sched.scheduler env timeSlice).executingProcess = none ↔
      (SchedOp.tick env timeSlice).LeavesCpu life := by
  obtain ⟨-, queue, exec, -⟩ := life.sched.reap_eq
  simp only [SchedOp.LeavesCpu, Sched.expiring]
  cases executing : life.sched.executingProcess with
  | none =>
      refine iff_of_true ?_ (.inl rfl)
      simp only [Sched.scheduler, exec, executing]
  | some prev =>
      rw [Sched.scheduler_eq env timeSlice executing]
      simp only [Option.filter_some, decide_eq_true_eq, reduceCtorEq, false_or]
      have sameQueue : ∀ burstTime,
          (life.sched.reap.setBurst prev burstTime).readyQueue =
            life.sched.readyQueue := fun _ => queue
      by_cases expired : life.sched.burstAfter timeSlice prev ≤ 0
      · rw [if_pos expired, if_pos expired]
        have goes := Sched.dispatch_idle_iff env none
          ((life.sched.reap.setBurst prev
            (life.sched.burstAfter timeSlice prev)).setState prev .terminated)
        refine goes.trans ?_
        simp only [Sched.setState, sameQueue, ne_eq, reduceCtorEq, not_false_eq_true,
          true_and]
      · rw [if_neg expired, if_neg expired]
        refine iff_of_false ?_ fun both => both.1 rfl
        split
        · intro idle
          cases (exec.trans executing).symm.trans idle
        · exact Sched.runNext_busy env _
            (PriorityQueue.pqPush_nonempty _ prev (sameQueue _ ▸ inv.room))

theorem call_idle_iff {life : Life} (inv : CensusInv life.census) (op : SchedOp) :
    (life.call op).sched.executingProcess = none ↔ op.LeavesCpu life := by
  cases op with
  | create heap kernelDirectory entry exitAddress =>
      cases result : life.sched.createProcess heap kernelDirectory entry
          exitAddress with
      | mk slot after =>
          rw [Life.call_create result]
          cases slot with
          | none =>
              obtain ⟨memory, rfl⟩ := Sched.createProcess_fails result
              exact Iff.rfl
          | some slot =>
              obtain ⟨-, sp, cr3, memory, rfl⟩ := Sched.createProcess_cases result
              exact Iff.rfl
  | start env =>
      simp only [Life.call, SchedOp.LeavesCpu, Sched.startProcesses]
      cases empty : life.sched.readyQueue.pqIsEmpty with
      | true => simp
      | false =>
          refine iff_of_false (Sched.runNext_busy env _ empty) ?_
          exact fun both => Bool.false_ne_true both.2
  | tick env timeSlice => exact tick_idle_iff inv env timeSlice
  | exit env =>
      simp only [Life.call, SchedOp.LeavesCpu, Sched.processExit]
      cases executing : life.sched.executingProcess with
      | none => exact Sched.dispatch_idle_iff env none { life.sched with zombie := none }
      | some dying =>
          exact Sched.dispatch_idle_iff env (some (.slot dying))
            { life.sched.setState dying .terminated with zombie := some dying }
  | spin spinning =>
      simp only [Life.call, SchedOp.LeavesCpu, Sched.setSpinning]
      cases executing : life.sched.executingProcess with
      | none => exact iff_of_true executing rfl
      | some slot => exact iff_of_false (by simp) (by simp)

/-- In every state of every run waiting processes are marked ready and ended ones
terminated; the executing process is not marked running, so that the field is right
exactly while no process has the CPU. -/
theorem state_field_truthful {start : Sched} (booted : Booted start)
    {ops : List SchedOp} {life : Life}
    (run : Run CallStep ⟨start, [], []⟩ ops life) :
    (life.census.Truthful ↔ life.sched.executingProcess = none) ∧
    ∀ op, (life.call op).census.Truthful ↔ op.LeavesCpu life := by
  have inv := callRun_inv booted run
  refine ⟨inv.truthful_iff, fun op => ?_⟩
  exact (call_inv inv op).truthful_iff.trans (call_idle_iff inv op)

theorem state_field_truthful_before_start :
    ∃ life, Run CallStep ⟨bootSched smallMemory, [], []⟩
      [.create eightPages 0x100000 0x8000 0x9000] life ∧
      life.sched.readyQueue.contents = [0] ∧ life.census.Truthful := by
  obtain ⟨sp, cr3, memory, first⟩ := call_create_bootSched
  have run : Run CallStep ⟨bootSched smallMemory, [], []⟩
      [.create eightPages 0x100000 0x8000 0x9000] _ := .next first.symm (.done _)
  obtain ⟨truthful, -⟩ := state_field_truthful (booted_bootSched smallMemory) run
  exact ⟨_, run, rfl, truthful.mpr rfl⟩

theorem executing_process_marked_terminated :
    ∃ ops life, Run CallStep ⟨bootSched smallMemory, [], []⟩ ops life ∧
      ¬ life.census.Truthful := by
  obtain ⟨sp, cr3, memory, first⟩ := call_create_bootSched
  have run : Run CallStep ⟨bootSched smallMemory, [], []⟩
      [.create eightPages 0x100000 0x8000 0x9000, .start ⟨0, .code⟩] _ :=
    .next first.symm <| .next rfl (.done _)
  refine ⟨_, _, run, fun truthful => ?_⟩
  have claimed := truthful.executing 0 rfl
  exact ProcessState.noConfusion claimed

end LazyOS.Scheduling

import LazyOS.Scheduling.Lifecycle

namespace LazyOS.Scheduling

open LazyOS.Data
open LazyOS.Memory

/-! `process_exit` statement by statement.  Interrupts are on while it runs, so the
clock may tick before any of its statements. -/

namespace Sched

def exitPoint (env : SwitchEnv) (s : Sched) : ExitPoint → Sched
  | .start => s.setControl (.exiting (.mark s.executingProcess))
  | .mark none => s.setControl (.exiting (.publish none))
  | .mark (some dying) =>
      (s.setState dying .terminated).setControl (.exiting (.publish (some dying)))
  | .publish dying => { s with zombie := dying }.setControl (.exiting (.test dying))
  | .test dying =>
      if s.readyQueue.pqIsEmpty then s.setControl (.exiting (.clear dying))
      else s.setControl (.exiting (.pop dying))
  | .clear dying =>
      { s with executingProcess := none }.setControl (.exiting (.leave dying))
  | .leave _ => s.contextSwitch env none .kernel
  | .pop dying =>
      match PriorityQueue.pqPop s.priority s.readyQueue with
      | (none, _) => s
      | (some next, queue) =>
          { s with readyQueue := queue }.setControl (.exiting (.run dying next))
  | .run dying next =>
      (s.setState next .running).setControl (.exiting (.assign dying next))
  | .assign dying next =>
      { s with executingProcess := some next }.setControl
        (.exiting (.switch dying next))
  | .switch dying next => s.contextSwitch env (dying.map .slot) (.slot next)

def exitStep (env : SwitchEnv) (s : Sched) : Sched :=
  match s.cpu.control with
  | .code => s
  | .exiting point => s.exitPoint env point

def exitSteps (env : SwitchEnv) : (statements : Nat) → Sched → Sched
  | 0, s => s
  | statements + 1, s => exitSteps env statements (s.exitStep env)

theorem exitSteps_setControl (env : SwitchEnv) (statements : Nat) (s : Sched)
    (point : ExitPoint) :
    exitSteps env (statements + 1) (s.setControl (.exiting point)) =
      exitSteps env statements ((s.setControl (.exiting point)).exitPoint env point) :=
  rfl

theorem contextSwitch_setControl (env : SwitchEnv) {dying next : Slot} (s : Sched)
    (control : Control) (different : next ≠ dying) :
    (s.setControl control).contextSwitch env (some (.slot dying)) (.slot next) =
      { s.contextSwitch env (some (.slot dying)) (.slot next) with
        saved := Function.update
          (s.contextSwitch env (some (.slot dying)) (.slot next)).saved (.slot dying)
          ⟨s.cpu.owner, control⟩ } := by
  have other : (ProcPtr.slot next) ≠ .slot dying := fun same =>
    different (ProcPtr.slot.inj same)
  simp only [contextSwitch, saveContext, markRunning, loadContext, setControl, setState,
    Function.update_of_ne other, Function.update_idem]

/-- Without a tick in between the statements are `process_exit`: only the place where
the dying context would go on is another. -/
theorem exitSteps_eq_processExit (env : SwitchEnv) {s : Sched} {dying : Slot}
    (executing : s.executingProcess = some dying)
    (alone : dying ∉ s.readyQueue.contents) :
    ∃ statements context,
      exitSteps env statements (s.setControl (.exiting .start)) =
        { s.processExit env with
          saved := Function.update (s.processExit env).saved (.slot dying) context } := by
  by_cases empty : s.readyQueue.pqIsEmpty = true
  · refine ⟨6, (s.processExit env).saved (.slot dying), ?_⟩
    rw [Function.update_eq_self]
    simp only [processExit, executing, exitSteps, exitStep, exitPoint, setControl,
      setState, empty, if_true, runKernel, contextSwitch, saveContext, markRunning,
      loadContext]
  · obtain ⟨next, rest, popped, perm⟩ := PriorityQueue.pqPop_perm
      (s.setState dying .terminated).priority (Bool.eq_false_iff.mpr empty)
    have different : next ≠ dying := by
      rintro rfl
      exact alone (perm.mem_iff.mp List.mem_cons_self)
    refine ⟨8, ⟨s.cpu.owner, .exiting (.switch (some dying) next)⟩, ?_⟩
    generalize published : ({
      s.setState dying .terminated with zombie := some dying } : Sched) = gone
    have pop : PriorityQueue.pqPop gone.priority gone.readyQueue =
        (some next, rest) := by
      rw [← published]
      exact popped
    have atomic : s.processExit env =
        contextSwitch env (some (.slot dying)) (.slot next)
          { gone.setState next .running with
            readyQueue := rest
            executingProcess := some next } := by
      have test : ¬ (s.setState dying .terminated).readyQueue.pqIsEmpty = true := empty
      simp only [processExit, executing, published, if_neg test]
      simp only [runNext, pop, Option.map_some]
    have upToTest : exitSteps env 8 (s.setControl (.exiting .start)) =
        exitSteps env 4 (gone.setControl (.exiting (.pop (some dying)))) := by
      rw [← published]
      simp only [exitSteps, exitStep, exitPoint, setControl, setState, executing,
        if_neg empty]
    have pops : (gone.setControl (.exiting (.pop (some dying)))).exitPoint env
        (.pop (some dying)) =
          { gone with readyQueue := rest }.setControl
            (.exiting (.run (some dying) next)) := by
      have pop : PriorityQueue.pqPop
          (gone.setControl (.exiting (.pop (some dying)))).priority
          (gone.setControl (.exiting (.pop (some dying)))).readyQueue =
            (some next, rest) := pop
      simp only [exitPoint, pop]
      rfl
    have owner : gone.cpu = s.cpu := by
      rw [← published]
      rfl
    rw [upToTest, exitSteps_setControl, pops, atomic, ← owner]
    exact contextSwitch_setControl env { gone.setState next .running with
      readyQueue := rest
      executingProcess := some next } _ different

end Sched

end LazyOS.Scheduling

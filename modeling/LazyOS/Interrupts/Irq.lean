import LazyOS.Interrupts.ContextSwitch

namespace LazyOS.Interrupts

open LazyOS.Data

/-! Hardware interrupts, from `idt.asm`: what the code they strike finds changed. -/

inductive Irq where
  | irq0
  | irq1

open World

structure Stays (p : Word) (w after : World) : Prop where
  cr3 : after.cr3 = w.cr3
  directory : after.directory p = w.directory p

/-- The handler in C, from its first instruction to its return.  It follows cdecl, with
the call of `context_switch` in it if that does; only the clock makes this call. -/
inductive Serves (p : Word) : Irq → World → World → Prop
  | straight {irq : Irq} {w after : World} (stays : Stays p w after)
      (cdecl : Cdecl w.core after.core) : Serves p irq w after
  | switched {w called returned after : World} (enters : Stays p w called)
      (resumes : Resumes p called returned) (leaves : Stays p returned after)
      (cdecl : Cdecl called.core returned.core → Cdecl w.core after.core) :
      Serves p .irq0 w after

def endOfInterrupt : Byte := 0x20

def stubEntry (stub handler back : Word) (c : Core) : Core :=
  (c.interrupt stub).pusha.call handler back

/-- An interrupt from where it strikes to the `iret` of the stub.  A switch turns
interrupts on again, so that `detour` may come before every instruction that is left. -/
inductive Interrupted (p : Word) (detour : World → World → Prop) :
    World → World → Prop
  | mk {w served popad moved sent left : World} {irq : Irq} {stub handler back : Word}
      (serves : Serves p irq (w.onCore (stubEntry stub handler back)) served)
      (beforePopad : detour served popad)
      (beforeMov : detour (popad.onCore Core.popa) moved)
      (beforeOut : detour (moved.onCore fun c => c.setAl endOfInterrupt) sent)
      (beforeIret : detour sent left) :
      Interrupted p detour w (left.onCore Core.iret)

/-- An interrupt with others in it, nested no deeper than `depth`. -/
def Handled (p : Word) : (depth : Nat) → World → World → Prop
  | 0 => Interrupted p Eq
  | depth + 1 => Interrupted p (Relation.ReflTransGen (Handled p depth))

section Stub

variable {p : Word} {w after : World}

theorem Stays.running (stays : Stays p w after) (running : Running p w) :
    Running p after := by
  refine ⟨running.process, ?_, ?_⟩
  · rw [stays.directory]
    exact running.mapped
  · rw [stays.cr3, stays.directory]
    exact running.loaded

theorem World.Running.onCore (running : Running p w) (instruction : Core → Core) :
    Running p (w.onCore instruction) :=
  ⟨running.process, running.mapped, running.loaded⟩

theorem Serves.cdecl {irq : Irq} (running : Running p w)
    (serves : Serves p irq w after) : Cdecl w.core after.core ∧ Running p after := by
  cases serves with
  | straight stays cdecl => exact ⟨cdecl, stays.running running⟩
  | switched enters resumes leaves cdecl =>
      obtain ⟨called, returned⟩ := resumes.cdecl (enters.running running)
      exact ⟨cdecl called, leaves.running returned⟩

/-- What may come in between: the context is as before, but for the low byte of
`eax`. -/
def Transparent (p : Word) (detour : World → World → Prop) : Prop :=
  ∀ w after, Running p w → detour w after →
    Running p after ∧
      (after.core = w.core ∨ after.core = w.core.setAl endOfInterrupt)

theorem Transparent.setAl {detour : World → World → Prop} {c : Core}
    (transparent : Transparent p detour) (running : Running p w) (came : detour w after)
    (core : w.core = c.setAl endOfInterrupt) :
    Running p after ∧ after.core = c.setAl endOfInterrupt := by
  obtain ⟨still, same | moved⟩ := transparent w after running came
  · exact ⟨still, same.trans core⟩
  · rw [core, Core.setAl_setAl] at moved
    exact ⟨still, moved⟩

theorem Interrupted.core {detour : World → World → Prop}
    (transparent : Transparent p detour) (running : Running p w)
    (interrupted : Interrupted p detour w after) :
    Running p after ∧ after.core = w.core.setAl endOfInterrupt := by
  cases interrupted with
  | @mk served popad moved sent left irq stub handler back serves beforePopad beforeMov
      beforeOut beforeIret =>
      obtain ⟨cdecl, runs⟩ := serves.cdecl (running.onCore _)
      have esp : served.core.regs.esp = (w.core.interrupt stub).pusha.regs.esp := by
        rw [cdecl.esp]
        simp only [onCore, stubEntry, Core.call, Core.push_regs]
        bv_omega
      have stack : served.core.stack = (w.core.interrupt stub).pusha.stack := cdecl.stack
      obtain ⟨runs, core⟩ := transparent _ _ runs beforePopad
      have restored : popad.core.popa.regs = (w.core.interrupt stub).regs ∧
          popad.core.popa.stack = (w.core.interrupt stub).stack := by
        cases core with
        | inl same =>
            rw [same]
            exact ⟨Core.popa_regs esp stack, Core.popa_stack stack⟩
        | inr moved =>
            rw [moved]
            exact ⟨Core.popa_regs esp stack, Core.popa_stack stack⟩
      obtain ⟨runs, core⟩ := transparent _ _ (runs.onCore Core.popa) beforeMov
      have loaded : moved.core.setAl endOfInterrupt =
          popad.core.popa.setAl endOfInterrupt := by
        cases core with
        | inl same =>
            rw [same]
            rfl
        | inr moved =>
            rw [moved, Core.setAl_setAl]
            rfl
      obtain ⟨runs, core⟩ := transparent.setAl (runs.onCore _) beforeOut loaded
      obtain ⟨runs, core⟩ := transparent.setAl runs beforeIret core
      refine ⟨runs.onCore _, ?_⟩
      simp only [onCore, core, Core.iret_setAl]
      rw [Core.iret_eq restored.1 restored.2]

/-- However many interrupts come while one is handled, the code it struck goes on with
its own context, but for the low byte of `eax`. -/
theorem Handled.core {depth : Nat} (running : Running p w)
    (handled : Handled p depth w after) :
    Running p after ∧ after.core = w.core.setAl endOfInterrupt := by
  induction depth generalizing w after with
  | zero =>
      refine Interrupted.core ?_ running handled
      rintro _ _ runs rfl
      exact ⟨runs, .inl rfl⟩
  | succ depth ih =>
      refine Interrupted.core ?_ running handled
      intro first last runs detour
      induction detour with
      | refl => exact ⟨runs, .inl rfl⟩
      | tail _ last before =>
          obtain ⟨runs, core⟩ := before
          obtain ⟨still, moved⟩ := ih runs last
          refine ⟨still, .inr ?_⟩
          cases core with
          | inl same => rw [moved, same]
          | inr other => rw [moved, other, Core.setAl_setAl]

/-- Interrupted code resumes with its registers exactly when the low byte of its `eax`
is the byte the stub sends. -/
theorem interrupted_registers_iff {depth : Nat} (running : Running p w)
    (handled : Handled p depth w after) :
    (after.core.regs = w.core.regs ∧ after.core.eip = w.core.eip) ↔
      w.core.al = endOfInterrupt := by
  obtain ⟨-, core⟩ := handled.core running
  rw [core, ← Core.setAl_regs_iff]
  exact ⟨fun both => both.1, fun regs => ⟨regs, rfl⟩⟩

theorem resumes_other {next : Word} (curr : w.core.peek 1 = p)
    (goes : w.core.peek 2 = next) (other : next ≠ p) (mapped : w.directory next ≠ 0)
    (apart : w.directory next ≠ w.directory p) : ∃ back, Resumes p w back := by
  obtain ⟨-, -, saved⟩ := w.saveContext_cr3
  have directory : w.contextSwitch.directory p = w.directory p :=
    congrFun w.contextSwitch_fields.2.1 p
  have cr3 : w.contextSwitch.cr3 = w.directory next := by
    rw [contextSwitch, goes, loadContext_cr3 (saved ▸ mapped), saved]
  have away : w.contextSwitch.cr3 ≠ w.directory p := cr3 ▸ apart
  generalize switched : w.contextSwitch = others at directory away
  have gives : Elsewhere p others
      (others.onCore fun c => { c with stack := [0, next, p] }) :=
    .code rfl rfl rfl (directory ▸ away)
  rw [← switched] at away gives
  exact ⟨_, .later curr (goes ▸ other) away (Relation.ReflTransGen.single gives) other rfl⟩

theorem cdecl_of_switch {entry returned : Core} {p next : Word}
    (cdecl : Cdecl (((entry.push next).push p).call 0 0) returned) :
    Cdecl entry (returned.discard 2).ret := by
  have stack : returned.stack = [p, next] ++ entry.stack := cdecl.stack
  refine ⟨?_, ?_, ?_, cdecl.ebx, cdecl.esi, cdecl.edi, cdecl.ebp⟩
  · simp only [Core.ret, Core.discard, Core.peek, stack]
    rfl
  · simp only [Core.ret, Core.discard, cdecl.esp, Core.call, Core.push_regs]
    bv_omega
  · simp only [Core.ret, Core.discard, stack]
    rfl

theorem handled_switch (next : Word) (other : next ≠ p) (mapped : w.directory next ≠ 0)
    (apart : w.directory next ≠ w.directory p) : ∃ after, Handled p 0 w after := by
  have called : ∃ back, Resumes p
      ((w.onCore (stubEntry 0 0 0)).onCore fun c => ((c.push next).push p).call 0 0)
      back := resumes_other rfl rfl other mapped apart
  obtain ⟨back, resumes⟩ := called
  have enters : Stays p (w.onCore (stubEntry 0 0 0))
      ((w.onCore (stubEntry 0 0 0)).onCore fun c => ((c.push next).push p).call 0 0) :=
    ⟨rfl, rfl⟩
  have leaves : Stays p back (back.onCore fun c => (c.discard 2).ret) := ⟨rfl, rfl⟩
  have serves : Serves p .irq0 (w.onCore (stubEntry 0 0 0))
      (back.onCore fun c => (c.discard 2).ret) :=
    .switched enters resumes leaves cdecl_of_switch
  exact ⟨_, .mk serves rfl rfl rfl rfl⟩

def twoProcesses (eax : Word) : World where
  core := ⟨⟨0, 0, 0, 0x10001ff0, 0, 0, 0, eax⟩, 0x101000, 8, 0x202, [0, 0]⟩
  cr3 := 0x1000
  memory := fun _ _ => []
  sp := fun _ => 0
  directory := fun p => 0x1000 * p
  state := fun _ => .ready

theorem running_twoProcesses (eax : Word) : Running 1 (twoProcesses eax) :=
  ⟨by decide, (by decide : (0x1000 * 1 : Word) ≠ 0), rfl⟩

theorem interrupted_registers_iff_byte :
    ∃ after, Handled 1 0 (twoProcesses 0x20) after ∧
      after.core.regs = (twoProcesses 0x20).core.regs ∧
      after.core.eip = (twoProcesses 0x20).core.eip := by
  obtain ⟨after, handled⟩ : ∃ after, Handled 1 0 (twoProcesses 0x20) after :=
    handled_switch 2 (by decide) (by decide) (by decide)
  refine ⟨after, handled, ?_⟩
  exact (interrupted_registers_iff (running_twoProcesses 0x20) handled).mpr (by decide)

theorem interrupted_eax_lost :
    ∃ after, Handled 1 0 (twoProcesses 0) after ∧
      after.core.regs.eax = 0x20 ∧
      ¬ (after.core.regs = (twoProcesses 0).core.regs ∧
        after.core.eip = (twoProcesses 0).core.eip) := by
  obtain ⟨after, handled⟩ : ∃ after, Handled 1 0 (twoProcesses 0) after :=
    handled_switch 2 (by decide) (by decide) (by decide)
  obtain ⟨-, core⟩ := handled.core (running_twoProcesses 0)
  refine ⟨after, handled, ?_, fun intact => ?_⟩
  · rw [core]
    decide
  · have eax := congrArg Registers.eax intact.1
    rw [core] at eax
    exact absurd eax (by decide)

end Stub

end LazyOS.Interrupts

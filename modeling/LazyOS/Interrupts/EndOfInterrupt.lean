import LazyOS.Data.Run
import LazyOS.Interrupts.Routing

namespace LazyOS.Interrupts

open LazyOS.Data

/-! Ends of interrupt.  Each wrapper sends one to the master after its C handler has sent
its own, the keyboard sends three, and interrupts may be on again in between. -/

inductive Action where
  | eoi
  | cli
  | sti
  | scheduler
  | exit
  | halt
deriving DecidableEq

/-- The wrappers with the handlers they call.  A key that is let go is answered at once;
the escape key saves a file, with the clock read on the way. -/
inductive Runs : Wrapper → List Action → Prop
  | timer : Runs .irq0 [.eoi, .scheduler, .eoi]
  | released : Runs .irq1 [.eoi, .eoi]
  | pressed : Runs .irq1 [.eoi, .eoi, .eoi]
  | saved : Runs .irq1 [.eoi, .cli, .sti, .eoi, .eoi]
  | noInterrupt : Runs .noInterrupt [.eoi, .eoi]
  | killed (vector : Fin 32) : Runs (.isr vector) [.cli, .exit]
  | halted (vector : Fin 32) : Runs (.isr vector) [.cli, .halt]

structure Entered where
  vector : Byte
  actions : List Action

/-- `running` is what has been entered on the stack in use, innermost first; the other
stacks wait for a switch. -/
structure IrqState where
  pics : PicPair
  interruptsOn : Bool
  running : List Entered
  parked : List (List Entered)

inductive Event where
  | request (irq : Fin 16)
  | interrupt (vector : Byte)
  | fault (vector : Fin 32)
  | eoi
  | code

/-- The processor, the controllers and the kernel.  `address`, `idtr` and `memory` are
where it finds the wrappers. -/
inductive EventStep (address : Wrapper → Word) (idtr : IdtrDesc) (memory : Nat → Byte) :
    IrqState → Event → IrqState → Prop
  | request (s : IrqState) {irq : Fin 16} (wired : irq ≠ 2) :
      EventStep address idtr memory s (.request irq) { s with pics := s.pics.request irq }
  | interrupt {s : IrqState} {vector : Byte} {pics : PicPair} {gate : Gate}
      {wrapper : Wrapper} {actions : List Action} (on : s.interruptsOn = true)
      (acknowledged : s.pics.acknowledge = some (vector, pics))
      (found : gateOf idtr memory vector = some gate) (leads : gate.offset = address wrapper)
      (runs : Runs wrapper actions) :
      EventStep address idtr memory s (.interrupt vector)
        { s with
          pics := pics
          interruptsOn := s.interruptsOn && gate.gateType != 0xE
          running := ⟨vector, actions⟩ :: s.running }
  /-- An exception in the code of a process or of the kernel. -/
  | fault {s : IrqState} {vector : Fin 32} {gate : Gate} {wrapper : Wrapper}
      {actions : List Action} (process : s.running = [])
      (found : gateOf idtr memory (BitVec.ofNat 8 vector) = some gate)
      (leads : gate.offset = address wrapper) (runs : Runs wrapper actions) :
      EventStep address idtr memory s (.fault vector)
        { s with
          interruptsOn := s.interruptsOn && gate.gateType != 0xE
          running := [⟨BitVec.ofNat 8 vector, actions⟩] }
  | eoi {s : IrqState} {vector : Byte} {actions : List Action} {below : List Entered}
      (next : s.running = ⟨vector, .eoi :: actions⟩ :: below) :
      EventStep address idtr memory s .eoi
        { s with
          pics := outb s.pics pic1Command 0x20
          running := ⟨vector, actions⟩ :: below }
  | cli {s : IrqState} {vector : Byte} {actions : List Action} {below : List Entered}
      (next : s.running = ⟨vector, .cli :: actions⟩ :: below) :
      EventStep address idtr memory s .code
        { s with interruptsOn := false, running := ⟨vector, actions⟩ :: below }
  | sti {s : IrqState} {vector : Byte} {actions : List Action} {below : List Entered}
      (next : s.running = ⟨vector, .sti :: actions⟩ :: below) :
      EventStep address idtr memory s .code
        { s with interruptsOn := true, running := ⟨vector, actions⟩ :: below }
  | stays {s : IrqState} {vector : Byte} {actions : List Action} {below : List Entered}
      (next : s.running = ⟨vector, .scheduler :: actions⟩ :: below) :
      EventStep address idtr memory s .code { s with running := ⟨vector, actions⟩ :: below }
  /-- `context_switch` from the clock: it ends with `sti` on the other stack. -/
  | switches {s : IrqState} {vector : Byte} {actions : List Action}
      {below other : List Entered} {before after : List (List Entered)}
      (next : s.running = ⟨vector, .scheduler :: actions⟩ :: below)
      (waits : s.parked = before ++ other :: after) :
      EventStep address idtr memory s .code
        { s with
          interruptsOn := true
          running := other
          parked := before ++ after ++ [⟨vector, actions⟩ :: below] }
  /-- The same for a process whose time is up: its stack is not saved. -/
  | expires {s : IrqState} {vector : Byte} {actions : List Action}
      {below other : List Entered} {before after : List (List Entered)}
      (next : s.running = ⟨vector, .scheduler :: actions⟩ :: below)
      (waits : s.parked = before ++ other :: after) :
      EventStep address idtr memory s .code
        { s with interruptsOn := true, running := other, parked := before ++ after }
  /-- `process_exit`, from the code of a process or from the handler of exceptions. -/
  | exits {s : IrqState} {other : List Entered} {before after : List (List Entered)}
      (leaves : s.running = [] ∨
        ∃ vector actions below, s.running = ⟨vector, .exit :: actions⟩ :: below)
      (waits : s.parked = before ++ other :: after) :
      EventStep address idtr memory s .code
        { s with interruptsOn := true, running := other, parked := before ++ after }
  | starts {s : IrqState} {other : List Entered} {before after : List (List Entered)}
      (kernel : s.running = []) (waits : s.parked = before ++ other :: after) :
      EventStep address idtr memory s .code
        { s with
          interruptsOn := true
          running := other
          parked := before ++ after ++ [[]] }
  | creates (s : IrqState) :
      EventStep address idtr memory s .code { s with parked := s.parked ++ [[]] }
  /-- `enable_interrupts`, from the code of the kernel. -/
  | enables {s : IrqState} (kernel : s.running = []) :
      EventStep address idtr memory s .code { s with interruptsOn := true }
  /-- `iret`: what was interrupted had interrupts on. -/
  | returns {s : IrqState} {vector : Byte} {below : List Entered}
      (done : s.running = ⟨vector, []⟩ :: below) :
      EventStep address idtr memory s .code { s with interruptsOn := true, running := below }

def afterRemap (pics : PicPair) : IrqState := ⟨picRemap picOffset pics, false, [], []⟩

def masterLine (vector : Byte) : Line :=
  if vector.toNat < 0x28 then ⟨vector.toNat % 8, by omega⟩ else ⟨cascadeIrq, by decide⟩

/-- The wrapper that runs has not sent its first end of interrupt, and its line is the
one in service. -/
structure Fresh (s : IrqState) : Prop where
  off : s.interruptsOn = false
  first : ∃ vector actions below, s.running = ⟨vector, .eoi :: actions⟩ :: below ∧
    s.pics.master.Serves (masterLine vector)

/-- Between the interrupt and the first action of its handler one line is in service,
and none at any other time. -/
structure Quiet (s : IrqState) : Prop where
  remapped : Remapped s.pics
  cascade : s.pics.master.requests 2 = false
  master : s.pics.master.Idle ∨ Fresh s

variable {address : Wrapper → Word} {idtr : IdtrDesc} {memory : Nat → Byte}
variable {s after : IrqState}

theorem Remapped.request {pics : PicPair} (remapped : Remapped pics) (irq : Fin 16) :
    Remapped (pics.request irq) := by
  unfold PicPair.request
  split
  · exact { remapped with }
  · exact { remapped with }

theorem Remapped.acknowledge {pics next : PicPair} {vector : Byte} (remapped : Remapped pics)
    (acknowledges : pics.Acknowledges vector next) : Remapped next := by
  cases acknowledges with
  | master line allows own given result => subst result; exact { remapped with }
  | slave line below allows behind allowsBelow given result =>
      subst result
      exact { remapped with }

theorem Remapped.outb_eoi {pics : PicPair} (remapped : Remapped pics) :
    Remapped (outb pics pic1Command 0x20) ∧
      (outb pics pic1Command 0x20).slave = pics.slave ∧
      (outb pics pic1Command 0x20).master = pics.master.endOfInterrupt := by
  have master : (outb pics pic1Command 0x20).master = pics.master.endOfInterrupt := rfl
  have kept : pics.master.endOfInterrupt.vector = pics.master.vector ∧
      pics.master.endOfInterrupt.cascade = pics.master.cascade ∧
      pics.master.endOfInterrupt.mode = pics.master.mode ∧
      pics.master.endOfInterrupt.mask = pics.master.mask := by
    unfold Pic.endOfInterrupt
    split <;> exact ⟨rfl, rfl, rfl, rfl⟩
  obtain ⟨vector, cascade, mode, mask⟩ := kept
  refine ⟨?_, rfl, master⟩
  refine ⟨?_, remapped.slaveVector, ?_, remapped.slaveCascade, ?_, remapped.slaveMode, ?_,
    remapped.slaveMask⟩
  · rw [master, vector, remapped.masterVector]
  · rw [master, cascade, remapped.masterCascade]
  · rw [master, mode, remapped.masterMode]
  · rw [master, mask, remapped.masterMask]

def Asks (pics : PicPair) (irq : Fin 16) : Prop :=
  if below : (irq : Nat) < 8 then pics.master.requests ⟨irq, below⟩ = true
  else pics.slave.requests ⟨irq - 8, PicPair.line_of_slave below⟩ = true

structure FromLine (pics : PicPair) (vector : Byte) (next : PicPair) : Prop where
  line : ∃ irq : Fin 16, vector = BitVec.ofNat 8 (32 + irq) ∧ irq ≠ 2 ∧ Asks pics irq
  master : next.master = pics.master.acknowledge (masterLine vector)

theorem vector_of_master (line : Line) (own : (4 : Byte).getLsbD line = false) :
    line ≠ 2 ∧ (0x20 ||| BitVec.ofNat 8 line : Byte) = BitVec.ofNat 8 (32 + line) ∧
      masterLine (0x20 ||| BitVec.ofNat 8 line) = line := by
  revert line
  decide

theorem vector_of_slave (line : Line) :
    (0x28 ||| BitVec.ofNat 8 line : Byte) = BitVec.ofNat 8 (32 + (8 + line)) ∧
      masterLine (0x28 ||| BitVec.ofNat 8 line) = 2 := by
  revert line
  decide

theorem line_of_cascade (line : Line) (behind : (4 : Byte).getLsbD line = true) : line = 2 := by
  revert line
  decide

theorem Remapped.fromLine {pics next : PicPair} {vector : Byte} (remapped : Remapped pics)
    (acknowledges : pics.Acknowledges vector next) : FromLine pics vector next := by
  cases acknowledges with
  | master line allows own given result =>
      subst given result
      rw [remapped.masterCascade] at own
      obtain ⟨other, value, here⟩ := vector_of_master line own
      have asked := allows.1
      simp only [PicPair.inputs, remapped.masterCascade, own, Bool.false_and, Bool.or_false]
        at asked
      unfold Pic.vectorOf
      rw [remapped.masterVector]
      refine ⟨⟨line.castLE (by decide), value, ?_, ?_⟩, by rw [here]⟩
      · intro same
        have number : (line : Nat) = 2 := congrArg Fin.val same
        exact other (Fin.ext number)
      · unfold Asks
        rw [dif_pos (show ((line.castLE (by decide) : Fin 16) : Nat) < 8 from line.isLt)]
        exact asked
  | slave line below allows behind allowsBelow given result =>
      subst given result
      rw [remapped.masterCascade] at behind
      obtain rfl := line_of_cascade line behind
      obtain ⟨value, here⟩ := vector_of_slave below
      unfold Pic.vectorOf
      rw [remapped.slaveVector]
      refine ⟨⟨below.natAdd 8, value, ?_, ?_⟩, by rw [here]⟩
      · intro same
        have number : 8 + (below : Nat) = 2 := congrArg Fin.val same
        omega
      · unfold Asks
        rw [dif_neg (by simp)]
        have asked := allowsBelow.1
        simpa using asked

theorem Quiet.master_idle (quiet : Quiet s) (on : s.interruptsOn = true) :
    s.pics.master.Idle := by
  refine quiet.master.resolve_right fun fresh => ?_
  rw [fresh.off] at on
  cases on

theorem Quiet.master_idle_of_running (quiet : Quiet s)
    (other : ∀ vector actions below, s.running ≠ ⟨vector, .eoi :: actions⟩ :: below) :
    s.pics.master.Idle := by
  refine quiet.master.resolve_right fun fresh => ?_
  obtain ⟨vector, actions, below, running, -⟩ := fresh.first
  exact other vector actions below running

theorem Runs.begins {wrapper : Wrapper} {actions : List Action} (runs : Runs wrapper actions)
    (hardware : ∀ vector, wrapper ≠ .isr vector) : ∃ rest, actions = .eoi :: rest := by
  cases runs with
  | timer => exact ⟨_, rfl⟩
  | released => exact ⟨_, rfl⟩
  | pressed => exact ⟨_, rfl⟩
  | saved => exact ⟨_, rfl⟩
  | noInterrupt => exact ⟨_, rfl⟩
  | killed vector => exact absurd rfl (hardware vector)
  | halted vector => exact absurd rfl (hardware vector)

theorem wrapperOf_irq (irq : Fin 16) (vector : Fin 32) :
    wrapperOf (BitVec.ofNat 8 (32 + irq)) ≠ .isr vector := by
  have above : ¬ (BitVec.ofNat 8 (32 + irq)).toNat < 32 := by
    revert irq
    decide
  unfold wrapperOf
  rw [dif_neg above]
  split
  · exact Wrapper.noConfusion
  · split <;> exact Wrapper.noConfusion

theorem Quiet.elsewhere (quiet : Quiet s)
    (other : ∀ vector actions below, s.running ≠ ⟨vector, .eoi :: actions⟩ :: below)
    (pics : after.pics = s.pics) : Quiet after := by
  have idle := quiet.master_idle_of_running other
  rw [← pics] at idle
  exact ⟨pics ▸ quiet.remapped, pics ▸ quiet.cascade, .inl idle⟩

theorem quiet_step (loaded : IdtLoaded address idtr memory)
    (distinct : Function.Injective address) (quiet : Quiet s) {event : Event}
    (step : EventStep address idtr memory s event after) : Quiet after := by
  have remapped := quiet.remapped
  cases step with
  | @request irq wired =>
      have lines : (s.pics.request irq).master.inService = s.pics.master.inService := by
        unfold PicPair.request
        split <;> rfl
      refine ⟨remapped.request irq, ?_, quiet.master.imp (fun idle => ?_) fun fresh => ?_⟩
      · unfold PicPair.request
        split
        · rename_i below
          refine (Function.update_of_ne ?_ _ _).trans quiet.cascade
          rintro same
          have number : 2 = (irq : Nat) := congrArg Fin.val same
          exact wired (Fin.ext number.symm)
        · exact quiet.cascade
      · unfold Pic.Idle
        rw [lines]
        exact idle
      · obtain ⟨vector, actions, below, running, serves⟩ := fresh.first
        refine ⟨fresh.off, vector, actions, below, running, ?_⟩
        unfold Pic.Serves
        rw [lines]
        exact serves
  | @interrupt vector pics gate wrapper actions on acknowledged found leads runs =>
      have acknowledges := PicPair.acknowledge_cases acknowledged
      obtain ⟨⟨irq, given, -⟩, master⟩ := remapped.fromLine acknowledges
      rw [gateOf_eq loaded, Option.some.injEq] at found
      subst found
      obtain rfl := distinct leads
      obtain ⟨rest, rfl⟩ := runs.begins fun other => given ▸ wrapperOf_irq irq other
      have idle := quiet.master_idle on
      refine ⟨remapped.acknowledge acknowledges, ?_, .inr ⟨?_, vector, rest, _, rfl, ?_⟩⟩
      · simp only [master, Pic.acknowledge, Function.update_apply]
        split
        · rfl
        · exact quiet.cascade
      · simp [kernelGate]
      · simp only [master]
        exact idle.acknowledge_serves (by rw [remapped.masterMode]; rfl) _
  | eoi next =>
      obtain ⟨still, -, master⟩ := remapped.outb_eoi
      refine ⟨still, ?_, .inl ?_⟩
      · rw [master]
        unfold Pic.endOfInterrupt
        split <;> exact quiet.cascade
      · rw [master]
        rcases quiet.master with idle | fresh
        · rw [Pic.endOfInterrupt_idle idle]
          exact idle
        · obtain ⟨vector, actions, below, -, serves⟩ := fresh.first
          exact serves.endOfInterrupt_idle
  | fault process found leads runs => exact quiet.elsewhere (by simp [process]) rfl
  | cli next => exact quiet.elsewhere (by simp [next]) rfl
  | sti next => exact quiet.elsewhere (by simp [next]) rfl
  | stays next => exact quiet.elsewhere (by simp [next]) rfl
  | switches next waits => exact quiet.elsewhere (by simp [next]) rfl
  | expires next waits => exact quiet.elsewhere (by simp [next]) rfl
  | exits leaves waits =>
      refine quiet.elsewhere (fun _ _ _ running => ?_) rfl
      rcases leaves with empty | ⟨vector, actions, below, next⟩
      · simp [empty] at running
      · simp [next] at running
  | starts kernel waits => exact quiet.elsewhere (by simp [kernel]) rfl
  | creates =>
      exact ⟨remapped, quiet.cascade, quiet.master.imp_right fun fresh => ⟨fresh.off, fresh.first⟩⟩
  | enables kernel => exact quiet.elsewhere (by simp [kernel]) rfl
  | returns done => exact quiet.elsewhere (by simp [done]) rfl

theorem quiet_run {pics : PicPair} {events : List Event}
    (loaded : IdtLoaded address idtr memory) (distinct : Function.Injective address)
    (run : Run (EventStep address idtr memory) (afterRemap pics) events s) : Quiet s :=
  run.invariant Quiet (fun _ _ _ quiet step => quiet_step loaded distinct quiet step)
    ⟨picRemap_remapped pics, rfl, .inl (picRemap_idle pics).1⟩

/-- In every run every interrupt has the vector of a line that asks and enters the
wrapper of that line, never one of an exception, with interrupts off. -/
theorem interrupts_routed {pics : PicPair} {events : List Event} {vector : Byte}
    (loaded : IdtLoaded address idtr memory) (distinct : Function.Injective address)
    (run : Run (EventStep address idtr memory) (afterRemap pics) events s)
    (step : EventStep address idtr memory s (.interrupt vector) after) :
    ∃ irq : Fin 16, irq ≠ 2 ∧ Asks s.pics irq ∧ vector = BitVec.ofNat 8 (32 + irq) ∧
      after.interruptsOn = false ∧ ∃ actions, after.running = ⟨vector, actions⟩ :: s.running ∧
        Runs (if irq = 0 then .irq0 else if irq = 1 then .irq1 else .noInterrupt) actions := by
  have quiet := quiet_run loaded distinct run
  cases step with
  | @interrupt _ pics gate wrapper actions on acknowledged found leads runs =>
      obtain ⟨⟨irq, given, other, asks⟩, -⟩ :=
        quiet.remapped.fromLine (PicPair.acknowledge_cases acknowledged)
      rw [gateOf_eq loaded, Option.some.injEq] at found
      subst found
      obtain rfl := distinct leads
      refine ⟨irq, other, asks, given, by simp [kernelGate], actions, rfl, ?_⟩
      have wrapper : wrapperOf vector =
          if irq = 0 then .irq0 else if irq = 1 then .irq1 else .noInterrupt := by
        rw [given]
        clear given other asks runs leads
        revert irq
        decide
      rwa [← wrapper]

/-! A kernel with its wrappers one after the other and its table at the bottom of
memory. -/

def flatAddress : Wrapper → Word
  | .isr vector => 0x100000 + BitVec.ofNat 32 vector
  | .irq0 => 0x100020
  | .irq1 => 0x100021
  | .noInterrupt => 0x100022

theorem flatAddress_injective : Function.Injective flatAddress := by
  have back : Function.LeftInverse
      (fun place : Word => wrapperOf ((place - 0x100000).setWidth 8)) flatAddress := by
    intro wrapper
    cases wrapper with
    | isr vector =>
        revert vector
        decide
    | irq0 => rfl
    | irq1 => rfl
    | noInterrupt => rfl
  exact back.injective

theorem flat_loaded :
    IdtLoaded flatAddress (idtrDescriptor 0) (idtInit flatAddress).bytes where
  register := ⟨0, rfl⟩
  table := fun k _ => congrArg _ (Nat.zero_add k)

def blankPic : Pic :=
  ⟨.mask, false, false, 0, 0, 0, 0, fun _ => false, fun _ => false⟩

theorem interrupts_routed_clock :
    ∃ s after, Run (EventStep flatAddress (idtrDescriptor 0) (idtInit flatAddress).bytes)
        (afterRemap ⟨blankPic, blankPic⟩) [.code, .request 0] s ∧
      EventStep flatAddress (idtrDescriptor 0) (idtInit flatAddress).bytes s
        (.interrupt 0x20) after ∧ after.interruptsOn = false := by
  obtain ⟨s, run, on, given⟩ : ∃ s,
      Run (EventStep flatAddress (idtrDescriptor 0) (idtInit flatAddress).bytes)
        (afterRemap ⟨blankPic, blankPic⟩) [.code, .request 0] s ∧ s.interruptsOn = true ∧
        ∃ pics, s.pics.acknowledge = some (0x20, pics) :=
    ⟨_, .next (.enables rfl) (.next (.request _ (by decide)) (.done _)), rfl, _, rfl⟩
  obtain ⟨pics, acknowledged⟩ := given
  obtain ⟨after, step⟩ : ∃ after,
      EventStep flatAddress (idtrDescriptor 0) (idtInit flatAddress).bytes s
        (.interrupt 0x20) after :=
    ⟨_, .interrupt on acknowledged (gateOf_eq flat_loaded 0x20) rfl .timer⟩
  obtain ⟨irq, -, -, -, off, -⟩ :=
    interrupts_routed flat_loaded flatAddress_injective run step
  exact ⟨s, after, run, step, off⟩

/-- Whatever asks at the master is taken as soon as interrupts are on, unless a line of
higher priority asks too; and an end of interrupt ends the interrupt of the wrapper that
sends it, or nothing. -/
structure OwnEnds (address : Wrapper → Word) (idtr : IdtrDesc) (memory : Nat → Byte)
    (s : IrqState) : Prop where
  taken : ∀ line : Line, s.pics.inputs.requests line = true → s.interruptsOn = true →
    ∃ vector after, EventStep address idtr memory s (.interrupt vector) after ∧
      masterLine vector ≤ line
  ends : ∀ after, EventStep address idtr memory s .eoi after →
    after.pics = s.pics ∨ ∃ vector actions below, s.running = ⟨vector, actions⟩ :: below ∧
      s.pics.master.Serves (masterLine vector) ∧ after.pics.master.Idle ∧
      after.pics.slave = s.pics.slave

theorem Quiet.acknowledges (quiet : Quiet s) (on : s.interruptsOn = true) {line : Line}
    (asks : s.pics.inputs.requests line = true) :
    ∃ vector pics, s.pics.acknowledge = some (vector, pics) ∧ masterLine vector ≤ line := by
  have remapped := quiet.remapped
  have idle : s.pics.inputs.Idle := quiet.master_idle on
  obtain ⟨first, le, found⟩ := idle.interrupting_isSome asks (by
    simp [PicPair.inputs, remapped.masterMask])
  have asked := (Pic.interrupting_allows found).1
  unfold PicPair.acknowledge
  simp only [found, remapped.masterCascade]
  by_cases behind : (4 : Byte).getLsbD first = true
  · obtain rfl := line_of_cascade first behind
    simp only [PicPair.inputs, quiet.cascade, Bool.false_or, Bool.and_eq_true] at asked
    obtain ⟨below, asking⟩ := Option.isSome_iff_exists.mp asked.2
    rw [if_pos behind, if_pos (by rw [remapped.slaveCascade]; decide), asking]
    refine ⟨_, _, rfl, le_of_eq_of_le ?_ le⟩
    unfold Pic.vectorOf
    rw [remapped.slaveVector]
    exact (vector_of_slave below).2
  · have own := Bool.eq_false_iff.mpr behind
    rw [if_neg behind]
    refine ⟨_, _, rfl, le_of_eq_of_le ?_ le⟩
    unfold Pic.vectorOf
    rw [remapped.masterVector]
    exact (vector_of_master first own).2.2

theorem Runs.exists (wrapper : Wrapper) : ∃ actions, Runs wrapper actions := by
  cases wrapper with
  | isr vector => exact ⟨_, .killed vector⟩
  | irq0 => exact ⟨_, .timer⟩
  | irq1 => exact ⟨_, .released⟩
  | noInterrupt => exact ⟨_, .noInterrupt⟩

theorem eoi_ends_own {pics : PicPair} {events : List Event}
    (loaded : IdtLoaded address idtr memory) (distinct : Function.Injective address)
    (run : Run (EventStep address idtr memory) (afterRemap pics) events s) :
    OwnEnds address idtr memory s := by
  have quiet := quiet_run loaded distinct run
  refine ⟨fun line asks on => ?_, fun after step => ?_⟩
  · obtain ⟨vector, pics, acknowledged, le⟩ := quiet.acknowledges on asks
    obtain ⟨actions, runs⟩ := Runs.exists (wrapperOf vector)
    exact ⟨vector, _, .interrupt on acknowledged (gateOf_eq loaded vector) rfl runs, le⟩
  · cases step with
    | eoi next =>
        obtain ⟨-, slave, master⟩ := quiet.remapped.outb_eoi
        rcases quiet.master with idle | fresh
        · left
          rw [Pic.endOfInterrupt_idle idle] at master
          exact congrArg₂ PicPair.mk master slave
        · obtain ⟨vector, actions, below, running, serves⟩ := fresh.first
          refine .inr ⟨vector, _, below, running, serves, ?_, slave⟩
          simp only [master]
          exact serves.endOfInterrupt_idle

theorem eoi_ends_own_clock :
    ∃ s, Run (EventStep flatAddress (idtrDescriptor 0) (idtInit flatAddress).bytes)
        (afterRemap ⟨blankPic, blankPic⟩) [.code, .request 0] s ∧
      ∃ vector after, EventStep flatAddress (idtrDescriptor 0) (idtInit flatAddress).bytes s
        (.interrupt vector) after := by
  obtain ⟨s, run, on, asks⟩ : ∃ s,
      Run (EventStep flatAddress (idtrDescriptor 0) (idtInit flatAddress).bytes)
        (afterRemap ⟨blankPic, blankPic⟩) [.code, .request 0] s ∧ s.interruptsOn = true ∧
        s.pics.inputs.requests 0 = true :=
    ⟨_, .next (.enables rfl) (.next (.request _ (by decide)) (.done _)), rfl, rfl⟩
  obtain ⟨vector, after, step, -⟩ :=
    (eoi_ends_own flat_loaded flatAddress_injective run).taken 0 asks on
  exact ⟨s, run, vector, after, step⟩

def slaveLine : Event → Option Line
  | .interrupt vector =>
      if 0x28 ≤ vector.toNat then some ⟨vector.toNat % 8, by omega⟩ else none
  | _ => none

theorem slaveLine_of_master (line : Line) :
    slaveLine (.interrupt (0x20 ||| BitVec.ofNat 8 line)) = none := by
  revert line
  decide

theorem slaveLine_of_slave (line : Line) :
    slaveLine (.interrupt (0x28 ||| BitVec.ofNat 8 line)) = some line := by
  revert line
  decide

theorem slave_step (remapped : Remapped s.pics) {event : Event}
    (step : EventStep address idtr memory s event after) :
    (∀ line, s.pics.slave.inService line = true → after.pics.slave.inService line = true) ∧
      ∀ line, slaveLine event = some line → s.pics.slave.Allows line ∧
        after.pics.slave.inService line = true := by
  cases step with
  | @request irq wired =>
      refine ⟨fun line served => ?_, fun line taken => ?_⟩
      · unfold PicPair.request
        split <;> exact served
      · cases taken
  | @interrupt vector pics gate wrapper actions on acknowledged found leads runs =>
      cases PicPair.acknowledge_cases acknowledged with
      | master line allows own given result =>
          subst given result
          refine ⟨fun _ served => served, fun other taken => ?_⟩
          rw [remapped.masterCascade] at own
          unfold Pic.vectorOf at taken
          rw [remapped.masterVector] at taken
          rw [slaveLine_of_master] at taken
          cases taken
      | slave line below allows behind allowsBelow given result =>
          subst given result
          unfold Pic.vectorOf
          rw [remapped.slaveVector, slaveLine_of_slave]
          have mode : s.pics.slave.mode.getLsbD 1 = false := by
            rw [remapped.slaveMode]
            rfl
          refine ⟨fun other served => ?_, fun other taken => ?_⟩
          · simp only [Pic.acknowledge, mode, Bool.false_eq_true, if_false,
              Function.update_apply, served, ite_self]
          · obtain rfl := Option.some.inj taken
            simp only [Pic.acknowledge, mode, Bool.false_eq_true, if_false,
              Function.update_self]
            exact ⟨allowsBelow, trivial⟩
  | _ =>
      refine ⟨fun _ served => served, fun line taken => ?_⟩
      cases taken

theorem slaveLines_below {events : List Event} (loaded : IdtLoaded address idtr memory)
    (distinct : Function.Injective address) (quiet : Quiet s)
    (run : Run (EventStep address idtr memory) s events after) :
    (events.filterMap slaveLine).Pairwise (· > ·) ∧
      ∀ later ∈ events.filterMap slaveLine, ∀ line, s.pics.slave.inService line = true →
        later < line := by
  induction run with
  | done s => exact ⟨.nil, fun _ member => nomatch member⟩
  | @next first middle last event events step rest ih =>
      obtain ⟨kept, taken⟩ := slave_step quiet.remapped step
      obtain ⟨decreasing, below⟩ := ih (quiet_step loaded distinct quiet step)
      cases line : slaveLine event with
      | none =>
          rw [List.filterMap_cons_none line]
          exact ⟨decreasing, fun later member other served =>
            below later member other (kept other served)⟩
      | some now =>
          obtain ⟨allows, serves⟩ := taken now line
          rw [List.filterMap_cons_some line]
          refine ⟨List.pairwise_cons.mpr ⟨fun later member => below later member now serves,
            decreasing⟩, fun later member other served => ?_⟩
          rcases List.mem_cons.mp member with rfl | member
          · exact allows.lt_of_inService served
          · exact below later member other (kept other served)

/-- No end of interrupt ever reaches the slave, so in every run its lines are taken in
rising priority only: each at most once, and none of lower priority than one before. -/
theorem slave_lines_decrease {pics : PicPair} {events : List Event}
    (loaded : IdtLoaded address idtr memory) (distinct : Function.Injective address)
    (run : Run (EventStep address idtr memory) (afterRemap pics) events s) :
    (events.filterMap slaveLine).Pairwise (· > ·) ∧
      (events.filterMap slaveLine).length ≤ 8 := by
  have start : Quiet (afterRemap pics) :=
    ⟨picRemap_remapped pics, rfl, .inl (picRemap_idle pics).1⟩
  have decreasing := (slaveLines_below loaded distinct start run).1
  refine ⟨decreasing, ?_⟩
  have nodup : (events.filterMap slaveLine).Nodup :=
    decreasing.imp fun greater => ne_of_gt greater
  have short := nodup.length_le_card
  rwa [Fintype.card_fin] at short

theorem slave_lines_decrease_disk :
    ∃ s, Run (EventStep flatAddress (idtrDescriptor 0) (idtInit flatAddress).bytes)
        (afterRemap ⟨blankPic, blankPic⟩)
        [.code, .request 14, .interrupt 0x2E, .eoi, .eoi, .code, .request 14] s ∧
      ∀ after, ¬ EventStep flatAddress (idtrDescriptor 0) (idtInit flatAddress).bytes s
        (.interrupt 0x2E) after := by
  obtain ⟨s, run⟩ : ∃ s,
      Run (EventStep flatAddress (idtrDescriptor 0) (idtInit flatAddress).bytes)
        (afterRemap ⟨blankPic, blankPic⟩)
        [.code, .request 14, .interrupt 0x2E, .eoi, .eoi, .code, .request 14] s :=
    ⟨_, .next (.enables rfl) (.next (.request _ (by decide))
      (.next (.interrupt rfl rfl (gateOf_eq flat_loaded 0x2E) rfl .noInterrupt)
        (.next (.eoi rfl) (.next (.eoi rfl) (.next (.returns rfl)
          (.next (.request _ (by decide)) (.done _)))))))⟩
  refine ⟨s, run, fun after step => ?_⟩
  have decreasing := (slave_lines_decrease flat_loaded flatAddress_injective
    (run.append (.next step (.done after)))).1
  exact absurd decreasing (by decide)

end LazyOS.Interrupts

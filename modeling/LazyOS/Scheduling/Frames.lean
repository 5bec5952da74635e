import LazyOS.Scheduling.Creation

namespace LazyOS.Scheduling

open LazyOS.Data
open LazyOS.Memory

/-! The frames of the stacks.  A creation takes two frames and `free_proc` gives back
one page. -/

structure FrameLife where
  life : Life
  mapped : List (Slot × List Nat)

def SchedOp.creates : SchedOp → Bool
  | .create _ _ _ _ => true
  | _ => false

inductive FrameStep (f : FrameLife) : SchedOp → FrameLife → Prop
  | create {heap : PageHeap} {kernelDirectory : Nat} {entry exitAddress : Word}
      {slot : Slot} {after : Sched} (persistent : heap.Persistent)
      (created : f.life.sched.createProcess heap kernelDirectory entry exitAddress =
        (some slot, after)) :
      FrameStep f (.create heap kernelDirectory entry exitAddress)
        ⟨⟨after, slot :: f.life.created, f.life.ended⟩,
          (slot, f.life.sched.stackFrames heap kernelDirectory) :: f.mapped⟩
  | other {op : SchedOp} (notCreates : op.creates = false) :
      FrameStep f op ⟨f.life.call op, f.mapped⟩

/-- The taken frames are the initial ones and those of the stacks that were not
freed. -/
def Accounted (initial : Bitmap) (f : FrameLife) : Prop :=
  ∀ frame, bitAt f.life.sched.memory.bitmap frame = true ↔
    bitAt initial frame = true ∨
      ∃ stack ∈ f.mapped, stack.1 ∉ f.life.sched.freed ∧ frame ∈ stack.2

def SchedOp.FreesNone (f : FrameLife) : SchedOp → Prop
  | .tick _ _ => f.life.sched.zombie = none
  | _ => True

structure FrameInv (initial : Bitmap) (f : FrameLife) : Prop where
  census : CensusInv f.life.census
  noneFreed : f.life.sched.freed = []
  exact : ∀ frame, bitAt f.life.sched.memory.bitmap frame = true ↔
    bitAt initial frame = true ∨ ∃ stack ∈ f.mapped, frame ∈ stack.2
  owned : ∀ slot ∈ f.life.created, ∃ stack ∈ f.mapped, stack.1 = slot
  pairs : ∀ stack ∈ f.mapped, ∃ low high, low < high ∧ stack.2 = [low, high]
  apart : f.mapped.Pairwise fun left right => left.2.Disjoint right.2
  clear : ∀ stack ∈ f.mapped, ∀ frame ∈ stack.2, bitAt initial frame = false

section Steps

variable {initial : Bitmap} {f : FrameLife}

theorem FrameInv.accounted (inv : FrameInv initial f) : Accounted initial f := by
  intro frame
  rw [inv.exact, inv.noneFreed]
  simp only [List.not_mem_nil, not_false_eq_true, true_and]

theorem FrameInv.create (inv : FrameInv initial f) {heap : PageHeap}
    {kernelDirectory : Nat} {entry exitAddress : Word} {slot : Slot} {after : Sched}
    (persistent : heap.Persistent)
    (created : f.life.sched.createProcess heap kernelDirectory entry exitAddress =
      (some slot, after)) :
    FrameInv initial ⟨⟨after, slot :: f.life.created, f.life.ended⟩,
      (slot, f.life.sched.stackFrames heap kernelDirectory) :: f.mapped⟩ := by
  obtain ⟨low, high, takes⟩ := createProcess_takes persistent created
  obtain ⟨apart, -, lowClear, highClear, -, marked⟩ := takes.frames
  have census := call_inv inv.census (.create heap kernelDirectory entry exitAddress)
  rw [Life.call_create created] at census
  have freed : after.freed = f.life.sched.freed := by
    obtain ⟨-, sp, cr3, memory, rfl⟩ := Sched.createProcess_cases created
    rfl
  have free : ∀ frame ∈ [low, high], bitAt f.life.sched.memory.bitmap frame = false := by
    intro frame member
    rcases List.mem_pair.mp member with rfl | rfl
    · exact lowClear
    · exact highClear
  rw [takes.mapped]
  refine ⟨census, freed.trans inv.noneFreed, ?_, ?_, ?_, ?_, ?_⟩
  · intro frame
    rw [marked, Bool.or_eq_true, Bool.or_eq_true, decide_eq_true_eq, decide_eq_true_eq,
      inv.exact]
    simp only [List.exists_mem_cons_iff, List.mem_pair]
    rw [or_assoc, or_assoc]
    exact or_congr_right or_comm
  · intro other member
    rcases List.mem_cons.mp member with rfl | member
    · exact ⟨_, List.mem_cons_self, rfl⟩
    · obtain ⟨stack, stackIn, owner⟩ := inv.owned other member
      exact ⟨stack, List.mem_cons_of_mem _ stackIn, owner⟩
  · intro stack member
    rcases List.mem_cons.mp member with rfl | member
    · exact ⟨low, high, apart, rfl⟩
    · exact inv.pairs stack member
  · refine List.pairwise_cons.mpr ⟨fun stack member frame here there => ?_, inv.apart⟩
    have taken := (inv.exact frame).mpr (.inr ⟨stack, member, there⟩)
    rw [free frame here] at taken
    exact Bool.noConfusion taken
  · intro stack member frame here
    rcases List.mem_cons.mp member with rfl | member
    · cases before : bitAt initial frame with
      | false => rfl
      | true =>
          have taken := (inv.exact frame).mpr (.inl before)
          rw [free frame here] at taken
          exact Bool.noConfusion taken
    · exact inv.clear stack member frame here

theorem FrameInv.other (inv : FrameInv initial f) {op : SchedOp}
    (notCreates : op.creates = false) (none : op.FreesNone f) :
    FrameInv initial ⟨f.life.call op, f.mapped⟩ := by
  have same : (f.life.call op).sched.memory = f.life.sched.memory ∧
      (f.life.call op).sched.freed = f.life.sched.freed ∧
      (f.life.call op).created = f.life.created := by
    cases op with
    | create => cases notCreates
    | start env =>
        obtain ⟨memory, -, freed⟩ := f.life.sched.startProcesses_undisturbed env
        exact ⟨memory, freed, rfl⟩
    | tick env timeSlice =>
        obtain ⟨memory, -, freed⟩ := f.life.sched.scheduler_undisturbed env timeSlice
        have nothing : f.life.sched.reap = f.life.sched := by
          unfold Sched.reap
          rw [show f.life.sched.zombie = Option.none from none]
        rw [nothing] at memory freed
        exact ⟨memory, freed, rfl⟩
    | exit env =>
        obtain ⟨memory, -, freed⟩ := f.life.sched.processExit_undisturbed env
        exact ⟨memory, freed, rfl⟩
    | spin spinning =>
        obtain ⟨memory, -, freed⟩ := f.life.sched.setSpinning_undisturbed spinning
        exact ⟨memory, freed, rfl⟩
  obtain ⟨memory, freed, created⟩ := same
  refine ⟨call_inv inv.census op, freed.trans inv.noneFreed, ?_, ?_, inv.pairs,
    inv.apart, inv.clear⟩
  · intro frame
    rw [memory]
    exact inv.exact frame
  · rw [created]
    exact inv.owned

theorem FrameInv.leaks (inv : FrameInv initial f) {zombie : Slot}
    (isZombie : f.life.sched.zombie = some zombie) (env : SwitchEnv) (timeSlice : Int) :
    ¬ Accounted initial ⟨f.life.call (.tick env timeSlice), f.mapped⟩ := by
  intro accounted
  obtain ⟨memory, -, freed⟩ := f.life.sched.scheduler_undisturbed env timeSlice
  have reaped : f.life.sched.reap.freed = [zombie] := by
    simp only [Sched.reap, isZombie]
    change zombie :: f.life.sched.freed = _
    rw [inv.noneFreed]
  obtain ⟨stack, stackIn, owner⟩ := inv.owned zombie
    (inv.census.ended zombie (inv.census.zombie zombie isZombie).1)
  obtain ⟨low, high, apart, frames⟩ := inv.pairs stack stackIn
  obtain ⟨-, cleared, others⟩ := freeVmm_one (f.life.sched.procs zombie).cr3
    procStackVirt f.life.sched.memory stackPage_one
  have kept : ∃ frame ∈ stack.2, frame ≠ cleared := by
    rw [frames]
    by_cases same : low = cleared
    · exact ⟨high, by simp, by omega⟩
    · exact ⟨low, by simp, same⟩
  obtain ⟨frame, member, notCleared⟩ := kept
  have bitmap : bitAt (f.life.call (.tick env timeSlice)).sched.memory.bitmap frame =
      bitAt f.life.sched.memory.bitmap frame := by
    simp only [Life.call, memory, Sched.reap, isZombie]
    exact others frame notCleared
  have taken := (inv.exact frame).mpr (.inr ⟨stack, stackIn, member⟩)
  rw [← bitmap] at taken
  rcases (accounted frame).mp taken with before | ⟨other, otherIn, notFreed, there⟩
  · rw [inv.clear stack stackIn frame member] at before
    exact Bool.noConfusion before
  · have freedNow : (f.life.call (.tick env timeSlice)).sched.freed = [zombie] :=
      freed.trans reaped
    rw [freedNow, List.mem_singleton] at notFreed
    have different : stack ≠ other := by
      rintro rfl
      exact notFreed owner
    have symmetric : Std.Symm fun left right : Slot × List Nat =>
        left.2.Disjoint right.2 := ⟨fun _ _ => List.Disjoint.symm⟩
    exact inv.apart.forall stackIn otherIn different member there

theorem frameStep_inv {op : SchedOp} {after : FrameLife} (inv : FrameInv initial f)
    (step : FrameStep f op after) (none : op.FreesNone f) : FrameInv initial after := by
  cases step with
  | create persistent created => exact inv.create persistent created
  | other notCreates => exact inv.other notCreates none

theorem frameStep_accounted {op : SchedOp} {after : FrameLife}
    (inv : FrameInv initial f) (step : FrameStep f op after) :
    Accounted initial after ↔ op.FreesNone f := by
  constructor
  · intro accounted
    cases step with
    | create => trivial
    | other notCreates =>
        cases op with
        | tick env timeSlice =>
            cases isZombie : f.life.sched.zombie with
            | none => exact isZombie
            | some zombie => exact absurd accounted (inv.leaks isZombie env timeSlice)
        | _ => trivial
  · exact fun none => (frameStep_inv inv step none).accounted

end Steps

theorem frameInv_booted {start : Sched} (booted : Booted start) :
    FrameInv start.memory.bitmap ⟨⟨start, [], []⟩, []⟩ := by
  refine ⟨censusInv_booted booted, ?_, ?_, ?_, ?_, .nil, ?_⟩
  · simp only [Sched.freed, booted.past, List.filterMap_nil]
  · simp
  · simp
  · simp
  · simp

/-- In every run that frees no process, the taken frames are the initial ones and the
two of each stack; the first `free_proc` breaks this. -/
theorem frames_accounted {start : Sched} (booted : Booted start) {ops : List SchedOp}
    {f : FrameLife}
    (run : Run (fun f op after => FrameStep f op after ∧ op.FreesNone f)
      ⟨⟨start, [], []⟩, []⟩ ops f) :
    Accounted start.memory.bitmap f ∧
    ∀ op after, FrameStep f op after →
      (Accounted start.memory.bitmap after ↔ op.FreesNone f) := by
  have inv := run.invariant (FrameInv start.memory.bitmap)
    (fun _ _ _ inv step => frameStep_inv inv step.1 step.2) (frameInv_booted booted)
  exact ⟨inv.accounted, fun op after step => frameStep_accounted inv step⟩

theorem frames_accounted_one_process :
    ∃ ops f, ops.length = 4 ∧
      Run (fun f op after => FrameStep f op after ∧ op.FreesNone f)
        ⟨⟨bootSched blankMemory, [], []⟩, []⟩ ops f ∧
      f.life.created = [0] ∧ Accounted blankMemory.bitmap f := by
  obtain ⟨sp, cr3, memory, -, created⟩ :=
    createProcess_plenty 1 (bootSched blankMemory) 0 plenty_blankMemory (by decide) rfl
  have run : Run (fun f op after => FrameStep f op after ∧ op.FreesNone f)
      ⟨⟨bootSched blankMemory, [], []⟩, []⟩
      [.create manyPages 0x100000 0x8000 0x9000, .start ⟨0, .code⟩,
        .tick ⟨0, .code⟩ 10, .exit ⟨0, .code⟩] _ :=
    .next ⟨.create manyPages_persistent created, trivial⟩ <|
      .next ⟨.other rfl, trivial⟩ <| .next ⟨.other rfl, rfl⟩ <|
      .next ⟨.other rfl, trivial⟩ (.done _)
  exact ⟨_, _, rfl, run, rfl, (frames_accounted (booted_bootSched blankMemory) run).1⟩

/-- One process is created and started, exits and is freed. -/
theorem freed_process_keeps_frame :
    ∃ ops f, Run FrameStep ⟨⟨bootSched blankMemory, [], []⟩, []⟩ ops f ∧
      ¬ Accounted blankMemory.bitmap f := by
  obtain ⟨sp, cr3, memory, -, created⟩ :=
    createProcess_plenty 1 (bootSched blankMemory) 0 plenty_blankMemory (by decide) rfl
  have steps : Run (fun f op after => FrameStep f op after ∧ op.FreesNone f)
      ⟨⟨bootSched blankMemory, [], []⟩, []⟩
      [.create manyPages 0x100000 0x8000 0x9000, .start ⟨0, .code⟩,
        .exit ⟨0, .code⟩] _ :=
    .next ⟨.create manyPages_persistent created, trivial⟩ <|
      .next ⟨.other rfl, trivial⟩ <| .next ⟨.other rfl, trivial⟩ (.done _)
  have inv := steps.invariant (FrameInv blankMemory.bitmap)
    (fun _ _ _ inv step => frameStep_inv inv step.1 step.2)
    (frameInv_booted (booted_bootSched blankMemory))
  have tick : ∀ f, FrameStep f (.tick ⟨0, .code⟩ 10)
      ⟨f.life.call (.tick ⟨0, .code⟩ 10), f.mapped⟩ := fun _ => .other rfl
  refine ⟨_, _, (steps.mono fun _ _ _ step => step.1).append
    (.next (tick _) (.done _)), ?_⟩
  exact inv.leaks rfl ⟨0, .code⟩ 10

end LazyOS.Scheduling

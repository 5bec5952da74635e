import LazyOS.Locking.Spinlock
import LazyOS.Scheduling.Calls

namespace LazyOS.Locking

open LazyOS.Data
open LazyOS.Interrupts
open LazyOS.Memory
open LazyOS.Scheduling

/-! The spinlock under the scheduler.  A process that ends keeps the lock it holds. -/

def processSize : Nat := 19

def procAddress (base : Word) (slot : Slot) : Word :=
  base + BitVec.ofNat 32 (processSize * slot)

def storeSpinning (base : Word) (write : FlagWrite Slot) (s : Sched) : Sched :=
  { s with
    procs := fun slot =>
      if procAddress base slot = write.target then
        { s.procs slot with spinning := write.value }
      else s.procs slot }

structure LockedLife where
  life : Life
  locks : Locks Slot

inductive LockedOp where
  | move
  | call (op : SchedOp)

/-- The executing process moves, with its stores into spinning flags; the clock
interrupts it; it ends where it is; and processes are created and started. -/
inductive LockedStep (base lock : Word) (s : LockedLife) : LockedOp → LockedLife → Prop
  | move {p : Slot} {after : Locks Slot}
      (executing : s.life.sched.executingProcess = some p)
      (moves : Moves (procAddress base) lock p s.locks after)
      (quiet : after.writes = s.locks.writes) :
      LockedStep base lock s .move ⟨s.life, after⟩
  | flag {p : Slot} {after : Locks Slot} {write : FlagWrite Slot}
      (executing : s.life.sched.executingProcess = some p)
      (moves : Moves (procAddress base) lock p s.locks after)
      (stored : after.writes = write :: s.locks.writes) :
      LockedStep base lock s .move
        ⟨{ s.life with sched := storeSpinning base write s.life.sched }, after⟩
  | create {heap : PageHeap} {kernelDirectory : Nat} {entry exitAddress : Word}
      {slot : Slot} {after : Sched} (core : Core)
      (created : s.life.sched.createProcess heap kernelDirectory entry exitAddress =
        (some slot, after)) :
      LockedStep base lock s (.call (.create heap kernelDirectory entry exitAddress))
        ⟨⟨after, slot :: s.life.created, s.life.ended⟩,
          s.locks.setThread slot core .outside⟩
  | fail {heap : PageHeap} {kernelDirectory : Nat} {entry exitAddress : Word}
      {after : Sched}
      (failed : s.life.sched.createProcess heap kernelDirectory entry exitAddress =
        (none, after)) :
      LockedStep base lock s (.call (.create heap kernelDirectory entry exitAddress))
        ⟨{ s.life with sched := after }, s.locks⟩
  | start {env : SwitchEnv} (idle : s.life.sched.executingProcess = none) :
      LockedStep base lock s (.call (.start env)) ⟨s.life.call (.start env), s.locks⟩
  | tick {env : SwitchEnv} {timeSlice : Int} {p : Slot} {resumed : Core}
      (executing : s.life.sched.executingProcess = some p)
      (survives : Survives (procAddress base p) (s.locks.threads p).core resumed) :
      LockedStep base lock s (.call (.tick env timeSlice))
        ⟨s.life.call (.tick env timeSlice),
          s.locks.setThread p resumed (s.locks.threads p).point⟩
  | idleTick {env : SwitchEnv} {timeSlice : Int}
      (idle : s.life.sched.executingProcess = none) :
      LockedStep base lock s (.call (.tick env timeSlice))
        ⟨s.life.call (.tick env timeSlice), s.locks⟩
  | exit {env : SwitchEnv} {p : Slot}
      (executing : s.life.sched.executingProcess = some p) :
      LockedStep base lock s (.call (.exit env)) ⟨s.life.call (.exit env), s.locks⟩

def ending (life : Life) : SchedOp → Option Slot
  | .tick _ timeSlice => life.sched.expiring timeSlice
  | .exit _ => life.sched.executingProcess
  | _ => none

/-- No process ends between its successful `xchg` and the store of its `releaseLock`. -/
def LockedOp.Spares (s : LockedLife) : LockedOp → Prop
  | .move => True
  | .call op => ∀ p, ending s.life op = some p → s.locks.acquired p = false

/-- A lock that is held has an owner that executes or waits in the queue. -/
def OwnerLive (lock : Word) (s : LockedLife) : Prop :=
  s.locks.memory lock ≠ 0 →
    ∃ owner, s.locks.acquired owner = true ∧
      (s.life.sched.executingProcess = some owner ∨
        owner ∈ s.life.sched.readyQueue.contents)

/-- Threads and processes are in order, whoever holds the lock. -/
structure LockedInv (base lock : Word) (s : LockedLife) : Prop where
  life : LifeInv s.life
  locks : LockInv (procAddress base) lock s.locks
  created : ∀ p, s.locks.acquired p = true → p ∈ s.life.created

section Steps

variable {base lock : Word} {s after : LockedLife} {op : LockedOp}

theorem mem_live {life : Life} {slot : Slot} :
    slot ∈ life.sched.live ↔
      life.sched.executingProcess = some slot ∨
        slot ∈ life.sched.readyQueue.contents := by
  simp only [Sched.live, List.mem_append, Option.mem_toList]

theorem procAddress_injective (base : Word) : Function.Injective (procAddress base) := by
  have offsets : ∀ first second : Slot,
      BitVec.ofNat 32 (processSize * first) = BitVec.ofNat 32 (processSize * second) →
        first = second := by decide
  intro first second equal
  exact offsets first second ((BitVec.add_right_inj base).mp equal)

theorem storeSpinning_eq {sched : Sched} {p : Slot} {write : FlagWrite Slot}
    (executing : sched.executingProcess = some p)
    (target : write.target = procAddress base p) :
    storeSpinning base write sched = sched.setSpinning write.value := by
  have procs : (fun slot => if procAddress base slot = write.target then
      { sched.procs slot with spinning := write.value } else sched.procs slot) =
      Function.update sched.procs p { sched.procs p with spinning := write.value } := by
    funext slot
    rw [target]
    by_cases same : slot = p
    · subst same
      rw [if_pos rfl, Function.update_self]
    · rw [if_neg fun equal => same (procAddress_injective base equal),
        Function.update_of_ne same]
  simp only [storeSpinning, Sched.setSpinning, executing, procs]

theorem LockedInv.executing (inv : LockedInv base lock s) {p : Slot}
    (executing : s.life.sched.executingProcess = some p) :
    p ∈ s.life.created ∧ p ∉ s.life.ended :=
  (inv.life.exact p).mp (mem_live.mpr (.inl executing))

theorem LockedInv.flag (inv : LockedInv base lock s) {p : Slot} {moved : Locks Slot}
    {write : FlagWrite Slot} (executing : s.life.sched.executingProcess = some p)
    (moves : Moves (procAddress base) lock p s.locks moved)
    (stored : moved.writes = write :: s.locks.writes) :
    storeSpinning base write s.life.sched = s.life.sched.setSpinning write.value := by
  have target : write.target = procAddress base write.writer := by
    refine (inv.locks.moves moves).writes write ?_
    rw [stored]
    exact List.mem_cons_self
  rw [moves.writer stored] at target
  exact storeSpinning_eq executing target

theorem lockedStep_inv (inv : LockedInv base lock s)
    (step : LockedStep base lock s op after) : LockedInv base lock after := by
  have life := inv.life
  have locks := inv.locks
  have created := inv.created
  cases step with
  | move executing moves quiet =>
      exact ⟨life, locks.moves moves, moves.owners created (inv.executing executing).1⟩
  | flag executing moves stored =>
      rw [inv.flag executing moves stored]
      exact ⟨setSpinning_life life _, locks.moves moves,
        moves.owners created (inv.executing executing).1⟩
  | @create heap kernelDirectory entry exitAddress slot after core result =>
      have free : s.locks.acquired slot = false := by
        obtain ⟨unused, -⟩ := Sched.createProcess_cases result
        rw [Bool.eq_false_iff]
        exact fun taken => life.used slot (created slot taken) unused
      refine ⟨(lifeStep_spec life (.create result)).1, locks.setThread free, ?_⟩
      exact fun p taken => List.mem_cons_of_mem _ (created p taken)
  | fail failed =>
      obtain ⟨memory, rfl⟩ := Sched.createProcess_fails failed
      have steady : Sched.Steady s.life.sched { s.life.sched with memory := memory } :=
        Sched.steady_of_procs rfl
      exact ⟨life.keep (.refl _) steady life.onCpu, locks, created⟩
  | start idle => exact ⟨(lifeStep_spec life (.start idle)).1, locks, created⟩
  | tick executing survives =>
      exact ⟨(lifeStep_spec life .tick).1, locks.interrupt survives, created⟩
  | idleTick idle => exact ⟨(lifeStep_spec life .tick).1, locks, created⟩
  | @exit env p executing =>
      refine ⟨?_, locks, created⟩
      have exits : LifeStep s.life (.exit env) _ := .exit executing
      simp only [Life.call, executing]
      exact (lifeStep_spec life exits).1

theorem lockedStep_calls (inv : LockedInv base lock s)
    (step : LockedStep base lock s op after) :
    ∃ calls, Run CallStep s.life calls after.life := by
  cases step with
  | move executing moves quiet => exact ⟨[], .done _⟩
  | @flag p moved write executing moves stored =>
      refine ⟨[.spin write.value], .next ?_ (.done _)⟩
      rw [inv.flag executing moves stored]
      rfl
  | create core result => exact ⟨_, .next (Life.call_create result).symm (.done _)⟩
  | fail failed => exact ⟨_, .next (Life.call_create failed).symm (.done _)⟩
  | @start env idle => exact ⟨[.start env], .next rfl (.done _)⟩
  | @tick env timeSlice p resumed executing survives =>
      exact ⟨[.tick env timeSlice], .next rfl (.done _)⟩
  | @idleTick env timeSlice idle => exact ⟨[.tick env timeSlice], .next rfl (.done _)⟩
  | @exit env p executing => exact ⟨[.exit env], .next rfl (.done _)⟩

theorem lockedRun_calls {start : LockedLife} {ops : List LockedOp}
    (inv : LockedInv base lock start) (run : Run (LockedStep base lock) start ops s) :
    ∃ calls, Run CallStep start.life calls s.life := by
  induction run with
  | done _ => exact ⟨[], .done _⟩
  | next step _ ih =>
      obtain ⟨calls, first⟩ := lockedStep_calls inv step
      obtain ⟨others, rest⟩ := ih (lockedStep_inv inv step)
      exact ⟨calls ++ others, first.append rest⟩

/-- Only the process that a call ends is added to those that have ended, and a call
leaves the lock with its owner. -/
theorem lockedStep_call {call : SchedOp} (step : LockedStep base lock s (.call call) after) :
    after.life.ended = (ending s.life call).toList ++ s.life.ended ∧
      after.locks.acquired = s.locks.acquired := by
  cases step with
  | create core result => exact ⟨rfl, rfl⟩
  | fail failed => exact ⟨rfl, rfl⟩
  | start idle => exact ⟨rfl, rfl⟩
  | tick executing survives => exact ⟨rfl, rfl⟩
  | idleTick idle => exact ⟨rfl, rfl⟩
  | exit executing => exact ⟨rfl, rfl⟩

def OwnerAlive (s : LockedLife) : Prop :=
  ∀ p, s.locks.acquired p = true → p ∉ s.life.ended

theorem ownerLive_iff (inv : LockedInv base lock s) : OwnerLive lock s ↔ OwnerAlive s := by
  constructor
  · intro live p taken ended
    obtain ⟨owner, owns, here⟩ := live (inv.locks.held.mpr ⟨p, taken⟩)
    obtain rfl := inv.locks.once owner p owns taken
    exact ((inv.life.exact owner).mp (mem_live.mpr here)).2 ended
  · intro alive held
    obtain ⟨owner, owns⟩ := inv.locks.held.mp held
    refine ⟨owner, owns, mem_live.mp ?_⟩
    exact (inv.life.exact owner).mpr ⟨inv.created owner owns, alive owner owns⟩

theorem lockedStep_alive_iff (inv : LockedInv base lock s) (alive : OwnerAlive s)
    (step : LockedStep base lock s op after) : OwnerAlive after ↔ op.Spares s := by
  cases op with
  | move =>
      refine iff_of_true ?_ trivial
      cases step with
      | move executing moves quiet =>
          exact moves.owners alive (inv.executing executing).2
      | flag executing moves stored =>
          exact moves.owners alive (inv.executing executing).2
  | call call =>
      obtain ⟨ended, acquired⟩ := lockedStep_call step
      simp only [OwnerAlive, LockedOp.Spares, ended, acquired]
      constructor
      · intro still p ends
        rw [Bool.eq_false_iff]
        intro taken
        refine still p taken (List.mem_append_left _ ?_)
        exact Option.mem_toList.mpr ends
      · intro spares p taken member
        cases List.mem_append.mp member with
        | inl ends =>
            have free := spares p (Option.mem_toList.mp ends)
            exact Bool.false_ne_true (free.symm.trans taken)
        | inr before => exact alive p taken before

end Steps

theorem lockedInv_fresh {base lock : Word} {sched : Sched} {locks : Locks Slot}
    (fresh : Fresh sched) (unlocked : locks.Fresh lock) :
    LockedInv base lock ⟨⟨sched, [], []⟩, locks⟩ := by
  refine ⟨lifeInv_fresh fresh, unlocked.inv, fun p taken => ?_⟩
  exact absurd ((unlocked.acquired p).symm.trans taken) Bool.false_ne_true

/-- In every run in which no process ends with the lock, a lock that is held has a live
owner; and from there the next step keeps it so exactly when it ends no process that has
the lock. -/
theorem held_lock_owner_live {base lock : Word} {sched : Sched} {locks : Locks Slot}
    {ops : List LockedOp} {s : LockedLife} (fresh : Fresh sched)
    (unlocked : locks.Fresh lock)
    (run : Run (fun s op after => LockedStep base lock s op after ∧ op.Spares s)
      ⟨⟨sched, [], []⟩, locks⟩ ops s) :
    OwnerLive lock s ∧
    ∀ op after, LockedStep base lock s op after → (OwnerLive lock after ↔ op.Spares s) := by
  have kept : LockedInv base lock s ∧ OwnerAlive s := by
    refine run.invariant (fun s => LockedInv base lock s ∧ OwnerAlive s) ?_
      ⟨lockedInv_fresh fresh unlocked, fun p _ => List.not_mem_nil⟩
    rintro first op last ⟨inv, alive⟩ ⟨step, spares⟩
    exact ⟨lockedStep_inv inv step, (lockedStep_alive_iff inv alive step).mpr spares⟩
  obtain ⟨inv, alive⟩ := kept
  refine ⟨(ownerLive_iff inv).mpr alive, fun op after step => ?_⟩
  exact (ownerLive_iff (lockedStep_inv inv step)).trans (lockedStep_alive_iff inv alive step)

def freshLocks : Locks Slot :=
  ⟨fun _ => 0, fun _ => ⟨⟨⟨0, 0, 0, 0, 0, 0, 0, 0⟩, 0, 8, 0x202, []⟩, .outside⟩,
    fun _ => false, []⟩

theorem fresh_freshLocks (lock : Word) : freshLocks.Fresh lock :=
  ⟨rfl, fun _ => rfl, fun _ => rfl, rfl⟩

theorem run_executing (base lock : Word) {s : LockedLife} {p : Slot}
    (executing : s.life.sched.executingProcess = some p) (count : Nat) :
    ∃ after,
      Run (fun s op after => LockedStep base lock s op after ∧ op.Spares s) s
        (List.replicate count .move) after ∧
      after.locks = (fun locks => locks.execute (procAddress base) p)^[count] s.locks ∧
      after.life.sched.executingProcess = some p := by
  induction count generalizing s with
  | zero => exact ⟨s, .done s, rfl, executing⟩
  | succ count ih =>
      have next : ∃ life, LockedStep base lock s .move
          ⟨life, s.locks.execute (procAddress base) p⟩ ∧
          life.sched.executingProcess = some p := by
        cases s.locks.execute_writes (procAddress base) p with
        | inl quiet => exact ⟨_, .move executing .instruction quiet, executing⟩
        | inr stores =>
            obtain ⟨write, stored, -⟩ := stores
            exact ⟨_, .flag executing .instruction stored, executing⟩
      obtain ⟨life, step, goes⟩ := next
      obtain ⟨after, run, locks, still⟩ := ih
        (s := ⟨life, s.locks.execute (procAddress base) p⟩) goes
      exact ⟨after, .next ⟨step, trivial⟩ run, locks, still⟩

theorem process_enters :
    ∃ s, Run (fun s op after => LockedStep 0x3000 0x9000 s op after ∧ op.Spares s)
        ⟨⟨bootSched smallMemory, [], []⟩, freshLocks⟩
        (.call (.create eightPages 0x100000 0x8000 0x9000) ::
          .call (.start ⟨0, .code⟩) :: .move :: List.replicate 13 .move) s ∧
      s.life.sched.executingProcess = some 0 ∧ s.locks.acquired 0 = true ∧
      s.locks.memory 0x9000 = 1 := by
  obtain ⟨after, created⟩ := createProcess_bootSched
  obtain ⟨-, sp, cr3, memory, rfl⟩ := Sched.createProcess_cases created
  generalize enlisted : (bootSched smallMemory).enlist 0 sp cr3 memory = ready at created
  have idle : ready.executingProcess = none := by
    rw [← enlisted]
    rfl
  have executing : (ready.startProcesses ⟨0, .code⟩).executingProcess = some 0 := by
    rw [← enlisted]
    rfl
  have calls : Moves (procAddress 0x3000) 0x9000 0
      (freshLocks.setThread 0 callsSetLock .outside)
      ((freshLocks.setThread 0 callsSetLock .outside).setThread 0 callsSetLock
        .setPush) := .setLock callsSetLock rfl rfl
  obtain ⟨s, run, locks, still⟩ := run_executing 0x3000 0x9000
    (s := ⟨⟨ready.startProcesses ⟨0, .code⟩, [0], []⟩, _⟩) executing 13
  refine ⟨s, .next ⟨.create callsSetLock created, ?_⟩ <|
    .next ⟨.start idle, ?_⟩ <| .next ⟨.move executing calls rfl, trivial⟩ run, still, ?_, ?_⟩
  · exact fun _ ends => absurd ends (Option.some_ne_none _).symm
  · exact fun _ ends => absurd ends (Option.some_ne_none _).symm
  · rw [locks]
    dsimp only
    decide +kernel
  · rw [locks]
    dsimp only
    decide +kernel

theorem held_lock_owner_live_critical :
    ∃ s, Run (fun s op after => LockedStep 0x3000 0x9000 s op after ∧ op.Spares s)
        ⟨⟨bootSched smallMemory, [], []⟩, freshLocks⟩
        (.call (.create eightPages 0x100000 0x8000 0x9000) ::
          .call (.start ⟨0, .code⟩) :: .move :: List.replicate 13 .move) s ∧
      s.locks.memory 0x9000 = 1 ∧
      ∃ owner, s.locks.acquired owner = true ∧
        (s.life.sched.executingProcess = some owner ∨
          owner ∈ s.life.sched.readyQueue.contents) := by
  obtain ⟨s, run, -, -, held⟩ := process_enters
  have nonzero : s.locks.memory 0x9000 ≠ 0 := by
    rw [held]
    decide
  exact ⟨s, run, held,
    (held_lock_owner_live (fresh_bootSched smallMemory) (fresh_freshLocks 0x9000) run).1
      nonzero⟩

/-- A process that is killed in its critical section keeps the lock. -/
theorem killed_process_keeps_lock :
    ∃ ops s, Run (LockedStep 0x3000 0x9000)
        ⟨⟨bootSched smallMemory, [], []⟩, freshLocks⟩ ops s ∧
      s.locks.memory 0x9000 = 1 ∧ s.locks.acquired 0 = true ∧ 0 ∈ s.life.ended ∧
      ¬ OwnerLive 0x9000 s := by
  obtain ⟨s, enters, executing, taken, held⟩ := process_enters
  have kills : LockedStep 0x3000 0x9000 s (.call (.exit ⟨0, .code⟩)) _ := .exit executing
  have run := (enters.mono fun _ _ _ step => step.1).append (.next kills (.done _))
  have inv := run.invariant (LockedInv 0x3000 0x9000)
    (fun _ _ _ before step => lockedStep_inv before step)
    (lockedInv_fresh (fresh_bootSched smallMemory) (fresh_freshLocks 0x9000))
  have ended : 0 ∈ (s.life.call (.exit ⟨0, .code⟩)).ended := by
    simp only [Life.call, executing]
    exact List.mem_cons_self
  refine ⟨_, _, run, held, taken, ended, fun live => ?_⟩
  exact (ownerLive_iff inv).mp live 0 taken ended

end LazyOS.Locking

import LazyOS.Locking.Owner
import LazyOS.Scheduling.Burst
import LazyOS.Scheduling.Creation

namespace LazyOS.Locking

open LazyOS.Data
open LazyOS.Interrupts
open LazyOS.Memory
open LazyOS.Scheduling

universe u

/-! Waiting for the lock, and for a lock whose owner has ended. -/

def Point.waits : Point → Bool
  | .spin | .exchange | .test | .jump | .clearSelf | .clearFlag => true
  | _ => false

def Point.entered : Point → Bool
  | .clearSelf | .clearFlag | .setPop | .setReturn | .critical => true
  | .releasePush | .releaseFrame | .releaseArgument | .releaseStore => true
  | _ => false

def Point.flag (point : Point) : Byte := if point.waits then 1 else 0

theorem Thread.InPlace.entered {lock self : Word} {t : Thread} {acquired : Bool}
    (place : t.InPlace lock self acquired) (entered : t.point.entered = true) :
    acquired = true := by
  obtain ⟨core, point⟩ := t
  cases point with
  | clearSelf | setPop | setReturn | critical => exact place
  | clearFlag | releasePush | releaseFrame | releaseStore => exact place.2
  | releaseArgument => exact place.2.2
  | _ => cases entered

section Moves

variable {Proc : Type u} [DecidableEq Proc]
variable {address : Proc → Word} {lock : Word} {s after : Locks Proc} {p q : Proc}

theorem Locks.setThread_point (s : Locks Proc) (p : Proc) (core : Core) (point : Point) :
    ((s.setThread p core point).threads p).point = point := by
  simp only [Locks.setThread, Function.update_self]

theorem Locks.setThread_same (s : Locks Proc) (p q : Proc) (core : Core) :
    ((s.setThread p core (s.threads p).point).threads q).point = (s.threads q).point := by
  by_cases same : q = p
  · rw [same, Locks.setThread_point]
  · simp only [Locks.setThread, Function.update_of_ne same]

theorem Locks.execute_threads_other (other : q ≠ p) :
    (s.execute address p).threads q = s.threads q := by
  unfold Locks.execute
  cases (s.threads p).point with
  | outside => rfl
  | critical => rfl
  | _ => exact Function.update_of_ne other ..

theorem Moves.threads_other (moves : Moves address lock p s after) (other : q ≠ p) :
    after.threads q = s.threads q := by
  cases moves with
  | instruction => exact Locks.execute_threads_other other
  | _ => exact Function.update_of_ne other ..

theorem Moves.acquired_other (moves : Moves address lock p s after) (other : q ≠ p) :
    after.acquired q = s.acquired q := by
  cases moves with
  | instruction => exact Locks.execute_acquired_other other
  | _ => rfl

/-- An instruction that stores no flag keeps its process on the same side of the two
stores; one that stores a flag stores what its next point asks for. -/
theorem Locks.execute_flag (address : Proc → Word) (s : Locks Proc) (p : Proc) :
    ((s.execute address p).writes = s.writes ∧
      ((s.execute address p).threads p).point.flag = (s.threads p).point.flag) ∨
    ∃ write, (s.execute address p).writes = write :: s.writes ∧
      write.value = ((s.execute address p).threads p).point.flag := by
  unfold Locks.execute
  cases here : (s.threads p).point with
  | setFlag =>
      refine .inr ⟨_, rfl, ?_⟩
      rw [Locks.setThread_point]
      rfl
  | clearFlag =>
      refine .inr ⟨_, rfl, ?_⟩
      rw [Locks.setThread_point]
      rfl
  | outside => exact .inl ⟨rfl, by rw [here]⟩
  | critical => exact .inl ⟨rfl, by rw [here]⟩
  | exchange =>
      refine .inl ⟨rfl, ?_⟩
      simp only [Locks.xchg, Locks.setThread_point]
      rfl
  | releaseStore =>
      refine .inl ⟨rfl, ?_⟩
      simp only [Locks.store, Locks.setThread_point]
      rfl
  | jump =>
      refine .inl ⟨rfl, ?_⟩
      simp only [Locks.setThread_point]
      split <;> rfl
  | _ =>
      refine .inl ⟨rfl, ?_⟩
      simp only [Locks.setThread_point]
      rfl

theorem Moves.flag (moves : Moves address lock p s after) :
    (after.writes = s.writes ∧
      (after.threads p).point.flag = (s.threads p).point.flag) ∨
    ∃ write, after.writes = write :: s.writes ∧
      write.value = (after.threads p).point.flag := by
  cases moves with
  | instruction => exact s.execute_flag address p
  | code core memory own kept =>
      refine .inl ⟨rfl, ?_⟩
      simp only [Locks.setThread_point]
  | setLock core outside argument =>
      refine .inl ⟨rfl, ?_⟩
      rw [Locks.setThread_point, outside]
      rfl
  | releaseLock core critical argument =>
      refine .inl ⟨rfl, ?_⟩
      rw [Locks.setThread_point, critical]
      rfl
  | interrupt survives => exact .inl ⟨rfl, by rw [Locks.setThread_point]⟩

theorem Moves.waits (inv : LockInv address lock s) (moves : Moves address lock p s after)
    (free : s.acquired p = false) (waits : (s.threads p).point.waits = true) :
    (after.threads p).point.waits = true := by
  have place := inv.threads p
  rw [free] at place
  unfold Thread.InPlace at place
  cases moves with
  | code core memory own kept =>
      simp only [Locks.setThread_point]
      exact waits
  | setLock core outside argument =>
      rw [outside] at waits
      cases waits
  | releaseLock core critical argument =>
      rw [critical] at waits
      cases waits
  | interrupt survives =>
      rw [Locks.setThread_point]
      exact waits
  | instruction =>
      unfold Locks.execute
      cases here : (s.threads p).point with
      | spin =>
          simp only [Locks.setThread_point]
          rfl
      | exchange =>
          simp only [Locks.xchg, Locks.setThread_point]
          rfl
      | test =>
          simp only [Locks.setThread_point]
          rfl
      | jump =>
          simp only [Locks.setThread_point]
          split <;> rfl
      | clearSelf =>
          rw [here] at place
          cases place
      | clearFlag =>
          rw [here] at place
          cases place.2
      | _ =>
          rw [here] at waits
          cases waits

end Moves

structure FlagInv (base lock : Word) (s : LockedLife) : Prop where
  inv : LockedInv base lock s
  flag : ∀ p ∈ s.life.created,
    (s.life.sched.procs p).spinning = (s.locks.threads p).point.flag

section Steps

variable {base lock : Word} {s after : LockedLife} {op : LockedOp}

theorem flag_setThread {p : Slot} {core : Core} (inv : FlagInv base lock s)
    {sched : Sched} (kept : ∀ q, (sched.procs q).spinning =
      (s.life.sched.procs q).spinning) (q : Slot) (created : q ∈ s.life.created) :
    (sched.procs q).spinning =
      ((s.locks.setThread p core (s.locks.threads p).point).threads q).point.flag := by
  rw [kept, inv.flag q created, Locks.setThread_same]

theorem spinning_startProcesses (env : SwitchEnv) (s : Sched) (slot : Slot) :
    ((s.startProcesses env).procs slot).spinning = (s.procs slot).spinning :=
  congrArg Prod.snd (congrFun (s.clock_startProcesses env) slot)

theorem spinning_processExit (env : SwitchEnv) {s : Sched} {p : Slot}
    (executing : s.executingProcess = some p) (slot : Slot) :
    ((s.processExit env).procs slot).spinning = (s.procs slot).spinning :=
  congrArg Prod.snd (congrFun (s.clock_processExit env executing) slot)

theorem flagInv_step (before : FlagInv base lock s)
    (step : LockedStep base lock s op after) : FlagInv base lock after := by
  have inv := lockedStep_inv before.inv step
  refine ⟨inv, ?_⟩
  cases step with
  | @move p locks executing moves quiet =>
      intro q created
      rw [before.flag q created]
      by_cases same : q = p
      · subst same
        cases moves.flag with
        | inl kept => exact kept.2.symm
        | inr stores =>
            obtain ⟨write, stored, -⟩ := stores
            exact absurd (stored.symm.trans quiet) (List.cons_ne_self _ _)
      · rw [moves.threads_other same]
  | @flag p locks write executing moves stored =>
      intro q created
      rw [before.inv.flag executing moves stored]
      simp only [Sched.setSpinning, executing]
      by_cases same : q = p
      · subst same
        rw [Function.update_self]
        cases moves.flag with
        | inl kept => exact absurd (stored.symm.trans kept.1) (List.cons_ne_self _ _)
        | inr stores =>
            obtain ⟨other, stored', value⟩ := stores
            obtain ⟨rfl, -⟩ := List.cons.inj (stored.symm.trans stored')
            exact value
      · rw [Function.update_of_ne same, moves.threads_other same]
        exact before.flag q created
  | @create heap kernelDirectory entry exitAddress slot sched core created =>
      obtain ⟨unused, sp, cr3, memory, rfl⟩ := Sched.createProcess_cases created
      intro q member
      by_cases same : q = slot
      · subst same
        simp only [Sched.enlist, Function.update_self, Locks.setThread_point]
        rfl
      · simp only [Sched.enlist, Locks.setThread, Function.update_of_ne same]
        exact before.flag q ((List.mem_cons.mp member).resolve_left same)
  | fail failed =>
      obtain ⟨memory, rfl⟩ := Sched.createProcess_fails failed
      exact before.flag
  | start idle =>
      intro q created
      exact (spinning_startProcesses _ _ q).trans (before.flag q created)
  | tick executing survives =>
      exact flag_setThread before (spinning_tick _ _)
  | idleTick idle =>
      intro q created
      exact (spinning_tick _ _ q).trans (before.flag q created)
  | exit executing =>
      intro q created
      exact (spinning_processExit _ executing q).trans (before.flag q created)

theorem FlagInv.expiring (inv : FlagInv base lock s) {timeSlice : Int} {p : Slot}
    (expires : s.life.sched.expiring timeSlice = some p) :
    (s.locks.threads p).point.waits = false := by
  unfold Sched.expiring at expires
  rw [Option.filter_eq_some_iff, decide_eq_true_eq] at expires
  obtain ⟨executing, expired⟩ := expires
  have live := mem_live.mpr (.inl executing)
  have alive := inv.inv.life.burst p live
  have flag := inv.flag p ((inv.inv.life.exact p).mp live).1
  unfold Point.flag at flag
  cases waits : (s.locks.threads p).point.waits with
  | false => rfl
  | true =>
      rw [waits, if_pos rfl] at flag
      unfold Sched.burstAfter at expired
      rw [flag, if_neg (by decide)] at expired
      omega

end Steps

theorem flagInv_fresh {base lock : Word} {sched : Sched} {locks : Locks Slot}
    (fresh : Fresh sched) (unlocked : locks.Fresh lock) :
    FlagInv base lock ⟨⟨sched, [], []⟩, locks⟩ :=
  ⟨lockedInv_fresh fresh unlocked, fun _ created => absurd created List.not_mem_nil⟩

theorem lockedRun_flags {base lock : Word} {s after : LockedLife} {ops : List LockedOp}
    (inv : FlagInv base lock s) (run : Run (LockedStep base lock) s ops after) :
    FlagInv base lock after :=
  run.invariant (FlagInv base lock) (fun _ _ _ before step => flagInv_step before step) inv

/-- The lock was acquired by a process that has ended with it. -/
structure Deserted (base lock : Word) (owner : Slot) (s : LockedLife) : Prop where
  inv : FlagInv base lock s
  taken : s.locks.acquired owner = true
  ended : owner ∈ s.life.ended

section Deserted

variable {base lock : Word} {owner : Slot} {s after : LockedLife} {op : LockedOp}

theorem Deserted.executing_ne (deserted : Deserted base lock owner s) {p : Slot}
    (executing : s.life.sched.executingProcess = some p) : owner ≠ p := by
  rintro rfl
  exact (deserted.inv.inv.executing executing).2 deserted.ended

theorem deserted_step (deserted : Deserted base lock owner s)
    (step : LockedStep base lock s op after) : Deserted base lock owner after := by
  have inv := flagInv_step deserted.inv step
  cases op with
  | move =>
      cases step with
      | move executing moves quiet =>
          have other := deserted.executing_ne executing
          exact ⟨inv, (moves.acquired_other other).trans deserted.taken, deserted.ended⟩
      | flag executing moves stored =>
          have other := deserted.executing_ne executing
          exact ⟨inv, (moves.acquired_other other).trans deserted.taken, deserted.ended⟩
  | call call =>
      obtain ⟨ended, acquired⟩ := lockedStep_call step
      refine ⟨inv, (congrFun acquired owner).trans deserted.taken, ?_⟩
      rw [ended]
      exact List.mem_append_right _ deserted.ended

theorem Deserted.acquired_iff (deserted : Deserted base lock owner s) (p : Slot) :
    s.locks.acquired p = true ↔ p = owner := by
  constructor
  · intro taken
    exact deserted.inv.inv.locks.once p owner taken deserted.taken
  · rintro rfl
    exact deserted.taken

theorem Deserted.not_entered (deserted : Deserted base lock owner s) {p : Slot}
    (other : p ≠ owner) : (s.locks.threads p).point.entered = false := by
  rw [Bool.eq_false_iff]
  intro entered
  exact other ((deserted.acquired_iff p).mp
    ((deserted.inv.inv.locks.threads p).entered entered))

end Deserted

section Hangs

variable {base lock : Word} {owner waiter : Slot} {s after : LockedLife} {op : LockedOp}

end Hangs

theorem moves_lives {base lock : Word} {s after : LockedLife} {count : Nat}
    (run : Run (LockedStep base lock) s (List.replicate count .move) after) :
    after.life.created = s.life.created ∧ after.life.ended = s.life.ended := by
  induction count generalizing s with
  | zero =>
      cases run
      exact ⟨rfl, rfl⟩
  | succ count ih =>
      cases run with
      | next step rest =>
          obtain ⟨created, ended⟩ := ih rest
          cases step with
          | move executing moves quiet => exact ⟨created, ended⟩
          | flag executing moves stored => exact ⟨created, ended⟩

theorem executing_calls_setLock (base lock : Word) {s : LockedLife} {p : Slot}
    (executing : s.life.sched.executingProcess = some p)
    (outside : (s.locks.threads p).point = .outside)
    (argument : callsSetLock.peek 1 = lock) (count : Nat) :
    ∃ after, Run (LockedStep base lock) s (List.replicate (count + 1) .move) after ∧
      after.locks = (fun locks => locks.execute (procAddress base) p)^[count]
        (s.locks.setThread p callsSetLock .setPush) ∧
      after.life.sched.executingProcess = some p ∧
      after.life.created = s.life.created ∧ after.life.ended = s.life.ended := by
  have calls : LockedStep base lock s .move
      ⟨s.life, s.locks.setThread p callsSetLock .setPush⟩ :=
    .move executing (.setLock callsSetLock outside argument) rfl
  obtain ⟨after, run, locks, still⟩ := run_executing base lock
    (s := ⟨s.life, s.locks.setThread p callsSetLock .setPush⟩) executing count
  have all : Run (LockedStep base lock) s (List.replicate (count + 1) .move) after :=
    .next calls (run.mono fun _ _ _ step => step.1)
  exact ⟨after, all, locks, still, moves_lives all⟩

def callers (first second : Slot) : Locks Slot :=
  (freshLocks.setThread first callsSetLock .outside).setThread second callsSetLock .outside

theorem two_processes :
    ∃ (calls : List SchedOp) (sched : Sched), Run (LockedStep 0x3000 0x9000)
        ⟨⟨bootSched blankMemory, [], []⟩, freshLocks⟩ (calls.map .call)
        ⟨⟨sched, [1, 0], []⟩, callers 0 1⟩ ∧
      sched.executingProcess = some 0 := by
  obtain ⟨sp, cr3, memory, plenty, first⟩ :=
    createProcess_plenty 1 (bootSched blankMemory) 0 plenty_blankMemory (by decide) rfl
  generalize one : (bootSched blankMemory).enlist 0 sp cr3 memory = ready at first
  have idle : ready.executingProcess = none := one ▸ rfl
  have started : (ready.startProcesses ⟨0, .code⟩).executingProcess = some 0 := one ▸ rfl
  have kept : (ready.startProcesses ⟨0, .code⟩).memory = memory := one ▸ rfl
  obtain ⟨sp', cr3', memory', -, second⟩ :=
    createProcess_plenty 3 (ready.startProcesses ⟨0, .code⟩) 1 (kept ▸ plenty)
      (by decide) (one ▸ rfl)
  exact ⟨[.create manyPages 0x100000 0x8000 0x9000, .start ⟨0, .code⟩,
      .create manyPages 0x100000 0x8000 0x9000], _,
    .next (.create callsSetLock first) <| .next (.start idle) <|
      .next (.create callsSetLock second) (.done _), started⟩

theorem exit_goes_on {base lock : Word} {sched : Sched} {locks : Locks Slot}
    {ops : List LockedOp} {s : LockedLife} (booted : Booted sched)
    (inv : LockedInv base lock ⟨⟨sched, [], []⟩, locks⟩)
    (run : Run (LockedStep base lock) ⟨⟨sched, [], []⟩, locks⟩ ops s) {p q : Slot}
    (executing : s.life.sched.executingProcess = some p) (different : q ≠ p)
    (live : q ∈ s.life.sched.live) (env : SwitchEnv) :
    ∃ next, (s.life.call (.exit env)).sched.executingProcess = some next ∧
      next ∈ s.life.created ∧ next ∉ p :: s.life.ended := by
  obtain ⟨calls, called⟩ := lockedRun_calls inv run
  have census := callRun_inv booted called
  have waits := (mem_live.mp live).resolve_left fun here =>
    different (Option.some.inj (here.symm.trans executing))
  have busy : (s.life.call (.exit env)).sched.executingProcess ≠ none := by
    intro idle
    have empty := (call_idle_iff census (.exit env)).mp idle
    rw [PriorityQueue.contents_eq_nil empty] at waits
    exact List.not_mem_nil waits
  obtain ⟨next, goes⟩ := Option.ne_none_iff_exists'.mp busy
  have after := lockedStep_inv (run.invariant (LockedInv base lock)
    (fun _ _ _ before step => lockedStep_inv before step) inv)
    (.exit executing : LockedStep base lock s (.call (.exit env)) _)
  have alive := (after.life.exact next).mp (mem_live.mpr (.inl goes))
  refine ⟨next, goes, alive.1, ?_⟩
  have ended : (s.life.call (.exit env)).ended = p :: s.life.ended := by
    simp only [Life.call, executing, Option.toList_some, List.singleton_append]
  exact ended ▸ alive.2

theorem killed_owner_leaves_waiter :
    ∃ ops s, Run (LockedStep 0x3000 0x9000)
        ⟨⟨bootSched blankMemory, [], []⟩, freshLocks⟩ ops s ∧
      s.locks.acquired 0 = true ∧ 0 ∈ s.life.ended ∧
      s.life.sched.executingProcess = some 1 ∧
      (s.locks.threads 1).point.waits = true := by
  have inv : LockedInv 0x3000 0x9000 _ :=
    lockedInv_fresh (fresh_bootSched blankMemory) (fresh_freshLocks 0x9000)
  obtain ⟨calls, sched, start, executing⟩ := two_processes
  obtain ⟨s, enters, locks, executing, created, ended⟩ :=
    executing_calls_setLock 0x3000 0x9000 (s := ⟨⟨sched, [1, 0], []⟩, callers 0 1⟩)
      executing rfl rfl 13
  change s.life.created = [1, 0] at created
  change s.life.ended = [] at ended
  change s.locks = _^[13] ((callers 0 1).setThread 0 callsSetLock .setPush) at locks
  have entered := start.append enters
  have live : (1 : Slot) ∈ s.life.sched.live := by
    have life := (entered.invariant (LockedInv 0x3000 0x9000)
      (fun _ _ _ before step => lockedStep_inv before step) inv).life
    rw [life.exact, created, ended]
    decide
  obtain ⟨next, goes, alive, unended⟩ := exit_goes_on (booted_bootSched blankMemory) inv
    entered executing (by decide : (1 : Slot) ≠ 0) live ⟨0, .code⟩
  have second : next = 1 := by
    rw [created] at alive
    rw [ended] at unended
    have only : ∀ slot : Slot, slot ∈ [1, 0] → slot ∉ [0] → slot = 1 := by decide
    exact only next alive unended
  subst second
  have exits : LockedStep 0x3000 0x9000 s (.call (.exit ⟨0, .code⟩)) _ := .exit executing
  have exited := entered.append (.next exits (.done _))
  obtain ⟨t, spins, waits, still, -, gone⟩ :=
    executing_calls_setLock 0x3000 0x9000 (s := ⟨s.life.call (.exit ⟨0, .code⟩), s.locks⟩)
      goes (by rw [locks]; decide +kernel) rfl 5
  refine ⟨_, t, exited.append spins, ?_, ?_, still, ?_⟩
  · rw [waits, locks]
    decide +kernel
  · rw [gone]
    simp only [Life.call, executing]
    exact List.mem_cons_self
  · rw [waits, locks]
    decide +kernel

/-- In every state of every run the spinning flag of a process tells whether it is
between the two stores of `setLock`, and no tick ends a process that is. -/
theorem spinning_flag_exact {base lock : Word} {sched : Sched} {locks : Locks Slot}
    {ops : List LockedOp} {s : LockedLife} (fresh : Fresh sched)
    (unlocked : locks.Fresh lock)
    (run : Run (LockedStep base lock) ⟨⟨sched, [], []⟩, locks⟩ ops s) :
    (∀ p ∈ s.life.created, (s.life.sched.procs p).spinning =
      if (s.locks.threads p).point.waits then 1 else 0) ∧
    ∀ timeSlice p, s.life.sched.expiring timeSlice = some p →
      (s.locks.threads p).point.waits = false := by
  have inv := lockedRun_flags (flagInv_fresh fresh unlocked) run
  exact ⟨inv.flag, fun _ _ => inv.expiring⟩

/-- The first process before its first `xchg`. -/
theorem spinning_flag_exact_first :
    ∃ ops s, Run (LockedStep 0x3000 0x9000)
        ⟨⟨bootSched blankMemory, [], []⟩, freshLocks⟩ ops s ∧
      (s.locks.threads 0).point = .exchange ∧ (s.life.sched.procs 0).spinning = 1 := by
  obtain ⟨calls, sched, start, executing⟩ := two_processes
  obtain ⟨s, enters, locks, -, created, -⟩ :=
    executing_calls_setLock 0x3000 0x9000 (s := ⟨⟨sched, [1, 0], []⟩, callers 0 1⟩)
      executing rfl rfl 6
  change s.life.created = [1, 0] at created
  change s.locks = _^[6] ((callers 0 1).setThread 0 callsSetLock .setPush) at locks
  have run := start.append enters
  have point : (s.locks.threads 0).point = .exchange := by
    rw [locks]
    decide +kernel
  obtain ⟨flags, -⟩ := spinning_flag_exact (fresh_bootSched blankMemory)
    (fresh_freshLocks 0x9000) run
  refine ⟨_, s, run, point, ?_⟩
  rw [flags 0 (by rw [created]; decide), point]
  rfl

/-- Once a process has ended with the lock, the lock word is never zero again, nobody
else ever acquires the lock, and no other process ever comes out of `setLock`. -/
theorem deserted_lock_never_taken {base lock : Word} {sched : Sched}
    {locks : Locks Slot} {ops later : List LockedOp} {s after : LockedLife}
    (fresh : Fresh sched) (unlocked : locks.Fresh lock)
    (run : Run (LockedStep base lock) ⟨⟨sched, [], []⟩, locks⟩ ops s) {owner : Slot}
    (taken : s.locks.acquired owner = true) (ended : owner ∈ s.life.ended)
    (rest : Run (LockedStep base lock) s later after) :
    after.locks.memory lock ≠ 0 ∧
    (∀ p, after.locks.acquired p = true ↔ p = owner) ∧
    ∀ p, p ≠ owner → (after.locks.threads p).point.entered = false := by
  have inv := lockedRun_flags (flagInv_fresh fresh unlocked) run
  have deserted : Deserted base lock owner after :=
    rest.invariant (Deserted base lock owner) (fun _ _ _ before step =>
      deserted_step before step) ⟨inv, taken, ended⟩
  refine ⟨deserted.inv.inv.locks.held.mpr ⟨owner, deserted.taken⟩, deserted.acquired_iff,
    fun p other => deserted.not_entered other⟩

theorem deserted_lock_never_taken_two :
    ∃ ops s, Run (LockedStep 0x3000 0x9000)
        ⟨⟨bootSched blankMemory, [], []⟩, freshLocks⟩ ops s ∧
      s.locks.memory 0x9000 ≠ 0 ∧ (s.locks.threads 1).point.entered = false := by
  obtain ⟨ops, s, run, taken, ended, -, -⟩ := killed_owner_leaves_waiter
  obtain ⟨held, -, outside⟩ := deserted_lock_never_taken (fresh_bootSched blankMemory)
    (fresh_freshLocks 0x9000) run taken ended (.done s)
  exact ⟨ops, s, run, held, outside 1 (by decide)⟩

theorem LockedInv.busy {base lock : Word} {s : LockedLife} (inv : LockedInv base lock s)
    {p : Slot} (executing : s.life.sched.executingProcess = some p) :
    s.life.sched.cpu.owner ≠ .kernel := by
  rw [inv.life.onCpu]
  simp only [Sched.running, executing]
  exact ProcPtr.noConfusion

end LazyOS.Locking

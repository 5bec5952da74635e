import Mathlib.Algebra.BigOperators.Fin
import Mathlib.Data.BitVec
import LazyOS.Locking.Owner
import LazyOS.Locking.Waiting

namespace LazyOS.Locking

open LazyOS.Data
open LazyOS.Interrupts
open LazyOS.Memory
open LazyOS.Scheduling

/-! The processes of `kernel.c` that change `shared_variable` under the lock. -/

/-- A process changes the variable `times` times by `delta` between one `setLock` and one
`releaseLock`. -/
structure Worker where
  times : Nat
  delta : Word

def procAEntry : Worker := ⟨5, 1⟩

def procBEntry : Worker := ⟨20, -1⟩

/-- Where a process stands in an update of the variable: a load into `eax`, an add, and the
store of `eax`.  The marks say whether an interrupt has come before and behind the add. -/
inductive Stage where
  | between
  | loaded (cut : Bool)
  | added (cutBefore cutAfter : Bool)
deriving DecidableEq

def Stage.interrupted : Stage → Stage
  | .between => .between
  | .loaded _ => .loaded true
  | .added cutBefore _ => .added cutBefore true

structure Update where
  worker : Slot
  cutBefore : Bool
  cutAfter : Bool
deriving DecidableEq

def doneBy (p : Slot) (history : List Update) : Nat :=
  history.countP fun update => update.worker = p

/-- The steps of a worker that has stored `done` updates, with what the step stores.  The
rest of its code leaves the variable alone. -/
inductive Acts (address : Slot → Word) (lock shared : Word) (worker : Worker) (p : Slot)
    (s : Locks Slot) (done : Nat) : Stage → Locks Slot → List Update → Stage → Prop
  | code (core : Core) (memory : Word → Word)
      (own : (s.threads p).point = .outside ∨ (s.threads p).point = .critical)
      (lockKept : memory lock = s.memory lock) (kept : memory shared = s.memory shared) :
      Acts address lock shared worker p s done .between
        { s.setThread p core (s.threads p).point with memory := memory } [] .between
  | setLock (core : Core) (outside : (s.threads p).point = .outside)
      (argument : core.peek 1 = lock) (first : done = 0) :
      Acts address lock shared worker p s done .between (s.setThread p core .setPush) []
        .between
  | load (critical : (s.threads p).point = .critical) (more : done < worker.times) :
      Acts address lock shared worker p s done .between
        (s.setThread p ((s.threads p).core.setEax (s.memory shared)) .critical) []
        (.loaded false)
  | add {cut : Bool} (critical : (s.threads p).point = .critical) :
      Acts address lock shared worker p s done (.loaded cut)
        (s.setThread p
          ((s.threads p).core.setEax ((s.threads p).core.regs.eax + worker.delta)) .critical)
        [] (.added cut false)
  | store {cutBefore cutAfter : Bool} (critical : (s.threads p).point = .critical) :
      Acts address lock shared worker p s done (.added cutBefore cutAfter)
        { s with memory := Function.update s.memory shared (s.threads p).core.regs.eax }
        [⟨p, cutBefore, cutAfter⟩] .between
  | releaseLock (core : Core) (critical : (s.threads p).point = .critical)
      (argument : core.peek 1 = lock) (finished : done = worker.times) :
      Acts address lock shared worker p s done .between
        (s.setThread p core .releasePush) [] .between
  | instruction {stage : Stage} :
      Acts address lock shared worker p s done stage (s.execute address p) [] stage
  | interrupt {stage : Stage} {resumed : Core}
      (survives : Survives (address p) (s.threads p).core resumed) :
      Acts address lock shared worker p s done stage
        (s.setThread p resumed (s.threads p).point) [] stage.interrupted

structure Workshop where
  state : LockedLife
  stage : Slot → Stage
  history : List Update

def Workshop.stageAfter (s : Workshop) : SchedOp → Slot → Stage
  | .tick _ _ =>
      match s.state.life.sched.executingProcess with
      | some p => Function.update s.stage p (s.stage p).interrupted
      | none => s.stage
  | _ => s.stage

/-- The executing process acts as its worker does, and the scheduler is called as in any
run. -/
inductive WorkStep (base lock shared : Word) (program : Slot → Worker) (s : Workshop) :
    LockedOp → Workshop → Prop
  | act {p : Slot} {after : LockedLife} {stored : List Update} {stage : Stage}
      (executing : s.state.life.sched.executingProcess = some p)
      (acts : Acts (procAddress base) lock shared (program p) p s.state.locks
        (doneBy p s.history) (s.stage p) after.locks stored stage)
      (step : LockedStep base lock s.state .move after) :
      WorkStep base lock shared program s .move
        ⟨after, Function.update s.stage p stage, stored ++ s.history⟩
  | call {op : SchedOp} {after : LockedLife}
      (step : LockedStep base lock s.state (.call op) after) :
      WorkStep base lock shared program s (.call op) ⟨after, s.stageAfter op, s.history⟩

/-- Every IRQ returns with 0x20 in `al`. -/
def clobbered (cut : Bool) (eax : Word) : Word :=
  if cut then eax.extractLsb' 8 24 ++ endOfInterrupt else eax

def Update.apply (program : Slot → Worker) (update : Update) (value : Word) : Word :=
  clobbered update.cutAfter
    (clobbered update.cutBefore value + (program update.worker).delta)

/-- One update after the other, each on what the one before it has stored. -/
def replay (program : Slot → Worker) (initial : Word) (history : List Update) : Word :=
  history.foldr (Update.apply program) initial

/-- No interrupt has come between its load and its store. -/
def Update.Whole (update : Update) : Prop :=
  update.cutBefore = false ∧ update.cutAfter = false

/-- What `eax` holds during an update of a variable with this value. -/
def Stage.Holds (delta value eax : Word) : Stage → Prop
  | .between => True
  | .loaded cut => eax = clobbered cut value
  | .added cutBefore cutAfter =>
      eax = clobbered cutAfter (clobbered cutBefore value + delta)

/-- The first update of process A, when the clock interrupts it behind its load. -/
example : Update.apply (fun _ => procAEntry) ⟨0, true, false⟩ 0 = 0x21 := by decide

theorem clobbered_clobbered (cut : Bool) (eax : Word) :
    clobbered true (clobbered cut eax) = clobbered true eax := by
  cases cut with
  | false => rfl
  | true =>
      have high : (eax.extractLsb' 8 24 ++ endOfInterrupt).extractLsb' 8 24 =
          eax.extractLsb' 8 24 := BitVec.extractLsb'_append_eq_left
      simp only [clobbered, if_true, high]

theorem Stage.Holds.interrupt {delta value eax : Word} {stage : Stage}
    (holds : stage.Holds delta value eax) :
    stage.interrupted.Holds delta value (clobbered true eax) := by
  cases stage with
  | between => trivial
  | loaded cut => exact (congrArg (clobbered true) holds).trans (clobbered_clobbered ..)
  | added cutBefore cutAfter =>
      exact (congrArg (clobbered true) holds).trans (clobbered_clobbered ..)

theorem Stage.interrupted_between {stage : Stage} :
    stage.interrupted = .between ↔ stage = .between := by
  cases stage <;> simp [Stage.interrupted]

theorem Update.apply_of_whole (program : Slot → Worker) {update : Update}
    (whole : update.Whole) (value : Word) :
    update.apply program value = value + (program update.worker).delta := by
  unfold Update.apply
  rw [whole.1, whole.2]
  rfl

theorem doneBy_cons (p : Slot) (update : Update) (history : List Update) :
    doneBy p (update :: history) = doneBy p history + if update.worker = p then 1 else 0 := by
  unfold doneBy
  rw [List.countP_cons]
  simp only [decide_eq_true_eq]

theorem replay_of_whole (program : Slot → Worker) (initial : Word) {history : List Update}
    (whole : ∀ update ∈ history, update.Whole) :
    replay program initial history =
      initial + ∑ p, (doneBy p history : Word) * (program p).delta := by
  induction history with
  | nil =>
      have zero : ∑ p, (doneBy p [] : Word) * (program p).delta = 0 :=
        Finset.sum_eq_zero fun p _ => by
          rw [show doneBy p [] = 0 from rfl, Nat.cast_zero, zero_mul]
      rw [zero, add_zero]
      rfl
  | cons update history ih =>
      have counted : ∀ p, (doneBy p (update :: history) : Word) * (program p).delta =
          (doneBy p history : Word) * (program p).delta +
            if update.worker = p then (program p).delta else 0 := by
        intro p
        rw [doneBy_cons, Nat.cast_add, add_mul]
        split <;> simp
      have earlier := ih fun update member => whole update (List.mem_cons_of_mem _ member)
      change update.apply program (replay program initial history) = _
      rw [update.apply_of_whole program (whole update List.mem_cons_self), earlier,
        Finset.sum_congr rfl fun p _ => counted p, Finset.sum_add_distrib,
        Finset.sum_ite_eq, if_pos (Finset.mem_univ _), add_assoc]

section Steps

variable {address : Slot → Word} {base lock shared : Word} {program : Slot → Worker}
variable {worker : Worker} {p : Slot}

theorem Acts.moves {s after : Locks Slot} {done : Nat} {stage next : Stage}
    {stored : List Update} (different : shared ≠ lock)
    (acts : Acts address lock shared worker p s done stage after stored next) :
    Moves address lock p s after := by
  have own : ∀ (core : Core) (memory : Word → Word), (s.threads p).point = .critical →
      memory lock = s.memory lock →
      Moves address lock p s { s.setThread p core .critical with memory := memory } := by
    intro core memory critical kept
    have moves : Moves address lock p s _ := .code core memory (.inr critical) kept
    rwa [critical] at moves
  cases acts with
  | code core memory own lockKept kept => exact .code core memory own lockKept
  | setLock core outside argument first => exact .setLock core outside argument
  | load critical more => exact own _ s.memory critical rfl
  | add critical => exact own _ s.memory critical rfl
  | store critical =>
      have moves := own (s.threads p).core _ critical
        (Function.update_of_ne different.symm (s.threads p).core.regs.eax s.memory)
      have here : (⟨(s.threads p).core, .critical⟩ : Thread) = s.threads p := by
        rw [← critical]
      unfold Locks.setThread at moves
      rwa [here, Function.update_eq_self] at moves
  | releaseLock core critical argument finished =>
      exact .releaseLock core critical argument
  | instruction => exact .instruction
  | interrupt survives => exact .interrupt survives

theorem execute_memory_other {s : Locks Slot} (inv : LockInv address lock s)
    (different : shared ≠ lock) (p : Slot) :
    (s.execute address p).memory shared = s.memory shared := by
  have place := inv.threads p
  unfold Thread.InPlace at place
  unfold Locks.execute
  cases here : (s.threads p).point with
  | exchange =>
      rw [here] at place
      simp only [Locks.xchg, place.1]
      exact Function.update_of_ne different ..
  | releaseStore =>
      rw [here] at place
      simp only [Locks.store, place.1]
      exact Function.update_of_ne different ..
  | _ => rfl

theorem execute_critical {s : Locks Slot} (critical : (s.threads p).point = .critical) :
    s.execute address p = s := by
  unfold Locks.execute
  rw [critical]

structure WorkInv (base lock shared : Word) (program : Slot → Worker) (initial : Word)
    (s : Workshop) : Prop where
  inv : LockedInv base lock s.state
  value : s.state.locks.memory shared = replay program initial s.history
  done : ∀ p, doneBy p s.history ≤ (program p).times
  more : ∀ p, s.stage p ≠ .between → doneBy p s.history < (program p).times
  critical : ∀ p, s.stage p ≠ .between → (s.state.locks.threads p).point = .critical
  holds : ∀ p, (s.stage p).Holds (program p).delta (s.state.locks.memory shared)
    (s.state.locks.threads p).core.regs.eax

variable {initial : Word} {s after : Workshop} {op : LockedOp}

theorem WorkInv.only (inv : WorkInv base lock shared program initial s) {q : Slot}
    (critical : (s.state.locks.threads p).point = .critical)
    (during : s.stage q ≠ .between) : q = p := by
  have entered : ∀ {r : Slot}, (s.state.locks.threads r).point = .critical →
      s.state.locks.acquired r = true := fun {r} here =>
    (inv.inv.locks.threads r).entered (by rw [here]; rfl)
  exact inv.inv.locks.once q p (entered (inv.critical q during)) (entered critical)

theorem WorkInv.own (before : WorkInv base lock shared program initial s)
    {state : LockedLife} {stage : Stage} (inv : LockedInv base lock state)
    (memory : state.locks.memory shared = s.state.locks.memory shared)
    (others : ∀ q, q ≠ p → state.locks.threads q = s.state.locks.threads q)
    (more : stage ≠ .between → doneBy p s.history < (program p).times)
    (critical : stage ≠ .between → (state.locks.threads p).point = .critical)
    (holds : stage.Holds (program p).delta (s.state.locks.memory shared)
      (state.locks.threads p).core.regs.eax) :
    WorkInv base lock shared program initial
      ⟨state, Function.update s.stage p stage, s.history⟩ := by
  refine ⟨inv, memory.trans before.value, before.done, ?_, ?_, ?_⟩
  all_goals
    intro q
    simp only
    by_cases same : q = p
  · rw [same, Function.update_self]
    exact more
  · rw [Function.update_of_ne same]
    exact before.more q
  · rw [same, Function.update_self]
    exact critical
  · rw [Function.update_of_ne same, others q same]
    exact before.critical q
  · rw [same, Function.update_self, memory]
    exact holds
  · rw [Function.update_of_ne same, others q same, memory]
    exact before.holds q

theorem WorkInv.keep (before : WorkInv base lock shared program initial s)
    {state : LockedLife} (inv : LockedInv base lock state)
    (memory : state.locks.memory shared = s.state.locks.memory shared)
    (threads : ∀ q, s.stage q ≠ .between →
      state.locks.threads q = s.state.locks.threads q) :
    WorkInv base lock shared program initial ⟨state, s.stage, s.history⟩ := by
  refine ⟨inv, memory.trans before.value, before.done, before.more, fun q during => ?_,
    fun q => ?_⟩
  · rw [threads q during]
    exact before.critical q during
  · by_cases between : s.stage q = .between
    · simp only [between]
      trivial
    · rw [threads q between, memory]
      exact before.holds q

theorem WorkInv.store (before : WorkInv base lock shared program initial s)
    {state : LockedLife} {cutBefore cutAfter : Bool} (inv : LockedInv base lock state)
    (critical : (s.state.locks.threads p).point = .critical)
    (added : s.stage p = .added cutBefore cutAfter)
    (memory : state.locks.memory shared = (s.state.locks.threads p).core.regs.eax) :
    WorkInv base lock shared program initial
      ⟨state, Function.update s.stage p .between, ⟨p, cutBefore, cutAfter⟩ :: s.history⟩ := by
  have holds := before.holds p
  rw [added] at holds
  have during : s.stage p ≠ .between := by
    rw [added]
    exact Stage.noConfusion
  have none : ∀ q, Function.update s.stage p .between q = .between := by
    intro q
    by_cases same : q = p
    · rw [same, Function.update_self]
    · rw [Function.update_of_ne same]
      by_contra other
      exact same (before.only critical other)
  refine ⟨inv, ?_, fun q => ?_, fun q still => absurd (none q) still,
    fun q still => absurd (none q) still, fun q => ?_⟩
  · rw [memory, holds, before.value]
    rfl
  · rw [doneBy_cons]
    split
    · rename_i same
      simp only at same
      subst same
      exact before.more p during
    · exact before.done q
  · simp only [none q]
    trivial

theorem WorkInv.interrupt (before : WorkInv base lock shared program initial s)
    {state : LockedLife} {resumed : Core} (inv : LockedInv base lock state)
    (survives : Survives (procAddress base p) (s.state.locks.threads p).core resumed)
    (locks : state.locks =
      s.state.locks.setThread p resumed (s.state.locks.threads p).point) :
    WorkInv base lock shared program initial
      ⟨state, Function.update s.stage p (s.stage p).interrupted, s.history⟩ := by
  rw [survives.eq] at locks
  refine before.own inv (locks ▸ rfl) (fun q other => ?_) (fun during => ?_)
    (fun during => ?_) ?_
  · rw [locks]
    exact Function.update_of_ne other ..
  · exact before.more p (mt Stage.interrupted_between.mpr during)
  · rw [locks, Locks.setThread_point]
    exact before.critical p (mt Stage.interrupted_between.mpr during)
  · rw [locks]
    simp only [Locks.setThread, Function.update_self]
    exact (before.holds p).interrupt

theorem WorkInv.instruction (different : shared ≠ lock)
    (before : WorkInv base lock shared program initial s) {state : LockedLife}
    (inv : LockedInv base lock state)
    (locks : state.locks = s.state.locks.execute (procAddress base) p) :
    WorkInv base lock shared program initial ⟨state, s.stage, s.history⟩ := by
  refine before.keep inv (locks ▸ execute_memory_other before.inv.locks different p)
    fun q during => ?_
  rw [locks]
  by_cases same : q = p
  · rw [← same, execute_critical (before.critical q during)]
  · exact (show Moves (procAddress base) lock p _ _ from .instruction).threads_other same

theorem WorkInv.call (before : WorkInv base lock shared program initial s)
    {call : SchedOp} {state : LockedLife}
    (step : LockedStep base lock s.state (.call call) state) :
    WorkInv base lock shared program initial ⟨state, s.stageAfter call, s.history⟩ := by
  have inv := lockedStep_inv before.inv step
  cases step with
  | @create heap kernelDirectory entry exitAddress slot sched core created =>
      obtain ⟨unused, -⟩ := Sched.createProcess_cases created
      refine before.keep inv rfl fun q during => ?_
      have taken : s.state.locks.acquired q = true :=
        (before.inv.locks.threads q).entered (by rw [before.critical q during]; rfl)
      have other : q ≠ slot := by
        rintro rfl
        exact before.inv.life.used q (before.inv.created q taken) unused
      simp only [Locks.setThread, Function.update_of_ne other]
  | fail failed => exact before.keep inv rfl fun _ _ => rfl
  | start idle => exact before.keep inv rfl fun _ _ => rfl
  | tick executing survives =>
      simp only [Workshop.stageAfter, executing]
      exact before.interrupt inv survives rfl
  | idleTick idle =>
      simp only [Workshop.stageAfter, idle]
      exact before.keep inv rfl fun _ _ => rfl
  | exit executing => exact before.keep inv rfl fun _ _ => rfl

theorem WorkInv.act (different : shared ≠ lock)
    (before : WorkInv base lock shared program initial s) {state : LockedLife}
    {stored : List Update} {stage : Stage} (inv : LockedInv base lock state)
    (acts : Acts (procAddress base) lock shared (program p) p s.state.locks
      (doneBy p s.history) (s.stage p) state.locks stored stage) :
    WorkInv base lock shared program initial
      ⟨state, Function.update s.stage p stage, stored ++ s.history⟩ := by
  have others := fun q other => (acts.moves different).threads_other (q := q) other
  have holds := before.holds p
  generalize here : s.stage p = current at acts holds
  generalize locks : state.locks = after at acts others
  -- a process that is not in an update may do anything that leaves the variable alone
  have free : state.locks.memory shared = s.state.locks.memory shared →
      WorkInv base lock shared program initial
        ⟨state, Function.update s.stage p .between, s.history⟩ := by
    intro memory
    refine before.own inv memory (locks ▸ others) ?_ ?_ trivial
    all_goals exact fun during => absurd rfl during
  cases acts with
  | code core memory own lockKept kept => exact free (locks ▸ kept)
  | setLock core outside argument first => exact free (locks ▸ rfl)
  | load critical more =>
      refine before.own inv (locks ▸ rfl) (locks ▸ others) (fun _ => more) (fun _ => ?_) ?_
      · rw [locks, Locks.setThread_point]
      · rw [locks]
        simp only [Locks.setThread, Function.update_self]
        rfl
  | @add cut critical =>
      refine before.own inv (locks ▸ rfl) (locks ▸ others) (fun _ => ?_) (fun _ => ?_) ?_
      · exact before.more p (here ▸ Stage.noConfusion)
      · rw [locks, Locks.setThread_point]
      · rw [locks]
        simp only [Locks.setThread, Function.update_self]
        exact congrArg (· + (program p).delta) holds
  | store critical =>
      refine before.store inv critical here ?_
      rw [locks]
      exact Function.update_self ..
  | releaseLock core critical argument finished => exact free (locks ▸ rfl)
  | instruction =>
      rw [← here, Function.update_eq_self]
      exact before.instruction different inv locks
  | interrupt survives =>
      rw [← here]
      exact before.interrupt inv survives locks

theorem workStep_inv (different : shared ≠ lock)
    (before : WorkInv base lock shared program initial s)
    (step : WorkStep base lock shared program s op after) :
    WorkInv base lock shared program initial after := by
  cases step with
  | act executing acts step =>
      exact before.act different (lockedStep_inv before.inv step) acts
  | call step => exact before.call step

end Steps

def unstarted : Slot → Stage := fun _ => .between

def Workshop.begin (sched : Sched) (locks : Locks Slot) : Workshop :=
  ⟨⟨⟨sched, [], []⟩, locks⟩, unstarted, []⟩

theorem workInv_begin {base lock shared : Word} {program : Slot → Worker} {sched : Sched}
    {locks : Locks Slot} (fresh : Fresh sched) (unlocked : locks.Fresh lock) :
    WorkInv base lock shared program (locks.memory shared) (.begin sched locks) :=
  ⟨lockedInv_fresh fresh unlocked, rfl, fun _ => Nat.zero_le _,
    fun _ during => absurd rfl during, fun _ during => absurd rfl during, fun _ => trivial⟩

theorem workRun_inv {base lock shared : Word} (different : shared ≠ lock)
    {program : Slot → Worker} {initial : Word} {s after : Workshop} {ops : List LockedOp}
    (before : WorkInv base lock shared program initial s)
    (run : Run (WorkStep base lock shared program) s ops after) :
    WorkInv base lock shared program initial after :=
  run.invariant (WorkInv base lock shared program initial)
    (fun _ _ _ before step => workStep_inv different before step) before

/-- In every state of every run of any workers the variable is what the stored updates make
of its initial value one after the other, and a process in an update works on its present
value.  What is lost is lost to interrupts: as long as they cut no update, the variable is
its initial value and all updates stored so far. -/
theorem updates_are_serial {base lock shared : Word} (different : shared ≠ lock)
    {program : Slot → Worker} {sched : Sched} {locks : Locks Slot} {ops : List LockedOp}
    {s : Workshop} (fresh : Fresh sched) (unlocked : locks.Fresh lock)
    (run : Run (WorkStep base lock shared program) (.begin sched locks) ops s) :
    s.state.locks.memory shared = replay program (locks.memory shared) s.history ∧
    (∀ p, doneBy p s.history ≤ (program p).times) ∧
    (∀ p, (s.stage p).Holds (program p).delta (s.state.locks.memory shared)
      (s.state.locks.threads p).core.regs.eax) ∧
    ((∀ update ∈ s.history, update.Whole) →
      s.state.locks.memory shared = locks.memory shared +
        ∑ p, (doneBy p s.history : Word) * (program p).delta) := by
  have inv := workRun_inv different (workInv_begin fresh unlocked) run
  exact ⟨inv.value, inv.done, inv.holds,
    fun whole => inv.value.trans (replay_of_whole program _ whole)⟩

theorem Workshop.stageAfter_unstarted (state : LockedLife) (history : List Update)
    (op : SchedOp) : Workshop.stageAfter ⟨state, unstarted, history⟩ op = unstarted := by
  cases op with
  | tick env timeSlice =>
      simp only [Workshop.stageAfter]
      cases state.life.sched.executingProcess with
      | none => rfl
      | some p => exact Function.update_eq_self p unstarted
  | _ => rfl

theorem run_calls {base lock shared : Word} {program : Slot → Worker}
    {s after : LockedLife} {calls : List SchedOp}
    (run : Run (LockedStep base lock) s (calls.map .call) after) :
    Run (WorkStep base lock shared program) ⟨s, unstarted, []⟩ (calls.map .call)
      ⟨after, unstarted, []⟩ := by
  induction calls generalizing s with
  | nil =>
      cases run
      exact .done _
  | cons call calls ih =>
      cases run with
      | next step rest =>
          have first : WorkStep base lock shared program ⟨s, unstarted, []⟩ _ _ := .call step
          rw [Workshop.stageAfter_unstarted] at first
          exact .next first (ih rest)

theorem Acts.goes {base lock shared : Word} (program : Slot → Worker)
    (different : shared ≠ lock) {s : Workshop} {p : Slot} {locks : Locks Slot}
    {stored : List Update} {stage next : Stage}
    (executing : s.state.life.sched.executingProcess = some p) (here : s.stage p = stage)
    (acts : Acts (procAddress base) lock shared (program p) p s.state.locks
      (doneBy p s.history) stage locks stored next) :
    ∃ after, WorkStep base lock shared program s .move after ∧
      after.state.life.sched.executingProcess = some p ∧ after.state.locks = locks ∧
      after.stage = Function.update s.stage p next ∧ after.history = stored ++ s.history := by
  subst here
  have moves := acts.moves different
  cases moves.flag with
  | inl kept =>
      exact ⟨⟨⟨_, locks⟩, _, _⟩, .act executing acts (.move executing moves kept.1),
        executing, rfl, rfl, rfl⟩
  | inr stores =>
      obtain ⟨write, flagged, -⟩ := stores
      exact ⟨⟨⟨_, locks⟩, _, _⟩, .act executing acts (.flag executing moves flagged),
        executing, rfl, rfl, rfl⟩

theorem run_instructions_acts (base : Word) {lock shared : Word} (program : Slot → Worker)
    (different : shared ≠ lock) {s : Workshop} {p : Slot}
    (executing : s.state.life.sched.executingProcess = some p) (count : Nat) :
    ∃ after, Run (WorkStep base lock shared program) s (List.replicate count .move) after ∧
      after.state.life.sched.executingProcess = some p ∧
      after.state.locks =
        (fun locks => locks.execute (procAddress base) p)^[count] s.state.locks ∧
      after.stage = s.stage ∧ after.history = s.history := by
  induction count generalizing s with
  | zero => exact ⟨s, .done _, executing, rfl, rfl, rfl⟩
  | succ count ih =>
      obtain ⟨next, step, goes, locks, stage, history⟩ :=
        Acts.goes program different executing rfl .instruction
      rw [Function.update_eq_self] at stage
      obtain ⟨after, run, still, iterated, stages, histories⟩ := ih goes
      rw [locks] at iterated
      exact ⟨after, .next step run, still, iterated, stages.trans stage,
        histories.trans history⟩

def kernelProgram : Slot → Worker
  | 0 => procAEntry
  | 1 => procBEntry
  | _ => ⟨0, 0⟩

theorem counts_toInt : ∀ a ≤ 5, ∀ b ≤ 20,
    (((a : Nat) : Word) * 1 + ((b : Nat) : Word) * -1).toInt = (a : Int) - b := by
  decide

/-- Without such interrupts `shared_variable` is the number of updates of process A less
that of process B. -/
theorem shared_variable_exact {base lock shared : Word} (different : shared ≠ lock)
    {sched : Sched} {locks : Locks Slot} {ops : List LockedOp} {s : Workshop}
    (fresh : Fresh sched) (unlocked : locks.Fresh lock) (zero : locks.memory shared = 0)
    (run : Run (WorkStep base lock shared kernelProgram) (.begin sched locks) ops s)
    (whole : ∀ update ∈ s.history, update.Whole) :
    (s.state.locks.memory shared).toInt =
      (doneBy 0 s.history : Int) - doneBy 1 s.history := by
  have inv := workRun_inv different (workInv_begin fresh unlocked) run
  have value := inv.value.trans (replay_of_whole kernelProgram _ whole)
  simp only [Fin.sum_univ_four, kernelProgram, procAEntry, procBEntry, mul_zero, add_zero,
    zero, zero_add] at value
  rw [value]
  exact counts_toInt _ (inv.done 0) _ (inv.done 1)

theorem run_update {base lock shared : Word} (program : Slot → Worker)
    (different : shared ≠ lock) {s : Workshop} {p : Slot} (process : procAddress base p ≠ 0)
    (executing : s.state.life.sched.executingProcess = some p)
    (critical : (s.state.locks.threads p).point = .critical)
    (between : s.stage p = .between) (more : doneBy p s.history < (program p).times)
    (cut : Bool) :
    ∃ ops after, Run (WorkStep base lock shared program) s ops after ∧
      after.state.life.sched.executingProcess = some p ∧
      (after.state.locks.threads p).point = .critical ∧ after.stage p = .between ∧
      after.history = ⟨p, cut, false⟩ :: s.history := by
  obtain ⟨loaded, load, running, locks, stage, history⟩ :=
    Acts.goes program different executing between (.load critical more)
  have stage : loaded.stage p = .loaded false := by rw [stage, Function.update_self]
  have point : (loaded.state.locks.threads p).point = .critical := by
    rw [locks, Locks.setThread_point]
  have resumed : ∃ ops again, Run (WorkStep base lock shared program) loaded ops again ∧
      again.state.life.sched.executingProcess = some p ∧
      (again.state.locks.threads p).point = .critical ∧ again.stage p = .loaded cut ∧
      again.history = s.history := by
    cases cut with
    | false => exact ⟨[], loaded, .done _, running, point, stage, history⟩
    | true =>
        obtain ⟨again, interrupt, running, locks, later, histories⟩ :=
          Acts.goes program different running stage
            (.interrupt (survives_setAl process _))
        refine ⟨_, again, .next interrupt (.done _), running, ?_, ?_, histories.trans history⟩
        · rw [locks, Locks.setThread_point, point]
        · rw [later, Function.update_self]
          rfl
  obtain ⟨ops, again, interrupted, running, point, stage, same⟩ := resumed
  obtain ⟨added, add, running, locks, stage, kept⟩ :=
    Acts.goes program different running stage (.add point)
  have stage : added.stage p = .added cut false := by rw [stage, Function.update_self]
  have point : (added.state.locks.threads p).point = .critical := by
    rw [locks, Locks.setThread_point]
  obtain ⟨after, store, running, locks, stage, stored⟩ :=
    Acts.goes program different running stage (.store point)
  refine ⟨_, after, .next load (interrupted.append (.next add (.next store (.done _)))),
    running, ?_, ?_, ?_⟩
  · rw [locks]
    exact point
  · rw [stage, Function.update_self]
  · rw [stored, kept, same]
    rfl

/-- Process A stores two updates, the first of them interrupted behind its load. -/
theorem updates_are_serial_cut :
    ∃ ops s, Run (WorkStep 0x3000 0x9000 0x9004 kernelProgram)
        (.begin (bootSched blankMemory) freshLocks) ops s ∧
      s.history = [⟨0, false, false⟩, ⟨0, true, false⟩] ∧
      s.state.locks.memory 0x9004 = 0x22 := by
  have different : (0x9004 : Word) ≠ 0x9000 := by decide
  obtain ⟨calls, sched, creations, executing⟩ := two_processes
  obtain ⟨called, set, goes, locks, stage, history⟩ := Acts.goes kernelProgram different
    (s := ⟨⟨⟨sched, [1, 0], []⟩, callers 0 1⟩, unstarted, []⟩) executing rfl
    (.setLock callsSetLock rfl rfl rfl)
  have locks : called.state.locks = (callers 0 1).setThread 0 callsSetLock .setPush := locks
  have history : called.history = [] := history
  obtain ⟨inside, enters, goes, entered, stages, histories⟩ :=
    run_instructions_acts 0x3000 kernelProgram different goes 13
  rw [locks] at entered
  rw [stage] at stages
  rw [history] at histories
  have critical : (inside.state.locks.threads 0).point = .critical := by
    rw [entered]
    decide +kernel
  have process : procAddress 0x3000 0 ≠ 0 := by decide
  obtain ⟨ops, first, cuts, goes, point, stage, history⟩ := run_update kernelProgram
    different process goes critical
    (by rw [stages, Function.update_self]) (by rw [histories]; decide) true
  rw [histories] at history
  obtain ⟨more, second, follows, -, -, -, both⟩ := run_update kernelProgram
    different process goes point stage
    (by rw [history]; decide) false
  have run := (run_calls creations).append
    (.next set (enters.append (cuts.append follows)))
  rw [history] at both
  have serial := updates_are_serial different (fresh_bootSched blankMemory)
    (fresh_freshLocks 0x9000) run
  refine ⟨_, second, run, both, ?_⟩
  rw [serial.1, both]
  decide

end LazyOS.Locking

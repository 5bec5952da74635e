import Mathlib.Algebra.BigOperators.Fin
import LazyOS.Scheduling.StateField

namespace LazyOS.Scheduling

open LazyOS.Data
open LazyOS.Memory

/-! The time a process may use.  Every process begins with 400 milliseconds and is
charged a time slice for each tick that strikes it outside a wait for the lock. -/

structure Metered where
  life : Life
  charged : Slot → Nat

def Sched.charges (s : Sched) : Option Slot :=
  s.executingProcess.filter fun slot => (s.procs slot).spinning = 0

def Metered.charge (m : Metered) : Slot → Nat := fun slot =>
  if m.life.sched.charges = some slot then m.charged slot + 1 else m.charged slot

inductive MeterStep (timeSlice : Nat) (m : Metered) : SchedOp → Metered → Prop
  | tick {env : SwitchEnv} {after : Life}
      (step : LifeStep m.life (.tick env timeSlice) after) :
      MeterStep timeSlice m (.tick env timeSlice) ⟨after, m.charge⟩
  | other {op : SchedOp} {after : Life} (step : LifeStep m.life op after)
      (noTick : ∀ env slice, op ≠ .tick env slice) :
      MeterStep timeSlice m op ⟨after, m.charged⟩

/-- The ticks that 400 milliseconds last. -/
def quota (timeSlice : Nat) : Nat := (400 + timeSlice - 1) / timeSlice

theorem lt_quota_iff {timeSlice : Nat} (positive : 0 < timeSlice) (count : Nat) :
    count < quota timeSlice ↔ 0 < (400 : Int) - (timeSlice * count : Nat) := by
  unfold quota
  rw [Nat.lt_iff_add_one_le, Nat.le_div_iff_mul_le positive]
  have expand : (count + 1) * timeSlice = timeSlice * count + timeSlice := by ring
  rw [expand]
  generalize timeSlice * count = used
  omega

namespace Sched

def clock (s : Sched) (slot : Slot) : Int × Byte :=
  ((s.procs slot).burstTime, (s.procs slot).spinning)

theorem clock_setState (s : Sched) (slot : Slot) (state : ProcessState) :
    (s.setState slot state).clock = s.clock :=
  field_update (fun process => (process.burstTime, process.spinning)) s.procs rfl

theorem clock_contextSwitch (env : SwitchEnv) (curr : Option ProcPtr) (next : ProcPtr)
    (s : Sched) : (s.contextSwitch env curr next).clock = s.clock := by
  have saved : (s.saveContext env curr).clock = s.clock := by
    rcases curr with _ | _ | other
    · rfl
    · rfl
    · exact field_update (fun process => (process.burstTime, process.spinning)) s.procs rfl
  rw [← saved]
  cases next with
  | kernel => rfl
  | slot next => exact clock_setState ..

theorem clock_runNext (env : SwitchEnv) (curr : Option ProcPtr) (s : Sched) :
    (s.runNext env curr).clock = s.clock := by
  unfold runNext
  split
  · rfl
  · rename_i next queue _
    exact (clock_contextSwitch ..).trans (clock_setState s next .running)

theorem clock_runKernel (env : SwitchEnv) (s : Sched) : (s.runKernel env).clock = s.clock :=
  clock_contextSwitch ..

theorem clock_reap (s : Sched) : s.reap.clock = s.clock := by
  unfold clock
  rw [s.reap_eq.1]

theorem clock_setBurst (s : Sched) (slot : Slot) (burstTime : Int) :
    (s.setBurst slot burstTime).clock =
      Function.update s.clock slot (burstTime, (s.procs slot).spinning) :=
  Function.comp_update (fun process : Process => (process.burstTime, process.spinning))
    s.procs slot _

theorem clock_dispatch (env : SwitchEnv) (curr : Option ProcPtr) (s : Sched) :
    (if s.readyQueue.pqIsEmpty then s.runKernel env else s.runNext env curr).clock =
      s.clock := by
  split
  · exact clock_runKernel ..
  · exact clock_runNext ..

theorem clock_scheduler (env : SwitchEnv) (timeSlice : Int) {s : Sched} {prev : Slot}
    (executing : s.executingProcess = some prev) :
    (s.scheduler env timeSlice).clock =
      Function.update s.clock prev (s.burstAfter timeSlice prev, (s.procs prev).spinning) := by
  have counted : (s.reap.setBurst prev (s.burstAfter timeSlice prev)).clock =
      Function.update s.clock prev
        (s.burstAfter timeSlice prev, (s.procs prev).spinning) := by
    rw [clock_setBurst, clock_reap, s.reap_eq.1]
  rw [scheduler_eq env timeSlice executing, ← counted]
  simp only
  generalize s.reap.setBurst prev (s.burstAfter timeSlice prev) = middle
  split
  · exact (clock_dispatch env none (middle.setState prev .terminated)).trans
      (clock_setState ..)
  · split
    · rfl
    · exact (clock_runNext ..).trans (clock_setState ..)

theorem clock_startProcesses (env : SwitchEnv) (s : Sched) :
    (s.startProcesses env).clock = s.clock := by
  unfold startProcesses
  split
  · rfl
  · exact clock_runNext ..

theorem clock_processExit (env : SwitchEnv) {s : Sched} {slot : Slot}
    (executing : s.executingProcess = some slot) : (s.processExit env).clock = s.clock := by
  simp only [processExit, executing]
  exact (clock_dispatch env _
    { s.setState slot .terminated with zombie := some slot }).trans (clock_setState ..)

theorem burst_setSpinning (s : Sched) (spinning : Byte) :
    (fun slot => ((s.setSpinning spinning).clock slot).1) =
      fun slot => (s.clock slot).1 := by
  unfold setSpinning
  split
  · rfl
  · exact field_update Process.burstTime s.procs rfl

theorem clock_enlist (s : Sched) (proc : Slot) (sp : Word) (cr3 : Nat)
    (memory : PagingState) :
    (s.enlist proc sp cr3 memory).clock = Function.update s.clock proc (400, 0) :=
  Function.comp_update (fun process : Process => (process.burstTime, process.spinning))
    s.procs proc _

end Sched

structure MeterInv (timeSlice : Nat) (m : Metered) : Prop where
  life : LifeInv m.life
  burst : ∀ slot ∈ m.life.created,
    (m.life.sched.clock slot).1 = 400 - (timeSlice * m.charged slot : Nat)
  uncharged : ∀ slot, slot ∉ m.life.created → m.charged slot = 0
  bounded : ∀ slot, m.charged slot ≤ quota timeSlice

variable {timeSlice : Nat} {m after : Metered}

theorem MeterInv.left (inv : MeterInv timeSlice m) (positive : 0 < timeSlice) {slot : Slot}
    (live : slot ∈ m.life.sched.live) : m.charged slot < quota timeSlice := by
  rw [lt_quota_iff positive, ← inv.burst slot ((inv.life.exact slot).mp live).1]
  exact inv.life.burst slot live

theorem charge_of_charges {slot : Slot} (charges : m.life.sched.charges = some slot) :
    m.charge = Function.update m.charged slot (m.charged slot + 1) := by
  funext other
  unfold Metered.charge
  rw [charges]
  by_cases same : other = slot
  · subst same
    rw [if_pos rfl, Function.update_self]
  · rw [if_neg (by simpa [eq_comm] using same), Function.update_of_ne same]

theorem charge_of_none (charges : m.life.sched.charges = none) : m.charge = m.charged := by
  funext other
  unfold Metered.charge
  rw [charges, if_neg (by simp)]

theorem charges_eq_some {s : Sched} {slot : Slot} :
    s.charges = some slot ↔
      s.executingProcess = some slot ∧ (s.procs slot).spinning = 0 := by
  unfold Sched.charges
  rw [Option.filter_eq_some_iff, decide_eq_true_eq]

theorem executing_live {s : Sched} {slot : Slot} (executing : s.executingProcess = some slot) :
    slot ∈ s.live := by
  unfold Sched.live
  rw [executing]
  exact List.mem_cons_self

theorem clock_tick (env : SwitchEnv) (inv : MeterInv timeSlice m) {slot : Slot}
    (created : slot ∈ m.life.created) :
    ((m.life.sched.scheduler env timeSlice).clock slot).1 =
      400 - (timeSlice * m.charge slot : Nat) := by
  have before := inv.burst slot created
  cases executing : m.life.sched.executingProcess with
  | none =>
      have idle : m.life.sched.scheduler env timeSlice = m.life.sched.reap := by
        simp only [Sched.scheduler, m.life.sched.reap_eq.2.2.1, executing]
      have charges : m.life.sched.charges = none := by
        unfold Sched.charges
        rw [executing, Option.filter_none]
      rw [idle, Sched.clock_reap, charge_of_none charges]
      exact before
  | some prev =>
      rw [Sched.clock_scheduler env timeSlice executing]
      by_cases counted : (m.life.sched.procs prev).spinning = 0
      · rw [charge_of_charges (charges_eq_some.mpr ⟨executing, counted⟩)]
        by_cases same : slot = prev
        · subst same
          simp only [Function.update_self, Sched.burstAfter, if_pos counted]
          unfold Sched.clock at before
          simp only at before
          rw [before, Nat.mul_add]
          omega
        · rw [Function.update_of_ne same, Function.update_of_ne same]
          exact before
      · have charges : m.life.sched.charges = none := by
          unfold Sched.charges
          rw [executing, Option.filter_some, decide_eq_false counted]
          rfl
        rw [charge_of_none charges]
        by_cases same : slot = prev
        · subst same
          simp only [Function.update_self, Sched.burstAfter, if_neg counted]
          exact before
        · rw [Function.update_of_ne same]
          exact before

theorem meterInv_step (positive : 0 < timeSlice) (inv : MeterInv timeSlice m) {op : SchedOp}
    (step : MeterStep timeSlice m op after) : MeterInv timeSlice after := by
  cases step with
  | @tick env life step =>
      have kept := (lifeStep_spec inv.life step).1
      cases step with
      | tick =>
          refine ⟨kept, fun slot created => clock_tick env inv created, fun slot absent => ?_,
            fun slot => ?_⟩
          · change m.charge slot = 0
            unfold Metered.charge
            rw [if_neg, inv.uncharged slot absent]
            intro charges
            have live := executing_live (charges_eq_some.mp charges).1
            exact absent ((inv.life.exact slot).mp live).1
          · change m.charge slot ≤ quota timeSlice
            unfold Metered.charge
            split
            · rename_i charges
              exact inv.left positive (executing_live (charges_eq_some.mp charges).1)
            · exact inv.bounded slot
  | @other _ life step noTick =>
      have kept := (lifeStep_spec inv.life step).1
      cases step with
      | tick => exact absurd rfl (noTick _ _)
      | create created =>
          obtain ⟨unused, sp, cr3, memory, rfl⟩ := Sched.createProcess_cases created
          refine ⟨kept, fun other member => ?_, fun other absent => ?_, inv.bounded⟩
          · rename_i slot
            simp only [Sched.clock_enlist]
            by_cases same : other = slot
            · subst same
              have fresh : other ∉ m.life.created := fun created =>
                inv.life.used other created unused
              rw [Function.update_self, inv.uncharged other fresh]
              rfl
            · rw [Function.update_of_ne same]
              exact inv.burst other ((List.mem_cons.mp member).resolve_left same)
          · exact inv.uncharged other fun created => absent (List.mem_cons_of_mem _ created)
      | start idle =>
          refine ⟨kept, fun slot created => ?_, inv.uncharged, inv.bounded⟩
          simp only [Sched.clock_startProcesses]
          exact inv.burst slot created
      | exit executing =>
          refine ⟨kept, fun slot created => ?_, inv.uncharged, inv.bounded⟩
          simp only [Sched.clock_processExit _ executing]
          exact inv.burst slot created
      | spin =>
          rename_i spinning
          refine ⟨kept, fun slot created => ?_, inv.uncharged, inv.bounded⟩
          exact (congrFun (Sched.burst_setSpinning m.life.sched spinning) slot).trans
            (inv.burst slot created)

theorem meterInv_fresh {start : Sched} (fresh : Fresh start) :
    MeterInv timeSlice ⟨⟨start, [], []⟩, fun _ => 0⟩ where
  life := lifeInv_fresh fresh
  burst := fun _ created => absurd created List.not_mem_nil
  uncharged := fun _ _ => rfl
  bounded := fun _ => Nat.zero_le _

theorem meterRun_inv (positive : 0 < timeSlice) {ops : List SchedOp}
    (inv : MeterInv timeSlice m) (run : Run (MeterStep timeSlice) m ops after) :
    MeterInv timeSlice after :=
  run.invariant (MeterInv timeSlice) (fun _ _ _ inv step => meterInv_step positive inv step) inv

theorem MeterInv.expiring_iff (inv : MeterInv timeSlice m) (positive : 0 < timeSlice)
    (slot : Slot) :
    m.life.sched.expiring timeSlice = some slot ↔
      m.life.sched.charges = some slot ∧ m.charged slot + 1 = quota timeSlice := by
  unfold Sched.expiring
  rw [Option.filter_eq_some_iff, decide_eq_true_eq, charges_eq_some]
  constructor
  · rintro ⟨executing, expired⟩
    have live := executing_live executing
    have left := inv.left positive live
    have burst := inv.burst slot ((inv.life.exact slot).mp live).1
    unfold Sched.clock at burst
    simp only at burst
    unfold Sched.burstAfter at expired
    split at expired
    · rename_i counted
      refine ⟨⟨executing, counted⟩, ?_⟩
      have last : ¬ m.charged slot + 1 < quota timeSlice := by
        rw [lt_quota_iff positive, Nat.mul_add]
        omega
      omega
    · have alive := inv.life.burst slot live
      omega
  · rintro ⟨⟨executing, counted⟩, last⟩
    have burst := inv.burst slot
      ((inv.life.exact slot).mp (executing_live executing)).1
    unfold Sched.clock at burst
    simp only at burst
    have past : ¬ m.charged slot + 1 < quota timeSlice := by omega
    rw [lt_quota_iff positive, Nat.mul_add] at past
    refine ⟨executing, ?_⟩
    unfold Sched.burstAfter
    rw [if_pos counted, burst]
    omega

/-- In every state of every run under a clock of constant time slice, the burst time of
a process is what its charged ticks have left of 400; no process is charged for more
than the quota, one that has not ended for less; and a tick ends a process exactly when
it charges it for the last tick of its quota. -/
theorem burst_accounts (positive : 0 < timeSlice) {start : Sched} (fresh : Fresh start)
    {ops : List SchedOp} {m : Metered}
    (run : Run (MeterStep timeSlice) ⟨⟨start, [], []⟩, fun _ => 0⟩ ops m) :
    (∀ slot ∈ m.life.created,
      (m.life.sched.procs slot).burstTime = 400 - (timeSlice * m.charged slot : Nat)) ∧
    (∀ slot, m.charged slot ≤ quota timeSlice) ∧
    (∀ slot ∈ m.life.sched.live, m.charged slot < quota timeSlice) ∧
    ∀ slot, m.life.sched.expiring timeSlice = some slot ↔
      m.life.sched.charges = some slot ∧ m.charged slot + 1 = quota timeSlice := by
  have inv := meterRun_inv positive (meterInv_fresh fresh) run
  exact ⟨inv.burst, inv.bounded, fun _ live => inv.left positive live,
    inv.expiring_iff positive⟩

theorem metered_one_process :
    ∃ sched, Run (MeterStep 100) ⟨⟨bootSched smallMemory, [], []⟩, fun _ => 0⟩
        [.create eightPages 0x100000 0x8000 0x9000, .start ⟨0, .code⟩]
        ⟨⟨sched, [0], []⟩, fun _ => 0⟩ ∧
      sched.live = [0] ∧ sched.executingProcess = some 0 ∧
      (sched.procs 0).spinning = 0 := by
  obtain ⟨after, created⟩ := createProcess_bootSched
  obtain ⟨-, sp, cr3, memory, rfl⟩ := Sched.createProcess_cases created
  refine ⟨_, .next (.other (.create created) fun _ _ => SchedOp.noConfusion) <|
    .next (.other (.start rfl) fun _ _ => SchedOp.noConfusion) (.done _), ?_⟩
  exact ⟨rfl, rfl, rfl⟩

theorem burst_accounts_one_tick :
    ∃ ops m, ops.length = 3 ∧
      Run (MeterStep 100) ⟨⟨bootSched smallMemory, [], []⟩, fun _ => 0⟩ ops m ∧
      m.charged 0 = 1 ∧ (m.life.sched.procs 0).burstTime = 300 := by
  obtain ⟨sched, started, -, executing, counted⟩ := metered_one_process
  have charged : Metered.charge ⟨⟨sched, [0], []⟩, fun _ => 0⟩ 0 = 1 := by
    rw [charge_of_charges (charges_eq_some.mpr ⟨executing, counted⟩),
      Function.update_self]
  obtain ⟨after, ticked⟩ : ∃ after, MeterStep 100 ⟨⟨sched, [0], []⟩, fun _ => 0⟩
      (.tick ⟨0, .code⟩ 100) ⟨⟨after, [0], (sched.expiring 100).toList ++ []⟩,
        Metered.charge ⟨⟨sched, [0], []⟩, fun _ => 0⟩⟩ := ⟨_, .tick .tick⟩
  have run := started.append (.next ticked (.done _))
  obtain ⟨accounts, -⟩ := burst_accounts (by decide) (fresh_bootSched smallMemory) run
  have burst := accounts 0 List.mem_cons_self
  simp only [charged] at burst
  exact ⟨_, _, rfl, run, charged, burst⟩

/-- The ticks that the live processes have left. -/
def Metered.owed (timeSlice : Nat) (m : Metered) : Nat :=
  ∑ slot : Slot, if slot ∈ m.life.sched.live then quota timeSlice - m.charged slot else 0

/-- No live process waits for the lock. -/
def Sched.Calm (s : Sched) : Prop := ∀ slot ∈ s.live, (s.procs slot).spinning = 0

theorem MeterInv.owed_eq_zero_iff (inv : MeterInv timeSlice m) (positive : 0 < timeSlice) :
    m.owed timeSlice = 0 ↔ m.life.sched.live = [] := by
  unfold Metered.owed
  rw [Finset.sum_eq_zero_iff]
  constructor
  · intro none
    rw [List.eq_nil_iff_forall_not_mem]
    intro slot live
    have zero := none slot (Finset.mem_univ slot)
    rw [if_pos live] at zero
    have left := inv.left positive live
    omega
  · intro empty slot _
    rw [empty, if_neg List.not_mem_nil]

theorem mem_live_tick {env : SwitchEnv} {life : Life} (inv : LifeInv m.life)
    (step : LifeStep m.life (.tick env timeSlice) life) (slot : Slot) :
    slot ∈ life.sched.live ↔
      slot ∈ m.life.sched.live ∧ m.life.sched.expiring timeSlice ≠ some slot := by
  have kept := (lifeStep_spec inv step).1
  rw [kept.exact, inv.exact]
  cases step with
  | tick =>
      simp only [List.mem_append, Option.mem_toList, not_or]
      tauto

theorem charge_of_calm {slot : Slot} (calm : m.life.sched.Calm)
    (executing : m.life.sched.executingProcess = some slot) :
    m.life.sched.charges = some slot :=
  charges_eq_some.mpr ⟨executing, calm slot (executing_live executing)⟩

theorem owed_tick (positive : 0 < timeSlice) (inv : MeterInv timeSlice m) {env : SwitchEnv}
    (calm : m.life.sched.Calm) {prev : Slot}
    (executing : m.life.sched.executingProcess = some prev)
    (step : MeterStep timeSlice m (.tick env timeSlice) after) :
    after.owed timeSlice + 1 = m.owed timeSlice := by
  cases step with
  | other step noTick => exact absurd rfl (noTick _ _)
  | @tick _ life step =>
      have live := executing_live executing
      have charges := charge_of_calm calm executing
      have left := inv.left positive live
      have stays := mem_live_tick inv.life step
      have others : ∀ slot ∈ Finset.univ.erase prev,
          (if slot ∈ life.sched.live then quota timeSlice - m.charge slot else 0) =
            if slot ∈ m.life.sched.live then quota timeSlice - m.charged slot else 0 := by
        intro slot member
        have different := Finset.ne_of_mem_erase member
        have unended : m.life.sched.expiring timeSlice ≠ some slot := by
          intro ends
          have same := ((inv.expiring_iff positive slot).mp ends).1
          rw [charges, Option.some.injEq] at same
          exact different same.symm
        rw [charge_of_charges charges, Function.update_of_ne different]
        exact if_congr ((stays slot).trans (and_iff_left unended)) rfl rfl
      have own : (if prev ∈ life.sched.live then quota timeSlice - m.charge prev else 0) + 1 =
          quota timeSlice - m.charged prev := by
        rw [charge_of_charges charges, Function.update_self]
        have expires := inv.expiring_iff positive prev
        split
        · rename_i alive
          have unended := fun last =>
            ((stays prev).mp alive).2 (expires.mpr ⟨charges, last⟩)
          omega
        · rename_i gone
          have ended : m.life.sched.expiring timeSlice = some prev := by
            by_contra unended
            exact gone ((stays prev).mpr ⟨live, unended⟩)
          have last := (expires.mp ended).2
          omega
      unfold Metered.owed
      rw [← Finset.add_sum_erase _ _ (Finset.mem_univ prev),
        ← Finset.add_sum_erase _ _ (Finset.mem_univ prev), if_pos live,
        Finset.sum_congr rfl others, ← own]
      ring

theorem spinning_tick (env : SwitchEnv) (s : Sched) {timeSlice : Int} (slot : Slot) :
    ((s.scheduler env timeSlice).procs slot).spinning = (s.procs slot).spinning := by
  change ((s.scheduler env timeSlice).clock slot).2 = (s.clock slot).2
  cases executing : s.executingProcess with
  | none =>
      have idle : s.scheduler env timeSlice = s.reap := by
        simp only [Sched.scheduler, s.reap_eq.2.2.1, executing]
      rw [idle, Sched.clock_reap]
  | some prev =>
      rw [Sched.clock_scheduler env timeSlice executing]
      by_cases same : slot = prev
      · subst same
        rw [Function.update_self]
        rfl
      · rw [Function.update_of_ne same]

structure Ticking (timeSlice : Nat) (m : Metered) : Prop where
  inv : MeterInv timeSlice m
  calm : m.life.sched.Calm
  idle : m.life.sched.executingProcess = none → m.life.sched.live = []

theorem ticking_tick (positive : 0 < timeSlice) {env : SwitchEnv}
    (ticking : Ticking timeSlice m)
    (step : MeterStep timeSlice m (.tick env timeSlice) after) :
    Ticking timeSlice after ∧ after.owed timeSlice = m.owed timeSlice - 1 := by
  obtain ⟨inv, calm, idle⟩ := ticking
  have kept := meterInv_step positive inv step
  cases step with
  | other step noTick => exact absurd rfl (noTick _ _)
  | @tick _ life step =>
      have stays := mem_live_tick inv.life step
      have calm' : life.sched.Calm := by
        intro slot live
        cases step with
        | tick =>
            rw [spinning_tick]
            exact calm slot ((stays slot).mp live).1
      have left := (lifeStep_spec inv.life step).2
      rw [kept.life.onCpu, inv.life.onCpu] at left
      cases executing : m.life.sched.executingProcess with
      | none =>
          have empty := idle executing
          have gone : life.sched.live = [] := by
            rw [List.eq_nil_iff_forall_not_mem]
            intro slot live
            have member := ((stays slot).mp live).1
            rw [empty] at member
            exact List.not_mem_nil member
          refine ⟨⟨kept, calm', fun _ => gone⟩, ?_⟩
          rw [(kept.owed_eq_zero_iff positive).mpr gone,
            (inv.owed_eq_zero_iff positive).mpr empty]
      | some prev =>
          have one := owed_tick positive inv calm executing (.tick step)
          refine ⟨⟨kept, calm', fun back => left ?_ ?_⟩, by omega⟩
          · simp only [Sched.running, executing]
            exact ProcPtr.noConfusion
          · simp only [Sched.running]
            rw [back]

theorem ticking_ticks (positive : 0 < timeSlice) {ops : List SchedOp}
    (ticks : ∀ op ∈ ops, ∃ env, op = .tick env timeSlice) (ticking : Ticking timeSlice m)
    (run : Run (MeterStep timeSlice) m ops after) :
    Ticking timeSlice after ∧ after.owed timeSlice = m.owed timeSlice - ops.length := by
  induction run with
  | done _ => exact ⟨ticking, rfl⟩
  | next step _ ih =>
      obtain ⟨env, rfl⟩ := ticks _ List.mem_cons_self
      obtain ⟨ticking, one⟩ := ticking_tick positive ticking step
      obtain ⟨ticking, rest⟩ := ih (fun op member => ticks op (List.mem_cons_of_mem _ member))
        ticking
      refine ⟨ticking, ?_⟩
      rw [rest, one, List.length_cons]
      omega

/-- Once a process executes and none waits for the lock, the clock alone brings the
kernel back: the CPU is the kernel's again exactly when as many ticks have passed as the
live processes had left, and then no process is left. -/
theorem kernel_back_iff (positive : 0 < timeSlice) {start : Sched} (fresh : Fresh start)
    {ops ticks : List SchedOp} {m after : Metered}
    (run : Run (MeterStep timeSlice) ⟨⟨start, [], []⟩, fun _ => 0⟩ ops m)
    (busy : m.life.sched.executingProcess ≠ none) (calm : m.life.sched.Calm)
    (clock : ∀ op ∈ ticks, ∃ env, op = .tick env timeSlice)
    (ticked : Run (MeterStep timeSlice) m ticks after) :
    (after.life.sched.cpu.owner = .kernel ↔ m.owed timeSlice ≤ ticks.length) ∧
    (after.life.sched.cpu.owner = .kernel ↔ after.life.sched.live = []) := by
  have inv := meterRun_inv positive (meterInv_fresh fresh) run
  obtain ⟨⟨inv, -, idle⟩, owed⟩ := ticking_ticks positive clock
    ⟨inv, calm, fun none => absurd none busy⟩ ticked
  have back : after.life.sched.cpu.owner = .kernel ↔ after.life.sched.live = [] := by
    rw [inv.life.onCpu]
    unfold Sched.running
    cases executing : after.life.sched.executingProcess with
    | none => exact iff_of_true rfl (idle executing)
    | some slot =>
        refine iff_of_false ProcPtr.noConfusion fun empty => ?_
        have live := executing_live executing
        rw [empty] at live
        exact List.not_mem_nil live
  refine ⟨?_, back⟩
  rw [back, ← inv.owed_eq_zero_iff positive, owed]
  omega

theorem ticks_run (env : SwitchEnv) (m : Metered) (count : Nat) :
    ∃ after, Run (MeterStep timeSlice) m (List.replicate count (.tick env timeSlice))
      after := by
  induction count generalizing m with
  | zero => exact ⟨m, .done m⟩
  | succ count ih =>
      obtain ⟨after, ticked⟩ := ih
        ⟨⟨m.life.sched.scheduler env timeSlice, m.life.created,
          (m.life.sched.expiring timeSlice).toList ++ m.life.ended⟩, m.charge⟩
      exact ⟨after, .next (.tick .tick) ticked⟩

theorem kernel_back_iff_four_ticks :
    ∃ m after, m.owed 100 = 4 ∧
      Run (MeterStep 100) m (List.replicate 4 (.tick ⟨0, .code⟩ 100)) after ∧
      after.life.sched.cpu.owner = .kernel := by
  obtain ⟨sched, run, live, executing, counted⟩ := metered_one_process
  have calm : sched.Calm := by
    intro slot member
    rw [live, List.mem_singleton] at member
    rw [member, counted]
  have owed : Metered.owed 100 ⟨⟨sched, [0], []⟩, fun _ => 0⟩ = 4 := by
    unfold Metered.owed
    simp only [live]
    decide
  obtain ⟨after, ticked⟩ : ∃ after, Run (MeterStep 100) ⟨⟨sched, [0], []⟩, fun _ => 0⟩
      (List.replicate 4 (.tick ⟨0, .code⟩ 100)) after := ticks_run ..
  have busy : sched.executingProcess ≠ none := executing ▸ Option.some_ne_none 0
  have back := kernel_back_iff (by decide) (fresh_bootSched smallMemory) run busy calm
    (fun op member => ⟨_, List.eq_of_mem_replicate member⟩) ticked
  exact ⟨_, after, owed, ticked, back.1.mpr owed.le⟩

end LazyOS.Scheduling

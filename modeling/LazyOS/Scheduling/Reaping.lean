import LazyOS.Scheduling.Calls

namespace LazyOS.Scheduling

open LazyOS.Data
open LazyOS.Memory

/-! What any sequence of calls leaves of the processes that ended. -/

structure Booted (s : Sched) : Prop where
  idle : s.executingProcess = none
  empty : s.readyQueue.size = 0
  noZombie : s.zombie = none
  past : s.log = []
  unused : ∀ slot, (s.procs slot).state = .unused

theorem booted_bootSched (memory : PagingState) : Booted (bootSched memory) :=
  ⟨rfl, rfl, rfl, rfl, fun _ => rfl⟩

theorem censusInv_booted {s : Sched} (booted : Booted s) :
    CensusInv (Life.census ⟨s, [], []⟩) := by
  have ready : (Life.census ⟨s, [], []⟩).ready = 0 := by
    simp only [Life.census]
    rw [PriorityQueue.contents_eq_nil (decide_eq_true booted.empty)]
    rfl
  have freed : (Life.census ⟨s, [], []⟩).freed = [] := by
    simp only [Life.census, Sched.freed, booted.past, List.filterMap_nil]
  have idle : ∀ slot, (Life.census ⟨s, [], []⟩).executing ≠ some slot := by
    intro slot executing
    cases booted.idle.symm.trans executing
  have waits : ∀ slot, slot ∉ (Life.census ⟨s, [], []⟩).ready := by
    intro slot member
    rw [ready] at member
    exact absurd member (Multiset.notMem_zero slot)
  exact
    { distinct := by
        rw [ready]
        exact Multiset.nodup_zero
      apart := fun slot executing => absurd executing (idle slot)
      alive := fun slot live =>
        live.elim (fun executing => absurd executing (idle slot))
          fun member => absurd member (waits slot)
      ended := fun _ member => absurd member List.not_mem_nil
      once := List.nodup_nil
      used := fun slot =>
        iff_of_false List.not_mem_nil fun used => used (booted.unused slot)
      ready := fun slot member => absurd member (waits slot)
      onCpu := fun slot executing => absurd executing (idle slot)
      gone := fun _ member => absurd member List.not_mem_nil
      zombie := fun slot isZombie => by cases booted.noZombie.symm.trans isZombie
      freed := by
        rw [freed]
        exact fun _ member => absurd member List.not_mem_nil
      freedOnce := by
        rw [freed]
        exact List.nodup_nil }

theorem callRun_inv {start : Sched} (booted : Booted start) {ops : List SchedOp}
    {life : Life} (run : Run CallStep ⟨start, [], []⟩ ops life) :
    CensusInv life.census := by
  refine run.invariant (fun life => CensusInv life.census) ?_ (censusInv_booted booted)
  rintro life op _ inv rfl
  exact call_inv inv op

def Life.Reaped (life : Life) : Prop :=
  ∀ slot ∈ life.ended,
    life.sched.zombie = some slot ∨ life.sched.freed.count slot = 1

/-- A tick does not use up the burst of the executing process, and a process exits
only after the one that exited before it was reaped. -/
def SchedOp.KeepsZombie (life : Life) : SchedOp → Prop
  | .tick _ timeSlice => life.sched.expiring timeSlice = none
  | .exit _ => life.sched.zombie = none
  | _ => True

theorem Settles.reaped_iff {c : Census Slot} {after : Life} (settles : Settles c after) :
    after.Reaped ↔ c.Reaped := by
  rcases settles with same | ⟨next, step⟩
  · rw [← same]
    exact Iff.rfl
  · generalize lastEq : after.census = last at step
    have reads : after.Reaped ↔ last.Reaped := lastEq ▸ Iff.rfl
    rw [reads]
    cases step
    exact Iff.rfl

theorem reaped_single {c after : Census Slot} {event : CensusEvent Slot}
    (inv : CensusInv c) (reaped : c.Reaped) (run : Run CensusStep c [event] after) :
    after.Reaped ↔ event.KeepsZombie c := by
  cases run with
  | next step rest =>
      cases rest
      exact inv.reaped_step step reaped

theorem reap_reaped {life : Life} (inv : CensusInv life.census) (reaped : life.Reaped) :
    CensusInv (Life.census ⟨life.sched.reap, life.created, life.ended⟩) ∧
      (Life.census ⟨life.sched.reap, life.created, life.ended⟩).Reaped := by
  have events := reap_events life
  refine ⟨censusRun_inv inv events, ?_⟩
  cases isZombie : life.sched.zombie with
  | none =>
      unfold Sched.reap
      rw [isZombie]
      exact reaped
  | some proc =>
      rw [isZombie] at events
      exact (reaped_single inv reaped events).mpr trivial

theorem tick_reaped {life : Life} (inv : CensusInv life.census)
    (reaped : life.Reaped) (env : SwitchEnv) (timeSlice : Int) :
    (life.call (.tick env timeSlice)).Reaped ↔ life.sched.expiring timeSlice = none := by
  obtain ⟨middle, leaves, settles⟩ := tick_leaves inv env timeSlice
  obtain ⟨kept, still⟩ := reap_reaped inv reaped
  rw [settles.reaped_iff]
  simp only [Sched.leaving, Sched.expiring] at leaves ⊢
  cases executing : life.sched.executingProcess with
  | none =>
      rw [executing] at leaves
      cases leaves
      exact iff_of_true still rfl
  | some prev =>
      rw [executing] at leaves
      simp only [Option.filter_some, decide_eq_true_eq] at leaves ⊢
      by_cases expired : life.sched.burstAfter timeSlice prev ≤ 0
      · rw [if_pos expired] at leaves ⊢
        refine (reaped_single kept still leaves).trans ?_
        exact iff_of_false id (Option.some_ne_none prev)
      · rw [if_neg expired] at leaves ⊢
        refine iff_of_true ?_ rfl
        cases empty : life.sched.readyQueue.pqIsEmpty with
        | true =>
            rw [empty, if_pos rfl] at leaves
            cases leaves
            exact still
        | false =>
            rw [empty, if_neg Bool.false_ne_true] at leaves
            exact (reaped_single kept still leaves).mpr trivial

theorem exit_reaped {life : Life} (inv : CensusInv life.census)
    (reaped : life.Reaped) (env : SwitchEnv) :
    (life.call (.exit env)).Reaped ↔ life.sched.zombie = none := by
  obtain ⟨middle, run, settles⟩ := call_events inv (.exit env)
  rw [settles.reaped_iff]
  simp only [Life.events] at run
  cases executing : life.sched.executingProcess with
  | none =>
      rw [executing] at run
      exact reaped_single inv reaped run
  | some dying =>
      rw [executing] at run
      exact reaped_single inv reaped run

theorem call_reaped {life : Life} (inv : CensusInv life.census) (reaped : life.Reaped)
    (op : SchedOp) : (life.call op).Reaped ↔ op.KeepsZombie life := by
  cases op with
  | create heap kernelDirectory entry exitAddress =>
      have run := create_events inv heap kernelDirectory entry exitAddress
      refine iff_of_true ?_ trivial
      simp only [Life.events] at run
      cases created : (life.sched.createProcess heap kernelDirectory entry
          exitAddress).1 with
      | none =>
          rw [created, Option.toList_none, List.map_nil] at run
          generalize same : (life.call _).census = c at run
          cases run
          have settles : Settles life.census _ := .inl same
          exact settles.reaped_iff.mpr reaped
      | some slot =>
          rw [created] at run
          exact (reaped_single inv reaped run).mpr trivial
  | start env => exact iff_of_true ((start_settles env).reaped_iff.mpr reaped) trivial
  | tick env timeSlice => exact tick_reaped inv reaped env timeSlice
  | exit env => exact exit_reaped inv reaped env
  | spin spinning =>
      have settles : Settles life.census (life.call (.spin spinning)) :=
        .inl (spin_census spinning)
      exact iff_of_true (settles.reaped_iff.mpr reaped) trivial

/-- In every run whose calls keep the zombie, every process that ended is the zombie
or was freed exactly once; the first call that does not keep it breaks this. -/
theorem terminated_reaped {start : Sched} (booted : Booted start) {ops : List SchedOp}
    {life : Life}
    (run : Run (fun life op after => CallStep life op after ∧ op.KeepsZombie life)
      ⟨start, [], []⟩ ops life) :
    (∀ slot ∈ life.ended,
      life.sched.zombie = some slot ∨ life.sched.freed.count slot = 1) ∧
    ∀ op, (life.call op).Reaped ↔ op.KeepsZombie life := by
  have both := run.invariant (fun life => CensusInv life.census ∧ life.Reaped) ?_
    ⟨censusInv_booted booted, fun _ member => absurd member List.not_mem_nil⟩
  · exact ⟨both.2, call_reaped both.1 both.2⟩
  · rintro life op _ ⟨inv, reaped⟩ ⟨rfl, keeps⟩
    exact ⟨call_inv inv op, (call_reaped inv reaped op).mpr keeps⟩

theorem call_create_bootSched :
    ∃ sp cr3 memory, (Life.mk (bootSched smallMemory) [] []).call
      (.create eightPages 0x100000 0x8000 0x9000) =
        ⟨(bootSched smallMemory).enlist 0 sp cr3 memory, [0], []⟩ := by
  obtain ⟨after, created⟩ := createProcess_bootSched
  obtain ⟨-, sp, cr3, memory, rfl⟩ := Sched.createProcess_cases created
  have made : (Life.mk (bootSched smallMemory) [] []).call
      (.create eightPages 0x100000 0x8000 0x9000) =
      ⟨(bootSched smallMemory).enlist 0 sp cr3 memory, (some (0 : Slot)).toList ++ [], []⟩ :=
    Life.call_create created
  exact ⟨sp, cr3, memory, made⟩

theorem terminated_reaped_one_exit :
    ∃ ops life, ops.length = 5 ∧
      Run (fun life op after => CallStep life op after ∧ op.KeepsZombie life)
        ⟨bootSched smallMemory, [], []⟩ ops life ∧
      life.ended = [0] ∧ life.sched.zombie = none ∧
      life.sched.freed.count 0 = 1 := by
  obtain ⟨sp, cr3, memory, first⟩ := call_create_bootSched
  have run : Run (fun life op after => CallStep life op after ∧ op.KeepsZombie life)
      ⟨bootSched smallMemory, [], []⟩
      [.create eightPages 0x100000 0x8000 0x9000, .start ⟨0, .code⟩,
        .tick ⟨0, .code⟩ 100, .exit ⟨0, .code⟩, .tick ⟨0, .code⟩ 100] _ :=
    .next ⟨first.symm, trivial⟩ <| .next ⟨rfl, trivial⟩ <| .next ⟨rfl, rfl⟩ <|
      .next ⟨rfl, rfl⟩ <| .next ⟨rfl, rfl⟩ (.done _)
  obtain ⟨reaped, -⟩ := terminated_reaped (booted_bootSched smallMemory) run
  exact ⟨_, _, rfl, run, rfl, rfl,
    (reaped 0 List.mem_cons_self).resolve_left (Option.some_ne_none 0).symm⟩

/-- A process that uses up its burst is never freed. -/
theorem expired_process_lost :
    ∃ ops life, Run CallStep ⟨bootSched smallMemory, [], []⟩ ops life ∧
      ¬ ∀ slot ∈ life.ended,
        life.sched.zombie = some slot ∨ life.sched.freed.count slot = 1 := by
  obtain ⟨sp, cr3, memory, first⟩ := call_create_bootSched
  have run : Run CallStep ⟨bootSched smallMemory, [], []⟩
      [.create eightPages 0x100000 0x8000 0x9000, .start ⟨0, .code⟩,
        .tick ⟨0, .code⟩ 400] _ :=
    .next first.symm <| .next rfl <| .next rfl (.done _)
  refine ⟨_, _, run, fun reaped => ?_⟩
  rcases reaped 0 List.mem_cons_self with isZombie | freed
  · exact Option.some_ne_none 0 isZombie.symm
  · exact Nat.zero_ne_one freed

end LazyOS.Scheduling

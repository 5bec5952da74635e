import Mathlib.Data.Multiset.AddSub
import LazyOS.Data.Run
import LazyOS.Scheduling.Process

namespace LazyOS.Scheduling

open LazyOS.Data

universe u

variable {Proc : Type u} [DecidableEq Proc]

/-! Who executes, waits, has ended and was freed, over any type of processes.  A call
of the scheduler is a few of the events below. -/

@[ext]
structure Census (Proc : Type u) where
  executing : Option Proc
  ready : Multiset Proc
  state : Proc → ProcessState
  zombie : Option Proc
  freed : List Proc
  created : List Proc
  ended : List Proc

inductive CensusEvent (Proc : Type u) where
  | created (proc : Proc)
  | dispatched (proc : Proc)
  | preempted (proc : Proc)
  | expired (proc : Proc)
  | exited (proc : Proc)
  | exitedIdle
  | reaped (proc : Proc)

inductive CensusStep (c : Census Proc) : CensusEvent Proc → Census Proc → Prop
  | created {proc : Proc} (unused : c.state proc = .unused) :
      CensusStep c (.created proc)
        { c with
          ready := proc ::ₘ c.ready
          state := Function.update c.state proc .ready
          created := proc :: c.created }
  | dispatched {proc : Proc} {rest : Multiset Proc} (popped : c.ready = proc ::ₘ rest) :
      CensusStep c (.dispatched proc)
        { c with
          executing := some proc
          ready := rest
          state := Function.update c.state proc (.ofCode asmProcessRunning) }
  | preempted {proc : Proc} (executing : c.executing = some proc) :
      CensusStep c (.preempted proc)
        { c with
          executing := none
          ready := proc ::ₘ c.ready
          state := Function.update c.state proc .ready }
  | expired {proc : Proc} (executing : c.executing = some proc) :
      CensusStep c (.expired proc)
        { c with
          executing := none
          state := Function.update c.state proc .terminated
          ended := proc :: c.ended }
  | exited {proc : Proc} (executing : c.executing = some proc) :
      CensusStep c (.exited proc)
        { c with
          executing := none
          state := Function.update c.state proc .terminated
          zombie := some proc
          ended := proc :: c.ended }
  | exitedIdle (idle : c.executing = none) :
      CensusStep c .exitedIdle { c with zombie := none }
  | reaped {proc : Proc} (zombie : c.zombie = some proc) :
      CensusStep c (.reaped proc)
        { c with zombie := none, freed := proc :: c.freed }

namespace Census

def Live (c : Census Proc) (proc : Proc) : Prop :=
  c.executing = some proc ∨ proc ∈ c.ready

/-- Every process that ended is the zombie or was freed exactly once. -/
def Reaped (c : Census Proc) : Prop :=
  ∀ proc ∈ c.ended, c.zombie = some proc ∨ c.freed.count proc = 1

/-- The state field tells where a process is. -/
structure Truthful (c : Census Proc) : Prop where
  executing : ∀ proc, c.executing = some proc → c.state proc = .running
  ready : ∀ proc ∈ c.ready, c.state proc = .ready
  ended : ∀ proc ∈ c.ended, c.state proc = .terminated

end Census

structure CensusInv (c : Census Proc) : Prop where
  distinct : c.ready.Nodup
  apart : ∀ proc, c.executing = some proc → proc ∉ c.ready
  alive : ∀ proc, c.Live proc → proc ∈ c.created ∧ proc ∉ c.ended
  ended : ∀ proc ∈ c.ended, proc ∈ c.created
  once : c.created.Nodup
  used : ∀ proc, proc ∈ c.created ↔ c.state proc ≠ .unused
  ready : ∀ proc ∈ c.ready, c.state proc = .ready
  onCpu : ∀ proc, c.executing = some proc → c.state proc = .terminated
  gone : ∀ proc ∈ c.ended, c.state proc = .terminated
  zombie : ∀ proc, c.zombie = some proc → proc ∈ c.ended ∧ proc ∉ c.freed
  freed : ∀ proc ∈ c.freed, proc ∈ c.ended
  freedOnce : c.freed.Nodup

section Steps

variable {c : Census Proc} {proc : Proc}

theorem CensusInv.created (inv : CensusInv c) (unused : c.state proc = .unused) :
    CensusInv { c with
      ready := proc ::ₘ c.ready
      state := Function.update c.state proc .ready
      created := proc :: c.created } := by
  obtain ⟨distinct, apart, alive, ended, once, used, ready, onCpu, gone, zombie, freed,
    freedOnce⟩ := inv
  have fresh : proc ∉ c.created := fun member => (used proc).mp member unused
  have absent : ¬ c.Live proc := fun live => fresh (alive proc live).1
  have waitsNot : proc ∉ c.ready := fun member => absent (.inr member)
  exact
    { distinct := Multiset.nodup_cons.mpr ⟨waitsNot, distinct⟩
      apart := by grind [Census.Live]
      alive := by grind [Census.Live]
      ended := by grind
      once := List.nodup_cons.mpr ⟨fresh, once⟩
      used := by grind
      ready := by grind
      onCpu := by grind
      gone := by grind
      zombie := zombie
      freed := freed
      freedOnce := freedOnce }

theorem CensusInv.dispatched (inv : CensusInv c) {rest : Multiset Proc}
    (popped : c.ready = proc ::ₘ rest) :
    CensusInv { c with
      executing := some proc
      ready := rest
      state := Function.update c.state proc (.ofCode asmProcessRunning) } := by
  obtain ⟨distinct, apart, alive, ended, once, used, ready, onCpu, gone, zombie, freed,
    freedOnce⟩ := inv
  have queued : ∀ other, other ∈ c.ready ↔ other = proc ∨ other ∈ rest := by
    intro other
    rw [popped, Multiset.mem_cons]
  have left := popped ▸ distinct
  rw [Multiset.nodup_cons] at left
  have mark : ProcessState.ofCode asmProcessRunning = .terminated := rfl
  exact
    { distinct := left.2
      apart := by grind
      alive := by grind [Census.Live]
      ended := ended
      once := once
      used := by grind [Census.Live]
      ready := by grind
      onCpu := by grind
      gone := by grind
      zombie := zombie
      freed := freed
      freedOnce := freedOnce }

theorem CensusInv.preempted (inv : CensusInv c) (executing : c.executing = some proc) :
    CensusInv { c with
      executing := none
      ready := proc ::ₘ c.ready
      state := Function.update c.state proc .ready } := by
  obtain ⟨distinct, apart, alive, ended, once, used, ready, onCpu, gone, zombie, freed,
    freedOnce⟩ := inv
  have lives := alive proc (.inl executing)
  exact
    { distinct := Multiset.nodup_cons.mpr ⟨apart proc executing, distinct⟩
      apart := by grind
      alive := by grind [Census.Live]
      ended := ended
      once := once
      used := by grind
      ready := by grind
      onCpu := by grind
      gone := by grind
      zombie := zombie
      freed := freed
      freedOnce := freedOnce }

theorem CensusInv.ends (inv : CensusInv c) (executing : c.executing = some proc)
    {zombie : Option Proc} (announced : zombie = c.zombie ∨ zombie = some proc) :
    CensusInv { c with
      executing := none
      state := Function.update c.state proc .terminated
      zombie := zombie
      ended := proc :: c.ended } := by
  obtain ⟨distinct, apart, alive, ended, once, used, ready, onCpu, gone, isZombie, freed,
    freedOnce⟩ := inv
  have lives := alive proc (.inl executing)
  have notFreed : proc ∉ c.freed := fun member => lives.2 (freed proc member)
  exact
    { distinct := distinct
      apart := by grind
      alive := by grind [Census.Live]
      ended := by grind
      once := once
      used := by grind
      ready := by grind
      onCpu := by grind
      gone := by grind
      zombie := by grind
      freed := by grind
      freedOnce := freedOnce }

omit [DecidableEq Proc] in
theorem CensusInv.reaped (inv : CensusInv c) (isZombie : c.zombie = some proc) :
    CensusInv { c with zombie := none, freed := proc :: c.freed } := by
  obtain ⟨distinct, apart, alive, ended, once, used, ready, onCpu, gone, zombie, freed,
    freedOnce⟩ := inv
  have reaped := zombie proc isZombie
  exact
    { distinct, apart, alive, ended, once, used, ready, onCpu, gone
      zombie := by grind
      freed := by grind
      freedOnce := List.nodup_cons.mpr ⟨reaped.2, freedOnce⟩ }

end Steps

theorem censusStep_inv {c after : Census Proc} {event : CensusEvent Proc}
    (inv : CensusInv c) (step : CensusStep c event after) : CensusInv after := by
  cases step with
  | created unused => exact inv.created unused
  | dispatched popped => exact inv.dispatched popped
  | preempted executing => exact inv.preempted executing
  | expired executing => exact inv.ends executing (.inl rfl)
  | exited executing => exact inv.ends executing (.inr rfl)
  | exitedIdle idle =>
      exact { inv with zombie := fun _ isZombie => by cases isZombie }
  | reaped isZombie => exact inv.reaped isZombie

theorem censusRun_inv {c after : Census Proc} {events : List (CensusEvent Proc)}
    (inv : CensusInv c) (run : Run CensusStep c events after) : CensusInv after :=
  run.invariant CensusInv (fun _ _ _ => censusStep_inv) inv

omit [DecidableEq Proc] in
theorem CensusInv.truthful_iff {c : Census Proc} (inv : CensusInv c) :
    c.Truthful ↔ c.executing = none := by
  constructor
  · intro truthful
    cases executing : c.executing with
    | none => rfl
    | some proc =>
        have claimed := truthful.executing proc executing
        rw [inv.onCpu proc executing] at claimed
        cases claimed
  · intro idle
    refine ⟨?_, inv.ready, inv.gone⟩
    intro proc executing
    cases idle.symm.trans executing

/-- The step neither ends a process behind the reaper's back nor overwrites a
zombie. -/
def CensusEvent.KeepsZombie (c : Census Proc) : CensusEvent Proc → Prop
  | .expired _ => False
  | .exited _ | .exitedIdle => c.zombie = none
  | _ => True

theorem CensusInv.reaped_iff {c : Census Proc} (inv : CensusInv c) :
    c.Reaped ↔ ∀ proc ∈ c.ended, c.zombie = some proc ∨ proc ∈ c.freed := by
  have once : ∀ proc, c.freed.count proc = 1 ↔ proc ∈ c.freed := by
    intro proc
    rw [inv.freedOnce.count]
    split
    · rename_i member
      exact iff_of_true rfl member
    · rename_i absent
      exact iff_of_false Nat.zero_ne_one absent
  simp only [Census.Reaped, once]

theorem CensusInv.reaped_step {c after : Census Proc} {event : CensusEvent Proc}
    (inv : CensusInv c) (step : CensusStep c event after) (reaped : c.Reaped) :
    after.Reaped ↔ event.KeepsZombie c := by
  have kept := (censusStep_inv inv step).reaped_iff
  have before := inv.reaped_iff.mp reaped
  cases step with
  | created unused => exact iff_of_true reaped trivial
  | dispatched popped => exact iff_of_true reaped trivial
  | preempted executing => exact iff_of_true reaped trivial
  | @expired proc executing =>
      refine iff_of_false (fun all => ?_) id
      have ended := (inv.alive proc (.inl executing)).2
      rcases kept.mp all proc List.mem_cons_self with isZombie | freed
      · exact ended (inv.zombie proc isZombie).1
      · exact ended (inv.freed proc freed)
  | @exited proc executing =>
      have ended := (inv.alive proc (.inl executing)).2
      rw [kept]
      constructor
      · intro all
        cases isZombie : c.zombie with
        | none => exact isZombie
        | some old =>
            obtain ⟨oldEnded, notFreed⟩ := inv.zombie old isZombie
            rcases all old (List.mem_cons_of_mem _ oldEnded) with same | freed
            · cases same
              exact absurd oldEnded ended
            · exact absurd freed notFreed
      · intro none other member
        rcases List.mem_cons.mp member with rfl | member
        · exact .inl rfl
        · exact .inr ((before other member).resolve_left (by rw [none]; simp))
  | exitedIdle idle =>
      rw [kept]
      constructor
      · intro all
        cases isZombie : c.zombie with
        | none => exact isZombie
        | some old =>
            obtain ⟨oldEnded, notFreed⟩ := inv.zombie old isZombie
            exact absurd ((all old oldEnded).resolve_left (by simp)) notFreed
      · intro none other member
        exact .inr ((before other member).resolve_left (by rw [none]; simp))
  | @reaped proc isZombie =>
      refine iff_of_true (kept.mpr ?_) trivial
      intro other member
      rcases before other member with same | freed
      · cases isZombie.symm.trans same
        exact .inr List.mem_cons_self
      · exact .inr (List.mem_cons_of_mem _ freed)

end LazyOS.Scheduling

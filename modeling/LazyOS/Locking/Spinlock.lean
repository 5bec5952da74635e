import LazyOS.Data.Run
import LazyOS.Interrupts.Irq

namespace LazyOS.Locking

open LazyOS.Data
open LazyOS.Interrupts

universe u

/-! The spinlock of `spinlock.asm`, instruction by instruction. -/

/-- The instruction of a process that comes next: one of its own code, outside or inside
its critical section, or one of `setLock` and `releaseLock`. -/
inductive Point where
  | outside
  | setPush
  | setFrame
  | setArgument
  | setSelf
  | setFlag
  | spin
  | exchange
  | test
  | jump
  | clearSelf
  | clearFlag
  | setPop
  | setReturn
  | critical
  | releasePush
  | releaseFrame
  | releaseArgument
  | releaseStore
  | releasePop
  | releaseReturn
deriving DecidableEq

structure Thread where
  core : Core
  point : Point

structure FlagWrite (Proc : Type u) where
  writer : Proc
  target : Word
  value : Byte

/-- The memory, the threads, which of them have acquired the lock and not released it,
and the stores into spinning flags. -/
structure Locks (Proc : Type u) where
  memory : Word → Word
  threads : Proc → Thread
  acquired : Proc → Bool
  writes : List (FlagWrite Proc)

variable {Proc : Type u} [DecidableEq Proc]

namespace Locks

def setThread (s : Locks Proc) (p : Proc) (core : Core) (point : Point) : Locks Proc :=
  { s with threads := Function.update s.threads p ⟨core, point⟩ }

def writeFlag (s : Locks Proc) (p : Proc) (value : Byte) : Locks Proc :=
  { s with writes := ⟨p, (s.threads p).core.regs.ecx, value⟩ :: s.writes }

/-- `xchg eax, [edx]`; the lock is acquired when it was free. -/
def xchg (s : Locks Proc) (p : Proc) : Locks Proc :=
  let c := (s.threads p).core
  let old := s.memory c.regs.edx
  { s.setThread p (c.setEax old) .test with
    memory := Function.update s.memory c.regs.edx c.regs.eax
    acquired := if old = 0 then Function.update s.acquired p true else s.acquired }

/-- `mov dword [edx], 0`. -/
def store (s : Locks Proc) (p : Proc) : Locks Proc :=
  let c := (s.threads p).core
  { s.setThread p c .releasePop with
    memory := Function.update s.memory c.regs.edx 0
    acquired := Function.update s.acquired p false }

/-- The next instruction of the running process `p`; `executing_process` holds its
`address`. -/
def execute (address : Proc → Word) (s : Locks Proc) (p : Proc) : Locks Proc :=
  let c := (s.threads p).core
  match (s.threads p).point with
  | .outside => s
  | .setPush => s.setThread p (c.push c.regs.ebp) .setFrame
  | .setFrame =>
      s.setThread p { c with regs := { c.regs with ebp := c.regs.esp } } .setArgument
  | .setArgument =>
      s.setThread p
        { c with regs := { c.regs with edx := c.load (c.regs.ebp + 8) } } .setSelf
  | .setSelf =>
      s.setThread p { c with regs := { c.regs with ecx := address p } } .setFlag
  | .setFlag => (s.writeFlag p 1).setThread p c .spin
  | .spin => s.setThread p (c.setEax 1) .exchange
  | .exchange => s.xchg p
  | .test => s.setThread p c.testEax .jump
  | .jump => s.setThread p c (if c.zero then .clearSelf else .spin)
  | .clearSelf =>
      s.setThread p { c with regs := { c.regs with ecx := address p } } .clearFlag
  | .clearFlag => (s.writeFlag p 0).setThread p c .setPop
  | .setPop => s.setThread p c.popEbp .setReturn
  | .setReturn => s.setThread p c.ret .critical
  | .critical => s
  | .releasePush => s.setThread p (c.push c.regs.ebp) .releaseFrame
  | .releaseFrame =>
      s.setThread p { c with regs := { c.regs with ebp := c.regs.esp } } .releaseArgument
  | .releaseArgument =>
      s.setThread p
        { c with regs := { c.regs with edx := c.load (c.regs.ebp + 8) } } .releaseStore
  | .releaseStore => s.store p
  | .releasePop => s.setThread p c.popEbp .releaseReturn
  | .releaseReturn => s.setThread p c.ret .outside

end Locks

/-- What an interrupt leaves of the context of the process at `pointer`. -/
def Survives (pointer : Word) (core resumed : Core) : Prop :=
  ∃ depth w after, World.Running pointer w ∧ w.core = core ∧
    Handled pointer depth w after ∧ after.core = resumed

theorem Survives.eq {pointer : Word} {core resumed : Core}
    (survives : Survives pointer core resumed) : resumed = core.setAl endOfInterrupt := by
  obtain ⟨depth, w, after, running, rfl, handled, rfl⟩ := survives
  exact (handled.core running).2

theorem survives_setAl {pointer : Word} (process : pointer ≠ 0) (core : Core) :
    Survives pointer core (core.setAl endOfInterrupt) := by
  let w : World :=
    { core := core
      cr3 := 0x1000
      memory := fun _ _ => []
      sp := fun _ => 0
      directory := fun other => if other = pointer then 0x1000 else 0x2000
      state := fun _ => .ready }
  have mapped : w.directory pointer = 0x1000 := if_pos rfl
  have running : World.Running pointer w :=
    ⟨process, mapped ▸ (by decide : (0x1000 : Word) ≠ 0), mapped.symm⟩
  have null : w.directory 0 = 0x2000 := if_neg process.symm
  obtain ⟨after, handled⟩ : ∃ after, Handled pointer 0 w after :=
    handled_switch 0 process.symm (null ▸ (by decide : (0x2000 : Word) ≠ 0))
      (by rw [null, mapped]; decide)
  exact ⟨0, w, after, running, rfl, handled, (handled.core running).2⟩

/-- What the running process `p` does between two switches: its own code, which leaves
the lock alone, calls of `setLock` and `releaseLock` for it around the critical section,
their instructions, and interrupts. -/
inductive Moves (address : Proc → Word) (lock : Word) (p : Proc) (s : Locks Proc) :
    Locks Proc → Prop
  | code (core : Core) (memory : Word → Word)
      (own : (s.threads p).point = .outside ∨ (s.threads p).point = .critical)
      (kept : memory lock = s.memory lock) :
      Moves address lock p s
        { s.setThread p core (s.threads p).point with memory := memory }
  | setLock (core : Core) (outside : (s.threads p).point = .outside)
      (argument : core.peek 1 = lock) :
      Moves address lock p s (s.setThread p core .setPush)
  | releaseLock (core : Core) (critical : (s.threads p).point = .critical)
      (argument : core.peek 1 = lock) :
      Moves address lock p s (s.setThread p core .releasePush)
  | instruction : Moves address lock p s (s.execute address p)
  | interrupt {resumed : Core} (survives : Survives (address p) (s.threads p).core resumed) :
      Moves address lock p s (s.setThread p resumed (s.threads p).point)

def Thread.InPlace (lock self : Word) (t : Thread) (acquired : Bool) : Prop :=
  match t.point with
  | .outside => acquired = false
  | .setPush => t.core.peek 1 = lock ∧ acquired = false
  | .setFrame => t.core.peek 2 = lock ∧ acquired = false
  | .setArgument =>
      t.core.regs.ebp = t.core.regs.esp ∧ t.core.peek 2 = lock ∧ acquired = false
  | .setSelf => t.core.regs.edx = lock ∧ acquired = false
  | .setFlag => t.core.regs.edx = lock ∧ t.core.regs.ecx = self ∧ acquired = false
  -- an interrupt behind the `xchg` that acquired the lock sends its process back here
  | .spin => t.core.regs.edx = lock
  | .exchange => t.core.regs.edx = lock ∧ t.core.regs.eax ≠ 0
  | .test => t.core.regs.edx = lock ∧ (t.core.regs.eax = 0 → acquired = true)
  | .jump => t.core.regs.edx = lock ∧ (t.core.zero = true → acquired = true)
  | .clearSelf => acquired = true
  | .clearFlag => t.core.regs.ecx = self ∧ acquired = true
  | .setPop => acquired = true
  | .setReturn => acquired = true
  | .critical => acquired = true
  | .releasePush => t.core.peek 1 = lock ∧ acquired = true
  | .releaseFrame => t.core.peek 2 = lock ∧ acquired = true
  | .releaseArgument =>
      t.core.regs.ebp = t.core.regs.esp ∧ t.core.peek 2 = lock ∧ acquired = true
  | .releaseStore => t.core.regs.edx = lock ∧ acquired = true
  | .releasePop => acquired = false
  | .releaseReturn => acquired = false

structure LockInv (address : Proc → Word) (lock : Word) (s : Locks Proc) : Prop where
  threads : ∀ p, (s.threads p).InPlace lock (address p) (s.acquired p)
  once : ∀ p q, s.acquired p = true → s.acquired q = true → p = q
  held : s.memory lock ≠ 0 ↔ ∃ p, s.acquired p = true
  writes : ∀ write ∈ s.writes, write.target = address write.writer

section Steps

variable {address : Proc → Word} {lock self : Word} {s after : Locks Proc} {p : Proc}
variable {t : Thread} {core : Core} {point : Point} {acquired : Bool}

theorem Thread.InPlace.interrupt (place : t.InPlace lock self acquired) :
    Thread.InPlace lock self ⟨t.core.setAl endOfInterrupt, t.point⟩ acquired := by
  have nonzero : (t.core.setAl endOfInterrupt).regs.eax ≠ 0 :=
    t.core.setAl_eax_ne_zero (by decide)
  obtain ⟨core, point⟩ := t
  cases point with
  | exchange => exact ⟨place.1, nonzero⟩
  | test => exact ⟨place.1, fun zero => absurd zero nonzero⟩
  | _ => exact place

theorem LockInv.place {owners : Proc → Bool} (inv : LockInv address lock s)
    (others : ∀ q, q ≠ p → owners q = s.acquired q)
    (own : Thread.InPlace lock (address p) ⟨core, point⟩ (owners p)) (q : Proc) :
    ((s.setThread p core point).threads q).InPlace lock (address q) (owners q) := by
  simp only [Locks.setThread]
  by_cases same : q = p
  · subst same
    rw [Function.update_self]
    exact own
  · rw [Function.update_of_ne same, others q same]
    exact inv.threads q

theorem LockInv.setThread (inv : LockInv address lock s)
    (own : Thread.InPlace lock (address p) ⟨core, point⟩ (s.acquired p)) :
    LockInv address lock (s.setThread p core point) :=
  ⟨inv.place (fun _ _ => rfl) own, inv.once, inv.held, inv.writes⟩

omit [DecidableEq Proc] in
theorem LockInv.writeFlag (inv : LockInv address lock s) (value : Byte)
    (self : (s.threads p).core.regs.ecx = address p) :
    LockInv address lock (s.writeFlag p value) := by
  refine ⟨inv.threads, inv.once, inv.held, ?_⟩
  intro write member
  cases member with
  | head => exact self
  | tail _ earlier => exact inv.writes write earlier

theorem LockInv.xchg (inv : LockInv address lock s)
    (edx : (s.threads p).core.regs.edx = lock)
    (eax : (s.threads p).core.regs.eax ≠ 0) : LockInv address lock (s.xchg p) := by
  have memory : (s.xchg p).memory lock = (s.threads p).core.regs.eax := by
    simp only [Locks.xchg, edx, Function.update_self]
  by_cases free : s.memory lock = 0
  · have none : ∀ q, s.acquired q ≠ true := fun q taken =>
      inv.held.mpr ⟨q, taken⟩ free
    have acquired : (s.xchg p).acquired = Function.update s.acquired p true := by
      simp only [Locks.xchg, edx, if_pos free]
    have only : ∀ q, (s.xchg p).acquired q = true → q = p := by
      intro q taken
      by_contra other
      rw [acquired, Function.update_of_ne other] at taken
      exact none q taken
    refine ⟨?_, fun q other first second => (only q first).trans (only other second).symm,
      ?_, inv.writes⟩
    · rw [acquired]
      refine inv.place (fun q other => Function.update_of_ne other ..) ⟨edx, fun _ => ?_⟩
      exact Function.update_self ..
    · rw [memory, acquired]
      exact iff_of_true eax ⟨p, Function.update_self ..⟩
  · have acquired : (s.xchg p).acquired = s.acquired := by
      simp only [Locks.xchg, edx, if_neg free]
    refine ⟨?_, ?_, ?_, inv.writes⟩
    · rw [acquired]
      refine inv.place (fun _ _ => rfl) ⟨edx, fun empty => absurd ?_ free⟩
      rw [← edx]
      exact empty
    · rw [acquired]
      exact inv.once
    · rw [memory, acquired]
      exact iff_of_true eax (inv.held.mp free)

theorem LockInv.store (inv : LockInv address lock s)
    (edx : (s.threads p).core.regs.edx = lock) (taken : s.acquired p = true) :
    LockInv address lock (s.store p) := by
  have released : (s.store p).acquired p = false := Function.update_self ..
  have others : ∀ q, q ≠ p → (s.store p).acquired q = s.acquired q := fun q other =>
    Function.update_of_ne other ..
  have none : ∀ q, (s.store p).acquired q ≠ true := by
    intro q still
    by_cases same : q = p
    · rw [same, released] at still
      exact Bool.false_ne_true still
    · rw [others q same] at still
      exact same (inv.once q p still taken)
  refine ⟨inv.place others released, fun q _ still => absurd still (none q), ?_,
    inv.writes⟩
  refine iff_of_false ?_ fun ⟨q, still⟩ => none q still
  simp only [Locks.store, edx, Function.update_self]
  exact fun nonzero => nonzero rfl

theorem load_argument {c : Core} (ebp : c.regs.ebp = c.regs.esp) :
    c.load (c.regs.ebp + 8) = c.peek 2 := by
  rw [ebp, Core.load_add]
  rfl

theorem LockInv.execute (inv : LockInv address lock s) (p : Proc) :
    LockInv address lock (s.execute address p) := by
  have place := inv.threads p
  unfold Locks.execute
  generalize thread : s.threads p = t at place
  obtain ⟨core, point⟩ := t
  cases point with
  | outside => exact inv
  | setPush => exact inv.setThread place
  | setFrame => exact inv.setThread ⟨rfl, place⟩
  | setArgument =>
      exact inv.setThread ⟨(load_argument place.1).trans place.2.1, place.2.2⟩
  | setSelf => exact inv.setThread ⟨place.1, rfl, place.2⟩
  | setFlag =>
      have self : (s.threads p).core.regs.ecx = address p := by
        rw [thread]
        exact place.2.1
      exact (inv.writeFlag 1 self).setThread place.1
  | spin => exact inv.setThread ⟨place, (by decide : (1 : Word) ≠ 0)⟩
  | exchange =>
      refine inv.xchg ?_ ?_
      · rw [thread]
        exact place.1
      · rw [thread]
        exact place.2
  | test =>
      refine inv.setThread ⟨place.1, fun zero => place.2 ?_⟩
      exact core.testEax_zero.mp zero
  | jump =>
      refine inv.setThread ?_
      cases zero : core.zero with
      | true => exact place.2 zero
      | false => exact place.1
  | clearSelf => exact inv.setThread ⟨rfl, place⟩
  | clearFlag =>
      have self : (s.threads p).core.regs.ecx = address p := by
        rw [thread]
        exact place.1
      exact (inv.writeFlag 0 self).setThread place.2
  | setPop => exact inv.setThread place
  | setReturn => exact inv.setThread place
  | critical => exact inv
  | releasePush => exact inv.setThread place
  | releaseFrame => exact inv.setThread ⟨rfl, place⟩
  | releaseArgument =>
      exact inv.setThread ⟨(load_argument place.1).trans place.2.1, place.2.2⟩
  | releaseStore =>
      refine inv.store ?_ place.2
      rw [thread]
      exact place.1
  | releasePop => exact inv.setThread place
  | releaseReturn => exact inv.setThread place

theorem LockInv.interrupt (inv : LockInv address lock s) {resumed : Core}
    (survives : Survives (address p) (s.threads p).core resumed) :
    LockInv address lock (s.setThread p resumed (s.threads p).point) := by
  rw [survives.eq]
  exact inv.setThread (inv.threads p).interrupt

theorem LockInv.moves (inv : LockInv address lock s) (moves : Moves address lock p s after) :
    LockInv address lock after := by
  have place := inv.threads p
  cases moves with
  | code core memory own kept =>
      have moved : LockInv address lock (s.setThread p core (s.threads p).point) := by
        refine inv.setThread ?_
        unfold Thread.InPlace at place ⊢
        cases own with
        | inl outside =>
            rw [outside] at place ⊢
            exact place
        | inr critical =>
            rw [critical] at place ⊢
            exact place
      have held : memory lock ≠ 0 ↔ ∃ q, s.acquired q = true := by
        rw [kept]
        exact inv.held
      exact ⟨moved.threads, moved.once, held, moved.writes⟩
  | setLock core outside argument =>
      unfold Thread.InPlace at place
      rw [outside] at place
      exact inv.setThread ⟨argument, place⟩
  | releaseLock core critical argument =>
      unfold Thread.InPlace at place
      rw [critical] at place
      exact inv.setThread ⟨argument, place⟩
  | instruction => exact inv.execute p
  | interrupt survives => exact inv.interrupt survives

theorem Locks.execute_acquired_other {q : Proc} (other : q ≠ p) :
    (s.execute address p).acquired q = s.acquired q := by
  unfold Locks.execute
  cases (s.threads p).point with
  | exchange =>
      simp only [Locks.xchg]
      split
      · exact Function.update_of_ne other ..
      · rfl
  | releaseStore => exact Function.update_of_ne other ..
  | _ => rfl

theorem Locks.execute_writes (address : Proc → Word) (s : Locks Proc) (p : Proc) :
    (s.execute address p).writes = s.writes ∨
      ∃ write, (s.execute address p).writes = write :: s.writes ∧ write.writer = p := by
  unfold Locks.execute
  cases (s.threads p).point with
  | setFlag => exact .inr ⟨_, rfl, rfl⟩
  | clearFlag => exact .inr ⟨_, rfl, rfl⟩
  | _ => exact .inl rfl

theorem Moves.writer {write : FlagWrite Proc} (moves : Moves address lock p s after)
    (stored : after.writes = write :: s.writes) : write.writer = p := by
  cases moves with
  | instruction =>
      cases s.execute_writes address p with
      | inl quiet => exact absurd (stored.symm.trans quiet) (List.cons_ne_self _ _)
      | inr stores =>
          obtain ⟨other, stored', writer⟩ := stores
          obtain ⟨rfl, -⟩ := List.cons.inj (stored.symm.trans stored')
          exact writer
  | _ => exact absurd stored.symm (List.cons_ne_self _ _)

/-- What holds of the owners of the lock and of the process that moves holds of the
owners afterwards. -/
theorem Moves.owners {P : Proc → Prop} (moves : Moves address lock p s after)
    (owners : ∀ q, s.acquired q = true → P q) (mover : P p) :
    ∀ q, after.acquired q = true → P q := by
  intro q taken
  by_cases same : q = p
  · exact same ▸ mover
  · refine owners q ?_
    cases moves with
    | instruction => exact (Locks.execute_acquired_other same).symm.trans taken
    | _ => exact taken

end Steps

/-! The processes under a scheduler that may switch or end them at any instruction. -/

structure Contest (Proc : Type u) where
  locks : Locks Proc
  running : Option Proc
  terminated : Proc → Bool

inductive ContestOp (Proc : Type u) where
  | move
  | preempt (next : Proc)
  | terminate (next : Option Proc)
  | dispatch (next : Proc)

inductive ContestStep (address : Proc → Word) (lock : Word) (s : Contest Proc) :
    ContestOp Proc → Contest Proc → Prop
  | move {p : Proc} {after : Locks Proc} (running : s.running = some p)
      (moves : Moves address lock p s.locks after) :
      ContestStep address lock s .move { s with locks := after }
  | preempt {p next : Proc} {resumed : Core} (running : s.running = some p)
      (survives : Survives (address p) (s.locks.threads p).core resumed)
      (alive : s.terminated next = false) :
      ContestStep address lock s (.preempt next)
        { s with
          locks := s.locks.setThread p resumed (s.locks.threads p).point
          running := some next }
  | terminate {p : Proc} {next : Option Proc} (running : s.running = some p)
      (alive : ∀ q, next = some q → q ≠ p ∧ s.terminated q = false) :
      ContestStep address lock s (.terminate next)
        { s with
          running := next
          terminated := Function.update s.terminated p true }
  | dispatch {next : Proc} (idle : s.running = none) (alive : s.terminated next = false) :
      ContestStep address lock s (.dispatch next) { s with running := some next }

structure Locks.Fresh (lock : Word) (s : Locks Proc) : Prop where
  memory : s.memory lock = 0
  threads : ∀ p, (s.threads p).point = .outside
  acquired : ∀ p, s.acquired p = false
  writes : s.writes = []

omit [DecidableEq Proc] in
theorem Locks.Fresh.inv {address : Proc → Word} {lock : Word} {s : Locks Proc}
    (fresh : s.Fresh lock) : LockInv address lock s := by
  have none : ∀ p, s.acquired p ≠ true := fun p taken =>
    Bool.false_ne_true ((fresh.acquired p).symm.trans taken)
  refine ⟨fun p => ?_, fun p _ taken => absurd taken (none p), ?_, ?_⟩
  · unfold Thread.InPlace
    rw [fresh.threads p]
    exact fresh.acquired p
  · refine iff_of_false (fun nonzero => nonzero fresh.memory) ?_
    exact fun ⟨p, taken⟩ => none p taken
  · rw [fresh.writes]
    exact fun write member => absurd member List.not_mem_nil

theorem contestStep_inv {address : Proc → Word} {lock : Word} {s after : Contest Proc}
    {op : ContestOp Proc} (inv : LockInv address lock s.locks)
    (step : ContestStep address lock s op after) : LockInv address lock after.locks := by
  cases step with
  | move running moves => exact inv.moves moves
  | preempt running survives alive => exact inv.interrupt survives
  | terminate running alive => exact inv
  | dispatch idle alive => exact inv

/-- In every state of every run at most one process is between its successful `xchg`
and the store of its `releaseLock`, the lock word tells whether there is one, and
`setLock` only writes the spinning flag of its caller. -/
theorem spinlock_mutual_exclusion {address : Proc → Word} {lock : Word}
    {start s : Contest Proc} {ops : List (ContestOp Proc)}
    (fresh : start.locks.Fresh lock)
    (run : Run (ContestStep address lock) start ops s) :
    (∀ p q, s.locks.acquired p = true → s.locks.acquired q = true → p = q) ∧
    (s.locks.memory lock ≠ 0 ↔ ∃ p, s.locks.acquired p = true) ∧
    ∀ write ∈ s.locks.writes, write.target = address write.writer := by
  have inv := run.invariant (fun s => LockInv address lock s.locks)
    (fun _ _ _ before step => contestStep_inv before step) fresh.inv
  exact ⟨inv.once, inv.held, inv.writes⟩

theorem run_instructions {address : Proc → Word} {lock : Word} {s : Contest Proc} {p : Proc}
    (running : s.running = some p) (count : Nat) :
    Run (ContestStep address lock) s (List.replicate count .move)
      { s with locks := (fun locks => locks.execute address p)^[count] s.locks } := by
  induction count generalizing s with
  | zero => exact .done s
  | succ count ih => exact .next (.move running .instruction) (ih running)

def twoContenders : Contest Bool where
  locks := ⟨fun _ => 0, fun _ => ⟨⟨⟨0, 0, 0, 0, 0, 0, 0, 0⟩, 0, 8, 0x202, []⟩, .outside⟩,
    fun _ => false, []⟩
  running := some true
  terminated := fun _ => false

def contenderAddress (p : Bool) : Word := if p then 0x3000 else 0x3013

def callsSetLock : Core := ⟨⟨0, 0, 0, 0x10001ff0, 0, 0, 0, 0⟩, 0, 8, 0x202, [0, 0x9000]⟩

/-- The first process is preempted with the lock, and the second one spins. -/
theorem spinlock_mutual_exclusion_preempted :
    ∃ ops s, Run (ContestStep contenderAddress 0x9000) twoContenders ops s ∧
      s.running = some false ∧ (s.locks.threads false).point = .test ∧
      s.locks.acquired true = true ∧ s.locks.acquired false ≠ true ∧
      s.locks.memory 0x9000 ≠ 0 := by
  have fresh : twoContenders.locks.Fresh 0x9000 := ⟨rfl, fun _ => rfl, fun _ => rfl, rfl⟩
  have survives := survives_setAl (by decide : contenderAddress true ≠ 0)
  have run : Run (ContestStep contenderAddress 0x9000) twoContenders
      (.move :: (List.replicate 7 .move ++
        .preempt false :: .move :: List.replicate 7 .move)) _ :=
    .next (.move (p := true) rfl (.setLock callsSetLock rfl rfl)) <|
      (run_instructions (p := true) rfl 7).append <|
        .next (.preempt rfl (survives _) rfl) <|
          .next (.move (p := false) rfl (.setLock callsSetLock rfl rfl)) <|
            run_instructions (p := false) rfl 7
  obtain ⟨once, held, -⟩ := spinlock_mutual_exclusion fresh run
  refine ⟨_, _, run, rfl, by decide +kernel, by decide +kernel, fun other => ?_, ?_⟩
  · exact Bool.false_ne_true (once false true other (by decide +kernel))
  · exact held.mpr ⟨true, by decide +kernel⟩

end LazyOS.Locking

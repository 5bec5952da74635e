import LazyOS.Data.Word

namespace LazyOS.Data

/-! A 32-bit processor core with its stack.  Of the flags it has the one that lets
interrupts in and the zero flag, which only `test` sets. -/

structure Registers where
  edi : Word
  esi : Word
  ebp : Word
  esp : Word
  ebx : Word
  edx : Word
  ecx : Word
  eax : Word
deriving DecidableEq

@[ext]
structure Core where
  regs : Registers
  eip : Word
  cs : Word
  eflags : Word
  stack : List Word
deriving DecidableEq

def interruptFlag : Word := 0x200

def zeroFlag : Word := 0x40

namespace Core

def peek (c : Core) (k : Nat) : Word := c.stack.getD k 0

def load (c : Core) (address : Word) : Word := c.peek ((address - c.regs.esp).toNat / 4)

def push (c : Core) (value : Word) : Core :=
  { c with
    regs := { c.regs with esp := c.regs.esp - 4 }
    stack := value :: c.stack }

/-- `add esp, 4 * count`. -/
def discard (c : Core) (count : Nat) : Core :=
  { c with
    regs := { c.regs with esp := c.regs.esp + BitVec.ofNat 32 (4 * count) }
    stack := c.stack.drop count }

def setEax (c : Core) (value : Word) : Core := { c with regs := { c.regs with eax := value } }

def al (c : Core) : Byte := c.regs.eax.extractLsb' 0 8

/-- `mov al, value`. -/
def setAl (c : Core) (value : Byte) : Core :=
  c.setEax (c.regs.eax.extractLsb' 8 24 ++ value)

def pusha (c : Core) : Core :=
  { c with
    regs := { c.regs with esp := c.regs.esp - 32 }
    stack :=
      [c.regs.edi, c.regs.esi, c.regs.ebp, c.regs.esp, c.regs.ebx, c.regs.edx,
        c.regs.ecx, c.regs.eax] ++ c.stack }

def popa (c : Core) : Core :=
  { c.discard 8 with
    regs :=
      { edi := c.peek 0
        esi := c.peek 1
        ebp := c.peek 2
        esp := (c.discard 8).regs.esp
        ebx := c.peek 4
        edx := c.peek 5
        ecx := c.peek 6
        eax := c.peek 7 } }

def popEbp (c : Core) : Core :=
  let value := c.peek 0
  let c := c.discard 1
  { c with regs := { c.regs with ebp := value } }

def call (c : Core) (target back : Word) : Core := { c.push back with eip := target }

def ret (c : Core) : Core := { c.discard 1 with eip := c.peek 0 }

def sti (c : Core) : Core := { c with eflags := c.eflags ||| interruptFlag }

def cli (c : Core) : Core := { c with eflags := c.eflags &&& ~~~interruptFlag }

/-- `test eax, eax`. -/
def testEax (c : Core) : Core :=
  { c with
    eflags :=
      if c.regs.eax = 0 then c.eflags ||| zeroFlag else c.eflags &&& ~~~zeroFlag }

def zero (c : Core) : Bool := c.eflags.getLsbD 6

def interrupt (c : Core) (handler : Word) : Core :=
  { (((c.push c.eflags).push c.cs).push c.eip).cli with eip := handler }

def iret (c : Core) : Core :=
  { c.discard 3 with
    eip := c.peek 0
    cs := c.peek 1
    eflags := c.peek 2 }

@[simp] theorem push_regs (c : Core) (value : Word) :
    (c.push value).regs = { c.regs with esp := c.regs.esp - 4 } := rfl

@[simp] theorem push_stack (c : Core) (value : Word) :
    (c.push value).stack = value :: c.stack := rfl

theorem load_add (c : Core) (offset : Word) :
    c.load (c.regs.esp + offset) = c.peek (offset.toNat / 4) := by
  rw [load, BitVec.add_comm, BitVec.add_sub_cancel]

theorem popa_regs {c saved : Core} (esp : c.regs.esp = saved.pusha.regs.esp)
    (stack : c.stack = saved.pusha.stack) : c.popa.regs = saved.regs := by
  have back : (c.discard 8).regs.esp = saved.regs.esp := by
    simp only [discard, esp, pusha]
    bv_omega
  simp only [popa, back, peek, stack, pusha]
  rfl

theorem popa_stack {c saved : Core} (stack : c.stack = saved.pusha.stack) :
    c.popa.stack = saved.stack := by
  simp only [popa, discard, stack, pusha]
  rfl

theorem testEax_zero (c : Core) : c.testEax.zero = true ↔ c.regs.eax = 0 := by
  unfold zero testEax
  by_cases empty : c.regs.eax = 0
  · simp [empty, zeroFlag]
  · refine iff_of_false ?_ empty
    rw [if_neg empty]
    simp [zeroFlag]

theorem interrupt_stack (c : Core) (handler : Word) :
    (c.interrupt handler).stack = [c.eip, c.cs, c.eflags] ++ c.stack := rfl

/-- A core with the registers and the stack of an interrupted one goes on where that
one stopped. -/
theorem iret_eq {c interrupted : Core} {handler : Word}
    (regs : c.regs = (interrupted.interrupt handler).regs)
    (stack : c.stack = (interrupted.interrupt handler).stack) :
    c.iret = interrupted := by
  have esp : (interrupted.interrupt handler).regs.esp + 12#32 = interrupted.regs.esp := by
    simp only [interrupt, cli, push_regs]
    bv_omega
  have others : { (interrupted.interrupt handler).regs with
      esp := interrupted.regs.esp } = interrupted.regs := rfl
  ext1
  · simp only [iret, discard, regs]
    rw [esp, others]
  · simp only [iret, peek, stack, interrupt_stack]
    rfl
  · simp only [iret, peek, stack, interrupt_stack]
    rfl
  · simp only [iret, peek, stack, interrupt_stack]
    rfl
  · simp only [iret, discard, stack, interrupt_stack]
    rfl

theorem setAl_setAl (c : Core) (first second : Byte) :
    (c.setAl first).setAl second = c.setAl second := by
  have high : (c.regs.eax.extractLsb' 8 24 ++ first).extractLsb' 8 24 =
      c.regs.eax.extractLsb' 8 24 := BitVec.extractLsb'_append_eq_left
  simp only [setAl, setEax, high]

theorem iret_setAl (c : Core) (value : Byte) : (c.setAl value).iret = c.iret.setAl value :=
  rfl

theorem setAl_eax_ne_zero (c : Core) {value : Byte} (nonzero : value ≠ 0) :
    (c.setAl value).regs.eax ≠ 0 := by
  intro empty
  have low : (c.setAl value).al = value := BitVec.extractLsb'_append_eq_right
  rw [al, empty] at low
  exact nonzero (low.symm.trans rfl)

theorem setAl_regs_iff (c : Core) (value : Byte) :
    (c.setAl value).regs = c.regs ↔ c.al = value := by
  constructor
  · intro same
    have eax := congrArg Registers.eax same
    rw [al, ← eax]
    exact BitVec.extractLsb'_append_eq_right
  · rintro rfl
    have whole : c.regs.eax.extractLsb' 8 24 ++ c.al = c.regs.eax :=
      BitVec.extractLsb'_append_extractLsb'
    simp only [setAl, setEax, whole]

end Core

/-- A call that follows cdecl, from the first instruction of the function to the one
after the call: the stack is balanced and the callee-saved registers are kept. -/
structure Cdecl (entry exit : Core) : Prop where
  eip : exit.eip = entry.peek 0
  esp : exit.regs.esp = entry.regs.esp + 4
  stack : exit.stack = entry.stack.drop 1
  ebx : exit.regs.ebx = entry.regs.ebx
  esi : exit.regs.esi = entry.regs.esi
  edi : exit.regs.edi = entry.regs.edi
  ebp : exit.regs.ebp = entry.regs.ebp

end LazyOS.Data

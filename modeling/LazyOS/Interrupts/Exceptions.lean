import LazyOS.Data.Machine

namespace LazyOS.Interrupts

open LazyOS.Data

/-! Exceptions: the frame that the processor and the stubs of `isr.asm` build, and the
handler of `isr.c` that reads it. -/

abbrev Vector32 := Fin 32

def hasErrorCode : Vector32 → Bool
  | 8 | 10 | 11 | 12 | 13 | 14 | 17 | 21 | 30 => true
  | _ => false

def errorCode (vector : Vector32) (code : Word) : Word :=
  if hasErrorCode vector then code else 0

def vectorWord (vector : Vector32) : Word := BitVec.ofNat 32 vector

def raise (vector : Vector32) (code stub : Word) (c : Core) : Core :=
  let c := c.interrupt stub
  if hasErrorCode vector then c.push code else c

def isrNoErrcode (vector : Vector32) (c : Core) : Core :=
  (c.cli.push 0).push (vectorWord vector)

def isrErrcode (vector : Vector32) (c : Core) : Core := c.cli.push (vectorWord vector)

def errcodeVectors : List Vector32 := [8, 10, 11, 12, 13, 14, 17, 21, 30]

def isr (vector : Vector32) (c : Core) : Core :=
  if vector ∈ errcodeVectors then isrErrcode vector c else isrNoErrcode vector c

def isrCommonStub (handler back : Word) (c : Core) : Core :=
  let c := c.pusha
  (c.push c.regs.esp).call handler back

def isrCommonReturn (c : Core) : Core := ((c.discard 1).popa.discard 2).sti.iret

/-- `registers_t`. -/
structure RegistersT where
  ds : Word
  edi : Word
  esi : Word
  ebp : Word
  esp : Word
  ebx : Word
  edx : Word
  ecx : Word
  eax : Word
  intNo : Word
  errCode : Word
  eip : Word
  cs : Word
  eflags : Word
  ss : Word
deriving DecidableEq

def readRegisters (c : Core) (reg : Word) : RegistersT where
  ds := c.load reg
  edi := c.load (reg + 4)
  esi := c.load (reg + 8)
  ebp := c.load (reg + 12)
  esp := c.load (reg + 16)
  ebx := c.load (reg + 20)
  edx := c.load (reg + 24)
  ecx := c.load (reg + 28)
  eax := c.load (reg + 32)
  intNo := c.load (reg + 36)
  errCode := c.load (reg + 40)
  eip := c.load (reg + 44)
  cs := c.load (reg + 48)
  eflags := c.load (reg + 52)
  ss := c.load (reg + 56)

def exceptionMessages : List String :=
  ["[0x00] Divide by Zero Exception",
    "[0x01] Debug Exception",
    "[0x02] Unhandled Non-maskable Interrupt",
    "[0x03] Breakpoint Exception",
    "[0x04] Overflow Exception",
    "[0x05] Bound Range Exceeded Exception",
    "[0x06] Invalid Opcode/Operand Exception",
    "[0x07] Device Unavailable Exception",
    "[0x08] Double Fault",
    "[0x09] Coprocessor Segment Overrun",
    "[0x0A] Invalid TSS Exception",
    "[0x0B] Absent Segment Exception",
    "[0x0C] Stack-segment Fault",
    "[0x0D] General Protection Fault",
    "[0x0E] Page Fault ",
    "[0x0F] Inexplicable Error",
    "[0x10] x87 Floating Exception",
    "[0x11] Alignment Check",
    "[0x12] Machine Check",
    "[0x13] SIMD Floating Exception",
    "[0x14] Intel reserved",
    "[0x15] Intel reserved",
    "[0x16] Intel reserved",
    "[0x17] Intel reserved",
    "[0x18] Intel reserved",
    "[0x19] Intel reserved",
    "[0x1A] Intel reserved",
    "[0x1B] Intel reserved",
    "[0x1C] Intel reserved",
    "[0x1D] Intel reserved",
    "[0x1E] Intel reserved",
    "[0x1F] Intel reserved"]

inductive Color where
  | black
  | green
  | red
deriving DecidableEq

inductive Effect where
  | print (text : String)
  | printColor (text : String) (foreground background : Color)
  | killProc
  | halt
deriving DecidableEq

def softwearInterruptHandler (reg : RegistersT) : List Effect :=
  if reg.intNo.toNat < 32 then
    [.print "\n",
      .printColor (exceptionMessages.getD reg.intNo.toNat "") .red .black,
      .print "\n"] ++
    if reg.intNo = 0 then
      [.printColor "Exception has been handled" .green .black, .killProc]
    else [.halt]
  else [.halt]

def handlerEntry (vector : Vector32) (code stub handler back : Word) (c : Core) : Core :=
  isrCommonStub handler back (isr vector (raise vector code stub c))

def seenRegisters (vector : Vector32) (code stub handler back : Word) (c : Core) :
    RegistersT :=
  let entry := handlerEntry vector code stub handler back c
  readRegisters entry (entry.peek 1)

section Frame

variable (vector : Vector32) (code stub handler back : Word) (c : Core)

theorem mem_errcodeVectors : vector ∈ errcodeVectors ↔ hasErrorCode vector = true := by
  revert vector
  decide

theorem isr_raise_stack :
    (isr vector (raise vector code stub c)).stack =
      [vectorWord vector, errorCode vector code, c.eip, c.cs, c.eflags] ++ c.stack := by
  cases coded : hasErrorCode vector with
  | true =>
      simp only [isr, mem_errcodeVectors, raise, errorCode, coded, if_true]
      rfl
  | false =>
      simp only [isr, mem_errcodeVectors, raise, errorCode, coded, Bool.false_eq_true,
        if_false]
      rfl

theorem isr_raise_regs :
    (isr vector (raise vector code stub c)).regs =
      { c.regs with esp := c.regs.esp - 20 } := by
  have esp : c.regs.esp - 4 - 4 - 4 - 4 - 4 = c.regs.esp - 20 := by bv_omega
  cases coded : hasErrorCode vector with
  | true =>
      simp only [isr, mem_errcodeVectors, raise, coded, if_true]
      exact congrArg (fun esp => { c.regs with esp := esp }) esp
  | false =>
      simp only [isr, mem_errcodeVectors, raise, coded, Bool.false_eq_true, if_false]
      exact congrArg (fun esp => { c.regs with esp := esp }) esp

/-- `registers_t` starts with a word that no stub pushes: every field holds what the
next one is meant to hold. -/
theorem seenRegisters_eq :
    seenRegisters vector code stub handler back c =
      { ds := c.regs.edi
        edi := c.regs.esi
        esi := c.regs.ebp
        ebp := c.regs.esp - 20
        esp := c.regs.ebx
        ebx := c.regs.edx
        edx := c.regs.ecx
        ecx := c.regs.eax
        eax := vectorWord vector
        intNo := errorCode vector code
        errCode := c.eip
        eip := c.cs
        cs := c.eflags
        eflags := c.peek 0
        ss := c.peek 1 } := by
  have frame := isr_raise_stack vector code stub c
  have regs := isr_raise_regs vector code stub c
  generalize raised : isr vector (raise vector code stub c) = pushed at frame regs
  simp only [seenRegisters, handlerEntry, raised]
  generalize entered : isrCommonStub handler back pushed = entry
  have stack : entry.stack =
      [back, pushed.pusha.regs.esp, c.regs.edi, c.regs.esi, c.regs.ebp, c.regs.esp - 20,
        c.regs.ebx, c.regs.edx, c.regs.ecx, c.regs.eax, vectorWord vector,
        errorCode vector code, c.eip, c.cs, c.eflags] ++ c.stack := by
    simp only [← entered, isrCommonStub, Core.call, Core.push_stack, Core.pusha, frame, regs]
    rfl
  have pointer : entry.peek 1 = entry.regs.esp + 8 := by
    have esp : pushed.pusha.regs.esp = entry.regs.esp + 8 := by
      simp only [← entered, isrCommonStub, Core.call, Core.push_regs]
      bv_omega
    simp only [Core.peek, stack]
    exact esp
  rw [pointer]
  simp only [readRegisters, BitVec.add_assoc, Core.load_add]
  simp only [Core.peek, stack]
  rfl

theorem killProc_iff (reg : RegistersT) :
    .killProc ∈ softwearInterruptHandler reg ↔ reg.intNo = 0 := by
  unfold softwearInterruptHandler
  split
  case isTrue =>
    split
    case isTrue zero => exact iff_of_true (by simp) zero
    case isFalse other => exact iff_of_false (by simp) other
  case isFalse large =>
    refine iff_of_false (by simp) fun zero => large ?_
    rw [zero]
    decide

theorem vectorWord_eq_zero : vectorWord vector = 0 ↔ vector = 0 := by
  revert vector
  decide

/-- The handler sees the vector and its error code, and kills the process for vector 0
alone, exactly when the error code equals the vector and the interrupted `eip` equals
the error code. -/
theorem exception_dispatch_iff :
    ((seenRegisters vector code stub handler back c).intNo = vectorWord vector ∧
      (seenRegisters vector code stub handler back c).errCode = errorCode vector code ∧
      (.killProc ∈ softwearInterruptHandler
        (seenRegisters vector code stub handler back c) ↔ vector = 0)) ↔
      errorCode vector code = vectorWord vector ∧ c.eip = errorCode vector code := by
  rw [killProc_iff, seenRegisters_eq]
  constructor
  · rintro ⟨intNo, errCode, -⟩
    exact ⟨intNo, errCode⟩
  · rintro ⟨intNo, errCode⟩
    refine ⟨intNo, errCode, ?_⟩
    simp only [intNo]
    exact vectorWord_eq_zero vector

def opcodeFault : Core :=
  ⟨⟨0, 0, 0, 0x10001ff0, 0, 0, 0, 0⟩, 0x101000, 8, 0x202, [0, 0]⟩

/-- An invalid opcode, vector 6, is taken for a division by zero. -/
theorem invalid_opcode_kills :
    (seenRegisters 6 0 0 0 0 opcodeFault).intNo = 0 ∧
      .killProc ∈ softwearInterruptHandler (seenRegisters 6 0 0 0 0 opcodeFault) ∧
      ¬ ((seenRegisters 6 0 0 0 0 opcodeFault).intNo = vectorWord 6 ∧
        (seenRegisters 6 0 0 0 0 opcodeFault).errCode = errorCode 6 0 ∧
        (.killProc ∈ softwearInterruptHandler (seenRegisters 6 0 0 0 0 opcodeFault) ↔
          (6 : Vector32) = 0)) := by
  rw [killProc_iff, seenRegisters_eq]
  decide

theorem exception_resumes {exit : Core}
    (cdecl : Cdecl (handlerEntry vector code stub handler back c) exit) :
    isrCommonReturn exit = c := by
  have frame := isr_raise_stack vector code stub c
  have pushedRegs := isr_raise_regs vector code stub c
  generalize raised : isr vector (raise vector code stub c) = pushed at frame pushedRegs
  have stack : (exit.discard 1).stack = pushed.pusha.stack := by
    simp only [Core.discard, cdecl.stack, handlerEntry, raised]
    rfl
  have esp : (exit.discard 1).regs.esp = pushed.pusha.regs.esp := by
    simp only [Core.discard, cdecl.esp, handlerEntry, raised, isrCommonStub, Core.call,
      Core.push_regs]
    bv_omega
  have regs : (exit.discard 1).popa.regs = pushed.regs := Core.popa_regs esp stack
  have words : (exit.discard 1).popa.stack = pushed.stack := Core.popa_stack stack
  have top : c.regs.esp - 20 + 8 = c.regs.esp - 4 - 4 - 4 := by bv_omega
  unfold isrCommonReturn
  generalize (exit.discard 1).popa = popped at regs words
  have lastRegs : (popped.discard 2).sti.regs = (c.interrupt stub).regs := by
    simp only [Core.sti, Core.discard, regs, pushedRegs]
    exact congrArg (fun esp => { c.regs with esp := esp }) top
  have lastStack : (popped.discard 2).sti.stack = (c.interrupt stub).stack := by
    simp only [Core.sti, Core.discard, words, frame]
    rfl
  exact Core.iret_eq lastRegs lastStack

end Frame

end LazyOS.Interrupts

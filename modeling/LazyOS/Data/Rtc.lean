import LazyOS.Data.Word

namespace LazyOS.Data

/-! A real-time clock behind an index port and a data port.  Its registers change by
themselves from one port access to the next. -/

def updateBit : Byte := 0x80

def statusA : Byte := 0x0A

def dateRegisters : List Byte := [0x00, 0x02, 0x04, 0x07, 0x08, 0x09]

/-- While the update bit is clear the date stays for `window` accesses more.  The bit
does not stay set for ever, and is then clear for two accesses at least. -/
structure Rtc (window : Nat) where
  register : Nat → Byte → Byte
  steady : ∀ now, register now statusA &&& updateBit = 0 →
    ∀ later, now ≤ later → later ≤ now + window →
      ∀ index ∈ dateRegisters, register later index = register now index
  clears : ∀ now, ∃ later, now ≤ later ∧ register later statusA &&& updateBit = 0 ∧
    register (later + 1) statusA &&& updateBit = 0

structure RtcPort where
  now : Nat
  selected : Byte

namespace Rtc

variable {window : Nat} (rtc : Rtc window)

def select (index : Byte) (port : RtcPort) : RtcPort := ⟨port.now + 1, index⟩

def read (port : RtcPort) : Byte × RtcPort :=
  (rtc.register port.now port.selected, { port with now := port.now + 1 })

theorem clear_from (now : Nat) :
    ∃ k, rtc.register (now + 2 * k) statusA &&& updateBit = 0 := by
  obtain ⟨later, after, first, second⟩ := rtc.clears now
  obtain ⟨k, even | odd⟩ : ∃ k, later = now + 2 * k ∨ later + 1 = now + 2 * k := by
    refine ⟨(later - now + 1) / 2, ?_⟩
    omega
  · exact ⟨k, even ▸ first⟩
  · exact ⟨k, odd ▸ second⟩

end Rtc

end LazyOS.Data

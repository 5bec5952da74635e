import LazyOS.Data.Word

namespace LazyOS.Data

/-! An ATA disk behind its ports: the registers that select sectors, the commands
that read and write them, and the data port, which moves the 256 words of one sector
after the other. -/

/-- A transfer under way: `left` sectors from `sector` on, the first of which has come
to `word`. -/
structure Transfer where
  write : Bool
  sector : Nat
  left : Nat
  word : Nat

def Transfer.start (write : Bool) (sector left : Nat) : Option Transfer :=
  if left = 0 then none else some ⟨write, sector, left, 0⟩

/-- Where a transfer is after `word` words of its sector: behind the last one the next
sector begins. -/
def Transfer.reached (write : Bool) (sector left word : Nat) : Option Transfer :=
  if word < 256 then some ⟨write, sector, left, word⟩
  else Transfer.start write (sector + 1) (left - 1)

def Transfer.advance (transfer : Transfer) : Option Transfer :=
  Transfer.reached transfer.write transfer.sector transfer.left (transfer.word + 1)

structure Ata where
  capacity : Nat
  addressable : capacity ≤ 2 ^ 28
  words : Nat → Nat → Half
  sectorCount : Byte
  lbaLow : Byte
  lbaMid : Byte
  lbaHigh : Byte
  drive : Byte
  transfer : Option Transfer

namespace Ata

def lba (dev : Ata) : Nat :=
  dev.lbaLow.toNat + 2 ^ 8 * dev.lbaMid.toNat + 2 ^ 16 * dev.lbaHigh.toNat +
    2 ^ 24 * (dev.drive &&& 0x0F).toNat

def count (dev : Ata) : Nat :=
  if dev.sectorCount = 0 then 256 else dev.sectorCount.toNat

def command (dev : Ata) (value : Byte) : Ata :=
  { dev with
    transfer :=
      if dev.lba + dev.count ≤ dev.capacity then
        if value = 0x20 then Transfer.start false dev.lba dev.count
        else if value = 0x30 then Transfer.start true dev.lba dev.count
        else none
      else none }

def outb (dev : Ata) (port : Nat) (value : Byte) : Ata :=
  if port = 0x1f2 then { dev with sectorCount := value }
  else if port = 0x1f3 then { dev with lbaLow := value }
  else if port = 0x1f4 then { dev with lbaMid := value }
  else if port = 0x1f5 then { dev with lbaHigh := value }
  else if port = 0x1f6 then { dev with drive := value }
  else if port = 0x1f7 then dev.command value
  else dev

/-- The status register: ready, and with `0x08` while the data port is in use.  The
busy bit is clear whenever the register is looked at. -/
def status (dev : Ata) : Byte :=
  match dev.transfer with
  | none => 0x40
  | some _ => 0x48

def inw (dev : Ata) : Half × Ata :=
  match dev.transfer with
  | some transfer =>
      if transfer.write then (0, dev)
      else
        (dev.words transfer.sector transfer.word,
          { dev with transfer := transfer.advance })
  | none => (0, dev)

def outw (dev : Ata) (value : Half) : Ata :=
  match dev.transfer with
  | some transfer =>
      if transfer.write then
        { dev with
          words := Function.update dev.words transfer.sector
            (Function.update (dev.words transfer.sector) transfer.word value)
          transfer := transfer.advance }
      else dev
  | none => dev

def image (dev : Ata) (sector k : Nat) : Byte :=
  leByte (dev.words sector (k / 2)).toNat (k % 2)

theorem reached_of_lt {write : Bool} {sector left word : Nat} (inside : word < 256) :
    Transfer.reached write sector left word = some ⟨write, sector, left, word⟩ :=
  if_pos inside

theorem reached_full (write : Bool) (sector left : Nat) :
    Transfer.reached write sector left 256 =
      Transfer.start write (sector + 1) (left - 1) :=
  if_neg (Nat.lt_irrefl 256)

theorem start_eq_reached (write : Bool) (sector : Nat) {left : Nat} (some : left ≠ 0) :
    Transfer.start write sector left = Transfer.reached write sector left 0 := by
  rw [reached_of_lt (by decide)]
  exact if_neg some

theorem inw_reading {dev : Ata} {sector left word : Nat} (inside : word < 256)
    (reading : dev.transfer = Transfer.reached false sector left word) :
    dev.inw = (dev.words sector word,
      { dev with transfer := Transfer.reached false sector left (word + 1) }) := by
  rw [reached_of_lt inside] at reading
  unfold inw
  rw [reading]
  rfl

theorem outw_writing {dev : Ata} {sector left word : Nat} (inside : word < 256)
    (writing : dev.transfer = Transfer.reached true sector left word) (value : Half) :
    dev.outw value = { dev with
      words := Function.update dev.words sector
        (Function.update (dev.words sector) word value)
      transfer := Transfer.reached true sector left (word + 1) } := by
  rw [reached_of_lt inside] at writing
  unfold outw
  rw [writing]
  rfl

end Ata

end LazyOS.Data

import LazyOS.Data.Ata
import LazyOS.Disk.Streamer

namespace LazyOS.Disk

open LazyOS.Data

/-! The driver of `disk.c`, which moves sectors through the ports of the disk. -/

namespace Driver

/-- `disk_get`: `dsk` is the address of the only disk. -/
def diskGet (dsk index : Int) : Int := if index ≠ 0 then 0 else dsk

def selectSectors (dev : Ata) (lba : Word) (total : Int) : Ata :=
  let dev := dev.outb 0x1f6 ((lba >>> 24).setWidth 8 ||| 0xE0)
  let dev := dev.outb 0x1f2 (BitVec.ofInt 8 total)
  let dev := dev.outb 0x1f3 (lba.setWidth 8)
  let dev := dev.outb 0x1f4 ((lba >>> 8).setWidth 8)
  dev.outb 0x1f5 ((lba >>> 16).setWidth 8)

/-- `*ptr = value` for a word `ptr` bytes into the buffer. -/
def storeHalf (buff : Nat → Byte) (ptr : Nat) (value : Half) : Nat → Byte := fun k =>
  if k = ptr then leByte value.toNat 0
  else if k = ptr + 1 then leByte value.toNat 1
  else buff k

/-- `ptr[j]` for a word pointer to the start of the buffer. -/
def loadHalf (buff : Nat → Byte) (j : Nat) : Half :=
  BitVec.ofNat 16 (leValue 2 fun k => buff (2 * j + k))

def readWords : (remaining : Nat) → Ata → (ptr : Nat) → (Nat → Byte) →
    Ata × Nat × (Nat → Byte)
  | 0, dev, ptr, buff => (dev, ptr, buff)
  | remaining + 1, dev, ptr, buff =>
      readWords remaining dev.inw.2 (ptr + 2) (storeHalf buff ptr dev.inw.1)

/-- `none` when the disk has no data to wait for. -/
def readSectors : (remaining : Nat) → Ata → (ptr : Nat) → (Nat → Byte) →
    Option (Ata × (Nat → Byte))
  | 0, dev, _, buff => some (dev, buff)
  | remaining + 1, dev, ptr, buff =>
      if dev.status &&& 0x08 = 0 then none
      else
        let sector := readWords 256 dev ptr buff
        readSectors remaining sector.1 sector.2.1 sector.2.2

def diskReadSecotr (dev : Ata) (lba : Word) (total : Int) (buff : Nat → Byte) :
    Option (Int × Ata × (Nat → Byte)) :=
  if dev.status &&& 0x80 ≠ 0 then none
  else
    (readSectors total.toNat ((selectSectors dev lba total).outb 0x1f7 0x20) 0 buff).map
      fun result => (0, result)

def writeWords (buff : Nat → Byte) : (remaining j : Nat) → Ata → Ata
  | 0, _, dev => dev
  | remaining + 1, j, dev =>
      writeWords buff remaining (j + 1) (dev.outw (loadHalf buff j))

/-- Every sector is taken from the start of the buffer: `ptr` is indexed by `j` and
never moved. -/
def writeSectors (buff : Nat → Byte) : (remaining : Nat) → Ata → Option Ata
  | 0, dev => some dev
  | remaining + 1, dev =>
      if dev.status &&& 0x08 = 0 then none
      else writeSectors buff remaining (writeWords buff 256 0 dev)

def diskWriteSector (dev : Ata) (lba : Word) (total : Int) (buff : Nat → Byte) :
    Option (Int × Ata) :=
  if dev.status &&& 0x80 ≠ 0 then none
  else
    (writeSectors buff total.toNat ((selectSectors dev lba total).outb 0x1f7 0x30)).map
      fun dev => (0, dev)

def diskReadBlock (dsk idisk : Int) (dev : Ata) (lba : Word) (total : Int)
    (buff : Nat → Byte) : Option (Int × Ata × (Nat → Byte)) :=
  if idisk ≠ dsk then some (-eio, dev, buff) else diskReadSecotr dev lba total buff

def diskWriteBlock (dsk idisk : Int) (dev : Ata) (lba : Word) (sizeOfBuff : Int)
    (buff : Nat → Byte) : Option (Int × Ata) :=
  if idisk ≠ dsk then some (-eio, dev) else diskWriteSector dev lba sizeOfBuff buff

theorem drive_nibble (lba : Word) :
    ((((lba >>> 24).setWidth 8 : Byte) ||| 0xE0) &&& 0x0F).toNat =
      lba.toNat / 2 ^ 24 % 16 := by
  have upper : (0x0F : Byte) &&& 0xE0 = 0#8 := by decide
  rw [BitVec.and_comm, BitVec.and_or_distrib_left, upper, BitVec.or_zero,
    BitVec.and_comm, BitVec.toNat_and, BitVec.toNat_setWidth, BitVec.toNat_ushiftRight,
    Nat.shiftRight_eq_div_pow, show (0x0F : Byte).toNat = 2 ^ 4 - 1 from rfl,
    Nat.and_two_pow_sub_one_eq_mod]
  omega

theorem selectSectors_lba (dev : Ata) (lba : Word) (small : lba.toNat < 2 ^ 28)
    (total : Int) : (selectSectors dev lba total).lba = lba.toNat := by
  have nibble := drive_nibble lba
  simp only [selectSectors, Ata.outb, Ata.lba, Nat.reduceEqDiff, if_true, if_false]
  rw [nibble]
  simp only [BitVec.toNat_setWidth, BitVec.toNat_ushiftRight, Nat.shiftRight_eq_div_pow]
  omega

theorem selectSectors_count (dev : Ata) (lba : Word) {total : Nat} (positive : 0 < total)
    (short : total < 256) : (selectSectors dev lba total).count = total := by
  have value : (BitVec.ofInt 8 (total : Int)).toNat = total := by
    rw [BitVec.toNat_ofInt]
    omega
  simp only [selectSectors, Ata.outb, Ata.count, Nat.reduceEqDiff, if_true, if_false]
  rw [if_neg, value]
  intro zero
  rw [zero] at value
  exact absurd value positive.ne

theorem transfer_starts {dev : Ata} {lba : Word} {total : Nat} (positive : 0 < total)
    (short : total < 256) (inside : lba.toNat + total ≤ dev.capacity) (write : Bool)
    (command : Byte) (asked : command = if write then 0x30 else 0x20) :
    ((selectSectors dev lba total).outb 0x1f7 command).words = dev.words ∧
      ((selectSectors dev lba total).outb 0x1f7 command).transfer =
        Transfer.start write lba.toNat total := by
  have address := dev.addressable
  have start := selectSectors_lba dev lba (by omega) total
  have many := selectSectors_count dev lba positive short
  have capacity : (selectSectors dev lba total).capacity = dev.capacity := rfl
  refine ⟨rfl, ?_⟩
  simp only [Ata.outb, Ata.command, Nat.reduceEqDiff, if_true, if_false]
  rw [start, many, capacity, if_pos inside]
  subst asked
  cases write <;> rfl

theorem status_reading {dev : Ata} {write : Bool} {sector left : Nat}
    (going : dev.transfer = Transfer.start write sector (left + 1)) :
    dev.status &&& 0x08 ≠ 0 := by
  unfold Ata.status
  rw [going, Ata.start_eq_reached _ _ (Nat.succ_ne_zero left),
    Ata.reached_of_lt (by decide)]
  exact (by decide : (0x48 : Byte) &&& 0x08 ≠ 0)

theorem status_idle (dev : Ata) : dev.status &&& 0x80 = 0 := by
  unfold Ata.status
  split <;> decide

theorem readWords_spec (remaining : Nat) {dev : Ata} {sector left word : Nat}
    (reading : dev.transfer = Transfer.reached false sector left word)
    (inside : word + remaining ≤ 256) (ptr : Nat) (buff : Nat → Byte) :
    readWords remaining dev ptr buff =
      ({ dev with transfer := Transfer.reached false sector left (word + remaining) },
        ptr + 2 * remaining,
        fun k =>
          if ptr ≤ k ∧ k < ptr + 2 * remaining then
            leByte (dev.words sector (word + (k - ptr) / 2)).toNat ((k - ptr) % 2)
          else buff k) := by
  induction remaining generalizing dev word ptr buff with
  | zero =>
      rw [Nat.add_zero, ← reading]
      simp only [readWords]
      refine congrArg _ (congrArg _ (funext fun k => ?_))
      rw [if_neg (by omega)]
  | succ remaining ih =>
      rw [readWords, Ata.inw_reading (by omega) reading]
      simp only
      rw [ih rfl (by omega)]
      refine Prod.ext (by simp only [Nat.add_assoc, Nat.add_comm 1]) (Prod.ext ?_ ?_)
      · simp only
        omega
      · funext k
        simp only [storeHalf]
        by_cases low : k = ptr
        · subst low
          rw [if_neg (by omega), if_pos rfl, if_pos (by omega), Nat.sub_self]
          rfl
        · by_cases high : k = ptr + 1
          · subst high
            rw [if_neg (by omega), if_neg low, if_pos rfl, if_pos (by omega),
              Nat.add_sub_cancel_left]
            rfl
          · rw [if_neg low, if_neg high]
            by_cases later : ptr + 2 ≤ k ∧ k < ptr + 2 + 2 * remaining
            · have step : word + 1 + (k - (ptr + 2)) / 2 = word + (k - ptr) / 2 := by
                omega
              have parity : (k - (ptr + 2)) % 2 = (k - ptr) % 2 := by omega
              rw [if_pos later, if_pos (by omega), step, parity]
            · rw [if_neg later, if_neg (by omega)]

theorem readSectors_spec (remaining : Nat) (dev : Ata) {sector : Nat}
    (reading : dev.transfer = Transfer.start false sector remaining) (ptr : Nat)
    (buff : Nat → Byte) :
    ∃ final out, readSectors remaining dev ptr buff = some (final, out) ∧
      final.words = dev.words ∧ ∀ k, out k =
        if ptr ≤ k ∧ k < ptr + sectorSize * remaining then
          dev.image (sector + (k - ptr) / sectorSize) ((k - ptr) % sectorSize)
        else buff k := by
  induction remaining generalizing dev sector ptr buff with
  | zero =>
      refine ⟨dev, buff, rfl, rfl, fun k => ?_⟩
      rw [if_neg (by omega)]
  | succ remaining ih =>
      have ready := status_reading reading
      rw [Ata.start_eq_reached _ _ (Nat.succ_ne_zero remaining)] at reading
      have moved := readWords_spec 256 reading (by omega) ptr buff
      rw [Nat.zero_add, Ata.reached_full, Nat.succ_sub_one] at moved
      simp only [readSectors, if_neg ready, moved]
      obtain ⟨final, out, looped, kept, bytes⟩ := ih
        { dev with transfer := Transfer.start false (sector + 1) remaining } rfl
        (ptr + 2 * 256) _
      refine ⟨final, out, looped, kept, fun k => ?_⟩
      rw [bytes k, Nat.mul_add_one sectorSize, ← Nat.add_assoc]
      unfold Ata.image sectorSize
      generalize 512 * remaining = behind
      by_cases later : ptr + 2 * 256 ≤ k ∧ k < ptr + 2 * 256 + behind
      · have next : sector + 1 + (k - (ptr + 2 * 256)) / 512 =
            sector + (k - ptr) / 512 := by omega
        have same : (k - (ptr + 2 * 256)) % 512 = (k - ptr) % 512 := by omega
        rw [if_pos later, if_pos (by omega), next, same]
      · rw [if_neg later]
        by_cases here : ptr ≤ k ∧ k < ptr + 2 * 256
        · have zero : (k - ptr) / 512 = 0 := by omega
          have same : (k - ptr) % 512 = k - ptr := by omega
          rw [if_pos here, if_pos (by omega), zero, same, Nat.zero_add, Nat.add_zero]
        · rw [if_neg here, if_neg (by omega)]

theorem writeWords_spec (buff : Nat → Byte) (remaining : Nat) {dev : Ata}
    {sector left j : Nat} (writing : dev.transfer = Transfer.reached true sector left j)
    (inside : j + remaining ≤ 256) :
    writeWords buff remaining j dev =
      { dev with
        words := fun current i =>
          if current = sector ∧ j ≤ i ∧ i < j + remaining then loadHalf buff i
          else dev.words current i
        transfer := Transfer.reached true sector left (j + remaining) } := by
  induction remaining generalizing dev j with
  | zero =>
      rw [Nat.add_zero, ← writing]
      have same : (fun current i =>
          if current = sector ∧ j ≤ i ∧ i < j then loadHalf buff i
          else dev.words current i) = dev.words := by
        funext current i
        rw [if_neg (by omega)]
      rw [same]
      rfl
  | succ remaining ih =>
      rw [writeWords, Ata.outw_writing (by omega) writing, ih rfl (by omega)]
      simp only [Nat.add_assoc, Nat.add_comm 1]
      have same : (fun current i =>
          if current = sector ∧ j + 1 ≤ i ∧ i < j + (remaining + 1) then loadHalf buff i
          else Function.update dev.words sector
            (Function.update (dev.words sector) j (loadHalf buff j)) current i) =
          fun current i =>
            if current = sector ∧ j ≤ i ∧ i < j + (remaining + 1) then loadHalf buff i
            else dev.words current i := by
        funext current i
        by_cases other : current = sector
        · subst other
          rw [Function.update_self]
          by_cases first : i = j
          · subst first
            rw [if_neg (by omega), Function.update_self, if_pos (by omega)]
          · rw [Function.update_of_ne first]
            by_cases later : j + 1 ≤ i ∧ i < j + (remaining + 1)
            · rw [if_pos ⟨rfl, later⟩, if_pos (by omega)]
            · rw [if_neg (by omega), if_neg (by omega)]
        · rw [if_neg fun here => other here.1, if_neg fun here => other here.1,
            Function.update_of_ne other]
      rw [same]

theorem writeSectors_spec (buff : Nat → Byte) (remaining : Nat) (dev : Ata)
    {sector : Nat} (writing : dev.transfer = Transfer.start true sector remaining) :
    ∃ final, writeSectors buff remaining dev = some final ∧
      final.capacity = dev.capacity ∧ ∀ current, ∀ i < 256, final.words current i =
        if sector ≤ current ∧ current < sector + remaining then loadHalf buff i
        else dev.words current i := by
  induction remaining generalizing dev sector with
  | zero =>
      refine ⟨dev, rfl, rfl, fun current i bound => ?_⟩
      rw [if_neg (by omega)]
  | succ remaining ih =>
      have ready := status_reading writing
      rw [Ata.start_eq_reached _ _ (Nat.succ_ne_zero remaining)] at writing
      have moved := writeWords_spec buff 256 writing (by omega)
      rw [Nat.zero_add, Ata.reached_full, Nat.succ_sub_one] at moved
      simp only [writeSectors, if_neg ready, moved]
      obtain ⟨final, looped, size, words⟩ := ih
        { dev with
          words := fun current i =>
            if current = sector ∧ 0 ≤ i ∧ i < 256 then loadHalf buff i
            else dev.words current i
          transfer := Transfer.start true (sector + 1) remaining } rfl
      refine ⟨final, looped, size, fun current i bound => ?_⟩
      rw [words current i bound]
      simp only
      by_cases later : sector + 1 ≤ current ∧ current < sector + 1 + remaining
      · rw [if_pos later, if_pos (by omega)]
      · rw [if_neg later]
        by_cases here : current = sector
        · rw [if_pos (by omega), if_pos (by omega)]
        · rw [if_neg (by omega), if_neg (by omega)]

theorem leByte_loadHalf (buff : Nat → Byte) (k : Nat) :
    leByte (loadHalf buff (k / 2)).toNat (k % 2) = buff k := by
  have narrow : leValue 2 (fun i => buff (2 * (k / 2) + i)) < 2 ^ 16 :=
    (leValue_lt 2 _).trans_le (by decide)
  unfold loadHalf
  rw [BitVec.toNat_ofNat, Nat.mod_eq_of_lt narrow,
    leByte_leValue _ (Nat.mod_lt k (by decide)), Nat.div_add_mod]

section Calls

variable {dev : Ata} {lba : Word} {total : Nat}
variable (positive : 0 < total) (short : total < 256)
variable (inside : lba.toNat + total ≤ dev.capacity)

include positive short inside

theorem diskReadBlock_spec (dsk : Int) (buff : Nat → Byte) :
    ∃ final out,
      diskReadBlock dsk (diskGet dsk 0) dev lba total buff = some (0, final, out) ∧
      ∀ k < sectorSize * total,
        out k = dev.image (lba.toNat + k / sectorSize) (k % sectorSize) := by
  obtain ⟨words, reading⟩ := transfer_starts positive short inside false 0x20 rfl
  obtain ⟨final, out, looped, -, bytes⟩ := readSectors_spec total _ reading 0 buff
  refine ⟨final, out, ?_, fun k bound => ?_⟩
  · unfold diskReadBlock diskGet diskReadSecotr
    rw [if_neg (by simp), if_neg (by rw [status_idle]; simp), Int.toNat_natCast, looped]
    rfl
  · rw [bytes k, if_pos (by omega), Nat.sub_zero]
    unfold Ata.image
    rw [words]

theorem diskWriteBlock_spec (dsk : Int) (buff : Nat → Byte) :
    ∃ written,
      diskWriteBlock dsk (diskGet dsk 0) dev lba total buff = some (0, written) ∧
      written.capacity = dev.capacity ∧
      ∀ sector, ∀ k < sectorSize, written.image sector k =
        if lba.toNat ≤ sector ∧ sector < lba.toNat + total then buff k
        else dev.image sector k := by
  obtain ⟨words, writing⟩ := transfer_starts positive short inside true 0x30 rfl
  obtain ⟨written, looped, size, stored⟩ := writeSectors_spec buff total _ writing
  refine ⟨written, ?_, size, fun sector k bound => ?_⟩
  · unfold diskWriteBlock diskGet diskWriteSector
    rw [if_neg (by simp), if_neg (by rw [status_idle]; simp), Int.toNat_natCast, looped]
    rfl
  · have half : k / 2 < 256 := by
      unfold sectorSize at bound
      omega
    unfold Ata.image
    rw [stored sector _ half, words]
    split
    · exact leByte_loadHalf buff k
    · rfl

end Calls

/-- The calls of the stream, for one sector, are the block operations on the bytes of
the disk. -/
theorem one_sector_blocks {dev : Ata} {lba : Word} (inside : lba.toNat < dev.capacity)
    (dsk : Int) (buff : Nat → Byte) :
    (∃ final out, diskReadBlock dsk (diskGet dsk 0) dev lba 1 buff =
        some (0, final, out) ∧
      ∀ k < sectorSize, out k = Disk.diskReadBlock dev.image lba.toNat k) ∧
    ∃ written, diskWriteBlock dsk (diskGet dsk 0) dev lba 1 buff = some (0, written) ∧
      ∀ sector, ∀ k < sectorSize, written.image sector k =
        Disk.diskWriteBlock dev.image lba.toNat buff sector k := by
  obtain ⟨final, out, read, bytes⟩ :=
    diskReadBlock_spec Nat.one_pos (by decide) inside dsk buff
  obtain ⟨written, wrote, -, stored⟩ :=
    diskWriteBlock_spec Nat.one_pos (by decide) inside dsk buff
  refine ⟨⟨final, out, read, fun k bound => ?_⟩, written, wrote, fun sector k bound => ?_⟩
  · rw [bytes k (by omega), Nat.div_eq_of_lt bound, Nat.mod_eq_of_lt bound]
    rfl
  · rw [stored sector k bound]
    unfold Disk.diskWriteBlock
    by_cases here : sector = lba.toNat
    · rw [if_pos (by omega), here, Function.update_self]
    · rw [if_neg (by omega), Function.update_of_ne here]

/-- What `disk_write_block` has taken from the buffer comes back from
`disk_read_block`, whatever `out` held. -/
def ReadsBack (dsk : Int) (dev : Ata) (lba : Word) (total : Nat) (buff : Nat → Byte) :
    Prop :=
  ∃ written, diskWriteBlock dsk (diskGet dsk 0) dev lba total buff = some (0, written) ∧
    ∀ out, ∃ final read,
      diskReadBlock dsk (diskGet dsk 0) written lba total out = some (0, final, read) ∧
        ∀ k < sectorSize * total, read k = buff k

section ReadBack

variable {dev : Ata} {lba : Word} {total : Nat}
variable (positive : 0 < total) (short : total < 256)
variable (inside : lba.toNat + total ≤ dev.capacity)

include positive short inside

theorem write_then_read (dsk : Int) (buff : Nat → Byte) :
    ∃ written,
      diskWriteBlock dsk (diskGet dsk 0) dev lba total buff = some (0, written) ∧
      ∀ out, ∃ final read,
        diskReadBlock dsk (diskGet dsk 0) written lba total out =
          some (0, final, read) ∧
        ∀ k < sectorSize * total, read k = buff (k % sectorSize) := by
  obtain ⟨written, wrote, size, stored⟩ :=
    diskWriteBlock_spec positive short inside dsk buff
  refine ⟨written, wrote, fun out => ?_⟩
  obtain ⟨final, read, returned, bytes⟩ :=
    diskReadBlock_spec positive short (size ▸ inside) dsk out
  refine ⟨final, read, returned, fun k bound => ?_⟩
  have sector : k / sectorSize < total := Nat.div_lt_of_lt_mul bound
  rw [bytes k bound, stored _ _ (Nat.mod_lt k (by decide)),
    if_pos ⟨Nat.le_add_right _ _, Nat.add_lt_add_left sector _⟩]

theorem ReadsBack.repeats {dsk : Int} {buff : Nat → Byte}
    (back : ReadsBack dsk dev lba total buff) :
    ∀ k < sectorSize * total, buff k = buff (k % sectorSize) := by
  obtain ⟨written, wrote, reads⟩ := back
  obtain ⟨written', wrote', reads'⟩ := write_then_read positive short inside dsk buff
  rw [wrote] at wrote'
  obtain ⟨-, rfl⟩ := Prod.ext_iff.mp (Option.some.inj wrote')
  obtain ⟨final, read, returned, same⟩ := reads buff
  obtain ⟨final', read', returned', first⟩ := reads' buff
  rw [returned] at returned'
  obtain ⟨-, -, rfl⟩ := Prod.ext_iff.mp (Option.some.inj returned')
  intro k bound
  rw [← same k bound, first k bound]

theorem reads_back_iff (dsk : Int) (buff : Nat → Byte) :
    ReadsBack dsk dev lba total buff ↔
      ∀ k < sectorSize * total, buff k = buff (k % sectorSize) := by
  refine ⟨fun back => back.repeats positive short inside, fun repeated => ?_⟩
  obtain ⟨written, wrote, reads⟩ := write_then_read positive short inside dsk buff
  refine ⟨written, wrote, fun out => ?_⟩
  obtain ⟨final, read, returned, bytes⟩ := reads out
  exact ⟨final, read, returned, fun k bound => by rw [bytes k bound, repeated k bound]⟩

end ReadBack

def blankAta : Ata where
  capacity := 16
  addressable := by decide
  words := fun _ _ => 0
  sectorCount := 0
  lbaLow := 0
  lbaMid := 0
  lbaHigh := 0
  drive := 0
  transfer := none

theorem reads_back_iff_three_sectors :
    ReadsBack 0x1000 blankAta 2 3 fun k => BitVec.ofNat 8 (k % sectorSize) :=
  (reads_back_iff (by decide) (by decide) (by decide) _ _).mpr fun k _ => by
    rw [Nat.mod_mod]

/-- Two sectors with different bytes: the first one is written twice. -/
theorem second_sector_lost :
    ¬ ReadsBack 0x1000 blankAta 2 2 fun k => if k < sectorSize then 0 else 1 := by
  intro back
  have second := back.repeats (by decide) (by decide) (by decide) sectorSize (by decide)
  exact absurd second (by decide)

end Driver

end LazyOS.Disk

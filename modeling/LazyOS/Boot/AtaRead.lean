import LazyOS.Disk.Device

namespace LazyOS.Boot

open LazyOS.Data LazyOS.Disk

/-! `ata_lba_read` of `boot.asm`, which loads the kernel, next to `disk_read_secotr`,
which reads the same disk later. -/

/-- The registers that `ata_lba_read` uses, what it pushes, the memory behind `edi`, the
disk, and the bytes sent to its ports, the last one last. -/
structure Loader where
  eax : Word
  ebx : Word
  ecx : Word
  edx : Word
  edi : Word
  stack : List Word
  memory : Word → Byte
  dev : Ata
  sent : List (Nat × Byte)

namespace Loader

/-- `mov dx, port`: the upper half of `edx` stays. -/
def movDx (port : Half) (m : Loader) : Loader :=
  { m with edx := m.edx &&& 0xFFFF0000 ||| port.setWidth 32 }

/-- `out dx, al`. -/
def outAl (m : Loader) : Loader :=
  { m with
    dev := m.dev.outb (m.edx.setWidth 16).toNat (m.eax.setWidth 8)
    sent := m.sent ++ [((m.edx.setWidth 16).toNat, m.eax.setWidth 8)] }

def movEax (value : Word) (m : Loader) : Loader := { m with eax := value }

/-- `mov al, value`: the rest of `eax` stays. -/
def movAl (value : Byte) (m : Loader) : Loader :=
  m.movEax (m.eax &&& 0xFFFFFF00 ||| value.setWidth 32)

def sendDrive (m : Loader) : Loader :=
  let m := m.movEax (m.eax >>> 24)
  let m := m.movEax (m.eax ||| 0xE0)
  (m.movDx 0x1f6).outAl

def sendTotal (m : Loader) : Loader := ((m.movEax m.ecx).movDx 0x1f2).outAl

def sendLow (m : Loader) : Loader := ((m.movEax m.ebx).movDx 0x1f3).outAl

def sendMid (m : Loader) : Loader :=
  let m := m.movDx 0x1f4
  let m := m.movEax m.ebx
  (m.movEax (m.eax >>> 8)).outAl

/-- The byte is taken from `edx`, where the others come from the copy of the LBA in
`ebx`. -/
def sendHigh (m : Loader) : Loader :=
  let m := m.movDx 0x1f5
  let m := m.movEax m.edx
  (m.movEax (m.eax >>> 16)).outAl

def sendRead (m : Loader) : Loader := ((m.movDx 0x1f7).movAl 0x20).outAl

def programDrive (m : Loader) : Loader :=
  let m := { m with ebx := m.eax }
  m.sendDrive.sendTotal.sendLow.sendMid.sendHigh.sendRead

def insw (m : Loader) : Loader :=
  { m with
    ecx := m.ecx - 1
    edi := m.edi + 2
    memory := fun address =>
      if address = m.edi then leByte m.dev.inw.1.toNat 0
      else if address = m.edi + 1 then leByte m.dev.inw.1.toNat 1
      else m.memory address
    dev := m.dev.inw.2 }

def repInsw : (remaining : Nat) → Loader → Loader
  | 0, m => m
  | remaining + 1, m => repInsw remaining m.insw

def pushEcx (m : Loader) : Loader := { m with stack := m.ecx :: m.stack }

def popEcx (m : Loader) : Loader :=
  { m with ecx := m.stack.headD 0, stack := m.stack.tail }

/-- `in al, dx` from the status register. -/
def inStatus (m : Loader) : Loader := m.movAl m.dev.status

def loadSector (m : Loader) : Loader :=
  let m := { m with ecx := 256 }
  let m := m.movDx 0x1f0
  (repInsw m.ecx.toNat m).popEcx

/-- `.next_sector`, with `turns` left to run: `none` when the disk has no data to wait
for. -/
def nextSector : (turns : Nat) → Loader → Option Loader
  | 0, _ => none
  | turns + 1, m =>
      let m := (m.pushEcx.movDx 0x1f7).inStatus
      if m.eax.setWidth 8 &&& (8 : Byte) = 0 then none
      else
        let m := m.loadSector
        let m := { m with ecx := m.ecx - 1 }
        if m.ecx ≠ 0 then nextSector turns m else some m

/-- `loop` comes to 0 after at most `2 ^ 32` turns, whatever `ecx` is. -/
def ataLbaRead (m : Loader) : Option Loader := nextSector (2 ^ 32) m.programDrive

end Loader

def driverSends (lba : Word) (total : Int) : List (Nat × Byte) :=
  [(0x1f6, (lba >>> 24).setWidth 8 ||| 0xE0), (0x1f2, BitVec.ofInt 8 total),
    (0x1f3, lba.setWidth 8), (0x1f4, (lba >>> 8).setWidth 8),
    (0x1f5, (lba >>> 16).setWidth 8), (0x1f7, 0x20)]

def sendAll (dev : Ata) (sent : List (Nat × Byte)) : Ata :=
  sent.foldl (fun dev pair => dev.outb pair.1 pair.2) dev

theorem sendAll_driverSends (dev : Ata) (lba : Word) (total : Int) :
    sendAll dev (driverSends lba total) =
      (Driver.selectSectors dev lba total).outb 0x1f7 0x20 :=
  rfl

namespace Loader

theorem movDx_port (port : Half) (m : Loader) : (m.movDx port).edx.setWidth 16 = port := by
  simp only [movDx]
  ext i bound
  simp

theorem movDx_upper (port : Half) (m : Loader) :
    (m.movDx port).edx >>> 16 = m.edx >>> 16 := by
  simp only [movDx]
  ext i bound
  by_cases inside : 16 + i < 32
  · have upper : (0xFFFF0000 : Word).getLsbD (16 + i) = true := by
      have small : i < 16 := by omega
      interval_cases i <;> rfl
    simpa using fun _ => upper
  · simp [BitVec.getLsbD_of_ge _ (16 + i) (by omega : 32 ≤ 16 + i)]

theorem movAl_low (value : Byte) (m : Loader) : (m.movAl value).eax.setWidth 8 = value := by
  simp only [movAl, movEax]
  ext i bound
  simp

structure Sends (sent : List (Nat × Byte)) (m after : Loader) : Prop where
  dev : after.dev = sendAll m.dev sent
  sent : after.sent = m.sent ++ sent
  ebx : after.ebx = m.ebx
  ecx : after.ecx = m.ecx
  edx : after.edx >>> 16 = m.edx >>> 16
  edi : after.edi = m.edi
  stack : after.stack = m.stack
  memory : after.memory = m.memory

theorem Sends.trans {first second : List (Nat × Byte)} {m middle after : Loader}
    (left : Sends first m middle) (right : Sends second middle after) :
    Sends (first ++ second) m after where
  dev := by rw [right.dev, left.dev, sendAll, sendAll, sendAll, List.foldl_append]
  sent := by rw [right.sent, left.sent, List.append_assoc]
  ebx := right.ebx.trans left.ebx
  ecx := right.ecx.trans left.ecx
  edx := right.edx.trans left.edx
  edi := right.edi.trans left.edi
  stack := right.stack.trans left.stack
  memory := right.memory.trans left.memory

theorem outAl_sends (port : Half) (eax : Word) (m : Loader) :
    Sends [(port.toNat, eax.setWidth 8)] m { m.movDx port with eax := eax }.outAl where
  dev := by
    simp only [outAl, movDx_port]
    rfl
  sent := by
    simp only [outAl, movDx_port]
    rfl
  ebx := rfl
  ecx := rfl
  edx := movDx_upper port m
  edi := rfl
  stack := rfl
  memory := rfl

def sends (m : Loader) : List (Nat × Byte) :=
  [(0x1f6, (m.eax >>> 24 ||| 0xE0).setWidth 8), (0x1f2, m.ecx.setWidth 8),
    (0x1f3, m.eax.setWidth 8), (0x1f4, (m.eax >>> 8).setWidth 8),
    (0x1f5, (m.edx >>> 16).setWidth 8), (0x1f7, 0x20)]

theorem sendDrive_sends (m : Loader) :
    Sends [(0x1f6, (m.eax >>> 24 ||| 0xE0).setWidth 8)] m m.sendDrive :=
  outAl_sends 0x1f6 (m.eax >>> 24 ||| 0xE0) m

theorem sendTotal_sends (m : Loader) :
    Sends [(0x1f2, m.ecx.setWidth 8)] m m.sendTotal :=
  outAl_sends 0x1f2 m.ecx m

theorem sendLow_sends (m : Loader) : Sends [(0x1f3, m.ebx.setWidth 8)] m m.sendLow :=
  outAl_sends 0x1f3 m.ebx m

theorem sendMid_sends (m : Loader) :
    Sends [(0x1f4, (m.ebx >>> 8).setWidth 8)] m m.sendMid :=
  outAl_sends 0x1f4 (m.ebx >>> 8) m

theorem sendHigh_sends (m : Loader) :
    Sends [(0x1f5, (m.edx >>> 16).setWidth 8)] m m.sendHigh := by
  have upper : m.sendHigh = { m.movDx 0x1f5 with eax := m.edx >>> 16 }.outAl := by
    simp only [sendHigh, movEax, movDx_upper]
  rw [upper]
  exact outAl_sends 0x1f5 (m.edx >>> 16) m

theorem sendRead_sends (m : Loader) : Sends [(0x1f7, 0x20)] m m.sendRead := by
  have sends := outAl_sends 0x1f7 (((m.movDx 0x1f7).movAl 0x20).eax) m
  rw [movAl_low] at sends
  exact sends

theorem programDrive_sends (m : Loader) :
    Sends m.sends { m with ebx := m.eax } m.programDrive := by
  have drive := sendDrive_sends { m with ebx := m.eax }
  have total := drive.trans (sendTotal_sends _)
  have low := total.trans (sendLow_sends _)
  have mid := low.trans (sendMid_sends _)
  have high := mid.trans (sendHigh_sends _)
  have read := high.trans (sendRead_sends _)
  rw [drive.ecx, total.ebx, low.ebx, mid.edx] at read
  exact read

/-- The words from `base` on are those of a buffer of which `ptr` bytes are filled, as
`disk_read_secotr` fills it. -/
structure Mirrors (base : Word) (dev : Ata) (ptr : Nat) (buff : Nat → Byte)
    (m : Loader) : Prop where
  dev : m.dev = dev
  edi : m.edi = base + BitVec.ofNat 32 ptr
  bytes : ∀ k < ptr, m.memory (base + BitVec.ofNat 32 k) = buff k

theorem Mirrors.popEcx {base : Word} {dev : Ata} {ptr : Nat} {buff : Nat → Byte}
    {m : Loader} (mirrors : Mirrors base dev ptr buff m) :
    Mirrors base dev ptr buff m.popEcx :=
  ⟨mirrors.dev, mirrors.edi, mirrors.bytes⟩

theorem Mirrors.setEcx {base : Word} {dev : Ata} {ptr : Nat} {buff : Nat → Byte}
    {m : Loader} (mirrors : Mirrors base dev ptr buff m) (ecx : Word) :
    Mirrors base dev ptr buff { m with ecx := ecx } :=
  ⟨mirrors.dev, mirrors.edi, mirrors.bytes⟩

theorem offset_ne {base : Word} {k ptr : Nat} (k_lt : k < ptr) (fits : ptr < 2 ^ 32) :
    base + BitVec.ofNat 32 k ≠ base + BitVec.ofNat 32 ptr := by
  intro same
  have value := congrArg BitVec.toNat ((BitVec.add_right_inj base).mp same)
  rw [BitVec.toNat_ofNat, BitVec.toNat_ofNat, Nat.mod_eq_of_lt (k_lt.trans fits),
    Nat.mod_eq_of_lt fits] at value
  exact absurd value k_lt.ne

theorem insw_mirrors {base : Word} {dev : Ata} {ptr : Nat} {buff : Nat → Byte}
    {m : Loader} (mirrors : Mirrors base dev ptr buff m) (fits : ptr + 2 ≤ 2 ^ 32) :
    Mirrors base dev.inw.2 (ptr + 2) (Driver.storeHalf buff ptr dev.inw.1) m.insw := by
  have next : m.edi + 1 = base + BitVec.ofNat 32 (ptr + 1) := by
    rw [mirrors.edi, BitVec.add_assoc, BitVec.ofNat_add]
    rfl
  refine ⟨by rw [insw, mirrors.dev], ?_, fun k k_lt => ?_⟩
  · rw [insw, mirrors.edi, BitVec.add_assoc, BitVec.ofNat_add]
    rfl
  · simp only [insw, Driver.storeHalf, next, mirrors.dev]
    rw [mirrors.edi]
    by_cases first : k = ptr
    · subst first
      rw [if_pos rfl, if_pos rfl]
    · by_cases second : k = ptr + 1
      · subst second
        rw [if_neg (offset_ne (Nat.lt_succ_self ptr) (by omega)).symm, if_pos rfl,
          if_neg first, if_pos rfl]
      · have earlier : k < ptr := by omega
        rw [if_neg (offset_ne earlier (by omega)),
          if_neg (offset_ne (earlier.trans (Nat.lt_succ_self ptr)) (by omega)),
          if_neg first, if_neg second, mirrors.bytes k earlier]

theorem repInsw_mirrors (remaining : Nat) {base : Word} {dev : Ata} {ptr : Nat}
    {buff : Nat → Byte} {m : Loader} (mirrors : Mirrors base dev ptr buff m)
    (fits : ptr + 2 * remaining ≤ 2 ^ 32) :
    Mirrors base (Driver.readWords remaining dev ptr buff).1
        (Driver.readWords remaining dev ptr buff).2.1
        (Driver.readWords remaining dev ptr buff).2.2 (repInsw remaining m) ∧
      (repInsw remaining m).stack = m.stack := by
  induction remaining generalizing dev ptr buff m with
  | zero => exact ⟨mirrors, rfl⟩
  | succ remaining ih =>
      exact ih (insw_mirrors mirrors (by omega)) (by omega)

theorem readWords_ptr (remaining : Nat) (dev : Ata) (ptr : Nat) (buff : Nat → Byte) :
    (Driver.readWords remaining dev ptr buff).2.1 = ptr + 2 * remaining := by
  induction remaining generalizing dev ptr buff with
  | zero => rfl
  | succ remaining ih =>
      rw [Driver.readWords, ih]
      omega

theorem loadSector_eq (m : Loader) :
    m.loadSector = (repInsw 256 ({ m with ecx := 256 }.movDx 0x1f0)).popEcx := by
  have count : ({ m with ecx := 256 }.movDx 0x1f0).ecx.toNat = 256 := rfl
  simp only [loadSector]
  rw [count]

theorem loadSector_mirrors {base : Word} {dev : Ata} {ptr : Nat} {buff : Nat → Byte}
    {m : Loader} {ecx : Word} {rest : List Word} (mirrors : Mirrors base dev ptr buff m)
    (pushed : m.stack = ecx :: rest) (fits : ptr + sectorSize ≤ 2 ^ 32) :
    Mirrors base (Driver.readWords 256 dev ptr buff).1 (ptr + sectorSize)
        (Driver.readWords 256 dev ptr buff).2.2 m.loadSector ∧
      m.loadSector.ecx = ecx := by
  have start : Mirrors base dev ptr buff ({ m with ecx := 256 }.movDx 0x1f0) :=
    ⟨mirrors.dev, mirrors.edi, mirrors.bytes⟩
  obtain ⟨filled, kept⟩ := repInsw_mirrors 256 start fits
  rw [readWords_ptr, show 2 * 256 = sectorSize from rfl] at filled
  rw [loadSector_eq]
  refine ⟨filled.popEcx, ?_⟩
  rw [Loader.popEcx, kept.trans pushed]
  rfl

theorem nextSector_waits (turns : Nat) {m : Loader} (idle : m.dev.status &&& 0x08 = 0) :
    nextSector (turns + 1) m = none := by
  have low : (m.pushEcx.movDx 0x1f7).inStatus.eax.setWidth 8 &&& (8 : Byte) = 0 := by
    rw [inStatus, movAl_low]
    exact idle
  simp only [nextSector]
  rw [if_pos low]

theorem nextSector_turn (turns : Nat) {base : Word} {dev : Ata} {ptr : Nat}
    {buff : Nat → Byte} {m : Loader} (mirrors : Mirrors base dev ptr buff m)
    (ready : dev.status &&& 0x08 ≠ 0) (fits : ptr + sectorSize ≤ 2 ^ 32) :
    ∃ after, Mirrors base (Driver.readWords 256 dev ptr buff).1 (ptr + sectorSize)
        (Driver.readWords 256 dev ptr buff).2.2 after ∧
      after.ecx = m.ecx - 1 ∧
      nextSector (turns + 1) m =
        if after.ecx ≠ 0 then nextSector turns after else some after := by
  have low : ¬ (m.pushEcx.movDx 0x1f7).inStatus.eax.setWidth 8 &&& (8 : Byte) = 0 := by
    rw [inStatus, movAl_low]
    exact mirrors.dev ▸ ready
  have start : Mirrors base dev ptr buff (m.pushEcx.movDx 0x1f7).inStatus :=
    ⟨mirrors.dev, mirrors.edi, mirrors.bytes⟩
  obtain ⟨loaded, ecx⟩ := loadSector_mirrors start rfl fits
  refine ⟨{ (m.pushEcx.movDx 0x1f7).inStatus.loadSector with
      ecx := (m.pushEcx.movDx 0x1f7).inStatus.loadSector.ecx - 1 },
    loaded.setEcx _, congrArg (· - 1) ecx, ?_⟩
  simp only [nextSector]
  rw [if_neg low]

theorem nextSector_mirrors (remaining turns : Nat) {base : Word} {dev : Ata}
    {ptr : Nat} {buff : Nat → Byte} {m : Loader} (mirrors : Mirrors base dev ptr buff m)
    (left : m.ecx.toNat = remaining + 1) (enough : remaining < turns)
    (fits : ptr + sectorSize * (remaining + 1) ≤ 2 ^ 32) :
    Option.Rel (fun final out =>
        Mirrors base out.1 (ptr + sectorSize * (remaining + 1)) out.2 final)
      (nextSector turns m) (Driver.readSectors (remaining + 1) dev ptr buff) := by
  induction remaining generalizing turns dev ptr buff m with
  | zero =>
      obtain ⟨turns, rfl⟩ := Nat.exists_eq_succ_of_ne_zero enough.ne'
      rw [Driver.readSectors]
      by_cases idle : dev.status &&& 0x08 = 0
      · rw [if_pos idle, nextSector_waits turns (mirrors.dev ▸ idle)]
        exact .none
      · obtain ⟨after, filled, ecx, turned⟩ := nextSector_turn turns mirrors idle fits
        have last : after.ecx = 0 := by
          have one : m.ecx = 1 := BitVec.eq_of_toNat_eq left
          rw [ecx, one]
          rfl
        rw [if_neg idle, turned, if_neg (not_not_intro last)]
        generalize Driver.readWords 256 dev ptr buff = sector at filled
        rw [Driver.readSectors]
        exact .some filled
  | succ remaining ih =>
      obtain ⟨turns, rfl⟩ := Nat.exists_eq_succ_of_ne_zero (Nat.ne_zero_of_lt enough)
      rw [Driver.readSectors]
      by_cases idle : dev.status &&& 0x08 = 0
      · rw [if_pos idle, nextSector_waits turns (mirrors.dev ▸ idle)]
        exact .none
      · have next : ptr + sectorSize * (remaining + 1 + 1) =
            ptr + sectorSize + sectorSize * (remaining + 1) := by
          rw [Nat.mul_add_one sectorSize (remaining + 1)]
          omega
        rw [next] at fits ⊢
        obtain ⟨after, filled, ecx, turned⟩ :=
          nextSector_turn turns mirrors idle (by omega)
        have fewer : after.ecx.toNat = remaining + 1 := by
          rw [ecx, BitVec.toNat_sub, left]
          have small := m.ecx.isLt
          have one : (1 : Word).toNat = 1 := rfl
          omega
        have more : after.ecx ≠ 0 := fun zero => by
          rw [zero] at fewer
          exact absurd fewer (Nat.succ_ne_zero remaining).symm
        rw [if_neg idle, turned, if_pos more]
        simp only
        rw [readWords_ptr, show 2 * 256 = sectorSize from rfl]
        exact ih turns filled fewer (Nat.succ_lt_succ_iff.mp enough) fits

end Loader

/-- The loader sends what `disk_read_secotr` sends for the LBA in `eax` and the count in
`ecx`, and both wait for ever or leave the same bytes at their destination, `edi` and
`buff`. -/
structure ReadersAgree (m : Loader) (buff : Nat → Byte) : Prop where
  ports : m.programDrive.sent = m.sent ++ driverSends m.eax m.ecx.toNat
  bytes : (m.ataLbaRead.map fun final =>
      (List.range (sectorSize * m.ecx.toNat)).map fun k =>
        final.memory (m.edi + BitVec.ofNat 32 k)) =
    (Driver.diskReadSecotr m.dev m.eax m.ecx.toNat buff).map fun result =>
      (List.range (sectorSize * m.ecx.toNat)).map result.2.2

theorem sends_eq_iff (m : Loader) :
    m.sends = driverSends m.eax m.ecx.toNat ↔
      (m.edx >>> 16).setWidth 8 = (m.eax >>> 16).setWidth 8 := by
  have drive : (m.eax >>> 24 ||| 0xE0).setWidth 8 =
      ((m.eax >>> 24).setWidth 8 ||| 0xE0 : Byte) := BitVec.setWidth_or
  have total : m.ecx.setWidth 8 = BitVec.ofInt 8 m.ecx.toNat := by
    rw [BitVec.ofInt_natCast]
    rfl
  unfold Loader.sends driverSends
  rw [drive, total]
  simp only [List.cons.injEq, Prod.mk.injEq, true_and, and_true]

theorem map_eq_of_rel {α β γ : Type} {r : α → β → Prop} {x : Option α} {y : Option β}
    {f : α → γ} {g : β → γ} (related : Option.Rel r x y)
    (same : ∀ a b, r a b → f a = g b) : x.map f = y.map g := by
  cases related with
  | some holds => exact congrArg Option.some (same _ _ holds)
  | none => rfl

section Agreement

variable {m : Loader} (positive : 0 < m.ecx.toNat) (short : m.ecx.toNat < 256)

include positive short

theorem ataLbaRead_bytes
    (upper : (m.edx >>> 16).setWidth 8 = (m.eax >>> 16).setWidth 8) (buff : Nat → Byte) :
    (m.ataLbaRead.map fun final =>
        (List.range (sectorSize * m.ecx.toNat)).map fun k =>
          final.memory (m.edi + BitVec.ofNat 32 k)) =
      (Driver.diskReadSecotr m.dev m.eax m.ecx.toNat buff).map fun result =>
        (List.range (sectorSize * m.ecx.toNat)).map result.2.2 := by
  have sends := Loader.programDrive_sends m
  rw [(sends_eq_iff m).mpr upper] at sends
  have start : Loader.Mirrors m.edi
      ((Driver.selectSectors m.dev m.eax m.ecx.toNat).outb 0x1f7 0x20) 0 buff
      m.programDrive := by
    refine ⟨sends.dev.trans (sendAll_driverSends m.dev m.eax m.ecx.toNat), ?_,
      fun k k_lt => absurd k_lt (Nat.not_lt_zero k)⟩
    rw [sends.edi, BitVec.add_zero]
  obtain ⟨remaining, count⟩ := Nat.exists_eq_add_of_lt positive
  rw [Nat.zero_add] at count
  have left : m.programDrive.ecx.toNat = remaining + 1 := by
    rw [sends.ecx]
    exact count
  have fits : 0 + sectorSize * (remaining + 1) ≤ 2 ^ 32 := by
    unfold sectorSize
    omega
  have same := Loader.nextSector_mirrors remaining (2 ^ 32) start left (by omega) fits
  rw [← count] at same
  unfold Loader.ataLbaRead Driver.diskReadSecotr
  rw [if_neg (not_not_intro (Driver.status_idle m.dev)), Int.toNat_natCast, Option.map_map]
  refine map_eq_of_rel same fun final result mirrors => ?_
  refine List.map_congr_left fun k inside => ?_
  rw [List.mem_range] at inside
  exact mirrors.bytes k (by omega)

theorem readers_agree_iff (buff : Nat → Byte) :
    ReadersAgree m buff ↔ (m.edx >>> 16).setWidth 8 = (m.eax >>> 16).setWidth 8 := by
  have sends := (Loader.programDrive_sends m).sent
  refine ⟨fun agree => ?_, fun upper => ⟨?_, ataLbaRead_bytes positive short upper buff⟩⟩
  · rw [← sends_eq_iff]
    exact List.append_cancel_left (sends.symm.trans agree.ports)
  · rw [← (sends_eq_iff m).mpr upper]
    exact sends

theorem ataLbaRead_loads
    (upper : (m.edx >>> 16).setWidth 8 = (m.eax >>> 16).setWidth 8)
    (inside : m.eax.toNat + m.ecx.toNat ≤ m.dev.capacity) :
    ∃ final, m.ataLbaRead = some final ∧ ∀ k < sectorSize * m.ecx.toNat,
      final.memory (m.edi + BitVec.ofNat 32 k) =
        m.dev.image (m.eax.toNat + k / sectorSize) (k % sectorSize) := by
  obtain ⟨_, out, returned, bytes⟩ :=
    Driver.diskReadBlock_spec positive short inside 0 fun _ => 0
  rw [Driver.diskReadBlock, Driver.diskGet, if_neg (by decide)] at returned
  have same := ataLbaRead_bytes positive short upper fun _ => 0
  rw [returned] at same
  obtain ⟨final, read, equal⟩ := Option.map_eq_some_iff.mp same
  refine ⟨final, read, fun k bound => ?_⟩
  rw [← bytes k bound]
  exact List.map_inj_left.mp equal k (List.mem_range.mpr bound)

end Agreement

/-- The loader as `load32` calls `ata_lba_read`, after `load_protected` has cleared
`edx`. -/
def bootCall (memory : Word → Byte) (dev : Ata) : Loader where
  eax := 1
  ebx := 0
  ecx := 200
  edx := 0
  edi := 0x100000
  stack := []
  memory := memory
  dev := dev
  sent := []

theorem readers_agree_iff_boot_call :
    ReadersAgree (bootCall (fun _ => 0) Driver.blankAta) fun _ => 0 :=
  (readers_agree_iff (by decide) (by decide) _).mpr (by decide)

/-- The same call for the sector `0x10000`: `0x1F5` is sent 0 where the driver sends
1. -/
theorem sector_65536_misread :
    ¬ ReadersAgree { bootCall (fun _ => 0) Driver.blankAta with eax := 0x10000 }
      fun _ => 0 := by
  intro agree
  have sent := agree.ports
  revert sent
  decide

end LazyOS.Boot

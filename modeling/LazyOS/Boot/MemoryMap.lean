import LazyOS.Memory.Pmm

namespace LazyOS.Boot

open LazyOS.Data LazyOS.Memory

/-! `do_e820` of `boot.asm`, which asks the firmware for the memory map and leaves it at
`0x600` for `get_e820_mmap`. -/

abbrev Record := Fin 24 → Byte

/-- An answer of the firmware: the registers and the carry flag that `int 0x15` returns,
and what the 24 bytes at `es:di` hold then. -/
structure Response where
  carry : Bool
  eax : Word
  ebx : Word
  ecx : Word
  edx : Word
  record : Record

structure E820State where
  eax : Word
  ebx : Word
  ecx : Word
  edx : Word
  di : Half
  bp : Half
  carry : Bool
  memory : Half → Byte

/-- `"SMAP"`. -/
def smap : Word := 0x534D4150

def storeRecord (memory : Half → Byte) (di : Half) (record : Record) : Half → Byte :=
  fun address =>
    if inside : (address - di).toNat < 24 then record ⟨(address - di).toNat, inside⟩
    else memory address

/-- `[es:address]` as a double word. -/
def loadWord (memory : Half → Byte) (address : Half) : Word :=
  BitVec.ofNat 32 (leValue 4 fun k => memory (address + BitVec.ofNat 16 k))

def storeHalf (memory : Half → Byte) (address value : Half) : Half → Byte := fun other =>
  if other = address then leByte value.toNat 0
  else if other = address + 1 then leByte value.toNat 1
  else memory other

/-- The end of the buffer: the return address of `do_e820` and what `int` pushes are in
the eight bytes below the stack pointer `0x7C00`. -/
def bufferEnd : Nat := 0x7C00 - 8

namespace E820State

/-- `int 0x15` with `eax` `0xE820`, `ecx` 24 and the valid bit set beforehand, which the
24 bytes of the answer include.  `none` when the answer would go over the stack. -/
def int15 (answer : Response) (m : E820State) : Option E820State :=
  if bufferEnd < m.di.toNat + 24 then none
  else
    some
      { m with
        eax := answer.eax
        ebx := answer.ebx
        ecx := answer.ecx
        edx := answer.edx
        carry := answer.carry
        memory := storeRecord m.memory m.di answer.record }

/-- `.notext`. -/
def notext (m : E820State) : E820State :=
  let m := { m with ecx := loadWord m.memory (m.di + 8) }
  let m := { m with ecx := m.ecx ||| loadWord m.memory (m.di + 12) }
  if m.ecx = 0 then m else { m with bp := m.bp + 1, di := m.di + 24 }

/-- `.jmpin`, up to `.skipent`: `jcxz` looks at 16 bits of the size and `cmp cl, 20` at
8. -/
def jmpin (m : E820State) : E820State :=
  if m.ecx.setWidth 16 = (0 : Half) then m
  else if (m.ecx.setWidth 8 : Byte) ≤ 20 then m.notext
  else if m.memory (m.di + 20) &&& 1 = 0 then m
  else m.notext

/-- `.e820f`. -/
def e820f (m : E820State) : E820State :=
  { m with memory := storeHalf m.memory 0x600 m.bp, carry := false }

/-- `mov edx, "SMAP"`. -/
def restoreEdx (m : E820State) : E820State := { m with edx := smap }

def failed (m : E820State) : E820State := { m with carry := true }

/-- `.e820lp`, with the answers that are still to come; those not asked for are
returned.  `none` when there are too few of them. -/
def e820lp : List Response → E820State → Option (E820State × List Response)
  | [], _ => none
  | answer :: rest, m =>
      match m.int15 answer with
      | none => none
      | some m =>
          if m.carry then some (m.e820f, rest)
          else
            let m := m.restoreEdx.jmpin
            if m.ebx ≠ 0 then e820lp rest m else some (m.e820f, rest)

def firstCall (memory : Half → Byte) : E820State where
  eax := 0xE820
  ebx := 0
  ecx := 24
  edx := smap
  di := 0x604
  bp := 0
  carry := false
  memory := memory

def firstAnswer (rest : List Response) (m : E820State) :
    Option (E820State × List Response) :=
  if m.carry then some (m.failed, rest)
  else
    let m := m.restoreEdx
    if m.eax ≠ m.edx then some (m.failed, rest)
    else if m.ebx = 0 then some (m.failed, rest)
    else
      let m := m.jmpin
      if m.ebx ≠ 0 then e820lp rest m else some (m.e820f, rest)

/-- `do_e820`.  A first answer that fails leaves `0x600` as it was, and `step2` does not
look at the carry flag. -/
def doE820 (memory : Half → Byte) : List Response → Option (E820State × List Response)
  | [] => none
  | answer :: rest => ((firstCall memory).int15 answer).bind (firstAnswer rest)

end E820State

def entryByte (i k : Nat) : Half := BitVec.ofNat 16 (0x604 + 24 * i + k)

def recordAt (memory : Half → Byte) (i : Nat) : Record := fun k => memory (entryByte i k)

def stored (memory : Half → Byte) (count : Nat) : List Record :=
  (List.range count).map (recordAt memory)

def countAt (memory : Half → Byte) : Half :=
  BitVec.ofNat 16 (leValue 2 fun k => memory (0x600 + BitVec.ofNat 16 k))

def Record.byte (record : Record) (k : Nat) : Byte :=
  if inside : k < 24 then record ⟨k, inside⟩ else 0

def Record.entry (record : Record) : E820Entry where
  base := BitVec.ofNat 64 (leValue 8 fun k => record.byte k)
  length := BitVec.ofNat 64 (leValue 8 fun k => record.byte (8 + k))
  type := BitVec.ofNat 32 (leValue 4 fun k => record.byte (16 + k))
  extended := BitVec.ofNat 32 (leValue 4 fun k => record.byte (20 + k))

def mapAt (memory : Half → Byte) : E820Map where
  cnt := countAt memory
  entries i := (recordAt memory i).entry

def Record.valid (record : Record) : Bool := record.byte 20 &&& 1 ≠ 0

/-- A record to be kept: not empty, and with the valid bit if it is longer than 20
bytes. -/
def Response.proper (answer : Response) : Bool :=
  !answer.carry && answer.ecx ≠ 0 && answer.record.entry.length ≠ 0 &&
    (answer.ecx ≤ 20 || answer.record.valid)

def kept (answers : List Response) : List Record :=
  (answers.filter Response.proper).map Response.record

structure Lists (memory : Half → Byte) (records : List Record) : Prop where
  count : (countAt memory).toNat = records.length
  entries : stored memory records.length = records

def MapConsistent (answers : List Response) : Prop :=
  ∀ memory final, E820State.doE820 memory answers = some (final, []) →
    Lists final.memory (kept answers)

theorem storeRecord_inside (memory : Half → Byte) (di : Half) (record : Record)
    (k : Fin 24) : storeRecord memory di record (di + BitVec.ofNat 16 k) = record k := by
  have small := k.isLt
  have offset : (di + BitVec.ofNat 16 k - di).toNat = k := by
    rw [BitVec.add_comm, BitVec.add_sub_cancel, BitVec.toNat_ofNat]
    omega
  have inside : (di + BitVec.ofNat 16 k - di).toNat < 24 := by
    rw [offset]
    exact small
  unfold storeRecord
  rw [dif_pos inside]
  exact congrArg record (Fin.ext offset)

theorem storeRecord_before (memory : Half → Byte) {di address : Half} (record : Record)
    (before : address.toNat < di.toNat) (low : di.toNat ≤ bufferEnd) :
    storeRecord memory di record address = memory address := by
  unfold storeRecord bufferEnd at *
  rw [dif_neg]
  rw [BitVec.toNat_sub]
  omega

theorem entryByte_toNat {i k : Nat} (fits : 0x604 + 24 * i + k ≤ bufferEnd) :
    (entryByte i k).toNat = 0x604 + 24 * i + k := by
  unfold entryByte bufferEnd at *
  rw [BitVec.toNat_ofNat]
  omega

theorem entryByte_eq (i k : Nat) :
    entryByte i k = BitVec.ofNat 16 (0x604 + 24 * i) + BitVec.ofNat 16 k := by
  unfold entryByte
  rw [BitVec.ofNat_add]

theorem stored_succ (memory : Half → Byte) (count : Nat) :
    stored memory (count + 1) = stored memory count ++ [recordAt memory count] := by
  unfold stored
  rw [List.range_succ, List.map_append]
  rfl

theorem stored_congr {memory memory' : Half → Byte} {count : Nat}
    (agree : ∀ i < count, ∀ k < 24, memory' (entryByte i k) = memory (entryByte i k)) :
    stored memory' count = stored memory count := by
  refine List.map_congr_left fun i member => funext fun k => ?_
  exact agree i (List.mem_range.mp member) k k.isLt

/-- `bp` records have been kept, and `di` is behind them. -/
structure Collected (records : List Record) (m : E820State) : Prop where
  bp : m.bp = BitVec.ofNat 16 records.length
  di : m.di = BitVec.ofNat 16 (0x604 + 24 * records.length)
  entries : stored m.memory records.length = records

def Room (count : Nat) : Prop := 0x604 + 24 * count + 24 ≤ bufferEnd

instance (count : Nat) : Decidable (Room count) := Nat.decLe _ _

namespace Collected

variable {records : List Record} {m : E820State}

theorem di_toNat (collected : Collected records m) (room : Room records.length) :
    m.di.toNat = 0x604 + 24 * records.length := by
  unfold Room bufferEnd at room
  rw [collected.di, BitVec.toNat_ofNat]
  omega

theorem int15 (collected : Collected records m) (room : Room records.length)
    (answer : Response) :
    ∃ after, m.int15 answer = some after ∧ Collected records after ∧
      after.carry = answer.carry ∧ after.eax = answer.eax ∧ after.ebx = answer.ebx ∧
      after.ecx = answer.ecx ∧ recordAt after.memory records.length = answer.record := by
  have start := collected.di_toNat room
  refine ⟨_, if_neg (by unfold Room at room; omega), ⟨collected.bp, collected.di, ?_⟩, rfl,
    rfl, rfl, rfl, funext fun k => ?_⟩
  · refine (stored_congr fun i i_lt k k_lt => ?_).trans collected.entries
    unfold Room at room
    refine storeRecord_before _ _ ?_ (by omega)
    rw [entryByte_toNat (by omega)]
    omega
  · unfold recordAt
    rw [entryByte_eq, ← collected.di]
    exact storeRecord_inside _ _ _ k

theorem int15_full (collected : Collected records m)
    (fits : 0x604 + 24 * records.length ≤ bufferEnd) (full : ¬ Room records.length)
    (answer : Response) : m.int15 answer = none := by
  refine if_pos ?_
  unfold Room bufferEnd at *
  rw [collected.di, BitVec.toNat_ofNat]
  omega

end Collected

def takes (ecx : Word) (record : Record) : Bool :=
  ecx.setWidth 16 ≠ (0 : Half) && ((ecx.setWidth 8 : Byte) ≤ 20 || record.valid) &&
    record.entry.length ≠ 0

def Response.taken (answer : Response) : Bool :=
  !answer.carry && takes answer.ecx answer.record

theorem Record.byte_of_lt (record : Record) {k : Nat} (inside : k < 24) :
    record.byte k = record ⟨k, inside⟩ :=
  dif_pos inside

theorem memory_slot {memory : Half → Byte} {i : Nat} {record : Record}
    (slot : recordAt memory i = record) {k : Nat} (inside : k < 24) :
    memory (BitVec.ofNat 16 (0x604 + 24 * i) + BitVec.ofNat 16 k) = record.byte k := by
  rw [record.byte_of_lt inside, ← slot, recordAt, entryByte_eq]

theorem loadWord_slot {memory : Half → Byte} {i : Nat} {record : Record}
    (slot : recordAt memory i = record) {offset : Nat} (inside : offset + 4 ≤ 24) :
    loadWord memory (BitVec.ofNat 16 (0x604 + 24 * i) + BitVec.ofNat 16 offset) =
      BitVec.ofNat 32 (leValue 4 fun k => record.byte (offset + k)) := by
  unfold loadWord
  refine congrArg _ (leValue_congr fun k k_lt => ?_)
  rw [BitVec.add_assoc, ← BitVec.ofNat_add]
  exact memory_slot slot (by omega)

theorem length_eq_zero_iff (record : Record) :
    (BitVec.ofNat 32 (leValue 4 fun k => record.byte (8 + k)) |||
        BitVec.ofNat 32 (leValue 4 fun k => record.byte (12 + k)) : Word) = 0 ↔
      record.entry.length = 0 := by
  have whole := ofNat_leValue_eq_zero_iff 64 8 (by decide) fun k => record.byte (8 + k)
  have low := ofNat_leValue_eq_zero_iff 32 4 (by decide) fun k => record.byte (8 + k)
  have high := ofNat_leValue_eq_zero_iff 32 4 (by decide) fun k => record.byte (12 + k)
  refine BitVec.or_eq_zero_iff.trans ((and_congr low high).trans (Iff.trans ?_ whole.symm))
  refine ⟨fun zero k k_lt => ?_, fun zero => ⟨fun k k_lt => ?_, fun k k_lt => ?_⟩⟩
  · by_cases near : k < 4
    · exact zero.1 k near
    · have far := zero.2 (k - 4) (by omega)
      rwa [show 12 + (k - 4) = 8 + k by omega] at far
  · exact zero k (by omega)
  · have far := zero (4 + k) (by omega)
    rwa [← Nat.add_assoc] at far

namespace Collected

variable {records : List Record} {m : E820State}

theorem append (collected : Collected records m) {record : Record}
    (slot : recordAt m.memory records.length = record) {after : E820State}
    (bp : after.bp = m.bp + 1) (di : after.di = m.di + 24)
    (memory : after.memory = m.memory) : Collected (records ++ [record]) after where
  bp := by
    rw [bp, collected.bp, List.length_append, BitVec.ofNat_add]
    rfl
  di := by
    rw [di, collected.di, List.length_append, Nat.mul_add, ← Nat.add_assoc]
    exact (BitVec.ofNat_add _ 24).symm
  entries := by
    rw [memory, List.length_append, List.length_singleton, stored_succ, collected.entries,
      slot]

theorem notext (collected : Collected records m) {record : Record}
    (slot : recordAt m.memory records.length = record) :
    Collected (records ++ if record.entry.length ≠ 0 then [record] else []) m.notext ∧
      m.notext.ebx = m.ebx := by
  have low : loadWord m.memory (m.di + 8) =
      BitVec.ofNat 32 (leValue 4 fun k => record.byte (8 + k)) := by
    rw [collected.di]
    exact loadWord_slot slot (by decide)
  have high : loadWord m.memory (m.di + 12) =
      BitVec.ofNat 32 (leValue 4 fun k => record.byte (12 + k)) := by
    rw [collected.di]
    exact loadWord_slot slot (by decide)
  unfold E820State.notext
  simp only
  rw [low, high]
  by_cases empty : record.entry.length = 0
  · rw [if_pos ((length_eq_zero_iff record).mpr empty), if_neg (not_not_intro empty),
      List.append_nil]
    exact ⟨⟨collected.bp, collected.di, collected.entries⟩, rfl⟩
  · rw [if_neg (mt (length_eq_zero_iff record).mp empty), if_pos empty]
    exact ⟨collected.append slot rfl rfl rfl, rfl⟩

theorem jmpin (collected : Collected records m) {record : Record}
    (slot : recordAt m.memory records.length = record) :
    Collected (records ++ if takes m.ecx record then [record] else []) m.jmpin ∧
      m.jmpin.ebx = m.ebx := by
  have flag : m.memory (m.di + 20) = record.byte 20 := by
    rw [collected.di]
    exact memory_slot slot (by decide)
  have text := collected.notext slot
  have skips (no : takes m.ecx record = false) :
      Collected (records ++ if takes m.ecx record then [record] else []) m := by
    rw [no, if_neg Bool.false_ne_true, List.append_nil]
    exact collected
  have keeps (yes : takes m.ecx record = decide (record.entry.length ≠ 0)) :
      Collected (records ++ if takes m.ecx record then [record] else []) m.notext := by
    simp only [yes, decide_eq_true_eq]
    exact text.1
  unfold E820State.jmpin
  rw [flag]
  by_cases nothing : m.ecx.setWidth 16 = (0 : Half)
  · have no : takes m.ecx record = false := by
      unfold takes
      rw [decide_eq_false (not_not_intro nothing), Bool.false_and, Bool.false_and]
    rw [if_pos nothing]
    exact ⟨skips no, rfl⟩
  · rw [if_neg nothing]
    by_cases short : (m.ecx.setWidth 8 : Byte) ≤ 20
    · have yes : takes m.ecx record = decide (record.entry.length ≠ 0) := by
        unfold takes
        rw [decide_eq_true nothing, decide_eq_true short, Bool.true_and, Bool.true_or,
          Bool.true_and]
      rw [if_pos short]
      exact ⟨keeps yes, text.2⟩
    · have by_flag : takes m.ecx record =
          (record.valid && decide (record.entry.length ≠ 0)) := by
        unfold takes
        rw [decide_eq_true nothing, decide_eq_false short, Bool.true_and, Bool.false_or]
      rw [if_neg short]
      by_cases clear : record.byte 20 &&& 1 = 0
      · rw [if_pos clear]
        rw [Record.valid, decide_eq_false (not_not_intro clear), Bool.false_and] at by_flag
        exact ⟨skips by_flag, rfl⟩
      · rw [if_neg clear]
        rw [Record.valid, decide_eq_true clear, Bool.true_and] at by_flag
        exact ⟨keeps by_flag, text.2⟩

end Collected

def taken (answers : List Response) : List Record :=
  (answers.filter Response.taken).map Response.record

def Response.Ends (answer : Response) : Prop := answer.carry = true ∨ answer.ebx = 0

instance (answer : Response) : Decidable answer.Ends := instDecidableOr

def LoopAnswered (count : Nat) : List Response → Prop
  | [] => False
  | answer :: rest =>
      Room count ∧ if answer.Ends then rest = []
        else LoopAnswered (if answer.taken then count + 1 else count) rest

theorem taken_cons (answer : Response) (rest : List Response) :
    taken (answer :: rest) =
      (if answer.taken then [answer.record] else []) ++ taken rest := by
  unfold taken
  rw [List.filter_cons]
  split <;> rfl

theorem taken_of_carry {answer : Response} (carry : answer.carry = true) :
    answer.taken = false := by
  unfold Response.taken
  rw [carry]
  rfl

theorem taken_of_no_carry {answer : Response} (carry : answer.carry = false) :
    answer.taken = takes answer.ecx answer.record := by
  unfold Response.taken
  rw [carry]
  rfl

theorem Collected.lists {records : List Record} {m : E820State}
    (collected : Collected records m) (fits : 0x604 + 24 * records.length ≤ bufferEnd) :
    Lists m.e820f.memory records where
  count := by
    have halves : countAt m.e820f.memory =
        BitVec.ofNat 16 (leValue 2 (leByte m.bp.toNat)) := by
      refine congrArg _ (leValue_congr fun k k_lt => ?_)
      interval_cases k <;> rfl
    unfold bufferEnd at fits
    rw [halves, leValue_half, BitVec.ofNat_toNat, BitVec.setWidth_eq, collected.bp,
      BitVec.toNat_ofNat]
    omega
  entries := by
    refine (stored_congr fun i i_lt k k_lt => ?_).trans collected.entries
    have address := entryByte_toNat (by omega : 0x604 + 24 * i + k ≤ bufferEnd)
    have low : entryByte i k ≠ 0x600 := fun same => by
      rw [same] at address
      exact absurd address (by simp; omega)
    have high : entryByte i k ≠ 0x601 := fun same => by
      rw [same] at address
      exact absurd address (by simp; omega)
    exact (if_neg low).trans (if_neg high)

theorem Collected.answer {records : List Record} {m : E820State}
    (collected : Collected records m) (room : Room records.length) {answer : Response}
    (carry : answer.carry = false) :
    ∃ after, m.int15 answer = some after ∧ after.carry = false ∧ after.eax = answer.eax ∧
      after.ebx = answer.ebx ∧
      Collected (records ++ if answer.taken then [answer.record] else [])
        after.restoreEdx.jmpin ∧
      after.restoreEdx.jmpin.ebx = answer.ebx := by
  obtain ⟨after, called, gathered, clear, eax, ebx, ecx, slot⟩ := collected.int15 room answer
  have restored : Collected records after.restoreEdx :=
    ⟨gathered.bp, gathered.di, gathered.entries⟩
  obtain ⟨kept, same⟩ := restored.jmpin slot
  rw [taken_of_no_carry carry, ← ecx]
  exact ⟨after, called, clear.trans carry, eax, ebx, kept, same.trans ebx⟩

theorem length_append_taken (records : List Record) (answer : Response) :
    (records ++ if answer.taken then [answer.record] else []).length =
      if answer.taken then records.length + 1 else records.length := by
  rw [List.length_append]
  split <;> rfl

theorem Room.next {records : List Record} (room : Room records.length)
    (answer : Response) :
    0x604 + 24 * (records ++ if answer.taken then [answer.record] else []).length ≤
      bufferEnd := by
  unfold Room at room
  rw [length_append_taken]
  split <;> omega

section Turn

variable {records : List Record} {m : E820State} (collected : Collected records m)
variable (room : Room records.length) {answer : Response} (rest : List Response)

include collected room

theorem e820lp_ends (ends : answer.Ends) :
    ∃ final, E820State.e820lp (answer :: rest) m = some (final, rest) ∧
      Lists final.memory (records ++ if answer.taken then [answer.record] else []) := by
  rw [E820State.e820lp]
  by_cases failed : answer.carry = true
  · obtain ⟨after, called, gathered, carry, -⟩ := collected.int15 room answer
    rw [called, taken_of_carry failed]
    simp only
    rw [if_pos (carry.trans failed), if_neg Bool.false_ne_true, List.append_nil]
    exact ⟨_, rfl, gathered.lists (Nat.le_of_add_right_le room)⟩
  · have last := ends.resolve_left failed
    rw [Bool.not_eq_true] at failed
    obtain ⟨after, called, clear, -, -, gathered, ebx⟩ := collected.answer room failed
    rw [called]
    simp only
    rw [if_neg (Bool.eq_false_iff.mp clear), ebx, if_neg (not_not_intro last)]
    exact ⟨_, rfl, gathered.lists (room.next answer)⟩

theorem e820lp_more (more : ¬ answer.Ends) :
    ∃ after, Collected (records ++ if answer.taken then [answer.record] else []) after ∧
      E820State.e820lp (answer :: rest) m = E820State.e820lp rest after := by
  rw [Response.Ends, not_or, Bool.not_eq_true] at more
  obtain ⟨after, called, clear, -, -, gathered, ebx⟩ := collected.answer room more.1
  refine ⟨_, gathered, ?_⟩
  rw [E820State.e820lp, called]
  simp only
  rw [if_neg (Bool.eq_false_iff.mp clear), ebx, if_pos more.2]

end Turn

theorem e820lp_spec {answers : List Response} {records : List Record} {m : E820State}
    (collected : Collected records m) (answered : LoopAnswered records.length answers) :
    ∃ final, E820State.e820lp answers m = some (final, []) ∧
      Lists final.memory (records ++ taken answers) := by
  induction answers generalizing records m with
  | nil => exact answered.elim
  | cons answer rest ih =>
      obtain ⟨room, shape⟩ := answered
      rw [taken_cons, ← List.append_assoc]
      by_cases ends : answer.Ends
      · rw [if_pos ends] at shape
        subst shape
        rw [taken, List.filter_nil, List.map_nil, List.append_nil]
        exact e820lp_ends collected room [] ends
      · obtain ⟨after, gathered, goes⟩ := e820lp_more collected room rest ends
        rw [if_neg ends, ← length_append_taken] at shape
        rw [goes]
        exact ih gathered shape

theorem e820lp_answered {answers : List Response} {records : List Record}
    {m final : E820State} (collected : Collected records m)
    (fits : 0x604 + 24 * records.length ≤ bufferEnd)
    (returned : E820State.e820lp answers m = some (final, [])) :
    LoopAnswered records.length answers := by
  induction answers generalizing records m with
  | nil => exact absurd returned (by simp [E820State.e820lp])
  | cons answer rest ih =>
      by_cases room : Room records.length
      · refine ⟨room, ?_⟩
        by_cases ends : answer.Ends
        · obtain ⟨last, ended, -⟩ := e820lp_ends collected room rest ends
          rw [if_pos ends]
          exact (Prod.ext_iff.mp (Option.some.inj (ended.symm.trans returned))).2
        · obtain ⟨after, gathered, goes⟩ := e820lp_more collected room rest ends
          rw [if_neg ends, ← length_append_taken]
          exact ih gathered (room.next answer) (goes.symm.trans returned)
      · rw [E820State.e820lp, collected.int15_full fits room answer] at returned
        exact absurd returned (by simp)

def Response.Refused (answer : Response) : Prop :=
  answer.carry = true ∨ answer.eax ≠ smap ∨ answer.ebx = 0

instance (answer : Response) : Decidable answer.Refused := instDecidableOr

def Answered : List Response → Prop
  | [] => False
  | answer :: rest =>
      if answer.Refused then rest = []
      else LoopAnswered (if answer.taken then 1 else 0) rest

theorem firstCall_collected (memory : Half → Byte) :
    Collected [] (E820State.firstCall memory) :=
  ⟨rfl, rfl, rfl⟩

theorem room_first : Room ([] : List Record).length := by
  unfold Room bufferEnd
  rw [List.length_nil]
  omega

theorem firstCall_int15 (memory : Half → Byte) (answer : Response) :
    ∃ after, (E820State.firstCall memory).int15 answer = some after ∧
      after.carry = answer.carry ∧ after.eax = answer.eax ∧ after.ebx = answer.ebx ∧
      after.memory = storeRecord memory 0x604 answer.record := by
  have room : ¬ bufferEnd < (0x604 : Half).toNat + 24 := by decide
  exact ⟨_, if_neg room, rfl, rfl, rfl, rfl⟩

theorem doE820_refused (memory : Half → Byte) {answer : Response}
    (refused : answer.Refused) (rest : List Response) :
    ∃ final, E820State.doE820 memory (answer :: rest) = some (final, rest) ∧
      final.memory = storeRecord memory 0x604 answer.record := by
  obtain ⟨after, called, carry, eax, ebx, bytes⟩ := firstCall_int15 memory answer
  rw [E820State.doE820, called, Option.bind_some, E820State.firstAnswer, carry]
  by_cases failed : answer.carry = true
  · exact ⟨after.failed, if_pos failed, bytes⟩
  · rw [if_neg failed]
    by_cases signature : answer.eax = smap
    · have only : after.restoreEdx.ebx = 0 :=
        ebx.trans ((refused.resolve_left failed).resolve_left (not_not_intro signature))
      have same : ¬ after.restoreEdx.eax ≠ after.restoreEdx.edx :=
        not_not_intro (eax.trans signature)
      exact ⟨after.restoreEdx.failed, (if_neg same).trans (if_pos only), bytes⟩
    · have other : after.restoreEdx.eax ≠ after.restoreEdx.edx :=
        fun same => signature (eax.symm.trans same)
      exact ⟨after.restoreEdx.failed, if_pos other, bytes⟩

theorem doE820_accepted (memory : Half → Byte) {answer : Response}
    (accepted : ¬ answer.Refused) (rest : List Response) :
    ∃ m, E820State.doE820 memory (answer :: rest) = E820State.e820lp rest m ∧
      Collected ([] ++ if answer.taken then [answer.record] else []) m := by
  rw [Response.Refused, not_or, not_or, Bool.not_eq_true, not_ne_iff] at accepted
  obtain ⟨failed, signature, more⟩ := accepted
  obtain ⟨after, called, clear, eax, ebx, gathered, next⟩ :=
    (firstCall_collected memory).answer room_first failed
  have same : ¬ after.restoreEdx.eax ≠ after.restoreEdx.edx :=
    not_not_intro (eax.trans signature)
  have named : after.restoreEdx.ebx ≠ 0 := fun zero => more (ebx.symm.trans zero)
  refine ⟨after.restoreEdx.jmpin, ?_, gathered⟩
  rw [E820State.doE820, called, Option.bind_some, E820State.firstAnswer]
  simp only
  rw [if_neg (Bool.eq_false_iff.mp clear), if_neg same, if_neg named, next, if_pos more]

theorem doE820_spec (memory : Half → Byte) {answer : Response}
    (accepted : ¬ answer.Refused) {rest : List Response}
    (answered : Answered (answer :: rest)) :
    ∃ final, E820State.doE820 memory (answer :: rest) = some (final, []) ∧
      Lists final.memory (taken (answer :: rest)) := by
  rw [Answered, if_neg accepted] at answered
  obtain ⟨m, entered, gathered⟩ := doE820_accepted memory accepted rest
  rw [entered, taken_cons]
  refine e820lp_spec gathered ?_
  rw [← List.nil_append (if answer.taken then [answer.record] else []),
    length_append_taken]
  exact answered

theorem doE820_answered {memory : Half → Byte} {answers : List Response}
    {final : E820State} (returned : E820State.doE820 memory answers = some (final, [])) :
    Answered answers := by
  cases answers with
  | nil => exact absurd returned (by simp [E820State.doE820])
  | cons answer rest =>
      rw [Answered]
      by_cases refused : answer.Refused
      · obtain ⟨m, entered, -⟩ := doE820_refused memory refused rest
        rw [if_pos refused]
        rw [entered] at returned
        exact (Prod.ext_iff.mp (Option.some.inj returned)).2
      · obtain ⟨m, entered, gathered⟩ := doE820_accepted memory refused rest
        rw [if_neg refused]
        rw [entered] at returned
        have looped := e820lp_answered gathered
          (room_first.next answer) returned
        rw [length_append_taken] at looped
        exact looped

theorem countAt_storeRecord (memory : Half → Byte) (record : Record) :
    countAt (storeRecord memory 0x604 record) = countAt memory := by
  unfold countAt
  refine congrArg _ (leValue_congr fun k k_lt => ?_)
  refine storeRecord_before memory record ?_ (by decide)
  interval_cases k <;> decide

theorem countP_agree {α : Type} {p q : α → Bool} {xs : List α}
    (weaker : ∀ x, p x = true → q x = true) (same : xs.countP p = xs.countP q) :
    ∀ x ∈ xs, p x = q x := by
  induction xs with
  | nil => exact fun x member => absurd member List.not_mem_nil
  | cons head rest ih =>
      have fewer : rest.countP p ≤ rest.countP q :=
        List.countP_mono_left fun x _ => weaker x
      have implied := weaker head
      rw [List.countP_cons, List.countP_cons] at same
      cases left : p head <;> cases right : q head <;> simp_all

/-- Two selections that are wrong in one direction only on marked elements, and in the
other only on the rest, agree if they select the same. -/
theorem filter_agree {α β : Type} {p q : α → Bool} {f : α → β} {xs : List α}
    (mark : β → Bool) (marked : ∀ x, mark (f x) = true → p x = true → q x = true)
    (unmarked : ∀ x, mark (f x) = false → q x = true → p x = true)
    (same : (xs.filter p).map f = (xs.filter q).map f) : ∀ x ∈ xs, p x = q x := by
  have onMarked := congrArg (List.countP mark) same
  have onRest := congrArg (List.countP fun x => !mark x) same
  rw [List.countP_map, List.countP_map, List.countP_filter, List.countP_filter] at onMarked
  rw [List.countP_map, List.countP_map, List.countP_filter, List.countP_filter] at onRest
  have agreeMarked := countP_agree (fun x both => by
    simp only [Function.comp, Bool.and_eq_true] at both ⊢
    exact ⟨both.1, marked x both.1 both.2⟩) onMarked
  have agreeRest := countP_agree (fun x both => by
    simp only [Function.comp, Bool.and_eq_true, Bool.not_eq_true'] at both ⊢
    exact ⟨both.1, unmarked x both.1 both.2⟩) onRest.symm
  intro x member
  have onX := agreeMarked x member
  have offX := agreeRest x member
  cases markX : mark (f x) <;> simp_all [Function.comp]

/-- The parts of `ecx` that are looked at tell what the whole does: `cx` where the valid
bit decides, and `cx` and `cl` where it does not. -/
def Response.Measured (answer : Response) : Prop :=
  answer.carry = true ∨ answer.record.entry.length = 0 ∨
    if answer.record.valid then answer.ecx.setWidth 16 = (0 : Half) → answer.ecx = 0
    else answer.ecx.setWidth 16 ≠ (0 : Half) → (answer.ecx.setWidth 8 : Byte) ≤ 20 →
      answer.ecx ≤ 20

theorem Response.measured_of_small {answer : Response} (small : answer.ecx < 256) :
    answer.Measured := by
  have half : answer.ecx.setWidth 16 = (0 : Half) → answer.ecx = 0 := by bv_omega
  have low : (answer.ecx.setWidth 8 : Byte) ≤ 20 → answer.ecx ≤ 20 := by bv_omega
  refine .inr (.inr ?_)
  split
  · exact half
  · exact fun _ => low

theorem size_of_short {ecx : Word} (short : ecx ≤ 20) :
    (ecx.setWidth 16 = (0 : Half) ↔ ecx = 0) ∧ (ecx.setWidth 8 : Byte) ≤ 20 := by
  constructor
  · constructor <;> bv_omega
  · bv_omega

theorem half_of_zero {ecx : Word} (half : ecx.setWidth 16 ≠ (0 : Half)) : ecx ≠ 0 := by
  rintro rfl
  exact half rfl

theorem Response.proper_of_taken {answer : Response}
    (valid : answer.record.valid = true) (taken : answer.taken = true) :
    answer.proper = true := by
  simp only [Response.taken, takes, valid, Bool.or_true, Bool.and_true, Bool.and_eq_true,
    decide_eq_true_eq] at taken
  simp only [Response.proper, valid, Bool.or_true, Bool.and_true, Bool.and_eq_true,
    decide_eq_true_eq]
  exact ⟨⟨taken.1, half_of_zero taken.2.1⟩, taken.2.2⟩

theorem Response.taken_of_proper {answer : Response}
    (clear : answer.record.valid = false) (proper : answer.proper = true) :
    answer.taken = true := by
  simp only [Response.proper, clear, Bool.or_false, Bool.and_eq_true,
    decide_eq_true_eq] at proper
  simp only [Response.taken, takes, clear, Bool.or_false, Bool.and_eq_true,
    decide_eq_true_eq]
  obtain ⟨⟨⟨carry, some⟩, length⟩, short⟩ := proper
  obtain ⟨half, low⟩ := size_of_short short
  exact ⟨carry, ⟨mt half.mp some, low⟩, length⟩

theorem Response.measured_iff (answer : Response) :
    answer.Measured ↔ answer.taken = answer.proper := by
  rw [Bool.eq_iff_iff]
  cases valid : answer.record.valid with
  | true =>
      simp only [Response.Measured, Response.taken, takes, Response.proper, valid,
        Bool.or_true, Bool.and_true, Bool.and_eq_true, Bool.not_eq_true',
        decide_eq_true_eq, if_true]
      have whole := @half_of_zero answer.ecx
      grind
  | false =>
      simp only [Response.Measured, Response.taken, takes, Response.proper, valid,
        Bool.or_false, Bool.and_eq_true, Bool.not_eq_true', decide_eq_true_eq,
        Bool.false_eq_true, if_false]
      have whole := @half_of_zero answer.ecx
      have part := @size_of_short answer.ecx
      grind

theorem taken_eq_kept_iff (answers : List Response) :
    taken answers = kept answers ↔ ∀ answer ∈ answers, answer.Measured := by
  refine ⟨fun same answer member => ?_, fun measured => ?_⟩
  · rw [Response.measured_iff]
    exact filter_agree Record.valid (fun _ => Response.proper_of_taken)
      (fun _ => Response.taken_of_proper) same answer member
  · unfold taken kept
    rw [List.filter_congr fun answer member =>
      (Response.measured_iff answer).mp (measured answer member)]

def Regular : List Response → Prop
  | [] => False
  | answer :: rest =>
      ¬ answer.Refused ∧ ∀ response ∈ answer :: rest, response.Measured

theorem map_consistent_iff (answers : List Response) :
    MapConsistent answers ↔ (Answered answers → Regular answers) := by
  refine ⟨fun consistent answered => ?_, fun regular memory final returned => ?_⟩
  · cases answers with
    | nil => exact answered
    | cons answer rest =>
        have accepted : ¬ answer.Refused := fun refused => by
          rw [Answered, if_pos refused] at answered
          subst answered
          -- Two contents of the memory leave two words at `0x600`.
          obtain ⟨zeros, fromZeros, zeroBytes⟩ := doE820_refused (fun _ => 0) refused []
          obtain ⟨ones, fromOnes, oneBytes⟩ := doE820_refused (fun _ => 1) refused []
          have none := (consistent _ _ fromZeros).count
          have many := (consistent _ _ fromOnes).count
          rw [zeroBytes, countAt_storeRecord] at none
          rw [oneBytes, countAt_storeRecord, ← none] at many
          exact absurd many (by decide)
        obtain ⟨final, returned, lists⟩ := doE820_spec (fun _ => 0) accepted answered
        have wanted := consistent _ _ returned
        refine ⟨accepted, (taken_eq_kept_iff _).mp ?_⟩
        rw [← lists.entries, ← wanted.entries, ← lists.count, ← wanted.count]
  · have shape := regular (doE820_answered returned)
    cases answers with
    | nil => exact shape.elim
    | cons answer rest =>
        obtain ⟨final', again, lists⟩ :=
          doE820_spec memory shape.1 (doE820_answered returned)
        rw [returned] at again
        obtain ⟨rfl, -⟩ := Prod.ext_iff.mp (Option.some.inj again)
        rw [← (taken_eq_kept_iff _).mpr shape.2]
        exact lists

def unsupported : Response where
  carry := true
  eax := 0x8600
  ebx := 0
  ecx := 24
  edx := smap
  record := fun _ => 0

/-- The kernel counts 257 entries where the memory held ones. -/
theorem unsupported_map_left_over : ¬ MapConsistent [unsupported] := by
  intro consistent
  have refused : unsupported.Refused := .inl rfl
  obtain ⟨final, returned, bytes⟩ := doE820_refused (fun _ => 1) refused []
  have count := (consistent _ _ returned).count
  rw [bytes, countAt_storeRecord] at count
  exact absurd count (by decide)

theorem regular_of_small {answer : Response} {rest : List Response}
    (accepted : ¬ answer.Refused)
    (small : ∀ response ∈ answer :: rest, response.ecx < 256) :
    Regular (answer :: rest) :=
  ⟨accepted, fun response member => Response.measured_of_small (small response member)⟩

theorem e820Loop_foldl (entries : Nat → E820Entry) (remaining i : Nat) (bitmap : Bitmap) :
    e820Loop entries remaining i bitmap =
      (List.range' i remaining).foldl (fun bitmap j => (entries j).mark bitmap) bitmap := by
  induction remaining generalizing i bitmap with
  | zero => rfl
  | succ remaining ih =>
      rw [e820Loop, ih, List.range'_succ]
      rfl

theorem Lists.getE820Mmap {memory : Half → Byte} {records : List Record}
    (lists : Lists memory records) (bitmap : Bitmap) :
    Memory.getE820Mmap bitmap (mapAt memory) =
      records.foldl (fun bitmap record => record.entry.mark bitmap) bitmap := by
  have count : (mapAt memory).cnt.toNat = records.length := lists.count
  rw [Memory.getE820Mmap, count, e820Loop_foldl, ← List.range_eq_range']
  conv_rhs => rw [← lists.entries, stored, List.foldl_map]
  rfl

end LazyOS.Boot

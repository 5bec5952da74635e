import LazyOS.Memory.Pmm

namespace LazyOS.Memory

open LazyOS.Data

/-! What `fill_from_to` really marks.  The first byte is completed with one bit
more than the loop accounts for, unless the loop borrows from a full block, which
loses one; and when the frames run out inside the loop nothing but the first
frame is marked. -/

theorem getLsbD_0x80 {bit : Nat} (bound : bit < 8) :
    (0b10000000 : Byte).getLsbD bit = decide (bit = 7) :=
  (by decide : ∀ bit < 8, (0b10000000 : Byte).getLsbD bit = decide (bit = 7))
    bit bound

theorem fillerLoop_none (remaining fullBlock notFullBlock : Nat) (filler : Byte)
    (bounded : notFullBlock ≤ 7) (few : remaining ≤ 7)
    (early : 8 * fullBlock + notFullBlock < remaining) :
    fillerLoop remaining fullBlock notFullBlock filler = none := by
  induction remaining generalizing fullBlock notFullBlock filler with
  | zero => omega
  | succ remaining ih =>
      simp only [fillerLoop]
      by_cases done : fullBlock = 0 ∧ notFullBlock = 0
      · rw [if_pos done]
      · rw [if_neg done, if_neg (by omega)]
        exact ih _ _ _ (by omega) (by omega) (by omega)

/-- A loop that runs to its end moves `remaining` frames into the filler, and one
more when it has to borrow a full block. -/
theorem fillerLoop_some (remaining fullBlock notFullBlock shift : Nat)
    (filler : Byte) (bounded : notFullBlock ≤ 7)
    (shifted : ∀ bit < 8, filler.getLsbD bit = decide (shift ≤ bit))
    (room : remaining ≤ shift) (low : shift ≤ 7)
    (enough : remaining ≤ 8 * fullBlock + notFullBlock) :
    ∃ fullBlock' notFullBlock' filler',
      fillerLoop remaining fullBlock notFullBlock filler =
        some (fullBlock', notFullBlock', filler') ∧
      notFullBlock' ≤ 7 ∧
      8 * fullBlock' + notFullBlock' + remaining +
        (if notFullBlock < remaining then 1 else 0) =
          8 * fullBlock + notFullBlock ∧
      ∀ bit < 8, filler'.getLsbD bit = decide (shift - remaining ≤ bit) := by
  induction remaining generalizing fullBlock notFullBlock filler shift with
  | zero =>
      exact ⟨fullBlock, notFullBlock, filler, rfl, bounded, by simp, shifted⟩
  | succ remaining ih =>
      have next : ∀ bit < 8, ((filler >>> 1) ||| 0b10000000).getLsbD bit =
          decide (shift - 1 ≤ bit) := by
        intro bit bound
        rw [BitVec.getLsbD_or, BitVec.getLsbD_ushiftRight, getLsbD_0x80 bound]
        by_cases last : bit = 7
        · simp [last]
          omega
        · rw [shifted (1 + bit) (by omega)]
          simp [last]
          omega
      simp only [fillerLoop]
      rw [if_neg (by omega)]
      by_cases borrow : notFullBlock = 0
      · obtain ⟨full, notFull, result, ran, small, account, bits⟩ :=
          ih (fullBlock - 1) (7 - 1) (shift - 1) _ (by omega) next (by omega)
            (by omega) (by omega)
        rw [if_pos borrow]
        refine ⟨full, notFull, result, ran, small, ?_, ?_⟩
        · rw [if_neg (by omega)] at account
          rw [if_pos (by omega)]
          omega
        · rwa [show shift - (remaining + 1) = shift - 1 - remaining by omega]
      · obtain ⟨full, notFull, result, ran, small, account, bits⟩ :=
          ih fullBlock (notFullBlock - 1) (shift - 1) _ (by omega) next (by omega)
            (by omega) (by omega)
        rw [if_neg borrow]
        refine ⟨full, notFull, result, ran, small, ?_, ?_⟩
        · by_cases later : notFullBlock - 1 < remaining
          · rw [if_pos later] at account
            rw [if_pos (by omega)]
            omega
          · rw [if_neg later] at account
            rw [if_neg (by omega)]
            omega
        · rwa [show shift - (remaining + 1) = shift - 1 - remaining by omega]

theorem byte_distance_succ {byte block : Nat} (byteLt : byte < 2 ^ 32)
    (blockLt : block < 2 ^ 32) (different : byte ≠ block) :
    (byte + 2 ^ 32 - block) % 2 ^ 32 =
      (byte + 2 ^ 32 - (block + 1) % 2 ^ 32) % 2 ^ 32 + 1 := by
  by_cases last : block + 1 = 2 ^ 32
  · have one : byte + 2 ^ 32 - block = byte + 1 := by omega
    rw [last, Nat.mod_self, Nat.sub_zero, Nat.add_mod_right, one,
      Nat.mod_eq_of_lt (by omega), Nat.mod_eq_of_lt byteLt]
  · rw [Nat.mod_eq_of_lt (a := block + 1) (by omega)]
    rcases Nat.lt_or_ge byte block with before | after
    · rw [Nat.mod_eq_of_lt (by omega), Nat.mod_eq_of_lt (by omega)]
      omega
    · rw [show byte + 2 ^ 32 - block = byte - block + 2 ^ 32 by omega,
        show byte + 2 ^ 32 - (block + 1) = byte - (block + 1) + 2 ^ 32 by omega,
        Nat.add_mod_right, Nat.add_mod_right, Nat.mod_eq_of_lt (by omega),
        Nat.mod_eq_of_lt (by omega)]
      omega

theorem byte_distance_eq_iff {byte block : Nat} (steps : Nat) (byteLt : byte < 2 ^ 32)
    (blockLt : block < 2 ^ 32) (few : steps < 2 ^ 32) :
    byte = (block + steps) % 2 ^ 32 ↔
      (byte + 2 ^ 32 - block) % 2 ^ 32 = steps := by
  rcases Nat.lt_or_ge byte block with before | after
  · rw [Nat.mod_eq_of_lt (a := byte + 2 ^ 32 - block) (by omega)]
    omega
  · rw [show byte + 2 ^ 32 - block = byte - block + 2 ^ 32 by omega,
      Nat.add_mod_right, Nat.mod_eq_of_lt (a := byte - block) (by omega)]
    omega

/-- The body overwrites the `fullBlock` bytes behind `block`, counted around the
32-bit index space. -/
theorem bodyLoop_spec (fullBlock block : Nat) (bitmap : Bitmap)
    (inside : block < 2 ^ 32) (few : fullBlock < 2 ^ 32) :
    (bodyLoop fullBlock block bitmap).1 = (block + fullBlock) % 2 ^ 32 ∧
    ∀ position, position / 8 < 2 ^ 32 →
      bitAt (bodyLoop fullBlock block bitmap).2 position =
        (bitAt bitmap position ||
          decide (1 ≤ (position / 8 + 2 ^ 32 - block) % 2 ^ 32 ∧
            (position / 8 + 2 ^ 32 - block) % 2 ^ 32 ≤ fullBlock)) := by
  induction fullBlock generalizing block bitmap with
  | zero =>
      refine ⟨by simp only [bodyLoop]; omega, ?_⟩
      intro position _
      have none : ¬ (1 ≤ (position / 8 + 2 ^ 32 - block) % 2 ^ 32 ∧
          (position / 8 + 2 ^ 32 - block) % 2 ^ 32 ≤ 0) := by omega
      simp only [bodyLoop, none, decide_false, Bool.or_false]
  | succ fullBlock ih =>
      simp only [bodyLoop]
      have nextLt : (block + 1) % 2 ^ 32 < 2 ^ 32 := Nat.mod_lt _ (by decide)
      obtain ⟨ends, bits⟩ := ih ((block + 1) % 2 ^ 32)
        (Function.update bitmap ((block + 1) % 2 ^ 32) wholeEntryTakn)
        nextLt (by omega)
      refine ⟨by rw [ends, Nat.mod_add_mod, Nat.add_right_comm, Nat.add_assoc], ?_⟩
      intro position bound
      rw [bits position bound]
      by_cases here : position / 8 = (block + 1) % 2 ^ 32
      · have written : bitAt (Function.update bitmap ((block + 1) % 2 ^ 32)
            wholeEntryTakn) position = true := by
          unfold bitAt
          rw [here, Function.update_self]
          exact (eq_allOnes_iff wholeEntryTakn).mp rfl _ (Nat.mod_lt _ (by decide))
        have one := (byte_distance_eq_iff 1 bound inside (by decide)).mp here
        rw [written, one, Bool.true_or, decide_eq_true (by omega), Bool.or_true]
      · have kept : bitAt (Function.update bitmap ((block + 1) % 2 ^ 32)
            wholeEntryTakn) position = bitAt bitmap position := by
          unfold bitAt
          rw [Function.update_of_ne here]
        rw [kept]
        congr 1
        apply decide_eq_decide.mpr
        have notOne := mt (byte_distance_eq_iff 1 bound inside (by decide)).mpr here
        by_cases origin : position / 8 = block
        · have zero := (byte_distance_eq_iff 0 bound inside
            (by decide)).mp (by omega)
          have longest := (byte_distance_eq_iff (2 ^ 32 - 1) bound nextLt
            (by decide)).mp (by omega)
          omega
        · have shorter := byte_distance_succ bound inside origin
          omega

theorem headMarker_getLsbD (notFullBlock : Nat) (marker : Byte) (low : Nat)
    (lower : ∀ bit < 8, marker.getLsbD bit = decide (bit < low)) :
    ∀ bit < 8, (headMarker notFullBlock marker).getLsbD bit =
      decide (bit < low + notFullBlock) := by
  induction notFullBlock generalizing marker low with
  | zero => simpa [headMarker] using lower
  | succ notFullBlock ih =>
      simp only [headMarker]
      have shifted : ∀ bit < 8,
          ((marker <<< 1) ||| 0b00000001).getLsbD bit = decide (bit < low + 1) := by
        intro bit bound
        rw [BitVec.getLsbD_or, BitVec.getLsbD_shiftLeft]
        cases bit with
        | zero => simp
        | succ bit =>
            rw [show bit + 1 - 1 = bit by omega, lower bit (by omega)]
            have one : (0b00000001 : Byte).getLsbD (bit + 1) = false :=
              (by decide : ∀ inner < 7,
                (0b00000001 : Byte).getLsbD (inner + 1) = false) bit (by omega)
            rw [one]
            simp [bound]
      intro bit bound
      rw [ih _ _ shifted bit bound]
      simp only [decide_eq_decide]
      omega

/-- The bit position of the first mark, in the positions that a `uint32_t` byte
index can name. -/
def fillStart (base : Nat) : Nat :=
  let startFrame := (calcFrames base % 2 ^ 64).toNat
  8 * (startFrame / 8 % 2 ^ 32) + startFrame % 8

def fillCount (base len : Nat) : Nat :=
  let frames := toUInt32 (calcFrames len)
  let frameInBlock := fillStart base % 8
  if len = 0 then 0
  else if frames ≤ 1 ∨ frames - 1 < 6 - frameInBlock then 1
  else if frameInBlock = 7 ∨ (frames - 1) % 8 < 6 - frameInBlock then frames
  else frames + 1

theorem calcFrames_of_word {size : Nat} (word : size < 2 ^ 32 - 1) :
    calcFrames size = ((size + 4095) / 4096 : Nat) := by
  unfold calcFrames
  rw [if_neg (by omega), toInt32_of_range (by omega) (by omega)]

theorem fillStart_of_word {base : Nat} (word : base < 2 ^ 32 - 1) :
    fillStart base = (base + 4095) / 4096 := by
  unfold fillStart
  simp only [calcFrames_of_word word]
  omega

/-- A length counts its frames, except that one byte less than 4 GiB counts as
`2 ^ 32 - 1` of them. -/
theorem frames_of_word {len : Nat} (word : len < 2 ^ 32) :
    toUInt32 (calcFrames len) =
      if len = 2 ^ 32 - 1 then 2 ^ 32 - 1 else (len + 4095) / 4096 := by
  by_cases longest : len = 2 ^ 32 - 1
  · rw [if_pos longest, longest]
    decide +kernel
  · rw [if_neg longest, calcFrames_of_word (by omega), toUInt32_natCast]
    omega

def FillMarks (base len position : Nat) : Prop :=
  (position + 2 ^ 35 - fillStart base) % 2 ^ 35 < fillCount base len

instance (base len position : Nat) : Decidable (FillMarks base len position) :=
  inferInstanceAs (Decidable (_ < _))

/-- Distances around the positions, split into bytes and bits: a position lies
within `count` of the start when its byte does and, in the first byte, its bit is
not below the start. -/
theorem position_distance_lt {byte bit block frameInBlock count : Nat}
    (byteLt : byte < 2 ^ 32) (bitLt : bit < 8) (blockLt : block < 2 ^ 32)
    (frameLt : frameInBlock < 8) (few : count ≤ 2 ^ 34) :
    (8 * byte + bit + 2 ^ 35 - (8 * block + frameInBlock)) % 2 ^ 35 < count ↔
      ((byte + 2 ^ 32 - block) % 2 ^ 32 = 0 → frameInBlock ≤ bit) ∧
        8 * ((byte + 2 ^ 32 - block) % 2 ^ 32) + bit < count + frameInBlock := by
  rcases Nat.lt_or_ge byte block with before | after
  · have distance : (byte + 2 ^ 32 - block) % 2 ^ 32 = byte + 2 ^ 32 - block :=
      Nat.mod_eq_of_lt (by omega)
    have position : (8 * byte + bit + 2 ^ 35 - (8 * block + frameInBlock)) % 2 ^ 35 =
        8 * byte + bit + 2 ^ 35 - (8 * block + frameInBlock) :=
      Nat.mod_eq_of_lt (by omega)
    rw [distance, position]
    omega
  · have distance : (byte + 2 ^ 32 - block) % 2 ^ 32 = byte - block := by
      rw [show byte + 2 ^ 32 - block = byte - block + 2 ^ 32 by omega,
        Nat.add_mod_right, Nat.mod_eq_of_lt (by omega)]
    rw [distance]
    by_cases below : byte = block ∧ bit < frameInBlock
    · rw [Nat.mod_eq_of_lt (by omega)]
      omega
    · rw [show 8 * byte + bit + 2 ^ 35 - (8 * block + frameInBlock) =
          8 * byte + bit - (8 * block + frameInBlock) + 2 ^ 35 by omega,
        Nat.add_mod_right, Nat.mod_eq_of_lt (by omega)]
      omega

theorem position_within {position block frameInBlock count : Nat}
    (bound : position / 8 < 2 ^ 32) (blockLt : block < 2 ^ 32)
    (frameLt : frameInBlock < 8) (few : count ≤ 2 ^ 34) :
    (position + 2 ^ 35 - (8 * block + frameInBlock)) % 2 ^ 35 < count ↔
      ((position / 8 + 2 ^ 32 - block) % 2 ^ 32 = 0 → frameInBlock ≤ position % 8) ∧
        8 * ((position / 8 + 2 ^ 32 - block) % 2 ^ 32) + position % 8 <
          count + frameInBlock := by
  have split := position_distance_lt bound (Nat.mod_lt position (by decide)) blockLt
    frameLt few
  rwa [Nat.div_add_mod] at split

theorem bitAt_firstFrame (bitmap : Bitmap) {position block frameInBlock : Nat}
    (bound : position / 8 < 2 ^ 32) (blockLt : block < 2 ^ 32)
    (frameLt : frameInBlock < 8) :
    bitAt (bitmap.orByte block (1#8 <<< frameInBlock)) position = true ↔
      bitAt bitmap position = true ∨
        (position + 2 ^ 35 - (8 * block + frameInBlock)) % 2 ^ 35 < 1 := by
  have byte : position % 8 < 8 := Nat.mod_lt _ (by decide)
  have here := byte_distance_eq_iff 0 bound blockLt (by decide)
  rw [Nat.add_zero, Nat.mod_eq_of_lt blockLt] at here
  rw [bitAt_orByte, getLsbD_one_shiftLeft byte, position_within bound blockLt frameLt
    (by decide)]
  simp only [Bool.or_eq_true, Bool.and_eq_true, decide_eq_true_eq, here]
  refine or_congr Iff.rfl ?_
  generalize (position / 8 + 2 ^ 32 - block) % 2 ^ 32 = distance
  omega

/-- The loop that completes the first byte, as `fill_from_to` starts it: the frames
it leaves are those behind the byte, one more or less as `fillCount` says. -/
theorem fillerLoop_account {frames frameInBlock : Nat} (frameLt : frameInBlock < 8)
    (several : ¬ frames - 1 ≤ 0) (late : ¬ frames - 1 < 6 - frameInBlock) :
    ∃ full notFull filler,
      fillerLoop (6 - frameInBlock) ((frames - 1) / 8) ((frames - 1) % 8) 0b10000000 =
        some (full, notFull, filler) ∧
      notFull ≤ 7 ∧
      8 * full + notFull + (8 - frameInBlock) =
        (if frameInBlock = 7 ∨ (frames - 1) % 8 < 6 - frameInBlock then frames
          else frames + 1) ∧
      ∀ bit < 8, filler.getLsbD bit = decide (7 - (6 - frameInBlock) ≤ bit) := by
  obtain ⟨full, notFull, filler, ran, small, account, bits⟩ :=
    fillerLoop_some (6 - frameInBlock) ((frames - 1) / 8) ((frames - 1) % 8) 7
      0b10000000 (by omega)
      (fun bit inByte => by
        rw [getLsbD_0x80 inByte]
        apply decide_eq_decide.mpr
        omega)
      (by omega) (by omega) (by omega)
  refine ⟨full, notFull, filler, ran, small, ?_, bits⟩
  split_ifs at account ⊢ <;> omega

theorem bitAt_fillFromTo (bitmap : Bitmap) (base len position : Nat)
    (bound : position / 8 < 2 ^ 32) :
    bitAt (fillFromTo bitmap base len) position = true ↔
      bitAt bitmap position = true ∨ FillMarks base len position := by
  have byte : position % 8 < 8 := Nat.mod_lt _ (by decide)
  have framesLt : toUInt32 (calcFrames len) < 2 ^ 32 := toUInt32_lt _
  unfold FillMarks fillCount fillFromTo
  simp only
  by_cases empty : len = 0
  · simp [empty]
  rw [if_neg (by omega), if_neg empty]
  have startEq : fillStart base =
      8 * ((calcFrames base % 2 ^ 64).toNat / 8 % 2 ^ 32) +
        (calcFrames base % 2 ^ 64).toNat % 8 := rfl
  generalize toUInt32 (calcFrames len) = frames at *
  generalize (calcFrames base % 2 ^ 64).toNat = startFrame at *
  generalize fillStart base = start at *
  generalize blockEq : startFrame / 8 % 2 ^ 32 = block at *
  generalize frameEq : startFrame % 8 = frameInBlock at *
  have blockLt : block < 2 ^ 32 := by omega
  have frameLt : frameInBlock < 8 := by omega
  have offset : start % 8 = frameInBlock := by omega
  rw [offset]
  subst startEq
  have first := bitAt_firstFrame bitmap bound blockLt frameLt
  by_cases single : frames - 1 ≤ 0
  · rw [if_pos single, if_pos (by omega), first]
  rw [if_neg single]
  simp only [devideBlocksEntries]
  by_cases early : frames - 1 < 6 - frameInBlock
  · rw [fillerLoop_none _ _ _ _ (by omega) (by omega) (by omega),
      if_pos (by omega)]
    exact first
  obtain ⟨full, notFull, filler, ran, small, total, bits⟩ :=
    fillerLoop_account frameLt single early
  have fullLt : 8 * full + notFull < 2 ^ 32 := by
    split_ifs at total <;> omega
  rw [ran, if_neg (by omega)]
  obtain ⟨ends, body⟩ := bodyLoop_spec full block
    ((bitmap.orByte block (1#8 <<< frameInBlock)).orByte block filler)
    blockLt (by omega)
  simp only
  rw [bitAt_orByte, ends, body position bound, bitAt_orByte, bits _ byte,
    headMarker_getLsbD notFull 0 0 (by decide) _ byte]
  simp only [Bool.or_eq_true, Bool.and_eq_true, decide_eq_true_eq, first, or_assoc]
  refine or_congr Iff.rfl ?_
  have here := byte_distance_eq_iff 0 bound blockLt (by decide)
  have behind := byte_distance_eq_iff (full + 1) bound blockLt (by omega)
  rw [Nat.add_zero, Nat.mod_eq_of_lt blockLt] at here
  rw [← Nat.add_assoc, ← Nat.mod_add_mod] at behind
  rw [← total, position_within bound blockLt frameLt (by omega),
    position_within bound blockLt frameLt (by omega), here, behind]
  clear total here behind bits body ends ran first
  generalize (position / 8 + 2 ^ 32 - block) % 2 ^ 32 = distance at *
  generalize position % 8 = bit at *
  omega

/-! The manual prefill.  Each of the three ranges ends in a full group of eight,
so each is marked one frame too far; the third is given the end of the heap for
its length. -/

def Prefilled (frame : Nat) : Prop :=
  frame ≤ 512 ∨ (4096 ≤ frame ∧ frame ≤ 33792)

theorem fillMarks_low {frame : Nat} (bound : frame < 2 ^ 20) :
    FillMarks 0x0000 0x100000 frame ↔ frame ≤ 256 := by
  have start : fillStart 0x0000 = 0 := by decide +kernel
  have count : fillCount 0x0000 0x100000 = 257 := by decide +kernel
  unfold FillMarks
  rw [start, count]
  omega

theorem fillMarks_kernel {frame : Nat} (bound : frame < 2 ^ 20) :
    FillMarks 0x100000 0x100000 frame ↔ 256 ≤ frame ∧ frame ≤ 512 := by
  have start : fillStart 0x100000 = 256 := by decide +kernel
  have count : fillCount 0x100000 0x100000 = 257 := by decide +kernel
  unfold FillMarks
  rw [start, count]
  omega

theorem fillMarks_heap {frame : Nat} (bound : frame < 2 ^ 20) :
    FillMarks heapStartAddress (heapStartAddress + heapSizeBytes) frame ↔
      4096 ≤ frame ∧ frame ≤ 33792 := by
  have start : fillStart heapStartAddress = 4096 := by decide +kernel
  have count : fillCount heapStartAddress (heapStartAddress + heapSizeBytes) =
      29697 := by decide +kernel
  unfold FillMarks
  rw [start, count]
  omega

theorem bitAt_initBitmapPmm (memory : Bitmap) {frame : Nat}
    (bound : frame < 2 ^ 20) :
    bitAt (initBitmapPmm memory) frame = true ↔ Prefilled frame := by
  have byte : frame / 8 < 2 ^ 32 := by omega
  have blank : bitAt (fun index =>
      if index < pmmEntries then freePmmEntry else memory index) frame = false := by
    have inside : frame / 8 < pmmEntries := by
      unfold pmmEntries
      omega
    simp [bitAt, inside, freePmmEntry]
  unfold initBitmapPmm manualPrefill Prefilled
  simp only
  rw [bitAt_fillFromTo _ _ _ _ byte, bitAt_fillFromTo _ _ _ _ byte,
    bitAt_fillFromTo _ _ _ _ byte, blank, fillMarks_low bound,
    fillMarks_kernel bound, fillMarks_heap bound]
  simp only [Bool.false_eq_true, false_or]
  omega

end LazyOS.Memory

import LazyOS.Memory.PmmFill

namespace LazyOS.Memory

open LazyOS.Data

/-! Reserving a page-aligned range: which of its frames `fill_from_to` leaves out,
which other frame it takes, and which bytes it comes to. -/

def bodyAccesses : (count block : Nat) → List Nat
  | 0, _ => []
  | count + 1, block =>
      let block := (block + 1) % 2 ^ 32
      block :: bodyAccesses count block

def fillFromToAccesses (base len : Nat) : List Nat :=
  if len ≤ 0 then []
  else
    let lenInFrames := toUInt32 (calcFrames len)
    let startFrame := (calcFrames base % 2 ^ 64).toNat
    let block := startFrame / 8 % 2 ^ 32
    let frameInBlock := startFrame % 8
    let lenInFrames := lenInFrames - 1
    if lenInFrames ≤ 0 then [block]
    else
      let (fullBlock, notFullBlock) := devideBlocksEntries lenInFrames
      match fillerLoop (6 - frameInBlock) fullBlock notFullBlock 0b10000000 with
      | none => [block]
      | some (fullBlock, _, _) =>
          -- The last increment is that of the partial byte at the end.
          block :: block :: bodyAccesses (fullBlock + 1) block

theorem mem_bodyAccesses {count block index : Nat} :
    index ∈ bodyAccesses count block ↔
      ∃ steps, 1 ≤ steps ∧ steps ≤ count ∧ index = (block + steps) % 2 ^ 32 := by
  induction count generalizing block with
  | zero =>
      refine iff_of_false List.not_mem_nil ?_
      rintro ⟨steps, lower, upper, -⟩
      omega
  | succ count ih =>
      simp only [bodyAccesses, List.mem_cons, ih]
      constructor
      · rintro (rfl | ⟨steps, lower, upper, rfl⟩)
        · exact ⟨1, by omega, by omega, rfl⟩
        · exact ⟨steps + 1, by omega, by omega, by
            rw [Nat.mod_add_mod, Nat.add_right_comm, Nat.add_assoc]⟩
      · rintro ⟨steps, lower, upper, rfl⟩
        by_cases first : steps = 1
        · exact .inl (first ▸ rfl)
        · refine .inr ⟨steps - 1, by omega, by omega, ?_⟩
          rw [Nat.mod_add_mod]
          congr 1
          omega

theorem bodyLoop_unaccessed (fullBlock block : Nat) (bitmap : Bitmap) {index : Nat}
    (untouched : index ∉ bodyAccesses (fullBlock + 1) block) :
    (bodyLoop fullBlock block bitmap).2 index = bitmap index ∧
      index ≠ ((bodyLoop fullBlock block bitmap).1 + 1) % 2 ^ 32 := by
  induction fullBlock generalizing block bitmap with
  | zero =>
      simp only [bodyAccesses, List.mem_singleton] at untouched
      exact ⟨rfl, untouched⟩
  | succ fullBlock ih =>
      rw [bodyAccesses, List.mem_cons, not_or] at untouched
      obtain ⟨here, later⟩ := untouched
      obtain ⟨kept, last⟩ := ih _
        (Function.update bitmap ((block + 1) % 2 ^ 32) wholeEntryTakn) later
      simp only [bodyLoop]
      exact ⟨kept.trans (Function.update_of_ne here _ _), last⟩

theorem fillFromTo_unaccessed (bitmap : Bitmap) (base len : Nat) {index : Nat}
    (untouched : index ∉ fillFromToAccesses base len) :
    fillFromTo bitmap base len index = bitmap index := by
  unfold fillFromToAccesses at untouched
  unfold fillFromTo
  by_cases empty : len ≤ 0
  · rw [if_pos empty]
  rw [if_neg empty] at untouched ⊢
  simp only at untouched ⊢
  generalize toUInt32 (calcFrames len) - 1 = frames at *
  generalize (calcFrames base % 2 ^ 64).toNat / 8 % 2 ^ 32 = block at *
  generalize (calcFrames base % 2 ^ 64).toNat % 8 = frameInBlock at *
  have apart : ∀ (current : Bitmap) (mask : Byte), index ≠ block →
      current.orByte block mask index = current index := fun current mask different =>
    Function.update_of_ne different _ _
  by_cases single : frames ≤ 0
  · rw [if_pos single] at untouched ⊢
    exact apart _ _ (by simpa using untouched)
  rw [if_neg single] at untouched ⊢
  split at untouched
  · rename_i early
    rw [early]
    exact apart _ _ (by simpa using untouched)
  · rename_i fullBlock notFullBlock filler ran
    rw [List.mem_cons, not_or, List.mem_cons, not_or] at untouched
    obtain ⟨different, -, later⟩ := untouched
    obtain ⟨kept, last⟩ := bodyLoop_unaccessed fullBlock block
      ((bitmap.orByte block (1#8 <<< frameInBlock)).orByte block filler) later
    rw [ran]
    simp only
    rw [Bitmap.orByte, Function.update_of_ne last, kept, apart _ _ different,
      apart _ _ different]

/-! The two ways through the function.  Either it comes to one byte only, or it goes
on to the byte behind the last one it fills. -/

theorem fillFromToAccesses_cases (base : Nat) {len : Nat} (nonempty : len ≠ 0) :
    fillCount base len = 1 ∧ fillFromToAccesses base len = [fillStart base / 8] ∨
      2 ≤ fillCount base len ∧ ∃ full, fillFromToAccesses base len =
          fillStart base / 8 :: fillStart base / 8 ::
            bodyAccesses (full + 1) (fillStart base / 8) ∧
        fillStart base / 8 + full + 1 = (fillStart base + fillCount base len) / 8 := by
  have startEq : fillStart base =
      8 * ((calcFrames base % 2 ^ 64).toNat / 8 % 2 ^ 32) +
        (calcFrames base % 2 ^ 64).toNat % 8 := rfl
  unfold fillFromToAccesses fillCount
  simp only
  rw [if_neg nonempty, if_neg (c := len ≤ 0) (by omega)]
  generalize toUInt32 (calcFrames len) = frames at *
  generalize (calcFrames base % 2 ^ 64).toNat = startFrame at *
  generalize fillStart base = start at *
  generalize startFrame / 8 % 2 ^ 32 = block at *
  generalize frameEq : startFrame % 8 = frameInBlock at *
  have frameLt : frameInBlock < 8 := by omega
  have blockEq : start / 8 = block := by omega
  have offset : start % 8 = frameInBlock := by omega
  rw [blockEq, offset]
  by_cases single : frames - 1 ≤ 0
  · rw [if_pos single, if_pos (by omega)]
    exact .inl ⟨rfl, rfl⟩
  rw [if_neg single]
  simp only [devideBlocksEntries]
  by_cases early : frames - 1 < 6 - frameInBlock
  · rw [fillerLoop_none _ _ _ _ (by omega) (by omega) (by omega), if_pos (by omega)]
    exact .inl ⟨rfl, rfl⟩
  obtain ⟨full, notFull, filler, ran, small, total, -⟩ :=
    fillerLoop_account frameLt single early
  rw [ran, if_neg (by omega), ← total]
  have atLeast : frames ≤ 8 * full + notFull + (8 - frameInBlock) := by
    split_ifs at total <;> omega
  exact .inr ⟨by omega, full, rfl, by omega⟩

def framesFor (len : Nat) : Nat := (len + 4095) / 4096

structure PageRange (base len : Nat) : Prop where
  aligned : base % 4096 = 0
  positive : 0 < len
  fits : base + len ≤ 2 ^ 32
  word : len < 2 ^ 32

namespace PageRange

variable {base len : Nat}

theorem stop_eq (range : PageRange base len) :
    (base + len + 4095) / 4096 = base / 4096 + framesFor len := by
  have := range.aligned
  unfold framesFor
  omega

theorem fillStart_eq (range : PageRange base len) :
    fillStart base = base / 4096 := by
  obtain ⟨aligned, positive, fits, -⟩ := range
  rw [fillStart_of_word (by omega)]
  omega

theorem frames (range : PageRange base len) :
    toUInt32 (calcFrames len) = framesFor len ∨
      base = 0 ∧ framesFor len = 2 ^ 20 ∧ toUInt32 (calcFrames len) = 2 ^ 32 - 1 := by
  obtain ⟨aligned, positive, fits, word⟩ := range
  unfold framesFor
  rw [frames_of_word word]
  split_ifs with all
  · exact .inr ⟨by omega, by omega, rfl⟩
  · exact .inl rfl

theorem framesFor_le (range : PageRange base len) :
    1 ≤ framesFor len ∧ base / 4096 + framesFor len ≤ 2 ^ 20 := by
  obtain ⟨aligned, positive, fits, -⟩ := range
  unfold framesFor
  omega

theorem fillCount_cases (range : PageRange base len) :
    fillCount base len = 1 ∧
        (framesFor len = 1 ∨ base / 4096 % 8 + framesFor len ≤ 6) ∨
      2 ≤ framesFor len ∧ 7 ≤ base / 4096 % 8 + framesFor len ∧
        (fillCount base len = framesFor len ∧
            (base / 4096 % 8 = 7 ∨ (framesFor len - 1) % 8 < 6 - base / 4096 % 8) ∨
          fillCount base len = framesFor len + 1 ∧
            ¬ (base / 4096 % 8 = 7 ∨
              (framesFor len - 1) % 8 < 6 - base / 4096 % 8) ∨
          base = 0 ∧ framesFor len = 2 ^ 20 ∧ fillCount base len = 2 ^ 32) := by
  have positive := range.positive
  have atLeast := range.framesFor_le.1
  unfold fillCount
  rw [range.fillStart_eq, if_neg (by omega)]
  rcases range.frames with frames | ⟨rfl, all, frames⟩
  · rw [frames]
    generalize framesFor len = count at *
    generalize base / 4096 % 8 = frameInBlock at *
    split_ifs with first second
    · left
      omega
    · right
      omega
    · right
      omega
  · right
    rw [frames, all]
    decide +kernel

theorem fillCount_pos (range : PageRange base len) :
    1 ≤ fillCount base len := by
  have count := range.fillCount_cases
  omega

theorem fillCount_le (range : PageRange base len) :
    fillCount base len ≤ 2 ^ 32 := by
  have fits := range.framesFor_le
  have count := range.fillCount_cases
  omega

/-- A range of one frame, and one that leaves its first byte or reaches the last bit
but one of it, is marked to its end. -/
theorem framesFor_le_fillCount (range : PageRange base len)
    (whole : framesFor len = 1 ∨ 7 ≤ base / 4096 % 8 + framesFor len) :
    framesFor len ≤ fillCount base len := by
  have count := range.fillCount_cases
  omega

theorem bitAt_fill (range : PageRange base len)
    (bitmap : Bitmap) {frame : Nat} (bound : frame < 2 ^ 20) :
    bitAt (fillFromTo bitmap base len) frame = true ↔
      bitAt bitmap frame = true ∨
        base / 4096 ≤ frame ∧ frame < base / 4096 + fillCount base len := by
  have start := range.framesFor_le
  have count := range.fillCount_le
  rw [bitAt_fillFromTo _ _ _ _ (by omega)]
  refine or_congr Iff.rfl ?_
  unfold FillMarks
  rw [range.fillStart_eq]
  generalize fillCount base len = marks at *
  generalize base / 4096 = first at *
  by_cases before : frame < first
  · rw [Nat.mod_eq_of_lt (by omega)]
    omega
  · rw [show frame + 2 ^ 35 - first = frame - first + 2 ^ 35 by omega,
      Nat.add_mod_right, Nat.mod_eq_of_lt (by omega)]
    omega

end PageRange

def RangeReserved (bitmap : Bitmap) (base len : Nat) : Prop :=
  ∀ frame, base / 4096 ≤ frame → frame < (base + len + 4095) / 4096 →
    bitAt bitmap frame = true

/-- The whole range is marked exactly when it has one frame, reaches the last bit
of its first byte but one, or was marked before: a shorter range is given up after
its first frame. -/
theorem range_reserved_iff (bitmap : Bitmap) {base len : Nat}
    (range : PageRange base len) :
    RangeReserved (fillFromTo bitmap base len) base len ↔
      framesFor len = 1 ∨ 7 ≤ base / 4096 % 8 + framesFor len ∨
        ∀ frame, base / 4096 < frame → frame < (base + len + 4095) / 4096 →
          bitAt bitmap frame = true := by
  have fits := range.framesFor_le
  unfold RangeReserved
  rw [range.stop_eq]
  constructor
  · intro reserved
    rcases range.fillCount_cases with ⟨one, single | short⟩ | ⟨-, long, -⟩
    · exact .inl single
    · refine .inr (.inr fun frame lower upper => ?_)
      have marked := reserved frame (by omega) upper
      rw [range.bitAt_fill bitmap (by omega), one] at marked
      exact marked.resolve_right (by omega)
    · exact .inr (.inl long)
  · intro condition frame lower upper
    rw [range.bitAt_fill bitmap (by omega)]
    rcases condition with single | long | before
    · have whole := range.framesFor_le_fillCount (.inl single)
      right
      omega
    · have whole := range.framesFor_le_fillCount (.inr long)
      right
      omega
    · by_cases first : frame = base / 4096
      · have some := range.fillCount_pos
        right
        omega
      · exact .inl (before frame (by omega) upper)

/-- The last six frames of the first byte but one are a range that is marked. -/
theorem range_reserved_iff_six_frames :
    RangeReserved (fillFromTo (fun _ => 0) 0x1000 0x6000) 0x1000 0x6000 :=
  (range_reserved_iff (fun _ => 0) ⟨by decide, by decide, by decide, by decide⟩).mpr
    (.inr (.inl (by decide)))

/-- Of three pages at 2 MiB only the first is marked. -/
theorem short_range_given_up :
    ¬ ∀ (bitmap : Bitmap) (base len : Nat), PageRange base len →
      RangeReserved (fillFromTo bitmap base len) base len := by
  intro reservesAll
  have reserved := reservesAll (fun _ => 0) 0x200000 0x3000
    ⟨by decide, by decide, by decide, by decide⟩
  exact absurd (reserved 0x201 (by decide) (by decide)) (by decide +kernel)

structure OnlyRangeTouched (bitmap : Bitmap) (base len : Nat) : Prop where
  unchanged : ∀ frame < 2 ^ 20,
    ¬ (base / 4096 ≤ frame ∧ frame < (base + len + 4095) / 4096) →
      bitAt (fillFromTo bitmap base len) frame = bitAt bitmap frame
  inside : ∀ index ∈ fillFromToAccesses base len, index < pmmEntries

theorem PageRange.inside_iff {base len : Nat} (range : PageRange base len) :
    (∀ index ∈ fillFromToAccesses base len, index < pmmEntries) ↔
      fillCount base len = 1 ∨ base / 4096 + fillCount base len < 2 ^ 20 := by
  have positive := range.positive
  have fits := range.framesFor_le
  have accesses := fillFromToAccesses_cases base (show len ≠ 0 by omega)
  rw [range.fillStart_eq] at accesses
  unfold pmmEntries
  rcases accesses with ⟨one, listed⟩ | ⟨several, full, listed, last⟩
  · rw [listed]
    refine iff_of_true (fun index member => ?_) (.inl one)
    obtain rfl := List.mem_singleton.mp member
    omega
  · rw [listed]
    have fewer := range.fillCount_le
    constructor
    · intro inside
      -- The byte behind the last one filled is written even when no bit is left.
      have bound := inside ((base / 4096 / 8 + (full + 1)) % 2 ^ 32)
        (List.mem_cons_of_mem _ (List.mem_cons_of_mem _
          (mem_bodyAccesses.mpr ⟨full + 1, by omega, le_rfl, rfl⟩)))
      rw [Nat.mod_eq_of_lt (by omega)] at bound
      omega
    · intro below index member
      rcases List.mem_cons.mp member with rfl | member
      · omega
      rcases List.mem_cons.mp member with rfl | member
      · omega
      obtain ⟨steps, lower, upper, rfl⟩ := mem_bodyAccesses.mp member
      omega

/-- Nothing else is touched exactly when the range is given up after its first
frame, or ends below the last frame of the bitmap without the surplus mark, or the
surplus mark was there before. -/
theorem only_range_touched_iff (bitmap : Bitmap) {base len : Nat}
    (range : PageRange base len) :
    OnlyRangeTouched bitmap base len ↔
      framesFor len = 1 ∨ base / 4096 % 8 + framesFor len ≤ 6 ∨
        (base / 4096 % 8 = 7 ∨ (framesFor len - 1) % 8 < 6 - base / 4096 % 8) ∧
          base / 4096 + framesFor len < 2 ^ 20 ∨
        bitAt bitmap (base / 4096 + framesFor len) = true ∧
          base / 4096 + framesFor len + 1 < 2 ^ 20 := by
  have fits := range.framesFor_le
  have count := range.fillCount_cases
  constructor
  · rintro ⟨unchanged, inside⟩
    have below := range.inside_iff.mp inside
    rw [range.stop_eq] at unchanged
    rcases count with ⟨-, single | short⟩ |
      ⟨several, -, ⟨same, tight⟩ | ⟨more, -⟩ | ⟨rfl, -, all⟩⟩
    · exact .inl single
    · exact .inr (.inl short)
    · exact .inr (.inr (.inl ⟨tight, by omega⟩))
    · refine .inr (.inr (.inr ⟨?_, by omega⟩))
      rw [← unchanged _ (by omega) (by omega), range.bitAt_fill bitmap (by omega)]
      right
      omega
    · omega
  · intro condition
    have marks : fillCount base len ≤ framesFor len ∨
        fillCount base len = framesFor len + 1 ∧
          bitAt bitmap (base / 4096 + framesFor len) = true := by
      rcases condition with single | short | ⟨tight, -⟩ | ⟨marked, below⟩
      · left; omega
      · left; omega
      · left; omega
      · rcases count with ⟨one, -⟩ | ⟨-, -, ⟨same, -⟩ | ⟨more, -⟩ | all⟩
        · left; omega
        · left; omega
        · exact .inr ⟨more, marked⟩
        · omega
    refine ⟨fun frame bound outside => ?_, range.inside_iff.mpr (by omega)⟩
    rw [range.stop_eq] at outside
    rw [Bool.eq_iff_iff, range.bitAt_fill bitmap bound]
    refine or_iff_left_of_imp fun marked => ?_
    rcases marks with few | ⟨more, before⟩
    · omega
    · obtain rfl : frame = base / 4096 + framesFor len := by omega
      exact before

theorem only_range_touched_iff_last_bit :
    OnlyRangeTouched (fun _ => 0) 0x7000 0x3000 :=
  (only_range_touched_iff (fun _ => 0) ⟨by decide, by decide, by decide, by decide⟩).mpr
    (.inr (.inr (.inl ⟨by decide, by decide⟩)))

/-- The first megabyte takes the frame behind it as well. -/
theorem frame_behind_range_marked :
    ¬ ∀ (bitmap : Bitmap) (base len : Nat), PageRange base len →
      OnlyRangeTouched bitmap base len := by
  intro touchesOnly
  have only := touchesOnly (fun _ => 0) 0x0000 0x100000
    ⟨by decide, by decide, by decide, by decide⟩
  exact absurd (only.unchanged 256 (by decide) (by decide)) (by decide +kernel)

end LazyOS.Memory

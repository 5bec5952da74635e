import LazyOS.Data.Run
import LazyOS.Memory.PmmFill

namespace LazyOS.Memory

open LazyOS.Data

/-! Granting and releasing frames.  A frame is a position of the bitmap below
`2 ^ 20`. -/

theorem inverted_bit (byte : Byte) {bit : Nat} (bound : bit < 8) :
    (~~~byte >>> bit) &&& 1 ≠ 0 ↔ byte.getLsbD bit = false := by
  rw [show (1 : Byte) = 1#8 from rfl, BitVec.and_one_eq_setWidth_ofBool_getLsbD]
  rw [BitVec.getLsbD_ushiftRight, BitVec.getLsbD_not]
  cases value : byte.getLsbD bit <;> simp [bound]

theorem freeByteLoop_spec (bitmap : Bitmap) (remaining i : Nat) :
    i ≤ freeByteLoop bitmap remaining i ∧
    freeByteLoop bitmap remaining i ≤ i + remaining ∧
    (∀ index, i ≤ index → index < freeByteLoop bitmap remaining i →
      bitmap index = 255) ∧
    (freeByteLoop bitmap remaining i < i + remaining →
      bitmap (freeByteLoop bitmap remaining i) ≠ 255) := by
  induction remaining generalizing i with
  | zero => simp [freeByteLoop]; omega
  | succ remaining ih =>
      simp only [freeByteLoop]
      by_cases full : bitmap i = 255
      · rw [if_pos full]
        obtain ⟨lower, upper, filled, stopped⟩ := ih (i + 1)
        refine ⟨by omega, by omega, ?_, fun inside => stopped (by omega)⟩
        intro index above below
        by_cases here : index = i
        · exact here ▸ full
        · exact filled index (by omega) below
      · rw [if_neg full]
        exact ⟨le_rfl, by omega, fun index above below => by omega, fun _ => full⟩

theorem freeBitLoop_spec (byte : Byte) (remaining j : Nat)
    (bound : j + remaining ≤ 8) :
    j ≤ freeBitLoop (~~~byte) remaining j ∧
    freeBitLoop (~~~byte) remaining j ≤ j + remaining ∧
    (∀ bit, j ≤ bit → bit < freeBitLoop (~~~byte) remaining j →
      byte.getLsbD bit = true) ∧
    (freeBitLoop (~~~byte) remaining j < j + remaining →
      byte.getLsbD (freeBitLoop (~~~byte) remaining j) = false) := by
  induction remaining generalizing j with
  | zero => simp [freeBitLoop]; omega
  | succ remaining ih =>
      simp only [freeBitLoop]
      by_cases clear : (~~~byte >>> j) &&& 1 ≠ 0
      · rw [if_pos clear]
        exact ⟨le_rfl, by omega, fun bit above below => by omega,
          fun _ => (inverted_bit byte (by omega)).mp clear⟩
      · rw [if_neg clear]
        obtain ⟨lower, upper, filled, stopped⟩ := ih (j + 1) (by omega)
        refine ⟨by omega, by omega, ?_, fun inside => stopped (by omega)⟩
        intro bit above below
        by_cases here : bit = j
        · subst here
          simpa using mt (inverted_bit byte (by omega)).mpr clear
        · exact filled bit (by omega) below

/-- Either every frame is taken and nothing happens, or the lowest clear frame is
returned and its bit alone is set. -/
inductive Grant (bitmap : Bitmap) : Int × Bitmap → Prop
  | exhausted (full : ∀ frame < 2 ^ 20, bitAt bitmap frame = true) :
      Grant bitmap (-noMemory, bitmap)
  | lowest (frame : Nat) (bound : frame < 2 ^ 20)
      (clear : bitAt bitmap frame = false)
      (below : ∀ lower < frame, bitAt bitmap lower = true)
      (address : Int) (result : Bitmap)
      (physical : toUInt32 address = 4096 * frame)
      (marked : ∀ position,
        bitAt result position = (bitAt bitmap position || decide (position = frame))) :
      Grant bitmap (address, result)

theorem getFreePhysicalAddress_grant (bitmap : Bitmap) :
    Grant bitmap (getFreePhysicalAddress bitmap) := by
  obtain ⟨-, upper, filled, stopped⟩ := freeByteLoop_spec bitmap pmmEntries 0
  unfold getFreePhysicalAddress
  simp only
  generalize freeByteLoop bitmap pmmEntries 0 = i at *
  unfold pmmEntries at *
  by_cases exhausted : i ≥ 131072
  · rw [if_pos exhausted]
    refine .exhausted fun frame bound => ?_
    unfold bitAt
    exact (eq_allOnes_iff _).mp (filled _ (by omega) (by omega)) _
      (Nat.mod_lt _ (by decide))
  · rw [if_neg exhausted]
    obtain ⟨-, bitUpper, bitFilled, bitStopped⟩ :=
      freeBitLoop_spec (bitmap i) 8 0 (by omega)
    generalize freeBitLoop (~~~bitmap i) 8 0 = j at *
    -- The byte is not full, so the bit loop stops inside it.
    have inByte : j < 8 := by
      by_contra all
      refine stopped (by omega) ((eq_allOnes_iff _).mpr fun bit bound => ?_)
      exact bitFilled bit (by omega) (by omega)
    refine .lowest (i * 8 + j) (by omega) ?_ ?_ _ _ ?_ ?_
    · unfold bitAt
      rw [show (i * 8 + j) / 8 = i by omega, show (i * 8 + j) % 8 = j by omega]
      exact bitStopped (by omega)
    · intro lower less
      unfold bitAt
      by_cases sameByte : lower / 8 = i
      · rw [sameByte]
        exact bitFilled _ (by omega) (by omega)
      · exact (eq_allOnes_iff _).mp (filled _ (by omega) (by omega)) _
          (Nat.mod_lt _ (by decide))
    · rw [toUInt32_toInt32]
      have := toUInt32_of_range (((i * 8 + j) * 4096 : Nat) : Int)
        (by omega) (by omega)
      omega
    · intro position
      rw [bitAt_orByte, getLsbD_one_shiftLeft (Nat.mod_lt _ (by decide)),
        ← Bool.decide_and]
      congr 1
      apply decide_eq_decide.mpr
      omega

theorem getFreePhysicalAddress_of_first {bitmap : Bitmap} (free : bitmap 0 ≠ 255) :
    getFreePhysicalAddress bitmap =
      (toInt32 (freeBitLoop (~~~(bitmap 0)) 8 0 * 4096 : Nat),
        bitmap.orByte 0 (1#8 <<< freeBitLoop (~~~(bitmap 0)) 8 0)) := by
  have first : freeByteLoop bitmap pmmEntries 0 = 0 := by
    obtain ⟨rest, entries⟩ : ∃ rest, pmmEntries = rest + 1 := ⟨131071, rfl⟩
    rw [entries]
    simp only [freeByteLoop, if_neg free]
  unfold getFreePhysicalAddress
  simp only [first, Nat.zero_mul, Nat.zero_add]
  rw [if_neg (by decide)]

theorem bitAt_freePhysicalFrame (bitmap : Bitmap) (physicalAddr position : Nat) :
    bitAt (freePhysicalFrame bitmap physicalAddr) position =
      (bitAt bitmap position && !decide (position = physicalAddr / 4096)) := by
  unfold freePhysicalFrame
  rw [bitAt_andNotByte, getLsbD_one_shiftLeft (Nat.mod_lt _ (by decide)),
    ← Bool.decide_and]
  congr 2
  apply decide_eq_decide.mpr
  omega

structure PmmState where
  bitmap : Bitmap
  held : List Nat

inductive PmmOp
  | get
  | free (physicalAddr : Nat)

def PmmState.apply (state : PmmState) : PmmOp → PmmState
  | .get =>
      let result := getFreePhysicalAddress state.bitmap
      { bitmap := result.2
        held :=
          if result.1 = -noMemory then state.held
          else toUInt32 result.1 / 4096 :: state.held }
  | .free physicalAddr =>
      { bitmap := freePhysicalFrame state.bitmap physicalAddr
        held := state.held.filter fun frame => frame ≠ physicalAddr / 4096 }

def PmmOp.Allowed (state : PmmState) : PmmOp → Prop
  | .get => True
  | .free physicalAddr => physicalAddr / 4096 ∈ state.held

def PmmStep (state : PmmState) (op : PmmOp) (next : PmmState) : Prop :=
  op.Allowed state ∧ next = state.apply op

def PmmState.Grants (state : PmmState) (address : Nat) : Prop :=
  (getFreePhysicalAddress state.bitmap).1 ≠ -noMemory ∧
    toUInt32 (getFreePhysicalAddress state.bitmap).1 = address

/-- Against the bitmap a run starts from: the set bits are the initial ones and
the held frames, and no held frame was set at the start. -/
structure PmmInv (initial : Bitmap) (state : PmmState) : Prop where
  bit_iff : ∀ frame < 2 ^ 20,
    bitAt state.bitmap frame = true ↔
      frame ∈ state.held ∨ bitAt initial frame = true
  held_bound : ∀ frame ∈ state.held, frame < 2 ^ 20
  held_fresh : ∀ frame ∈ state.held, bitAt initial frame = false

theorem success_ne_noMemory {address : Int} {frame : Nat}
    (physical : toUInt32 address = 4096 * frame) : address ≠ -noMemory := by
  rintro rfl
  have value : toUInt32 (-noMemory) = 2 ^ 32 - 3 := by decide
  omega

theorem PmmState.Grants.frame {state : PmmState} {address : Nat}
    (grants : state.Grants address) :
    ∃ frame < 2 ^ 20, address = 4096 * frame ∧
      bitAt state.bitmap frame = false := by
  obtain ⟨success, physical⟩ := grants
  have grant := getFreePhysicalAddress_grant state.bitmap
  generalize getFreePhysicalAddress state.bitmap = result at *
  cases grant with
  | exhausted _ => exact absurd rfl success
  | lowest frame bound clear _ value _ agrees _ =>
      exact ⟨frame, bound, physical.symm.trans agrees, clear⟩

theorem PmmInv.start (initial : Bitmap) : PmmInv initial ⟨initial, []⟩ :=
  ⟨by simp, by simp, by simp⟩

theorem PmmInv.step {initial : Bitmap} {state next : PmmState} {op : PmmOp}
    (inv : PmmInv initial state) (step : PmmStep state op next) :
    PmmInv initial next := by
  obtain ⟨allowed, rfl⟩ := step
  cases op with
  | get =>
      have grant := getFreePhysicalAddress_grant state.bitmap
      simp only [PmmState.apply]
      generalize getFreePhysicalAddress state.bitmap = result at *
      cases grant with
      | exhausted _ =>
          rw [if_pos rfl]
          exact ⟨inv.bit_iff, inv.held_bound, inv.held_fresh⟩
      | lowest frame bound clear _ address marked physical bits =>
          simp only [if_neg (success_ne_noMemory physical), physical,
            show 4096 * frame / 4096 = frame by omega]
          refine ⟨?_, ?_, ?_⟩
          · intro current inside
            simp only [bits, Bool.or_eq_true, decide_eq_true_eq, List.mem_cons,
              inv.bit_iff current inside]
            tauto
          · intro current member
            rcases List.mem_cons.mp member with rfl | earlier
            · exact bound
            · exact inv.held_bound current earlier
          · intro current member
            rcases List.mem_cons.mp member with rfl | earlier
            · by_contra set
              have := (inv.bit_iff current bound).mpr (.inr (by simpa using set))
              simp [this] at clear
            · exact inv.held_fresh current earlier
  | free physicalAddr =>
      simp only [PmmState.apply]
      refine ⟨?_, ?_, ?_⟩
      · intro current inside
        simp only [bitAt_freePhysicalFrame, Bool.and_eq_true, Bool.not_eq_true',
          decide_eq_false_iff_not, inv.bit_iff current inside, List.mem_filter,
          decide_eq_true_eq]
        constructor
        · rintro ⟨member | reserved, different⟩
          · exact .inl ⟨member, different⟩
          · exact .inr reserved
        · rintro (⟨member, different⟩ | reserved)
          · exact ⟨.inl member, different⟩
          · refine ⟨.inr reserved, ?_⟩
            rintro rfl
            have fresh := inv.held_fresh _ allowed
            simp [fresh] at reserved
      · exact fun current member =>
          inv.held_bound current (List.mem_filter.mp member).1
      · exact fun current member =>
          inv.held_fresh current (List.mem_filter.mp member).1

theorem PmmInv.run {initial : Bitmap} {ops : List PmmOp} {state : PmmState}
    (run : Run PmmStep ⟨initial, []⟩ ops state) : PmmInv initial state :=
  run.invariant (PmmInv initial) (fun _ _ _ inv step => inv.step step)
    (PmmInv.start initial)

theorem PmmInv.granted {initial : Bitmap} {state : PmmState}
    (inv : PmmInv initial state) {address : Nat} (grants : state.Grants address) :
    ∃ frame < 2 ^ 20, address = 4096 * frame ∧ frame ∉ state.held ∧
      bitAt initial frame = false := by
  obtain ⟨frame, bound, addressEq, clear⟩ := grants.frame
  have neither : ¬ (frame ∈ state.held ∨ bitAt initial frame = true) := by
    rw [← inv.bit_iff frame bound, clear]
    decide
  rw [not_or] at neither
  exact ⟨frame, bound, addressEq, neither.1, by simpa using neither.2⟩

def bootPmm (memory : Bitmap) : PmmState := ⟨initBitmapPmm memory, []⟩

def PageOutside (address first stop : Nat) : Prop :=
  address + 4096 ≤ first ∨ stop ≤ address

structure PmmSound (memory : Bitmap) (state : PmmState) : Prop where
  granted : ∀ address, state.Grants address →
    address / 4096 ∉ state.held ∧
      PageOutside address 0 0x200000 ∧
      PageOutside address 0x01000000 (0x01000000 + 104857600)
  bit_iff : ∀ frame < 2 ^ 20,
    bitAt state.bitmap frame = true ↔
      frame ∈ state.held ∨ bitAt (initBitmapPmm memory) frame = true

/-- In every state reached from `init_bitmap_PMM` by granting frames and
releasing held ones, the next grant is a frame nobody holds outside the reserved
memory, and the bitmap records exactly the held and the initial frames. -/
theorem pmm_run_sound (memory : Bitmap) {ops : List PmmOp} {state : PmmState}
    (run : Run PmmStep (bootPmm memory) ops state) : PmmSound memory state := by
  have inv := PmmInv.run run
  refine ⟨?_, inv.bit_iff⟩
  intro address grants
  obtain ⟨frame, bound, rfl, unheld, clear⟩ := inv.granted grants
  have outside : ¬ Prefilled frame := by
    rw [← bitAt_initBitmapPmm memory bound, clear]
    decide
  unfold Prefilled at outside
  refine ⟨?_, ?_, ?_⟩
  · rwa [show 4096 * frame / 4096 = frame by omega]
  · right
    omega
  · unfold PageOutside
    omega

theorem bootPmm_get (memory : Bitmap) : ((bootPmm memory).apply .get).held = [0x201] := by
  have prefilled := @bitAt_initBitmapPmm memory
  unfold bootPmm PmmState.apply
  generalize initBitmapPmm memory = bitmap at prefilled
  have unfilled : bitAt bitmap 0x201 = false := by
    rw [← Bool.not_eq_true, prefilled (by decide)]
    unfold Prefilled
    decide
  have grant := getFreePhysicalAddress_grant bitmap
  simp only
  generalize getFreePhysicalAddress bitmap = result at grant
  cases grant with
  | exhausted full =>
      rw [full 0x201 (by decide)] at unfilled
      cases unfilled
  | lowest frame bound clear below address result physical marked =>
      have same : frame = 0x201 := by
        rcases Nat.lt_trichotomy frame 0x201 with less | same | greater
        · have filled := (prefilled bound).mpr (.inl (Nat.le_of_lt_succ less))
          rw [clear] at filled
          cases filled
        · exact same
        · rw [below 0x201 greater] at unfilled
          cases unfilled
      rw [if_neg (success_ne_noMemory physical), physical, same]

theorem run_regrant {state : PmmState} {frame : Nat}
    (granted : frame ∈ (state.apply .get).held) :
    ∃ last, Run PmmStep state [.get, .get, .free (4096 * frame), .get] last := by
  have still : PmmOp.Allowed ((state.apply .get).apply .get) (.free (4096 * frame)) := by
    have here : 4096 * frame / 4096 = frame := Nat.mul_div_cancel_left frame (by decide)
    have kept : frame ∈ ((state.apply .get).apply .get).held := by
      generalize state.apply .get = first at granted
      simp only [PmmState.apply]
      split
      · exact granted
      · exact List.mem_cons_of_mem _ granted
    unfold PmmOp.Allowed
    simp only [here]
    exact kept
  exact ⟨_, .next ⟨trivial, rfl⟩ <| .next ⟨trivial, rfl⟩ <| .next ⟨still, rfl⟩ <|
    .next ⟨trivial, rfl⟩ (.done _)⟩

/-- Two frames are granted; the first of them is released and granted again. -/
theorem pmm_run_sound_regrant :
    ∃ state, Run PmmStep (bootPmm fun _ => 0) [.get, .get, .free 0x201000, .get] state ∧
      PmmSound (fun _ => 0) state := by
  obtain ⟨state, run⟩ := run_regrant
    (bootPmm_get (fun _ => 0) ▸ List.mem_singleton_self 0x201)
  exact ⟨state, run, pmm_run_sound (fun _ => 0) run⟩

end LazyOS.Memory

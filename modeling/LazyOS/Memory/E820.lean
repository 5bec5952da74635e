import LazyOS.Memory.PmmRuns

namespace LazyOS.Memory

open LazyOS.Data

/-! Which frames are handed out after the E820 map has been read: all those that
neither the prefill nor a reserved entry marks, whether or not the map calls them
memory. -/

/-- The frames that a reserved entry marks, after its base and length have been
narrowed to 32 bits. -/
def E820Entry.Marks (entry : E820Entry) (frame : Nat) : Prop :=
  entry.type ≠ 1 ∧
    FillMarks (toUInt32 entry.base.toNat) (toUInt32 entry.length.toNat) frame

def E820Entry.Provides (entry : E820Entry) (frame : Nat) : Prop :=
  entry.type = 1 ∧ entry.base.toNat ≤ 4096 * frame ∧
    4096 * frame + 4096 ≤ entry.base.toNat + entry.length.toNat

def E820Map.Marks (map : E820Map) (frame : Nat) : Prop :=
  ∃ i < map.cnt.toNat, (map.entries i).Marks frame

def E820Map.Provides (map : E820Map) (frame : Nat) : Prop :=
  ∃ i < map.cnt.toNat, (map.entries i).Provides frame

theorem bitAt_mark (bitmap : Bitmap) (entry : E820Entry) {frame : Nat}
    (bound : frame / 8 < 2 ^ 32) :
    bitAt (entry.mark bitmap) frame = true ↔
      bitAt bitmap frame = true ∨ entry.Marks frame := by
  unfold E820Entry.mark E820Entry.Marks
  by_cases usable : entry.type = 1
  · simp [usable]
  · rw [if_pos usable, bitAt_fillFromTo _ _ _ _ bound, and_iff_right usable]

theorem bitAt_e820Loop (entries : Nat → E820Entry) (remaining i : Nat)
    (bitmap : Bitmap) {frame : Nat} (bound : frame / 8 < 2 ^ 32) :
    bitAt (e820Loop entries remaining i bitmap) frame = true ↔
      bitAt bitmap frame = true ∨
        ∃ index, i ≤ index ∧ index < i + remaining ∧
          (entries index).Marks frame := by
  induction remaining generalizing i bitmap with
  | zero =>
      have none : ¬ ∃ index, i ≤ index ∧ index < i + 0 ∧
          (entries index).Marks frame := by
        rintro ⟨index, lower, upper, _⟩
        omega
      simp only [e820Loop, none, or_false]
  | succ remaining ih =>
      simp only [e820Loop]
      rw [ih, bitAt_mark _ _ bound, or_assoc]
      refine or_congr Iff.rfl ⟨?_, ?_⟩
      · rintro (here | ⟨index, lower, upper, marks⟩)
        · exact ⟨i, le_rfl, by omega, here⟩
        · exact ⟨index, by omega, by omega, marks⟩
      · rintro ⟨index, lower, upper, marks⟩
        by_cases here : index = i
        · exact .inl (here ▸ marks)
        · exact .inr ⟨index, by omega, by omega, marks⟩

def bootWithMap (memory : Bitmap) (map : E820Map) : PmmState :=
  ⟨getE820Mmap (initBitmapPmm memory) map, []⟩

theorem bitAt_bootWithMap (memory : Bitmap) (map : E820Map) {frame : Nat}
    (bound : frame < 2 ^ 20) :
    bitAt (bootWithMap memory map).bitmap frame = true ↔
      Prefilled frame ∨ map.Marks frame := by
  simp only [bootWithMap, getE820Mmap]
  rw [bitAt_e820Loop _ _ _ _ (by omega), bitAt_initBitmapPmm memory bound]
  simp [E820Map.Marks]

/-! Every clear frame is handed out by some run: grants go upwards, so asking
often enough reaches it. -/

theorem exists_run_granting (state : PmmState) (frame : Nat)
    (bound : frame < 2 ^ 20) (clear : bitAt state.bitmap frame = false) :
    ∃ ops final, Run PmmStep state ops final ∧ final.Grants (4096 * frame) := by
  induction missing : ((Finset.range frame).filter fun lower =>
      bitAt state.bitmap lower = false).card using Nat.strong_induction_on
      generalizing state with
  | _ count ih =>
      have grant := getFreePhysicalAddress_grant state.bitmap
      generalize resultEq : getFreePhysicalAddress state.bitmap = result at grant
      cases grant with
      | exhausted full => simp [full frame bound] at clear
      | lowest least leastBound leastClear below address marked physical bits =>
          rcases Nat.lt_trichotomy least frame with less | rfl | greater
          · -- The grant takes a lower frame; one clear frame fewer is left below.
            have next : (state.apply .get).bitmap = marked := by
              simp only [PmmState.apply, resultEq]
            have stillClear : bitAt (state.apply .get).bitmap frame = false := by
              rw [next, bits, clear]
              simp
              omega
            have fewer : ((Finset.range frame).filter fun lower =>
                bitAt (state.apply .get).bitmap lower = false).card < count := by
              rw [← missing]
              apply Finset.card_lt_card
              refine Finset.ssubset_iff_of_subset ?_ |>.mpr ⟨least, ?_, ?_⟩
              · intro lower member
                simp only [Finset.mem_filter, next, bits, Bool.or_eq_false_iff]
                  at member ⊢
                exact ⟨member.1, member.2.1⟩
              · simp [less, leastClear]
              · simp [next, bits]
            obtain ⟨ops, final, run, grants⟩ := ih _ fewer _ stillClear rfl
            exact ⟨.get :: ops, final, .next ⟨trivial, rfl⟩ run, grants⟩
          · refine ⟨[], state, .done state, ?_, ?_⟩
            · rw [resultEq]
              exact success_ne_noMemory physical
            · rw [resultEq]
              exact physical
          · simp [below frame greater] at clear

/-- Every frame handed out by any run after the map was read is memory. -/
def OnlyRam (memory : Bitmap) (map : E820Map) : Prop :=
  ∀ ops state, Run PmmStep (bootWithMap memory map) ops state →
    ∀ address, state.Grants address → map.Provides (address / 4096)

theorem onlyRam_of_covered {memory : Bitmap} {map : E820Map}
    (covered : ∀ frame < 2 ^ 20, ¬ Prefilled frame → ¬ map.Marks frame →
      map.Provides frame) : OnlyRam memory map := by
  intro ops state run address grants
  obtain ⟨frame, bound, rfl, -, clear⟩ := (PmmInv.run run).granted grants
  have unmarked : ¬ (Prefilled frame ∨ map.Marks frame) := by
    rw [← bitAt_bootWithMap memory map bound]
    simpa [bootWithMap] using clear
  rw [not_or] at unmarked
  rw [show 4096 * frame / 4096 = frame by omega]
  exact covered frame bound unmarked.1 unmarked.2

theorem covered_of_onlyRam {memory : Bitmap} {map : E820Map}
    (onlyRam : OnlyRam memory map) {frame : Nat} (bound : frame < 2 ^ 20)
    (unfilled : ¬ Prefilled frame) (unmarked : ¬ map.Marks frame) :
    map.Provides frame := by
  have clear : bitAt (bootWithMap memory map).bitmap frame = false := by
    rw [← Bool.not_eq_true, bitAt_bootWithMap memory map bound, not_or]
    exact ⟨unfilled, unmarked⟩
  obtain ⟨ops, state, run, grants⟩ := exists_run_granting _ frame bound clear
  have provides := onlyRam ops state run _ grants
  rwa [show 4096 * frame / 4096 = frame by omega] at provides

/-- Only memory is handed out exactly when every frame that neither the prefill
nor a reserved entry marks belongs to a usable entry. -/
theorem onlyRam_iff (memory : Bitmap) (map : E820Map) :
    OnlyRam memory map ↔
      ∀ frame < 2 ^ 20, ¬ Prefilled frame → ¬ map.Marks frame →
        map.Provides frame :=
  ⟨fun onlyRam _ bound unfilled unmarked =>
    covered_of_onlyRam onlyRam bound unfilled unmarked, onlyRam_of_covered⟩

/-- Usable memory on both sides of three reserved pages at `0x208000`, without a
gap below 4 GiB. -/
def threeReservedPages : E820Map where
  cnt := 3
  entries
    | 0 => ⟨0, 0x208000, 1, 1⟩
    | 1 => ⟨0x208000, 0x3000, 2, 1⟩
    | _ => ⟨0x20B000, 0xFFDF5000, 1, 1⟩

/-- Of the three reserved pages only the first is marked, so the second one is
handed out. -/
theorem reserved_page_handed_out : ¬ ∀ memory map, OnlyRam memory map := by
  intro leavesRam
  have notMarked : ¬ threeReservedPages.Marks 0x209 := by
    rintro ⟨i, inside, marks⟩
    have small : i < 3 := inside
    interval_cases i
    · exact marks.1 rfl
    · exact absurd marks.2 (by decide +kernel)
    · exact marks.1 rfl
  have provided : threeReservedPages.Provides 0x209 :=
    covered_of_onlyRam (leavesRam (fun _ => 0) threeReservedPages) (by decide)
      (by unfold Prefilled; omega) notMarked
  obtain ⟨i, inside, usable, lower, upper⟩ := provided
  have small : i < 3 := inside
  interval_cases i
  · exact absurd upper (by decide)
  · exact absurd usable (by decide)
  · exact absurd lower (by decide)

/-! First bytes and high bases.  The base is rounded up and narrowed to 32 bits, as
is the length. -/

def e820Before (bitmap : Bitmap) (map : E820Map) (i : Nat) : Bitmap :=
  e820Loop map.entries i 0 bitmap

/-- The frame of the first byte of every reserved entry below 4 GiB is taken, and
an entry from 4 GiB on changes no bit. -/
structure RoundsOutward (bitmap : Bitmap) (map : E820Map) : Prop where
  low : ∀ i < map.cnt.toNat, (map.entries i).type ≠ 1 →
    (map.entries i).base.toNat < 2 ^ 32 →
      bitAt (getE820Mmap bitmap map) ((map.entries i).base.toNat / 4096) = true
  high : ∀ i < map.cnt.toNat, 2 ^ 32 ≤ (map.entries i).base.toNat →
    ∀ frame < 2 ^ 20,
      bitAt ((map.entries i).mark (e820Before bitmap map i)) frame =
        bitAt (e820Before bitmap map i) frame

/-- The base is page-aligned and some of the length is left when it is narrowed.
The last byte below 4 GiB is special: with the longest length the marks go around
the index space and come back to its frame. -/
def E820Entry.KeepsFirst (entry : E820Entry) : Prop :=
  entry.base.toNat % 4096 = 0 ∧ entry.length.toNat % 2 ^ 32 ≠ 0 ∨
    entry.base.toNat = 2 ^ 32 - 1 ∧ entry.length.toNat % 2 ^ 32 = 2 ^ 32 - 1

structure NarrowsSafely (bitmap : Bitmap) (map : E820Map) : Prop where
  low : ∀ i < map.cnt.toNat, (map.entries i).type ≠ 1 →
    (map.entries i).base.toNat < 2 ^ 32 →
      (map.entries i).KeepsFirst ∨
        bitAt bitmap ((map.entries i).base.toNat / 4096) = true ∨
        ∃ j < map.cnt.toNat, j ≠ i ∧
          (map.entries j).Marks ((map.entries i).base.toNat / 4096)
  high : ∀ i < map.cnt.toNat, 2 ^ 32 ≤ (map.entries i).base.toNat →
    ∀ frame < 2 ^ 20, (map.entries i).Marks frame →
      bitAt bitmap frame = true ∨ ∃ j < i, (map.entries j).Marks frame

theorem fillCount_of_word (base : Nat) {len : Nat} (word : len < 2 ^ 32) :
    fillCount base len ≤ 2 ^ 32 ∧ (0 < fillCount base len ↔ len ≠ 0) := by
  have frames := frames_of_word word
  unfold fillCount
  simp only
  generalize toUInt32 (calcFrames len) = count at *
  split_ifs at frames ⊢ <;> omega

theorem E820Entry.marks_first_iff {entry : E820Entry} (reserved : entry.type ≠ 1)
    (below : entry.base.toNat < 2 ^ 32) :
    entry.Marks (entry.base.toNat / 4096) ↔ entry.KeepsFirst := by
  unfold E820Entry.Marks E820Entry.KeepsFirst FillMarks
  rw [and_iff_right reserved, toUInt32_natCast, toUInt32_natCast,
    Nat.mod_eq_of_lt below]
  generalize entry.base.toNat = base at *
  have word : entry.length.toNat % 2 ^ 32 < 2 ^ 32 := Nat.mod_lt _ (by decide)
  generalize entry.length.toNat % 2 ^ 32 = len at *
  obtain ⟨most, some⟩ := fillCount_of_word base word
  by_cases last : base = 2 ^ 32 - 1
  · subst last
    have start : fillStart (2 ^ 32 - 1) = 2 ^ 35 - 1 := by decide +kernel
    have count : 2 ^ 20 < fillCount (2 ^ 32 - 1) len ↔ len = 2 ^ 32 - 1 := by
      have frames := frames_of_word word
      unfold fillCount
      rw [start]
      simp only
      generalize toUInt32 (calcFrames len) = frames at *
      split_ifs at frames ⊢ <;> omega
    rw [start]
    omega
  · rw [fillStart_of_word (by omega)]
    by_cases aligned : base % 4096 = 0
    · rw [show base / 4096 + 2 ^ 35 - (base + 4095) / 4096 = 2 ^ 35 by omega, Nat.mod_self]
      omega
    · rw [show base / 4096 + 2 ^ 35 - (base + 4095) / 4096 = 2 ^ 35 - 1 by omega,
        Nat.mod_eq_of_lt (by omega)]
      omega

theorem bitAt_e820Before (bitmap : Bitmap) (map : E820Map) (i : Nat) {frame : Nat}
    (bound : frame / 8 < 2 ^ 32) :
    bitAt (e820Before bitmap map i) frame = true ↔
      bitAt bitmap frame = true ∨ ∃ j < i, (map.entries j).Marks frame := by
  unfold e820Before
  rw [bitAt_e820Loop _ _ _ _ bound]
  simp

/-- The map is read without loss exactly when each reserved entry below 4 GiB marks
its first frame itself or finds it marked, and each frame that an entry from 4 GiB
on marks by its lower 32 bits was taken before. -/
theorem rounds_outward_iff (bitmap : Bitmap) (map : E820Map) :
    RoundsOutward bitmap map ↔ NarrowsSafely bitmap map := by
  have lowIff : ∀ i < map.cnt.toNat, (map.entries i).type ≠ 1 →
      (map.entries i).base.toNat < 2 ^ 32 →
      (bitAt (getE820Mmap bitmap map) ((map.entries i).base.toNat / 4096) = true ↔
        (map.entries i).KeepsFirst ∨
          bitAt bitmap ((map.entries i).base.toNat / 4096) = true ∨
          ∃ j < map.cnt.toNat, j ≠ i ∧
            (map.entries j).Marks ((map.entries i).base.toNat / 4096)) := by
    intro i inside reserved below
    rw [← E820Entry.marks_first_iff reserved below]
    change bitAt (e820Before bitmap map map.cnt.toNat) _ = true ↔ _
    rw [bitAt_e820Before _ _ _ (by omega)]
    constructor
    · rintro (set | ⟨j, bound, marks⟩)
      · exact .inr (.inl set)
      · by_cases own : j = i
        · exact .inl (own ▸ marks)
        · exact .inr (.inr ⟨j, bound, own, marks⟩)
    · rintro (own | set | ⟨j, bound, -, marks⟩)
      · exact .inr ⟨i, inside, own⟩
      · exact .inl set
      · exact .inr ⟨j, bound, marks⟩
  have highIff : ∀ i, ∀ frame < 2 ^ 20,
      (bitAt ((map.entries i).mark (e820Before bitmap map i)) frame =
          bitAt (e820Before bitmap map i) frame ↔
        ((map.entries i).Marks frame →
          bitAt bitmap frame = true ∨ ∃ j < i, (map.entries j).Marks frame)) := by
    intro i frame bound
    rw [Bool.eq_iff_iff, bitAt_mark _ _ (by omega), bitAt_e820Before _ _ _ (by omega),
      or_iff_left_iff_imp]
  constructor
  · rintro ⟨low, high⟩
    refine ⟨fun i inside reserved below => ?_, fun i inside above frame bound => ?_⟩
    · exact (lowIff i inside reserved below).mp (low i inside reserved below)
    · exact (highIff i frame bound).mp (high i inside above frame bound)
  · rintro ⟨low, high⟩
    refine ⟨fun i inside reserved below => ?_, fun i inside above frame bound => ?_⟩
    · exact (lowIff i inside reserved below).mpr (low i inside reserved below)
    · exact (highIff i frame bound).mpr (high i inside above frame bound)

def halfPageReserved : E820Map where
  cnt := 1
  entries := fun _ => ⟨0x7FFE0800, 0x800, 2, 1⟩

/-- The page of the reserved half is left free and the next one is taken. -/
theorem half_page_left_free :
    ¬ ∀ (bitmap : Bitmap) (map : E820Map),
      (∀ i < map.cnt.toNat, (map.entries i).length ≠ 0) → RoundsOutward bitmap map := by
  intro roundsAll
  have rounds := roundsAll (initBitmapPmm fun _ => 0) halfPageReserved fun _ _ =>
    show (0x800 : BitVec 64) ≠ 0 by decide
  have taken : bitAt (bootWithMap (fun _ => 0) halfPageReserved).bitmap 0x7FFE0 = true :=
    rounds.low 0 (by decide) (by decide) (by decide)
  rw [bitAt_bootWithMap _ _ (by decide)] at taken
  rcases taken with filled | ⟨i, -, marks⟩
  · unfold Prefilled at filled
    omega
  · exact absurd marks.2
      (show ¬ FillMarks (toUInt32 (0x7FFE0800 : Nat)) (toUInt32 (0x800 : Nat)) 0x7FFE0 by
        decide +kernel)

end LazyOS.Memory

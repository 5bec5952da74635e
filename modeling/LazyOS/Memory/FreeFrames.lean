import LazyOS.Data.Lowest
import LazyOS.Memory.PmmRuns

namespace LazyOS.Memory

open LazyOS.Data

/-! Frames are granted from the lowest free one upwards. -/

structure GrantsLowest (bitmap : Bitmap) : Prop where
  lowest : ∀ frame < 2 ^ 20, bitAt bitmap frame = false →
    (∀ lower < frame, bitAt bitmap lower = true) →
      toUInt32 (getFreePhysicalAddress bitmap).1 = 4096 * frame ∧
        (getFreePhysicalAddress bitmap).1 ≠ -noMemory ∧
        (∀ position, bitAt (getFreePhysicalAddress bitmap).2 position =
          (bitAt bitmap position || decide (position = frame))) ∧
        freePhysicalFrame (getFreePhysicalAddress bitmap).2
          (toUInt32 (getFreePhysicalAddress bitmap).1) = bitmap
  exhausted : (∀ frame < 2 ^ 20, bitAt bitmap frame = true) →
    getFreePhysicalAddress bitmap = (-noMemory, bitmap)

theorem freePhysicalFrame_of_marked {bitmap marked : Bitmap} {frame : Nat}
    (clear : bitAt bitmap frame = false)
    (bits : ∀ position,
      bitAt marked position = (bitAt bitmap position || decide (position = frame))) :
    freePhysicalFrame marked (4096 * frame) = bitmap := by
  apply bitmap_ext
  intro position
  rw [bitAt_freePhysicalFrame, bits, show 4096 * frame / 4096 = frame by omega]
  by_cases here : position = frame
  · simp [here, clear]
  · simp [here]

/-- Whatever the bitmap holds, a grant takes the lowest clear frame and nothing
else, and its release gives the bitmap back. -/
theorem grants_lowest (bitmap : Bitmap) : GrantsLowest bitmap := by
  have grant := getFreePhysicalAddress_grant bitmap
  generalize resultEq : getFreePhysicalAddress bitmap = result at grant
  refine ⟨fun frame bound clear below => ?_, fun full => ?_⟩
  · rw [resultEq]
    cases grant with
    | exhausted full =>
        rw [full frame bound] at clear
        exact absurd clear (by decide)
    | lowest least leastBound leastClear leastBelow address marked physical bits =>
        obtain rfl : least = frame := by
          rcases Nat.lt_trichotomy least frame with less | same | greater
          · rw [below least less] at leastClear
            exact absurd leastClear (by decide)
          · exact same
          · rw [leastBelow frame greater] at clear
            exact absurd clear (by decide)
        refine ⟨physical, success_ne_noMemory physical, bits, ?_⟩
        rw [physical]
        exact freePhysicalFrame_of_marked clear bits
  · rw [resultEq]
    cases grant with
    | exhausted _ => rfl
    | lowest least leastBound leastClear _ _ _ _ _ =>
        rw [full least leastBound] at leastClear
        exact absurd leastClear (by decide)

def FreeFrame (bitmap : Bitmap) (frame : Nat) : Prop :=
  frame < 2 ^ 20 ∧ bitAt bitmap frame = false

instance (bitmap : Bitmap) : DecidablePred (FreeFrame bitmap) := fun _ =>
  inferInstanceAs (Decidable (_ ∧ _))

def freeFrames (bitmap : Bitmap) : Nat := Nat.count (FreeFrame bitmap) (2 ^ 20)

/-- The `i`-th lowest free frame, counted from 0. -/
noncomputable def freeFrame (bitmap : Bitmap) (i : Nat) : Nat :=
  Nat.nth (FreeFrame bitmap) i

theorem freeFrame_spec {bitmap : Bitmap} {i : Nat} (enough : i < freeFrames bitmap) :
    freeFrame bitmap i < 2 ^ 20 ∧ FreeFrame bitmap (freeFrame bitmap i) ∧
      Nat.count (FreeFrame bitmap) (freeFrame bitmap i) = i :=
  nth_of_lt_count enough

/-- `after` is `before` with its free frames `first`, …, `stop - 1` taken. -/
def HoldsFrames (before after : Bitmap) (first stop : Nat) : Prop :=
  ∀ position, bitAt after position = true ↔
    bitAt before position = true ∨ Placed (FreeFrame before) first stop position

theorem HoldsFrames.refl (bitmap : Bitmap) (place : Nat) :
    HoldsFrames bitmap bitmap place place := fun position => by
  rw [or_iff_left (not_placed_empty place position)]

theorem HoldsFrames.eq {before after : Bitmap} {place : Nat}
    (holds : HoldsFrames before after place place) : after = before := by
  apply bitmap_ext
  intro position
  rw [Bool.eq_iff_iff, holds position, or_iff_left (not_placed_empty place position)]

theorem HoldsFrames.freeFrame_set {before after : Bitmap} {taken k : Nat}
    (holds : HoldsFrames before after 0 taken) (less : k < taken)
    (enough : k < freeFrames before) :
    bitAt after (freeFrame before k) = true := by
  obtain ⟨-, free, counted⟩ := freeFrame_spec enough
  exact (holds _).mpr (.inr ⟨free, Nat.zero_le _, by omega⟩)

theorem HoldsFrames.ne {before after : Bitmap} {taken : Nat}
    (holds : HoldsFrames before after 0 taken) (some : 0 < taken)
    (free : 0 < freeFrames before) : after ≠ before := by
  rintro rfl
  have set := holds.freeFrame_set some free
  rw [(freeFrame_spec free).2.1.2] at set
  exact absurd set (by decide)

/-- The next grant, after `taken` of them: there are no more free frames, or the
next one is taken. -/
theorem HoldsFrames.grant {before bitmap : Bitmap} {taken : Nat}
    (holds : HoldsFrames before bitmap 0 taken) :
    freeFrames before ≤ taken ∧
        getFreePhysicalAddress bitmap = (-noMemory, bitmap) ∨
      taken < freeFrames before ∧
        ∃ address after, getFreePhysicalAddress bitmap = (address, after) ∧
          address ≠ -noMemory ∧
          toUInt32 address = 4096 * freeFrame before taken ∧
          HoldsFrames before after 0 (taken + 1) := by
  have grant := getFreePhysicalAddress_grant bitmap
  generalize getFreePhysicalAddress bitmap = result at grant
  cases grant with
  | exhausted full =>
      refine .inl ⟨?_, rfl⟩
      by_contra more
      obtain ⟨bound, free, counted⟩ := freeFrame_spec (show taken < freeFrames before by omega)
      rcases (holds _).mp (full _ bound) with set | placed
      · rw [free.2] at set
        exact absurd set (by decide)
      · have := placed.2.2
        omega
  | lowest frame bound clear below address after physical bits =>
      have unheld : ¬ (bitAt before frame = true ∨
          Placed (FreeFrame before) 0 taken frame) := by
        rw [← holds frame, clear]
        decide
      rw [not_or] at unheld
      have free : FreeFrame before frame := ⟨bound, by simpa using unheld.1⟩
      have counted := count_of_least free unheld.2 fun lower less free =>
        ((holds lower).mp (below lower less)).resolve_left (by simp [free.2])
      have enough : taken < freeFrames before := by
        rw [← counted]
        exact Nat.count_strict_mono free bound
      refine .inr ⟨enough, address, after, rfl, success_ne_noMemory physical, ?_, ?_⟩
      · rw [physical, freeFrame, nth_of_count free counted]
      · intro position
        rw [bits, Bool.or_eq_true, holds position, decide_eq_true_eq,
          placed_succ_iff free counted (Nat.zero_le _), or_assoc]

theorem HoldsFrames.release {before bitmap : Bitmap} {first stop : Nat}
    (holds : HoldsFrames before bitmap first stop) (enough : first < freeFrames before) :
    HoldsFrames before (freePhysicalFrame bitmap (4096 * freeFrame before first))
      (first + 1) stop := by
  obtain ⟨-, free, counted⟩ := freeFrame_spec enough
  intro position
  rw [bitAt_freePhysicalFrame, Bool.and_eq_true, holds position,
    placed_pred_iff free counted,
    show 4096 * freeFrame before first / 4096 = freeFrame before first by omega,
    Bool.not_eq_true', decide_eq_false_iff_not]
  constructor
  · rintro ⟨set | placed, different⟩
    · exact .inl set
    · exact .inr ⟨placed, different⟩
  · rintro (set | ⟨placed, different⟩)
    · refine ⟨.inl set, ?_⟩
      rintro rfl
      rw [free.2] at set
      exact absurd set (by decide)
    · exact ⟨.inr placed, different⟩

end LazyOS.Memory

import LazyOS.Data.Word

namespace LazyOS.Data

/-! Bitmaps stored in bytes, eight positions a byte, the lowest bit first. -/

abbrev Bitmap := Nat → Byte

def bitAt (bitmap : Bitmap) (position : Nat) : Bool :=
  (bitmap (position / 8)).getLsbD (position % 8)

def Bitmap.orByte (bitmap : Bitmap) (index : Nat) (mask : Byte) : Bitmap :=
  Function.update bitmap index (bitmap index ||| mask)

def Bitmap.andNotByte (bitmap : Bitmap) (index : Nat) (mask : Byte) : Bitmap :=
  Function.update bitmap index (bitmap index &&& ~~~mask)

theorem bitAt_orByte (bitmap : Bitmap) (index : Nat) (mask : Byte)
    (position : Nat) :
    bitAt (bitmap.orByte index mask) position =
      (bitAt bitmap position ||
        (decide (position / 8 = index) && mask.getLsbD (position % 8))) := by
  unfold bitAt Bitmap.orByte
  by_cases here : position / 8 = index
  · subst here
    simp
  · rw [Function.update_of_ne here]
    simp [here]

theorem bitAt_andNotByte (bitmap : Bitmap) (index : Nat) (mask : Byte)
    (position : Nat) :
    bitAt (bitmap.andNotByte index mask) position =
      (bitAt bitmap position &&
        !(decide (position / 8 = index) && mask.getLsbD (position % 8))) := by
  have inByte : position % 8 < 8 := Nat.mod_lt _ (by decide)
  unfold bitAt Bitmap.andNotByte
  by_cases here : position / 8 = index
  · subst here
    simp [inByte]
  · rw [Function.update_of_ne here]
    simp [here]

theorem bitmap_ext {left right : Bitmap}
    (same : ∀ position, bitAt left position = bitAt right position) :
    left = right := by
  funext index
  apply BitVec.eq_of_getLsbD_eq
  intro bit bound
  have here := same (8 * index + bit)
  unfold bitAt at here
  rwa [show (8 * index + bit) / 8 = index by omega,
    show (8 * index + bit) % 8 = bit by omega] at here

theorem getLsbD_one_shiftLeft {shift bit : Nat} (bound : bit < 8) :
    (1#8 <<< shift).getLsbD bit = decide (bit = shift) := by
  rw [← BitVec.twoPow_eq, BitVec.getLsbD_twoPow]
  by_cases same : bit = shift
  · simp [← same, bound]
  · simp [same, Ne.symm same]

theorem eq_allOnes_iff (byte : Byte) :
    byte = 255 ↔ ∀ bit < 8, byte.getLsbD bit = true := by
  constructor
  · rintro rfl
    decide
  · intro set
    apply BitVec.eq_of_getLsbD_eq
    intro bit bound
    rw [set bit bound]
    exact ((by decide : ∀ bit < 8, (255 : Byte).getLsbD bit = true) bit bound).symm

end LazyOS.Data

import Mathlib.Tactic

namespace LazyOS.Data

/-! Fixed-width values of the target: a 32-bit little-endian machine whose `int`
arithmetic wraps. -/

abbrev Byte := BitVec 8

abbrev Half := BitVec 16

abbrev Word := BitVec 32

def toInt32 (value : Int) : Int := value.bmod (2 ^ 32)

def toUInt32 (value : Int) : Nat := (value % 2 ^ 32).toNat

theorem toInt32_of_range {value : Int}
    (lower : -2 ^ 31 ≤ value) (upper : value < 2 ^ 31) :
    toInt32 value = value := by
  unfold toInt32
  apply Int.bmod_eq_of_le
  · norm_num
    omega
  · norm_num
    omega

theorem toInt32_of_upper {value : Int} (lower : 2 ^ 31 ≤ value)
    (upper : value < 2 ^ 32) : toInt32 value = value - 2 ^ 32 := by
  unfold toInt32 Int.bmod
  rw [if_neg (by norm_num; omega)]
  norm_num
  omega

theorem toInt32_le_natCast (value : Nat) : toInt32 value ≤ value := by
  unfold toInt32
  have upper := Int.bmod_le (x := value) (m := 2 ^ 32) (by decide)
  by_cases small : value < 2 ^ 31
  · exact (toInt32_of_range (by omega) (by omega)).le
  · omega

theorem toInt32_mod (value : Nat) : toInt32 (value % 2 ^ 32 : Nat) = toInt32 value := by
  unfold toInt32
  rw [Int.natCast_mod]
  exact Int.emod_bmod _ _

theorem toUInt32_of_range (value : Int)
    (lower : 0 ≤ value) (upper : value < 2 ^ 32) :
    (toUInt32 value : Int) = value := by
  unfold toUInt32
  omega

theorem toUInt32_lt (value : Int) : toUInt32 value < 2 ^ 32 := by
  unfold toUInt32
  omega

theorem toUInt32_natCast (value : Nat) : toUInt32 value = value % 2 ^ 32 := by
  unfold toUInt32
  omega

theorem toUInt32_toInt32 (value : Int) : toUInt32 (toInt32 value) = toUInt32 value := by
  unfold toUInt32 toInt32
  rw [show (2 : Int) ^ 32 = ((2 ^ 32 : Nat) : Int) by norm_num, Int.bmod_emod]

def leByte (value k : Nat) : Byte := BitVec.ofNat 8 (value / 256 ^ k)

def leValue : (count : Nat) → (bytes : Nat → Byte) → Nat
  | 0, _ => 0
  | count + 1, bytes =>
      (bytes 0).toNat + 256 * leValue count fun k => bytes (k + 1)

theorem leValue_congr {count : Nat} {left right : Nat → Byte}
    (agree : ∀ k < count, left k = right k) :
    leValue count left = leValue count right := by
  induction count generalizing left right with
  | zero => rfl
  | succ count ih =>
      simp only [leValue]
      rw [agree 0 (by omega), ih fun k bound => agree (k + 1) (by omega)]

theorem leValue_leByte (count value : Nat) :
    leValue count (leByte value) = value % 256 ^ count := by
  induction count generalizing value with
  | zero => simp [leValue, Nat.mod_one]
  | succ count ih =>
      have shifted : (fun k => leByte value (k + 1)) = leByte (value / 256) := by
        funext k
        unfold leByte
        rw [Nat.pow_succ', Nat.div_div_eq_div_mul]
      simp only [leValue, shifted, ih]
      rw [Nat.pow_succ', Nat.mod_mul]
      simp [leByte]

theorem leByte_leValue {count k : Nat} (bytes : Nat → Byte) (bound : k < count) :
    leByte (leValue count bytes) k = bytes k := by
  induction count generalizing k bytes with
  | zero => omega
  | succ count ih =>
      have first := (bytes 0).isLt
      cases k with
      | zero =>
          apply BitVec.eq_of_toNat_eq
          simp only [leByte, leValue, Nat.pow_zero, Nat.div_one, BitVec.toNat_ofNat]
          omega
      | succ k =>
          rw [← ih (fun k => bytes (k + 1)) (Nat.lt_of_succ_lt_succ bound)]
          simp only [leByte, leValue]
          rw [Nat.pow_succ', ← Nat.div_div_eq_div_mul, Nat.add_mul_div_left _ _ (by decide),
            Nat.div_eq_of_lt first, Nat.zero_add]

theorem leValue_eq_zero_iff (count : Nat) (bytes : Nat → Byte) :
    leValue count bytes = 0 ↔ ∀ k < count, bytes k = 0 := by
  induction count generalizing bytes with
  | zero => simp [leValue]
  | succ count ih =>
      have head : (bytes 0).toNat = 0 ↔ bytes 0 = 0 := BitVec.toNat_eq_nat.trans (by simp)
      have scale : ¬ 256 = 0 := by decide
      simp only [leValue, Nat.add_eq_zero_iff, Nat.mul_eq_zero, ih, head, scale, false_or]
      rw [Nat.forall_lt_succ_left]

theorem leValue_lt (count : Nat) (bytes : Nat → Byte) :
    leValue count bytes < 256 ^ count := by
  induction count generalizing bytes with
  | zero => exact Nat.one_pos
  | succ count ih =>
      have first := (bytes 0).isLt
      have rest := ih fun k => bytes (k + 1)
      simp only [leValue]
      rw [Nat.pow_succ']
      omega

theorem ofNat_leValue_eq_zero_iff (width count : Nat) (fits : 256 ^ count ≤ 2 ^ width)
    (bytes : Nat → Byte) :
    BitVec.ofNat width (leValue count bytes) = 0 ↔ ∀ k < count, bytes k = 0 := by
  have small : leValue count bytes < 2 ^ width := (leValue_lt count bytes).trans_le fits
  rw [← leValue_eq_zero_iff, ← BitVec.toNat_inj, BitVec.toNat_ofNat, Nat.mod_eq_of_lt small]
  rfl

theorem leValue_half (value : Half) :
    leValue 2 (leByte value.toNat) = value.toNat := by
  have bound := value.isLt
  rw [leValue_leByte]
  omega

theorem leValue_word (value : Word) :
    leValue 4 (leByte value.toNat) = value.toNat := by
  have bound := value.isLt
  rw [leValue_leByte]
  omega

end LazyOS.Data

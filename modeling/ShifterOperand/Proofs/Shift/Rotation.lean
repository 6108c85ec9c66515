import Mathlib.Algebra.Order.Ring.Nat
import Mathlib.Data.Nat.Bitwise
import Mathlib.Tactic.Ring

/-!
# Rotation of whole numbers

A number of a fixed width rotated right, as a sum of two parts that do not overlap. Bit by bit this is
a cyclic renumbering, so that rotations add up modulo the width.
-/
namespace ShifterOperand

/-- The number rotated right by less than its width: the low places go to the top. -/
def rotated (width places v : ℕ) : ℕ := v % 2 ^ places * 2 ^ (width - places) + v / 2 ^ places

theorem div_two_pow_lt {width places v : ℕ} (hp : places ≤ width) (hv : v < 2 ^ width) :
    v / 2 ^ places < 2 ^ (width - places) := by
  rw [Nat.div_lt_iff_lt_mul (Nat.two_pow_pos _), ← pow_add, Nat.sub_add_cancel hp]
  exact hv

theorem rotated_lt {width places v : ℕ} (hp : places ≤ width) (hv : v < 2 ^ width) :
    rotated width places v < 2 ^ width := by
  have hlow := div_two_pow_lt hp hv
  have htop : v % 2 ^ places + 1 ≤ 2 ^ places := Nat.mod_lt _ (Nat.two_pow_pos _)
  have hmul := Nat.mul_le_mul_right (2 ^ (width - places)) htop
  rw [← pow_add, Nat.add_sub_cancel' hp, Nat.add_mul, Nat.one_mul] at hmul
  unfold rotated
  omega

/-- A number that goes out at the bottom as a whole comes back at the top as a whole. -/
theorem rotated_of_lt {width places v : ℕ} (h : v < 2 ^ places) :
    rotated width places v = v * 2 ^ (width - places) := by
  rw [rotated, Nat.mod_eq_of_lt h, Nat.div_eq_of_lt h, Nat.add_zero]

/-- The bit at a place comes from as many places higher, counted round the number. -/
theorem testBit_rotated {width places v i : ℕ} (hp : places < width) (hv : v < 2 ^ width)
    (hi : i < width) : (rotated width places v).testBit i = v.testBit ((i + places) % width) := by
  have hlow := div_two_pow_lt hp.le hv
  rw [rotated, Nat.mul_comm, Nat.testBit_two_pow_mul_add _ hlow]
  split
  · next h => rw [Nat.testBit_div_two_pow, Nat.mod_eq_of_lt (by omega)]
  · next h =>
    have hwrap : (i + places) % width = i - (width - places) := by
      rw [Nat.mod_eq_sub_mod (by omega), Nat.mod_eq_of_lt (by omega)]
      omega
    rw [Nat.testBit_mod_two_pow, hwrap]
    simp only [show i - (width - places) < places by omega, decide_true, Bool.true_and]

theorem eq_of_testBit_eq_of_lt {width a b : ℕ} (ha : a < 2 ^ width) (hb : b < 2 ^ width)
    (h : ∀ i < width, a.testBit i = b.testBit i) : a = b := by
  apply Nat.eq_of_testBit_eq
  intro i
  by_cases hi : i < width
  · exact h i hi
  · have hpow : 2 ^ width ≤ 2 ^ i := Nat.pow_le_pow_right (by omega) (by omega)
    rw [Nat.testBit_lt_two_pow (ha.trans_le hpow), Nat.testBit_lt_two_pow (hb.trans_le hpow)]

theorem rotated_rotated {width m n v : ℕ} (hw : 0 < width) (hv : v < 2 ^ width) :
    rotated width (n % width) (rotated width (m % width) v) = rotated width ((m + n) % width) v := by
  have hm := Nat.mod_lt m hw
  have hn := Nat.mod_lt n hw
  have hmn := Nat.mod_lt (m + n) hw
  have hr := rotated_lt hm.le hv
  apply eq_of_testBit_eq_of_lt (rotated_lt hn.le hr) (rotated_lt hmn.le hv)
  intro i hi
  rw [testBit_rotated hn hr hi, testBit_rotated hm hv (Nat.mod_lt _ hw), testBit_rotated hmn hv hi]
  congr 1
  simp only [Nat.add_mod_mod, Nat.mod_add_mod]
  congr 1
  omega

end ShifterOperand

import Mathlib.Algebra.Order.Ring.Int
import Mathlib.Data.Int.ModEq
import Mathlib.Tactic.Positivity
import ShifterOperand.Proofs.Shift.Exact

/-!
# Sign extension as a balanced remainder

The low bits of a word, read as a signed number, are the remainder of the word that lies as close to
zero as it can. The shift to the left and back that computes it says nothing of the kind by itself: the
one loses the bits above, and the other divides.
-/
namespace ShifterOperand

theorem signed_eq_bmod (v : UInt32) : signed v.toNat = (v.toNat : ℤ).bmod (2 ^ 32) := by
  rw [signed_eq_toInt, BitVec.toInt_eq_toNat_bmod, UInt32.toNat_toBitVec]

/-- A remainder of few bits does not see whether the top bit of the word counts as a sign. -/
theorem bmod_toNat (v : UInt32) {width : ℕ} (h : width ≤ 32) :
    (v.toNat : ℤ).bmod (2 ^ width) = (signed v.toNat).bmod (2 ^ width) := by
  rw [signed_eq_bmod, Int.bmod_bmod_of_dvd (Nat.pow_dvd_pow 2 h)]

theorem signed_inj {x y : UInt32} (h : signed x.toNat = signed y.toNat) : x = y := by
  rw [signed_eq_toInt, signed_eq_toInt] at h
  exact UInt32.toBitVec_inj.mp (BitVec.eq_of_toInt_eq h)

theorem bmod_natCast_mod (a b : ℕ) : ((a % b : ℕ) : ℤ).bmod b = (a : ℤ).bmod b := by
  rw [Int.natCast_emod, Int.emod_bmod]

/-- A shift to the left as a multiple, of which the word keeps the balanced remainder. -/
theorem signed_shiftLeft (v : UInt32) {count : UInt32} (h : count.toNat < 32) :
    signed (v <<< count).toNat = (v.toNat * 2 ^ count.toNat : ℤ).bmod (2 ^ 32) := by
  rw [signed_eq_bmod, UInt32.toNat_shiftLeft, Nat.mod_eq_of_lt h, Nat.shiftLeft_eq,
    bmod_natCast_mod]
  push_cast
  rfl

/-- A shift to the right with copies of the sign is a division. -/
theorem signed_sshiftRight (v : UInt32) (count : ℕ) :
    signed (UInt32.ofBitVec (v.toBitVec.sshiftRight count)).toNat = signed v.toNat / 2 ^ count := by
  rw [signed_eq_toInt, UInt32.toBitVec_ofBitVec, BitVec.toInt_sshiftRight, ← signed_eq_toInt,
    Int.shiftRight_eq_div_pow]
  norm_cast

section Remainder

variable {n c : ℤ} {places width : ℕ}

/-- The balanced remainder of so many bits is the one number that differs by a multiple and has room
in as many bits, one of them for the sign. -/
theorem bmod_two_pow_eq_iff (h : 0 < width) :
    n.bmod (2 ^ width) = c ↔
      2 ^ width ∣ c - n ∧ -2 ^ (width - 1) ≤ c ∧ c < 2 ^ (width - 1) := by
  obtain ⟨w, rfl⟩ : ∃ w, width = w + 1 := ⟨width - 1, by omega⟩
  have hhalf : ((2 ^ (w + 1) : ℕ) : ℤ) = 2 * 2 ^ w := by
    push_cast
    ring
  rw [Int.bmod_eq_iff (Nat.two_pow_pos _), hhalf, pow_succ' (2 : ℤ), Nat.add_sub_cancel]
  constructor
  · rintro ⟨hlo, hhi, hdvd⟩
    exact ⟨hdvd, by omega, by omega⟩
  · rintro ⟨hdvd, hlo, hhi⟩
    exact ⟨by omega, by omega, hdvd⟩

/-- A number that is moved up leaves as much of its remainder as there is room for. -/
theorem bmod_mul_two_pow (n : ℤ) (h : places < width) :
    (n * 2 ^ places).bmod (2 ^ width) = n.bmod (2 ^ (width - places)) * 2 ^ places := by
  have heven : 2 ∣ 2 ^ (width - places) := dvd_pow_self 2 (by omega)
  have hmul := Int.mod_bmod_mul_of_pos n (2 ^ (width - places)) (Nat.two_pow_pos places) heven
  rw [← pow_add, Nat.add_sub_cancel' h.le] at hmul
  rw [Int.mul_comm, Int.mul_comm _ (2 ^ places)]
  exact_mod_cast hmul

/-- A remainder without its low bits is the remainder of the number without them. -/
theorem bmod_ediv_two_pow (n : ℤ) (h : places < width) :
    n.bmod (2 ^ width) / 2 ^ places = (n / 2 ^ places).bmod (2 ^ (width - places)) := by
  obtain ⟨⟨k, hk⟩, hlo, hhi⟩ := (bmod_two_pow_eq_iff (n := n) (by omega : 0 < width)).mp rfl
  have hpos : (0 : ℤ) < 2 ^ places := by positivity
  have hwidth : (2 : ℤ) ^ width = 2 ^ places * 2 ^ (width - places) := by
    rw [← pow_add, Nat.add_sub_cancel' h.le]
  have hhalf : (2 : ℤ) ^ (width - 1) = 2 ^ (width - places - 1) * 2 ^ places := by
    rw [← pow_add]
    congr 1
    omega
  refine ((bmod_two_pow_eq_iff (by omega)).mpr ⟨⟨k, ?_⟩, ?_, ?_⟩).symm
  · have hsum : n.bmod (2 ^ width) = n + 2 ^ places * (2 ^ (width - places) * k) := by
      rw [← Int.mul_assoc, ← hwidth]
      omega
    rw [hsum, Int.add_mul_ediv_left _ _ hpos.ne']
    ring
  · rw [Int.le_ediv_iff_mul_le hpos, Int.neg_mul, ← hhalf]
    exact hlo
  · rw [Int.ediv_lt_iff_lt_mul hpos, ← hhalf]
    exact hhi

/-- Of two remainders taken one after the other, the one of fewer bits remains. -/
theorem bmod_bmod_two_pow (n : ℤ) {first second : ℕ} (h : 0 < first) :
    (n.bmod (2 ^ first)).bmod (2 ^ second) = n.bmod (2 ^ min first second) := by
  rcases Nat.le_total second first with hle | hle
  · rw [Nat.min_eq_right hle, Int.bmod_bmod_of_dvd (Nat.pow_dvd_pow 2 hle)]
  · obtain ⟨-, hlo, hhi⟩ := (bmod_two_pow_eq_iff (n := n) h).mp rfl
    have hpow : (2 : ℤ) ^ (first - 1) ≤ 2 ^ (second - 1) :=
      pow_le_pow_right₀ (by decide) (Nat.sub_le_sub_right hle 1)
    rw [Nat.min_eq_left hle]
    exact (bmod_two_pow_eq_iff (by omega)).mpr ⟨by simp, by omega, by omega⟩

end Remainder

/-- The word agrees with another one in the low bits, and as a signed number it needs no more of its
bits than these. -/
structure Word.IsExtension (value : UInt32) (width : ℕ) (x : UInt32) : Prop where
  low : x.toNat ≡ value.toNat [MOD 2 ^ width]
  lower : -2 ^ (width - 1) ≤ signed x.toNat
  upper : signed x.toNat < 2 ^ (width - 1)

namespace Word

variable {value width x : UInt32}

theorem isExtension_iff {width : ℕ} (hlo : 1 ≤ width) (hhi : width ≤ 32) :
    IsExtension value width x ↔ signed x.toNat = (value.toNat : ℤ).bmod (2 ^ width) := by
  have hsign : (2 : ℤ) ^ width ∣ signed x.toNat - x.toNat := by
    rw [signed_eq_bmod]
    exact (pow_dvd_pow 2 hhi).trans (by exact_mod_cast Int.dvd_bmod_sub_self)
  have hlow : x.toNat ≡ value.toNat [MOD 2 ^ width] ↔
      (2 : ℤ) ^ width ∣ signed x.toNat - value.toNat := by
    rw [Nat.modEq_iff_dvd, ← Int.dvd_neg, neg_sub, Nat.cast_pow, Nat.cast_ofNat,
      ← Int.dvd_add_right hsign, sub_add_sub_cancel]
  rw [eq_comm, bmod_two_pow_eq_iff hlo, ← hlow]
  exact ⟨fun h => ⟨h.low, h.lower, h.upper⟩, fun ⟨hl, hlo, hhi⟩ => ⟨hl, hlo, hhi⟩⟩

/-- The extension is the balanced remainder of the word. -/
theorem exists_signExtend_eq_ok (value : UInt32) (hlo : 1 ≤ width) (hhi : width ≤ 32) :
    ∃ x, signExtend value width = .ok x ∧
      signed x.toNat = (value.toNat : ℤ).bmod (2 ^ width.toNat) := by
  have hone : 1 ≤ width.toNat := UInt32.le_iff_toNat_le.mp hlo
  have hle : width.toNat ≤ 32 := UInt32.le_iff_toNat_le.mp hhi
  have hsub : (32 - width).toNat = 32 - width.toNat := UInt32.toNat_sub_of_le _ _ hhi
  refine ⟨_, signExtend_eq_ok hlo hhi, ?_⟩
  rw [signed_sshiftRight, signed_shiftLeft _ (by omega), hsub,
    bmod_mul_two_pow _ (by omega : 32 - width.toNat < 32), Nat.sub_sub_self hle,
    Int.mul_ediv_cancel _ (by positivity)]

/-- The extension of a word by a width is the only one that there is. -/
theorem exists_isExtension_iff (value : UInt32) (hlo : 1 ≤ width) (hhi : width ≤ 32) :
    ∃ x, signExtend value width = .ok x ∧ ∀ y, IsExtension value width.toNat y ↔ y = x := by
  have hlo' : 1 ≤ width.toNat := UInt32.le_iff_toNat_le.mp hlo
  have hhi' : width.toNat ≤ 32 := UInt32.le_iff_toNat_le.mp hhi
  obtain ⟨x, hx, hsigned⟩ := exists_signExtend_eq_ok value hlo hhi
  refine ⟨x, hx, fun y => ?_⟩
  rw [isExtension_iff hlo' hhi', ← hsigned]
  exact ⟨signed_inj, congrArg fun z : UInt32 => signed z.toNat⟩

end Word

end ShifterOperand

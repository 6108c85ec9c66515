import ShifterOperand.Proofs.Immediate.Expansion

/-!
# Words put together from fields

Fields that are moved to their places and joined do not overlap, so that the word is the sum of what
they count there. A byte repeated over the word is a multiple of the byte, the byte that a T32
immediate rotates is its seven low bits below a set bit, and a gathered immediate counts its three
fields one above the other.
-/
namespace ShifterOperand

namespace Word

variable {high low count : UInt32}

theorem toNat_shiftLeft_of_fit (hc : count < 32) (hh : high.toNat * 2 ^ count.toNat < 2 ^ 32) :
    (high <<< count).toNat = high.toNat * 2 ^ count.toNat := by
  have hc' : count.toNat < 32 := UInt32.lt_iff_toNat_lt.mp hc
  rw [UInt32.toNat_shiftLeft, Nat.mod_eq_of_lt hc', Nat.shiftLeft_eq, Nat.mod_eq_of_lt hh]

/-- A field that is joined to lower ones counts its place. -/
theorem toNat_shiftLeft_or (hc : count < 32) (hh : high.toNat * 2 ^ count.toNat < 2 ^ 32)
    (hl : low.toNat < 2 ^ count.toNat) :
    (high <<< count ||| low).toNat = high.toNat * 2 ^ count.toNat + low.toNat := by
  rw [UInt32.toNat_or, toNat_shiftLeft_of_fit hc hh, Nat.mul_comm,
    ← Nat.two_pow_add_eq_or_of_lt hl high.toNat]

end Word

namespace Immediate

open Word

/-- The number that repeats a byte over the word: it has a one in the lowest bit of each byte that
is filled. -/
def multiplier : ℕ → ℕ
  | 0 => 0x00000001
  | 1 => 0x00010001
  | 2 => 0x01000100
  | _ => 0x01010101

theorem toNat_repeated {byte : UInt32} (pattern : UInt32) (hb : byte.toNat < 256) :
    (repeated byte pattern).toNat = byte.toNat * multiplier pattern.toNat := by
  have h8 : (byte <<< 8).toNat = byte.toNat * 2 ^ 8 :=
    toNat_shiftLeft_of_fit (by decide) (by simp; omega)
  have h88 : (byte <<< 8 ||| byte).toNat = byte.toNat * 2 ^ 8 + byte.toNat :=
    toNat_shiftLeft_or (by decide) (by simp; omega) (by simp; omega)
  have h16 {low : UInt32} (hl : low.toNat < 2 ^ 16) :
      (byte <<< 16 ||| low).toNat = byte.toNat * 2 ^ 16 + low.toNat :=
    toNat_shiftLeft_or (by decide) (by simp; omega) hl
  have h24 {low : UInt32} (hl : low.toNat < 2 ^ 24) :
      (byte <<< 24 ||| low).toNat = byte.toNat * 2 ^ 24 + low.toNat :=
    toNat_shiftLeft_or (by decide) (by simp; omega) hl
  unfold repeated
  split_ifs with h0 h1 h2
  · subst h0
    simp [multiplier]
  · subst h1
    rw [h16 (by omega)]
    simp only [multiplier, UInt32.toNat_one]
    omega
  · subst h2
    rw [h24 (by omega), h8]
    change _ = byte.toNat * 0x01000100
    omega
  · have hm : multiplier pattern.toNat = 0x01010101 := by
      have h0' : pattern.toNat ≠ 0 := fun e => h0 (UInt32.toNat_inj.mp e)
      have h1' : pattern.toNat ≠ 1 := fun e => h1 (UInt32.toNat_inj.mp e)
      have h2' : pattern.toNat ≠ 2 := fun e => h2 (UInt32.toNat_inj.mp e)
      unfold multiplier
      split <;> first | contradiction | rfl
    have hlow : (byte <<< 16 ||| (byte <<< 8 ||| byte)).toNat =
        byte.toNat * 2 ^ 16 + (byte.toNat * 2 ^ 8 + byte.toNat) := by
      rw [h16 (by omega), h88]
    rw [UInt32.or_assoc, UInt32.or_assoc, h24 (by omega), hlow, hm]
    omega

/-- The byte that is rotated is the seven low bits below a set bit. -/
theorem toNat_unrotated (imm12 : UInt32) :
    (0x80 ||| slice imm12 0 7).toNat = 0x80 + (slice imm12 0 7).toNat := by
  rw [UInt32.toNat_or]
  exact (Nat.two_pow_add_eq_or_of_lt (toNat_slice_lt imm12 0 (by decide : 7 ≤ 32)) 1).symm

/-- The rotate field takes its two highest bits from the field that selects the form. -/
theorem eight_le_slice {imm12 : UInt32} (h : slice imm12 10 2 ≠ 0) :
    8 ≤ (slice imm12 7 5).toNat := by
  rw [ne_eq, slice_eq_zero_iff _ _ _ (by decide)] at h
  rw [toNat_slice _ (by decide)]
  omega

/-- The gathered immediate counts its three fields one above the other. -/
theorem exists_gatherT32_eq_ok (word : UInt32) :
    ∃ imm12, gatherT32 word = .ok imm12 ∧
      imm12.toNat = 2048 * (slice word 26 1).toNat + 256 * (slice word 12 3).toNat +
        (slice word 0 8).toNat := by
  have hi := toNat_slice_lt word 26 (by decide : 1 ≤ 32)
  have himm3 := toNat_slice_lt word 12 (by decide : 3 ≤ 32)
  have himm8 := toNat_slice_lt word 0 (by decide : 8 ≤ 32)
  have hlow : (slice word 12 3 <<< 8 ||| slice word 0 8).toNat =
      (slice word 12 3).toNat * 2 ^ 8 + (slice word 0 8).toNat :=
    toNat_shiftLeft_or (by decide) (by simp; omega) himm8
  have hhigh : (slice word 26 1 <<< 11 ||| (slice word 12 3 <<< 8 ||| slice word 0 8)).toNat =
      (slice word 26 1).toNat * 2 ^ 11 + (slice word 12 3 <<< 8 ||| slice word 0 8).toNat :=
    toNat_shiftLeft_or (by decide) (by simp; omega) (by rw [hlow]; simp; omega)
  refine ⟨_, gatherT32_eq_ok word, ?_⟩
  rw [UInt32.or_assoc, hhigh, hlow]
  omega

theorem le_of_gatherT32 {word imm12 : UInt32} (h : gatherT32 word = .ok imm12) :
    imm12 ≤ 0xFFF := by
  obtain ⟨imm12', h', hnum⟩ := exists_gatherT32_eq_ok word
  have hi := toNat_slice_lt word 26 (by decide : 1 ≤ 32)
  have himm3 := toNat_slice_lt word 12 (by decide : 3 ≤ 32)
  have himm8 := toNat_slice_lt word 0 (by decide : 8 ≤ 32)
  rw [h, Except.ok.injEq] at h'
  rw [h', UInt32.le_iff_toNat_le, hnum]
  change _ ≤ 4095
  omega

end Immediate

end ShifterOperand

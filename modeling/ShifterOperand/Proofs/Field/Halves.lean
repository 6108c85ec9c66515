import ShifterOperand.Proofs.Contract.Conditions
import ShifterOperand.Proofs.Field.Tiling

/-!
# Fields of a double word in its halves

A field of at most 32 bits lies in one half of its double word, or it straddles the two. Main statement:
a field has an answer exactly when it lies within the double word and is not too wide, and that answer
can be put together from fields of the two halves.
-/
namespace ShifterOperand

namespace DoubleWord

/-- The upper 32 bits. -/
def high (value : UInt64) : UInt32 := (value >>> 32).toUInt32

/-- The lower 32 bits. -/
def low (value : UInt64) : UInt32 := value.toUInt32

theorem toNat_high (value : UInt64) : (high value).toNat = extract value.toNat 32 32 := by
  simp [high, extract, Nat.shiftRight_eq_div_pow]

theorem toNat_low (value : UInt64) : (low value).toNat = extract value.toNat 0 32 := by
  simp [low, extract]

theorem toNat_eq_halves (value : UInt64) :
    value.toNat = (high value).toNat * 2 ^ 32 + (low value).toNat := by
  calc value.toNat = extract value.toNat 0 (32 + 32) := by
        simp [extract, Nat.mod_eq_of_lt value.toNat_lt]
    _ = extract value.toNat 32 32 * 2 ^ 32 + extract value.toNat 0 32 := extract_add _ 0 32 32
    _ = (high value).toNat * 2 ^ 32 + (low value).toNat := by rw [toNat_high, toNat_low]

theorem extract_high (value : UInt64) {lsb width : ℕ} (h : lsb + width ≤ 32) :
    extract (high value).toNat lsb width = extract value.toNat (32 + lsb) width := by
  rw [toNat_high, extract_extract, Nat.min_eq_left (by omega)]

theorem extract_low (value : UInt64) {lsb width : ℕ} (h : lsb + width ≤ 32) :
    extract (low value).toNat lsb width = extract value.toNat lsb width := by
  rw [toNat_low, extract_extract, Nat.zero_add, Nat.min_eq_left (by omega)]

variable {value : UInt64} {part msb lsb : UInt32}

theorem field_eq_error_iff :
    field value msb lsb = .error (.breach (.bitRange msb lsb)) ↔
      64 ≤ msb ∨ msb < lsb ∨ 32 ≤ msb - lsb := by
  rw [(field_asks value msb lsb).eq_error_iff]
  simp only [not_and_or, UInt32.not_le, UInt32.not_lt]
  tauto

theorem exists_field_eq_ok (value : UInt64) (hl : lsb.toNat ≤ msb.toNat) (hm : msb.toNat < 64)
    (hs : msb.toNat - lsb.toNat < 32) :
    ∃ part, field value msb lsb = .ok part ∧
      part.toNat = extract value.toNat lsb.toNat (msb.toNat - lsb.toNat + 1) := by
  have hle : lsb ≤ msb := UInt32.le_iff_toNat_le.mpr hl
  have hspan : msb - lsb < 32 := by
    rw [UInt32.lt_iff_toNat_lt, UInt32.toNat_sub_of_le _ _ hle]
    exact hs
  have hpow : 2 ^ (msb.toNat - lsb.toNat + 1) ≤ 2 ^ 32 := Nat.pow_le_pow_right (by simp) (by omega)
  have hlt := (extract_lt value.toNat lsb.toNat _).trans_le hpow
  exact ⟨_, field_eq_ok (UInt32.lt_iff_toNat_lt.mpr hm) hle hspan, UInt32.toNat_ofNat_of_lt' hlt⟩

theorem field_eq_ok_iff (hl : lsb.toNat ≤ msb.toNat) (hm : msb.toNat < 64)
    (hs : msb.toNat - lsb.toNat < 32) :
    field value msb lsb = .ok part ↔
      part.toNat = extract value.toNat lsb.toNat (msb.toNat - lsb.toNat + 1) := by
  obtain ⟨x, hx, hnum⟩ := exists_field_eq_ok value hl hm hs
  rw [hx, Except.ok.injEq, ← UInt32.toNat_inj, hnum, eq_comm]

/-- A place of the upper half, counted from its own lowest bit. -/
theorem toNat_sub_border {pos : UInt32} (h : 32 ≤ pos.toNat) : (pos - 32).toNat = pos.toNat - 32 :=
  UInt32.toNat_sub_of_le _ _ (UInt32.le_iff_toNat_le.mpr h)

theorem field_low (value : UInt64) (hl : lsb.toNat ≤ msb.toNat) (hm : msb.toNat < 32) :
    Word.field (low value) msb lsb = field value msb lsb := by
  obtain ⟨part, hpart, hnum⟩ := Word.exists_field_eq_ok (low value) hl hm
  rw [extract_low value (by omega)] at hnum
  rw [hpart, eq_comm, field_eq_ok_iff hl (by omega) (by omega), hnum]

theorem field_high (value : UInt64) (hl : lsb.toNat ≤ msb.toNat) (hm : msb.toNat < 64)
    (hlsb : 32 ≤ lsb.toNat) :
    Word.field (high value) (msb - 32) (lsb - 32) = field value msb lsb := by
  have hmsb' := toNat_sub_border (hlsb.trans hl)
  have hlsb' := toNat_sub_border hlsb
  have hplace : 32 + (lsb.toNat - 32) = lsb.toNat := by omega
  have hwidth : msb.toNat - 32 - (lsb.toNat - 32) = msb.toNat - lsb.toNat := by omega
  obtain ⟨part, hpart, hnum⟩ : ∃ part, Word.field (high value) (msb - 32) (lsb - 32) = .ok part ∧ _ :=
    Word.exists_field_eq_ok (high value) (by omega) (by omega)
  rw [hmsb', hlsb', extract_high value (by omega), hplace, hwidth] at hnum
  rw [hpart, eq_comm, field_eq_ok_iff hl hm (by omega), hnum]

/-- A field across the border is two fields side by side, one at the bottom of the upper half and one
at the top of the lower half. All three are extracts of the double word, and the border divides the
width of the first. -/
theorem exists_field_straddling (value : UInt64) (hlsb : lsb.toNat < 32) (hmsb : 32 ≤ msb.toNat)
    (hs : msb.toNat - lsb.toNat < 32) :
    ∃ part upper lower, field value msb lsb = .ok part ∧
      Word.field (high value) (msb - 32) 0 = .ok upper ∧ Word.field (low value) 31 lsb = .ok lower ∧
      upper.toNat * 2 ^ (32 - lsb.toNat) + lower.toNat = part.toNat := by
  have hmsb' := toNat_sub_border hmsb
  obtain ⟨part, hpart, hnum⟩ := exists_field_eq_ok value (hlsb.le.trans hmsb) (by omega) hs
  obtain ⟨upper, hupper, hunum⟩ : ∃ upper, Word.field (high value) (msb - 32) 0 = .ok upper ∧ _ :=
    Word.exists_field_eq_ok (high value) (Nat.zero_le _) (by omega)
  obtain ⟨lower, hlower, hlnum⟩ : ∃ lower, Word.field (low value) 31 lsb = .ok lower ∧ _ :=
    Word.exists_field_eq_ok (low value) (Nat.le_of_lt_succ hlsb) (by decide)
  have hborder : lsb.toNat + (32 - lsb.toNat) = 32 := by omega
  have hwidth : msb.toNat - lsb.toNat + 1 = 32 - lsb.toNat + (msb.toNat - 32 + 1) := by omega
  have htop : (31 : UInt32).toNat - lsb.toNat + 1 = 32 - lsb.toNat := by
    change 31 - lsb.toNat + 1 = 32 - lsb.toNat
    omega
  rw [hmsb', UInt32.toNat_zero, Nat.sub_zero, extract_high value (by omega), Nat.add_zero] at hunum
  rw [htop, extract_low value (by omega)] at hlnum
  refine ⟨part, upper, lower, hpart, hupper, hlower, ?_⟩
  rw [hnum, hunum, hlnum, hwidth, extract_add _ _ (32 - lsb.toNat), hborder]

/-- A field of a double word breaks its contract exactly when it reaches above the double word, begins
above its end or is wider than a word. Any other is a quotient reduced to its width, and it is the field
at its places in the half where it lies. Where it straddles the two, it is a field of each, and their
bits together fit into a word. -/
theorem field_joins_halves (value : UInt64) (msb lsb : UInt32) :
    value.toNat = (high value).toNat * 2 ^ 32 + (low value).toNat ∧
    (field value msb lsb = .error (.breach (.bitRange msb lsb)) ↔
      64 ≤ msb ∨ msb < lsb ∨ 32 ≤ msb - lsb) ∧
    (¬ (64 ≤ msb ∨ msb < lsb ∨ 32 ≤ msb - lsb) → ∃ part, field value msb lsb = .ok part ∧
      part.toNat = value.toNat / 2 ^ lsb.toNat % 2 ^ (msb.toNat - lsb.toNat + 1) ∧
      (msb < 32 → Word.field (low value) msb lsb = .ok part) ∧
      (32 ≤ lsb → Word.field (high value) (msb - 32) (lsb - 32) = .ok part) ∧
      (lsb < 32 → 32 ≤ msb → ∃ upper lower,
        Word.field (high value) (msb - 32) 0 = .ok upper ∧
        Word.field (low value) 31 lsb = .ok lower ∧
        upper.toNat * 2 ^ (32 - lsb.toNat) + lower.toNat = part.toNat ∧
        upper.toNat * 2 ^ (32 - lsb.toNat) + lower.toNat < 2 ^ 32)) := by
  refine ⟨toNat_eq_halves value, field_eq_error_iff, fun h => ?_⟩
  simp only [not_or, UInt32.not_le, UInt32.not_lt] at h
  obtain ⟨hm, hl, hs⟩ := h
  rw [UInt32.lt_iff_toNat_lt, UInt32.toNat_sub_of_le _ _ hl] at hs
  rw [UInt32.lt_iff_toNat_lt] at hm
  rw [UInt32.le_iff_toNat_le] at hl
  obtain ⟨part, hpart, hnum⟩ := exists_field_eq_ok value hl hm hs
  refine ⟨part, hpart, hnum, fun hmsb => ?_, fun hlsb => ?_, fun hlsb hmsb => ?_⟩
  · rw [field_low value hl (UInt32.lt_iff_toNat_lt.mp hmsb), hpart]
  · rw [field_high value hl hm (UInt32.le_iff_toNat_le.mp hlsb), hpart]
  · obtain ⟨part', upper, lower, hpart', hupper, hlower, hsum⟩ := exists_field_straddling value
      (UInt32.lt_iff_toNat_lt.mp hlsb) (UInt32.le_iff_toNat_le.mp hmsb) hs
    obtain rfl : part = part' := Except.ok.inj (hpart.symm.trans hpart')
    have hfit : upper.toNat * 2 ^ (32 - lsb.toNat) + lower.toNat < 2 ^ 32 := by
      rw [hsum]
      exact part.toNat_lt
    exact ⟨upper, lower, hupper, hlower, hsum, hfit⟩

/-- The upper half of the lower word, the upper word, and a field that has four bits of the one word and
28 of the other. -/
theorem field_joins_halves_at_border :
    (∃ part, field 0xFFFFFFFF80000000 31 16 = .ok part ∧
      Word.field (low 0xFFFFFFFF80000000) 31 16 = .ok part) ∧
    (∃ part, field 0xFFFFFFFF80000000 63 32 = .ok part ∧
      Word.field (high 0xFFFFFFFF80000000) (63 - 32) (32 - 32) = .ok part) ∧
    ∃ part upper lower, field 0xFFFFFFFF80000000 35 4 = .ok part ∧
      Word.field (high 0xFFFFFFFF80000000) (35 - 32) 0 = .ok upper ∧
      Word.field (low 0xFFFFFFFF80000000) 31 4 = .ok lower ∧
      upper.toNat * 2 ^ 28 + lower.toNat = part.toNat := by
  obtain ⟨part, hpart, -, hlow, -⟩ := (field_joins_halves 0xFFFFFFFF80000000 31 16).2.2 (by decide)
  obtain ⟨part', hpart', -, -, hhigh, -⟩ :=
    (field_joins_halves 0xFFFFFFFF80000000 63 32).2.2 (by decide)
  obtain ⟨part'', hpart'', -, -, -, hjoin⟩ :=
    (field_joins_halves 0xFFFFFFFF80000000 35 4).2.2 (by decide)
  obtain ⟨upper, lower, hupper, hlower, hsum, -⟩ := hjoin (by decide) (by decide)
  exact ⟨⟨part, hpart, hlow (by decide)⟩, ⟨part', hpart', hhigh (by decide)⟩,
    part'', upper, lower, hpart'', hupper, hlower, hsum⟩

end DoubleWord

end ShifterOperand

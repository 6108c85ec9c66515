import ShifterOperand.Proofs.Contract.Twins
import ShifterOperand.Proofs.Field.Extension
import ShifterOperand.Proofs.Shift.Decoded

/-!
# Fields as pairs of shifts

A field is what is left of a word when a shift to the left has moved the bits above it out, and a shift
to the right has moved it down from there. The functions that do this in one step do it by other means:
a mask, a signed shift of the machine, and a field of the word in 64 bits. Main statement: the pair of
shifts and the functions agree on every field, read without a sign and with one.
-/
namespace ShifterOperand

/-- The low bits that a number has left when it has been moved up within a word and down again. -/
theorem mul_two_pow_mod_div (v : ℕ) {up l : ℕ} (h : up + l ≤ 32) :
    v * 2 ^ up % 2 ^ 32 / 2 ^ (up + l) = v / 2 ^ l % 2 ^ (32 - (up + l)) := by
  have hword : 2 ^ 32 = 2 ^ (32 - up) * 2 ^ up := by
    rw [← pow_add, Nat.sub_add_cancel (by omega)]
  have hkept : 2 ^ (32 - up) = 2 ^ l * 2 ^ (32 - (up + l)) := by
    rw [← pow_add]
    congr 1
    omega
  rw [hword, Nat.mul_mod_mul_right, pow_add, ← Nat.div_div_eq_div_mul,
    Nat.mul_div_cancel _ (Nat.two_pow_pos up), hkept, Nat.mod_mul_right_div_self]

/-- The same with a sign: what is left is a balanced remainder. -/
theorem bmod_mul_two_pow_ediv (n : ℤ) {up l : ℕ} (h : up + l < 32) :
    (n * 2 ^ up).bmod (2 ^ 32) / 2 ^ (up + l) = (n / 2 ^ l).bmod (2 ^ (32 - (up + l))) := by
  rw [bmod_mul_two_pow n (by omega : up < 32), pow_add, ← Int.ediv_ediv_of_nonneg (by positivity),
    Int.mul_ediv_cancel _ (by positivity), bmod_ediv_two_pow n (by omega : l < 32 - up), Nat.sub_sub]

namespace Kind

variable {w : ℕ × Bool} (n : ℕ)

/-! Moving by nothing is no case of its own for the word. -/

theorem moved_lsl_fst (hw : w.1 < 2 ^ 32) : (lsl.moved n w).1 = w.1 * 2 ^ n % 2 ^ 32 := by
  unfold moved
  split_ifs with hn
  · rw [hn, pow_zero, Nat.mul_one, Nat.mod_eq_of_lt hw]
  · rfl

theorem moved_lsr_fst : (lsr.moved n w).1 = w.1 / 2 ^ n := by
  unfold moved
  split_ifs with hn
  · rw [hn, pow_zero, Nat.div_one]
  · rfl

theorem signed_moved_asr_fst (hw : w.1 < 2 ^ 32) :
    signed (asr.moved n w).1 = signed w.1 / 2 ^ n := by
  unfold moved
  split_ifs with hn
  · rw [hn, pow_zero, Int.ediv_one]
  · obtain ⟨hlo, hhi⟩ := signed_bounds hw
    obtain ⟨hlo', hhi'⟩ := ediv_two_pow_bounds n hlo hhi
    exact signed_low hlo' hhi'

end Kind

namespace Barrel

variable {k : Kind} {full : UInt32 → UInt32 → Answer Flagged}
  {word : UInt32 → UInt32 → Answer UInt32} {amount : UInt32}

/-- A shift without the carry moves the word by its amount, by nothing as well. -/
theorem Primitive.exists_word_eq_ok (h : Primitive k full word) (value : UInt32)
    (hmax : amount.toNat ≤ k.maxAmount.toNat) :
    ∃ r, word value amount = .ok r ∧ r.toNat = (k.moved amount.toNat (value.toNat, false)).1 := by
  have hmoved := Shift.apply_eq_moved ⟨value, false⟩ k amount
  rw [if_pos hmax] at hmoved
  rw [h.word_eq_applyWord value amount false, Contract.applyWord, Contract.apply]
  cases happly : (Shift.mk k amount).apply ⟨value, false⟩ with
  | ok r =>
    rw [happly] at hmoved
    exact ⟨r.value, rfl, congrArg Prod.fst (Except.ok.inj hmoved)⟩
  | error stop =>
    rw [happly] at hmoved
    cases hmoved

variable (value : UInt32)

theorem exists_lslWord_eq_ok (h : amount.toNat ≤ 31) :
    ∃ r, lslWord value amount = .ok r ∧ r.toNat = value.toNat * 2 ^ amount.toNat % 2 ^ 32 := by
  obtain ⟨r, hr, hmoved⟩ := Primitive.lsl.exists_word_eq_ok value h
  exact ⟨r, hr, hmoved.trans (Kind.moved_lsl_fst _ value.toNat_lt)⟩

theorem exists_lsrWord_eq_ok (h : amount.toNat ≤ 32) :
    ∃ r, lsrWord value amount = .ok r ∧ r.toNat = value.toNat / 2 ^ amount.toNat := by
  obtain ⟨r, hr, hmoved⟩ := Primitive.lsr.exists_word_eq_ok value h
  exact ⟨r, hr, hmoved.trans (Kind.moved_lsr_fst _)⟩

theorem exists_asrWord_eq_ok (h : amount.toNat ≤ 32) :
    ∃ r, asrWord value amount = .ok r ∧
      signed r.toNat = signed value.toNat / 2 ^ amount.toNat := by
  obtain ⟨r, hr, hmoved⟩ := Primitive.asr.exists_word_eq_ok value h
  refine ⟨r, hr, ?_⟩
  rw [hmoved]
  exact Kind.signed_moved_asr_fst _ value.toNat_lt

/-- A pair of shifts leaves the bits from the difference of its amounts on, as many as the greater
amount leaves of a word. -/
theorem exists_pair_eq_ok (up down : UInt32) (hle : up.toNat ≤ down.toNat)
    (hd : down.toNat ≤ 31) :
    ∃ moved plain extended, lslWord value up = .ok moved ∧
      lsrWord moved down = .ok plain ∧
      plain.toNat = value.toNat / 2 ^ (down.toNat - up.toNat) % 2 ^ (32 - down.toNat) ∧
      asrWord moved down = .ok extended ∧
      signed extended.toNat =
        ((value.toNat / 2 ^ (down.toNat - up.toNat) : ℕ) : ℤ).bmod (2 ^ (32 - down.toNat)) := by
  obtain ⟨moved, hmoved, hnum⟩ := exists_lslWord_eq_ok value (hle.trans hd)
  obtain ⟨plain, hplain, hquot⟩ := exists_lsrWord_eq_ok moved (hd.trans (by decide))
  obtain ⟨extended, hextended, hsigned⟩ := exists_asrWord_eq_ok moved (hd.trans (by decide))
  obtain ⟨l, hl⟩ : ∃ l, down.toNat = up.toNat + l := Nat.exists_eq_add_of_le hle
  have hrest : down.toNat - up.toNat = l := by omega
  have hfit : up.toNat + l < 32 := by omega
  refine ⟨moved, plain, extended, hmoved, hplain, ?_, hextended, ?_⟩
  · rw [hquot, hnum, hrest, hl, mul_two_pow_mod_div value.toNat hfit.le]
  · have hbmod := bmod_mul_two_pow_ediv value.toNat hfit
    rw [hsigned, signed_eq_bmod, hnum, bmod_natCast_mod, hrest, hl]
    exact_mod_cast hbmod

end Barrel

namespace Word

open Barrel (lslWord lsrWord asrWord)

variable (v : UInt32)

/-- A field is aligned by a pair of shifts, and the one to the right reads its sign if it copies the
top bit. -/
theorem exists_field_pair {msb lsb : UInt32} (hm : msb ≤ 31) (hl : lsb ≤ msb) :
    ∃ moved part extended, lslWord v (31 - msb) = .ok moved ∧
      field v msb lsb = .ok part ∧ lsrWord moved (31 - msb + lsb) = .ok part ∧
      signExtend part (msb - lsb + 1) = .ok extended ∧
      asrWord moved (31 - msb + lsb) = .ok extended := by
  have hm' : msb.toNat ≤ 31 := UInt32.le_iff_toNat_le.mp hm
  have hl' : lsb.toNat ≤ msb.toNat := UInt32.le_iff_toNat_le.mp hl
  have hup : (31 - msb).toNat = 31 - msb.toNat := UInt32.toNat_sub_of_le _ _ hm
  have hdown : (31 - msb + lsb).toNat = 31 - msb.toNat + lsb.toNat := by
    rw [UInt32.toNat_add, hup, Nat.mod_eq_of_lt (by omega)]
  have hspan : (msb - lsb).toNat = msb.toNat - lsb.toNat := UInt32.toNat_sub_of_le _ _ hl
  have hwidth : (msb - lsb + 1).toNat = msb.toNat - lsb.toNat + 1 := by
    rw [UInt32.toNat_add, hspan, UInt32.toNat_one, Nat.mod_eq_of_lt (by omega)]
  have hlo : 1 ≤ msb - lsb + 1 := UInt32.le_iff_toNat_le.mpr (by rw [hwidth]; simp)
  have hhi : msb - lsb + 1 ≤ 32 := UInt32.le_iff_toNat_le.mpr (by rw [hwidth]; simp; omega)
  have hrest : 32 - (31 - msb.toNat + lsb.toNat) = msb.toNat - lsb.toNat + 1 := by omega
  obtain ⟨moved, part, extended, hmoved, hpart, hnum, hextended, hsigned⟩ :=
    Barrel.exists_pair_eq_ok v (31 - msb) (31 - msb + lsb) (by omega) (by omega)
  rw [hup, hdown, Nat.add_sub_cancel_left, hrest] at hnum hsigned
  have hfield : field v msb lsb = .ok part := by
    rw [field_eq_ok (UInt32.lt_iff_toNat_lt.mpr (Nat.lt_succ_of_le hm')) hl, ← hnum,
      UInt32.ofNat_toNat]
  obtain ⟨x, hx, hbmod⟩ := exists_signExtend_eq_ok part hlo hhi
  have heq : x = extended := by
    apply signed_inj
    rw [hbmod, hsigned, hwidth, hnum, bmod_natCast_mod]
  rw [heq] at hx
  exact ⟨moved, part, extended, hmoved, hfield, hpart, hx, hextended⟩

/-- A sign extension is a pair of shifts by one amount. -/
theorem exists_signExtend_pair {width : UInt32} (hlo : 1 ≤ width) (hhi : width ≤ 32) :
    ∃ moved x, signExtend v width = .ok x ∧ lslWord v (32 - width) = .ok moved ∧
      asrWord moved (32 - width) = .ok x := by
  have hlo' : 1 ≤ width.toNat := UInt32.le_iff_toNat_le.mp hlo
  have hhi' : width.toNat ≤ 32 := UInt32.le_iff_toNat_le.mp hhi
  have hsub : (32 - width).toNat = 32 - width.toNat := UInt32.toNat_sub_of_le _ _ hhi
  obtain ⟨moved, -, extended, hmoved, -, -, hextended, hsigned⟩ :=
    Barrel.exists_pair_eq_ok v (32 - width) (32 - width) le_rfl (by omega)
  rw [Nat.sub_self, pow_zero, Nat.div_one, hsub, Nat.sub_sub_self hhi'] at hsigned
  obtain ⟨x, hx, hbmod⟩ := exists_signExtend_eq_ok v hlo hhi
  rw [signed_inj (hbmod.trans hsigned.symm)] at hx
  exact ⟨moved, extended, hx, hmoved, hextended⟩

/-- An arithmetic shift to the right is the field above its amount, extended again. -/
theorem exists_asr_field {amount : UInt32} (h : amount ≤ 31) :
    ∃ part x, asrWord v amount = .ok x ∧ field v 31 amount = .ok part ∧
      signExtend part (32 - amount) = .ok x := by
  obtain ⟨moved, part, x, hmoved, hfield, -, hx, hasr⟩ := exists_field_pair v UInt32.le_rfl h
  have hwidth : 31 - amount + 1 = 32 - amount := by grind
  have hdown : 31 - 31 + amount = amount := by grind
  obtain rfl : v = moved := Except.ok.inj hmoved
  rw [hwidth] at hx
  rw [hdown] at hasr
  exact ⟨part, x, hasr, hfield, hx⟩

/-- A field is a pair of shifts: to the left until its top bit is that of the word, and to the right
until its lowest bit is, with the sign of the field or without one. The extension of the low bits
and the shift to the right that keeps the sign are two such pairs. None of these calls fails. -/
theorem fields_eq_shift_pairs :
    (∀ msb lsb : UInt32, msb ≤ 31 → lsb ≤ msb → ∃ moved part extended,
      lslWord v (31 - msb) = .ok moved ∧
      field v msb lsb = .ok part ∧ lsrWord moved (31 - msb + lsb) = .ok part ∧
      signExtend part (msb - lsb + 1) = .ok extended ∧
      asrWord moved (31 - msb + lsb) = .ok extended) ∧
    (∀ width : UInt32, 1 ≤ width → width ≤ 32 → ∃ moved x,
      signExtend v width = .ok x ∧ lslWord v (32 - width) = .ok moved ∧
      asrWord moved (32 - width) = .ok x) ∧
    ∀ amount : UInt32, amount ≤ 31 → ∃ part x,
      asrWord v amount = .ok x ∧ field v 31 amount = .ok part ∧
      signExtend part (32 - amount) = .ok x := by
  refine ⟨fun msb lsb hm hl => ?_, fun width hlo hhi => ?_, fun amount h => ?_⟩
  · exact exists_field_pair v hm hl
  · exact exists_signExtend_pair v hlo hhi
  · exact exists_asr_field v h

/-- The byte of a word below its top one, the lowest bit as a number with a sign, and a shift that
leaves the sign alone. -/
theorem fields_eq_shift_pairs_of_word :
    (∃ moved part extended, lslWord 0xABCD1235 (31 - 23) = .ok moved ∧
      field 0xABCD1235 23 16 = .ok part ∧ lsrWord moved (31 - 23 + 16) = .ok part ∧
      signExtend part (23 - 16 + 1) = .ok extended ∧
      asrWord moved (31 - 23 + 16) = .ok extended) ∧
    (∃ moved x, signExtend 0xABCD1235 1 = .ok x ∧ lslWord 0xABCD1235 (32 - 1) = .ok moved ∧
      asrWord moved (32 - 1) = .ok x) ∧
    ∃ part x, asrWord 0xABCD1235 31 = .ok x ∧ field 0xABCD1235 31 31 = .ok part ∧
      signExtend part (32 - 31) = .ok x := by
  obtain ⟨hfield, hextend, hasr⟩ := fields_eq_shift_pairs 0xABCD1235
  exact ⟨hfield 23 16 (by decide) (by decide), hextend 1 (by decide) (by decide),
    hasr 31 (by decide)⟩

end Word

end ShifterOperand

import Mathlib.Algebra.BigOperators.Group.List.Basic
import Mathlib.Algebra.Order.Ring.Int
import Mathlib.Tactic.Linarith
import ShifterOperand.Machine
import ShifterOperand.Proofs.Shift.Exact

/-!
# Shifts that add up

A run that shifts by the same kind again and again. `Kind.moved` says what a number of places comes to
in all, with no bound on the number, and two such movements add up. Main statement: a run of shifts of
one kind ends as one movement by the sum of the amounts that the kind takes, so that neither their
order nor the way in which the sum is split up matters.
-/
namespace ShifterOperand

namespace Kind

/-- What moving by so many places makes of a word and its carry. -/
def moved (k : Kind) (n : ℕ) (w : ℕ × Bool) : ℕ × Bool :=
  if n = 0 then w
  else
    match k with
    | lsl => (w.1 * 2 ^ n % 2 ^ 32, (w.1 * 2 ^ n).testBit 32)
    | lsr => (w.1 / 2 ^ n, w.1.testBit (n - 1))
    | asr => ((signed w.1 / 2 ^ n % 2 ^ 32).toNat, signedBit (signed w.1) (n - 1))
    | ror => (rotated 32 (n % 32) w.1, (rotated 32 (n % 32) w.1).testBit 31)
    | rrx =>
      let r := rotated 33 (n % 33) (w.2.toNat * 2 ^ 32 + w.1)
      (r % 2 ^ 32, r.testBit 32)

/-- The sum of the amounts that the kind takes. -/
def total (k : Kind) (amounts : List UInt32) : ℕ :=
  ((amounts.filter fun a => k.Takes a).map UInt32.toNat).sum

theorem moved_zero (k : Kind) (w : ℕ × Bool) : k.moved 0 w = w := if_pos rfl

theorem total_cons (k : Kind) (a : UInt32) (rest : List UInt32) :
    k.total (a :: rest) = (if k.Takes a then a.toNat else 0) + k.total rest := by
  unfold total
  split
  · next h => simp [h]
  · next h => simp [h]

theorem total_perm {k : Kind} {amounts other : List UInt32} (h : other.Perm amounts) :
    k.total other = k.total amounts :=
  ((h.filter _).map _).sum_eq

end Kind

theorem signed_bounds {v : ℕ} (hv : v < 2 ^ 32) : -2 ^ 31 ≤ signed v ∧ signed v < 2 ^ 31 := by
  unfold signed
  split <;> omega

theorem signed_low {z : ℤ} (hlo : -2 ^ 31 ≤ z) (hhi : z < 2 ^ 31) :
    signed (z % 2 ^ 32).toNat = z := by
  unfold signed
  split <;> omega

theorem ediv_two_pow_bounds {z : ℤ} (n : ℕ) (hlo : -2 ^ 31 ≤ z) (hhi : z < 2 ^ 31) :
    -2 ^ 31 ≤ z / 2 ^ n ∧ z / 2 ^ n < 2 ^ 31 := by
  have hone : (1 : ℤ) ≤ 2 ^ n := one_le_pow₀ (by norm_num)
  constructor
  · rw [Int.le_ediv_iff_mul_le (by linarith)]
    linarith
  · rw [Int.ediv_lt_iff_lt_mul (by linarith)]
    linarith

/-- A place above the word shows its sign, and a place within the word shows its bit. -/
theorem signedBit_signed {v i : ℕ} (hi : i < 32) : signedBit (signed v) i = v.testBit i := by
  have hsplit : (2 : ℤ) ^ 32 = 2 ^ i * (2 * 2 ^ (31 - i)) := by
    rw [← pow_succ', ← pow_add]
    congr 1
    omega
  rw [signedBit, Nat.testBit_eq_decide_div_mod_eq, decide_eq_decide, signed]
  split
  · norm_cast
  · rw [hsplit, Int.sub_eq_add_neg, ← Int.mul_neg,
      Int.add_mul_ediv_left _ _ (by positivity), ← Int.mul_neg, Int.add_mul_emod_self_left]
    norm_cast

theorem signedBit_ediv (z : ℤ) (n i : ℕ) : signedBit (z / 2 ^ n) i = signedBit z (n + i) := by
  rw [signedBit, signedBit, Int.ediv_ediv_of_nonneg (by positivity), ← pow_add]

/-- A word and the carry above it, put together again. -/
theorem testBit_toNat_mul_add_mod {r : ℕ} (hr : r < 2 ^ 33) :
    (r.testBit 32).toNat * 2 ^ 32 + r % 2 ^ 32 = r := by
  have htop : (r.testBit 32).toNat = r / 2 ^ 32 := by
    rw [Nat.testBit_eq_decide_div_mod_eq]
    have htwo : r / 2 ^ 32 = 0 ∨ r / 2 ^ 32 = 1 := by omega
    rcases htwo with h | h
    · rw [h]; rfl
    · rw [h]; rfl
  rw [htop, Nat.mul_comm]
  exact Nat.div_add_mod r (2 ^ 32)

namespace Kind

variable {m n : ℕ} {w : ℕ × Bool}

theorem moved_lsl_moved (hm : m ≠ 0) (hn : n ≠ 0) :
    moved lsl m (moved lsl n w) = moved lsl (n + m) w := by
  have hnm : n + m ≠ 0 := by omega
  simp only [moved, if_neg hm, if_neg hn, if_neg hnm, pow_add, ← Nat.mul_assoc]
  refine Prod.ext (by simp [Nat.mul_mod]) ?_
  simp only [Nat.testBit_mul_two_pow _ _ m, Nat.testBit_mod_two_pow]
  rw [decide_eq_true (by omega : 32 - m < 32), Bool.true_and]

theorem moved_lsr_moved (hm : m ≠ 0) (hn : n ≠ 0) :
    moved lsr m (moved lsr n w) = moved lsr (n + m) w := by
  have hnm : n + m ≠ 0 := by omega
  simp only [moved, if_neg hm, if_neg hn, if_neg hnm, Nat.div_div_eq_div_mul, ← pow_add,
    Nat.testBit_div_two_pow]
  congr 2
  omega

theorem moved_asr_moved (hm : m ≠ 0) (hn : n ≠ 0) (hw : w.1 < 2 ^ 32) :
    moved asr m (moved asr n w) = moved asr (n + m) w := by
  have hnm : n + m ≠ 0 := by omega
  obtain ⟨hlo, hhi⟩ := signed_bounds hw
  obtain ⟨hlo', hhi'⟩ := ediv_two_pow_bounds n hlo hhi
  simp only [moved, if_neg hm, if_neg hn, if_neg hnm, signed_low hlo' hhi', signedBit_ediv]
  rw [Int.ediv_ediv_of_nonneg (by positivity), ← pow_add, Nat.add_sub_assoc (by omega)]

theorem moved_ror_moved (hm : m ≠ 0) (hn : n ≠ 0) (hw : w.1 < 2 ^ 32) :
    moved ror m (moved ror n w) = moved ror (n + m) w := by
  have hnm : n + m ≠ 0 := by omega
  simp only [moved, if_neg hm, if_neg hn, if_neg hnm, rotated_rotated (by norm_num : 0 < 32) hw]

theorem moved_rrx_moved (hm : m ≠ 0) (hn : n ≠ 0) (hw : w.1 < 2 ^ 32) :
    moved rrx m (moved rrx n w) = moved rrx (n + m) w := by
  have hnm : n + m ≠ 0 := by omega
  have hc := w.2.toNat_lt
  have hlt : w.2.toNat * 2 ^ 32 + w.1 < 2 ^ 33 := by omega
  have hr := rotated_lt (Nat.mod_lt n (by norm_num : 33 > 0)).le hlt
  simp only [moved, if_neg hm, if_neg hn, if_neg hnm, testBit_toNat_mul_add_mod hr,
    rotated_rotated (by norm_num : 0 < 33) hlt]

/-- Two movements of one kind are one movement by the sum of their places. -/
theorem moved_moved (k : Kind) (hw : w.1 < 2 ^ 32) :
    k.moved m (k.moved n w) = k.moved (n + m) w := by
  rcases Nat.eq_zero_or_pos m with rfl | hm
  · rw [moved_zero, Nat.add_zero]
  rcases Nat.eq_zero_or_pos n with rfl | hn
  · rw [moved_zero, Nat.zero_add]
  cases k with
  | lsl => exact moved_lsl_moved hm.ne' hn.ne'
  | lsr => exact moved_lsr_moved hm.ne' hn.ne'
  | asr => exact moved_asr_moved hm.ne' hn.ne' hw
  | ror => exact moved_ror_moved hm.ne' hn.ne' hw
  | rrx => exact moved_rrx_moved hm.ne' hn.ne' hw

end Kind

namespace Shift

theorem moved_rrx_one (w : Flagged) :
    Kind.rrx.moved 1 w.exact =
      (w.carry.toNat * 2 ^ 31 + w.value.toNat / 2, w.value.toNat.testBit 0) := by
  have hv := w.value.toNat_lt
  have hc := w.carry.toNat_lt
  have hrot : rotated 33 (1 % 33) (w.carry.toNat * 2 ^ 32 + w.value.toNat) =
      2 ^ 32 * (w.value.toNat % 2) + (w.carry.toNat * 2 ^ 31 + w.value.toNat / 2) := by
    simp only [rotated, Nat.reduceMod, Nat.reduceSub, pow_one]
    omega
  have hlow : w.carry.toNat * 2 ^ 31 + w.value.toNat / 2 < 2 ^ 32 := by omega
  simp only [Kind.moved, Flagged.exact, if_neg one_ne_zero, hrot]
  refine Prod.ext ?_ ?_
  · rw [Nat.mul_add_mod, Nat.mod_eq_of_lt hlow]
  · rw [Nat.testBit_two_pow_mul_add _ hlow]
    simp [Nat.testBit_zero]

/-- The rule for an amount that the kind takes is a movement by that amount. -/
theorem rule_eq_moved {k : Kind} {amount : UInt32} (w : Flagged) (h : k.Takes amount) :
    (Shift.mk k amount).rule w = .ok (k.moved amount.toNat w.exact) := by
  obtain ⟨hlo, hhi⟩ := Kind.takes_iff.mp h
  have hz : amount.toNat ≠ 0 := by omega
  simp only [rule, Kind.moved, if_neg hz, Flagged.exact]
  cases k with
  | lsl => exact if_pos hhi
  | lsr => exact if_pos hhi
  | asr =>
    have hhi' : amount.toNat ≤ 32 := hhi
    rw [signedBit_signed (by omega)]
    exact if_pos hhi
  | ror =>
    have hhi' : amount.toNat ≤ 31 := hhi
    rw [Nat.mod_eq_of_lt (by omega : amount.toNat < 32)]
    exact if_pos hhi
  | rrx =>
    have hone : amount.toNat = 1 := Nat.le_antisymm hhi hlo
    rw [hone]
    exact congrArg Except.ok (moved_rrx_one w).symm

end Shift

namespace Machine

/-- The steps that shift by these amounts, all of one kind. -/
def shifts (k : Kind) (amounts : List UInt32) : List Step :=
  amounts.map fun a => .shift ⟨k, a⟩

/-- A step moves by its amount, or leaves the word as it was when the kind does not take that. -/
theorem settle_apply (k : Kind) (a : UInt32) (w : Flagged) :
    (settle w ((Shift.mk k a).apply w)).exact =
      k.moved (if k.Takes a then a.toNat else 0) w.exact := by
  split
  · next h =>
    obtain ⟨r, happly, hrule⟩ := Shift.exists_apply_eq_ok w h
    rw [Shift.rule_eq_moved w h] at hrule
    rw [happly, settle_ok]
    exact (Except.ok.inj hrule).symm
  · next h =>
    rw [Kind.moved_zero]
    by_cases hz : a = 0
    · rw [hz, Shift.apply_zero, settle_ok]
    · rw [Shift.apply_eq_refused w hz h, settle_error]

theorem exact_final_shifts (k : Kind) (w : Flagged) (amounts : List UInt32) :
    (final w (shifts k amounts)).exact = k.moved (k.total amounts) w.exact := by
  induction amounts generalizing w with
  | nil => exact (k.moved_zero w.exact).symm
  | cons a rest ih =>
    change (final (settle w ((Shift.mk k a).apply w)) (shifts k rest)).exact = _
    rw [ih, settle_apply, Kind.moved_moved k w.exact_lt, Kind.total_cons]

/-- A run of shifts of one kind moves by the sum of the amounts that the kind takes, and it ends the
same however that sum is ordered and split up. -/
theorem final_shifts_eq_moved (k : Kind) (w : Flagged) (amounts : List UInt32) :
    (final w (shifts k amounts)).exact = k.moved (k.total amounts) w.exact ∧
      ∀ other, other.Perm amounts ∨ k.total other = k.total amounts →
        final w (shifts k other) = final w (shifts k amounts) := by
  refine ⟨exact_final_shifts k w amounts, fun other h => Flagged.exact_inj ?_⟩
  have htotal : k.total other = k.total amounts := h.elim Kind.total_perm id
  rw [exact_final_shifts, exact_final_shifts, htotal]

/-- A full turn brings the word back and not the carry; one amount here is zero, and one is refused. -/
theorem final_shifts_full_turn :
    Kind.ror.total [16, 16] = Kind.ror.total [31, 0, 40, 1] ∧
      (final ⟨0x80000001, false⟩ (shifts .ror [31, 0, 40, 1])).exact = (0x80000001, true) ∧
      final ⟨0x80000001, false⟩ (shifts .ror [16, 16]) =
        final ⟨0x80000001, false⟩ (shifts .ror [31, 0, 40, 1]) := by
  have h := final_shifts_eq_moved .ror ⟨0x80000001, false⟩ [31, 0, 40, 1]
  have htotal : Kind.ror.total [16, 16] = Kind.ror.total [31, 0, 40, 1] := by decide
  exact ⟨htotal, h.1.trans (by decide), h.2 [16, 16] (.inr htotal)⟩

end Machine

end ShifterOperand

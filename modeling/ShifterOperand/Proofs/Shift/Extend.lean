import Mathlib.Logic.Function.Basic
import ShifterOperand.Proofs.Shift.Accumulation

/-!
# Rotation through the carry

A word with its carry on top is a number of 33 bits, and a rotation with extend turns that number by
one place. Main statement: taken any number of times, by whichever entry point, it turns the number
by as many places, so that 33 of them change nothing and the carry shows the bits of the word one
after the other.
-/
namespace ShifterOperand

namespace Flagged

/-- The word with its carry on top, as one number of 33 bits. -/
def wide (w : Flagged) : ℕ := w.carry.toNat * 2 ^ 32 + w.value.toNat

/-- The word and the carry that a number of 33 bits is made of. -/
def ofWide (n : ℕ) : Flagged := ⟨.ofNat n, n.testBit 32⟩

/-- The word rotated right together with its carry. -/
def turned (w : Flagged) (places : ℕ) : Flagged := ofWide (rotated 33 (places % 33) w.wide)

theorem wide_lt (w : Flagged) : w.wide < 2 ^ 33 := by
  have hv := w.value.toNat_lt
  have hc := w.carry.toNat_lt
  unfold wide
  omega

theorem exact_ofWide (n : ℕ) : (ofWide n).exact = (n % 2 ^ 32, n.testBit 32) := by
  rw [exact, ofWide, UInt32.toNat_ofNat']

theorem wide_ofWide {n : ℕ} (h : n < 2 ^ 33) : (ofWide n).wide = n := by
  rw [wide, ofWide, UInt32.toNat_ofNat', testBit_toNat_mul_add_mod h]

theorem ofWide_wide (w : Flagged) : ofWide w.wide = w := by
  have hv := w.value.toNat_lt
  apply Flagged.ext
  · apply UInt32.toNat_inj.mp
    rw [ofWide, UInt32.toNat_ofNat', wide, Nat.mul_add_mod_self_right, Nat.mod_eq_of_lt hv]
  · change (w.carry.toNat * 2 ^ 32 + w.value.toNat).testBit 32 = w.carry
    rw [Nat.mul_comm, Nat.testBit_two_pow_mul_add _ hv, if_neg (lt_irrefl 32), Nat.sub_self]
    cases w.carry <;> rfl

variable (w : Flagged)

theorem wide_turned (n : ℕ) : (w.turned n).wide = rotated 33 (n % 33) w.wide :=
  wide_ofWide (rotated_lt (Nat.mod_lt n (by decide)).le w.wide_lt)

theorem turned_turned (m n : ℕ) : (w.turned m).turned n = w.turned (m + n) := by
  rw [turned, wide_turned, rotated_rotated (by decide) w.wide_lt]
  rfl

theorem turned_zero : w.turned 0 = w := by
  rw [turned, Nat.zero_mod, rotated, pow_zero, Nat.mod_one, Nat.zero_mul, Nat.zero_add, Nat.div_one]
  exact w.ofWide_wide

theorem turned_period : w.turned 33 = w := by
  have h : w.turned 33 = w.turned 0 := by rw [turned, turned, Nat.mod_self]
  rw [h, turned_zero]

/-- The carry after a turn is the last bit to have left the word at the bottom. -/
theorem carry_turned {i : ℕ} (h : i < 32) : (w.turned (i + 1)).carry = w.value.toNat.testBit i := by
  have hv := w.value.toNat_lt
  change (rotated 33 ((i + 1) % 33) w.wide).testBit 32 = _
  have hi : i + 1 < 33 := by omega
  have hwrap : (32 + (i + 1)) % 33 = i := by omega
  rw [Nat.mod_eq_of_lt hi, testBit_rotated hi w.wide_lt (by decide), hwrap, wide, Nat.mul_comm,
    Nat.testBit_two_pow_mul_add _ hv, if_pos h]

end Flagged

theorem bijective_turned_one : Function.Bijective fun w : Flagged => w.turned 1 := by
  refine Function.bijective_iff_has_inverse.mpr ⟨fun w => w.turned 32, fun w => ?_, fun w => ?_⟩
  · exact (w.turned_turned 1 32).trans w.turned_period
  · exact (w.turned_turned 32 1).trans w.turned_period

/-- The answer of a function taken so many times, each time on what it gave the time before. -/
def Answer.iterate {α : Type} (f : α → Answer α) : ℕ → α → Answer α
  | 0, a => .ok a
  | n + 1, a => do f (← Answer.iterate f n a)

theorem Answer.iterate_eq_turned {f : Flagged → Answer Flagged}
    (h : ∀ w, f w = .ok (w.turned 1)) (w : Flagged) (n : ℕ) :
    Answer.iterate f n w = .ok (w.turned n) := by
  induction n with
  | zero => rw [Answer.iterate, w.turned_zero]
  | succ n ih =>
    rw [Answer.iterate, ih]
    change f (w.turned n) = _
    rw [h, w.turned_turned]

/-- One rotation with extend is a turn by one place. -/
theorem Barrel.rrx_eq_turned (w : Flagged) : Barrel.rrx w.value w.carry = .ok (w.turned 1) := by
  obtain ⟨r, hr, hexact⟩ := Barrel.rrx_eq_exact w.value w.carry
  have hturned : (w.turned 1).exact = r.exact := by
    rw [hexact, ← Shift.moved_rrx_one, Flagged.turned, Flagged.exact_ofWide]
    rfl
  rw [hr, Flagged.exact_inj hturned]

theorem Contract.apply_rrx_eq_turned (w : Flagged) :
    Contract.apply ⟨.rrx, 1⟩ w = .ok (w.turned 1) := by
  have happly : (Shift.mk .rrx 1).apply w = Barrel.rrx w.value w.carry := rfl
  rw [Contract.apply, happly, Barrel.rrx_eq_turned, Answer.demand_ok]

namespace Machine

theorem next_immediate_rrx (w : Flagged) :
    Step.next w (.immediate 3 0) = .ok (w.turned 1) := by
  have hdecode : Contract.decodeImmediate 3 0 = .ok ⟨.rrx, 1⟩ := rfl
  simp only [Step.next, hdecode, bind, Except.bind]
  exact Contract.apply_rrx_eq_turned w

theorem run_immediate_rrx (w : Flagged) (n : ℕ) :
    run w (List.replicate n (.immediate 3 0)) =
      (List.range n).map fun i => .ok (w.turned (i + 1)) := by
  induction n generalizing w with
  | zero => rfl
  | succ n ih =>
    simp only [List.replicate_succ, run, next_immediate_rrx, settle_ok, ih, List.range_succ_eq_map,
      List.map_cons, List.map_map]
    refine List.cons_eq_cons.mpr ⟨rfl, List.map_congr_left ?_⟩
    intro i _
    rw [w.turned_turned, Nat.add_comm 1]
    rfl

theorem final_immediate_rrx (w : Flagged) (n : ℕ) :
    final w (List.replicate n (.immediate 3 0)) = w.turned n := by
  induction n generalizing w with
  | zero => exact w.turned_zero.symm
  | succ n ih =>
    rw [List.replicate_succ, final_cons, next_immediate_rrx, settle_ok, ih, w.turned_turned,
      Nat.add_comm]

end Machine

/-- Rotations with extend turn the word and its carry by as many places as there are rotations.
Taken alone, demanded of the dispatcher or run as steps, they do the same. -/
theorem Barrel.rrx_turns (w : Flagged) (n : ℕ) :
    Answer.iterate (fun u => Barrel.rrx u.value u.carry) n w = .ok (w.turned n) ∧
      Answer.iterate (Contract.apply ⟨.rrx, 1⟩) n w = .ok (w.turned n) ∧
      Machine.run w (List.replicate n (.immediate 3 0)) =
        ((List.range n).map fun i => .ok (w.turned (i + 1))) ∧
      Machine.final w (List.replicate n (.immediate 3 0)) = w.turned n ∧
      (w.turned n).wide = rotated 33 (n % 33) w.wide ∧
      Answer.iterate (fun u => Barrel.rrx u.value u.carry) 33 w = .ok w ∧
      (∃ step : Flagged → Flagged, Function.Bijective step ∧
        ∀ u, Barrel.rrx u.value u.carry = .ok (step u)) ∧
      (1 ≤ n → n ≤ 32 → (w.turned n).carry = w.value.toNat.testBit (n - 1)) := by
  refine ⟨Answer.iterate_eq_turned Barrel.rrx_eq_turned w n,
    Answer.iterate_eq_turned Contract.apply_rrx_eq_turned w n, Machine.run_immediate_rrx w n,
    Machine.final_immediate_rrx w n, w.wide_turned n, ?_,
    ⟨_, bijective_turned_one, Barrel.rrx_eq_turned⟩, ?_⟩
  · rw [Answer.iterate_eq_turned Barrel.rrx_eq_turned, w.turned_period]
  · intro hlo hhi
    have hcarry := w.carry_turned (i := n - 1) (by omega)
    rwa [Nat.sub_add_cancel hlo] at hcarry

/-- After as many rotations as the word has bits, its top bit is the carry, and the carry that stood
above it is the lowest bit. -/
theorem Barrel.rrx_turns_whole_word :
    Answer.iterate (fun u => Barrel.rrx u.value u.carry) 32 ⟨0x80000010, true⟩ =
        .ok ⟨0x00000021, true⟩ ∧
      (Flagged.turned ⟨0x80000010, true⟩ 32).carry = (0x80000010 : ℕ).testBit 31 := by
  have h := Barrel.rrx_turns ⟨0x80000010, true⟩ 32
  exact ⟨h.1.trans (by decide), h.2.2.2.2.2.2.2 (by decide) (by decide)⟩

end ShifterOperand

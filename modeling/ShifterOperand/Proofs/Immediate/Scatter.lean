import ShifterOperand.Proofs.Immediate.Assembly
import ShifterOperand.Proofs.Shift.Rotation

/-!
# Immediates in their instruction words

Where an instruction word holds its immediate, and what the rest of the word has to do with it. A field
can be overwritten without a trace elsewhere, and a T32 immediate of twelve bits goes into three fields
that do not meet. Main statement: what is put into a word in this way is gathered from it again, two
words hold the same immediate when they agree at its places, and the expansions see nothing else.
-/
namespace ShifterOperand

namespace Word

/-- The bits from `lsb` on, as many as the width says. -/
def fieldMask (lsb width : ℕ) : BitVec 32 := (BitVec.allOnes width).setWidth 32 <<< lsb

/-- The word with a field overwritten by the low bits of another word. -/
def overwrite (word part : UInt32) (lsb width : ℕ) : UInt32 :=
  .ofBitVec (word.toBitVec &&& ~~~fieldMask lsb width |||
    part.toBitVec <<< lsb &&& fieldMask lsb width)

/-- The words agree at the first `count` of the places. -/
def AgreeAt (place : ℕ → ℕ) (count : ℕ) (a b : UInt32) : Prop :=
  ∀ j < count, a.toNat.testBit (place j) = b.toNat.testBit (place j)

variable {a b word part : UInt32} {lsb width i : ℕ}

theorem getLsbD_fieldMask (hi : i < 32) :
    (fieldMask lsb width).getLsbD i = decide (lsb ≤ i ∧ i < lsb + width) := by
  have hrest : i - lsb < 32 := by omega
  simp only [fieldMask, BitVec.getLsbD_shiftLeft, BitVec.getLsbD_setWidth, BitVec.getLsbD_allOnes,
    hi, hrest, decide_true, Bool.true_and, ← decide_not, ← Bool.decide_and, decide_eq_decide]
  omega

theorem testBit_overwrite_inside (hi : i < 32) (hlo : lsb ≤ i) (hhi : i < lsb + width) :
    (overwrite word part lsb width).toNat.testBit i = part.toNat.testBit (i - lsb) := by
  have hmask : (fieldMask lsb width).getLsbD i = true := by
    rw [getLsbD_fieldMask hi]
    exact decide_eq_true ⟨hlo, hhi⟩
  change (word.toBitVec &&& ~~~fieldMask lsb width |||
    part.toBitVec <<< lsb &&& fieldMask lsb width).getLsbD i = part.toBitVec.getLsbD (i - lsb)
  simp only [BitVec.getLsbD_or, BitVec.getLsbD_and, BitVec.getLsbD_not, BitVec.getLsbD_shiftLeft,
    hmask, hi, Nat.not_lt.mpr hlo, decide_true, decide_false, Bool.not_true, Bool.not_false,
    Bool.and_false, Bool.and_true, Bool.true_and, Bool.false_or]

theorem testBit_overwrite_outside (hi : i < 32) (h : i < lsb ∨ lsb + width ≤ i) :
    (overwrite word part lsb width).toNat.testBit i = word.toNat.testBit i := by
  have hmask : (fieldMask lsb width).getLsbD i = false := by
    rw [getLsbD_fieldMask hi]
    exact decide_eq_false (by omega)
  change (word.toBitVec &&& ~~~fieldMask lsb width |||
    part.toBitVec <<< lsb &&& fieldMask lsb width).getLsbD i = word.toBitVec.getLsbD i
  simp only [BitVec.getLsbD_or, BitVec.getLsbD_and, BitVec.getLsbD_not, hmask, hi, decide_true,
    Bool.not_false, Bool.and_false, Bool.and_true, Bool.or_false]

theorem testBit_slice (word : UInt32) {lsb width : ℕ} (h : width ≤ 32) (j : ℕ) :
    (slice word lsb width).toNat.testBit j =
      (decide (j < width) && word.toNat.testBit (lsb + j)) := by
  rw [toNat_slice word h, Nat.testBit_mod_two_pow, Nat.testBit_div_two_pow, Nat.add_comm]

/-- Numbers of so many bits are the same when they agree at all of them. -/
theorem AgreeAt.eq {n : ℕ} (h : AgreeAt id n a b) (ha : a.toNat < 2 ^ n) (hb : b.toNat < 2 ^ n) :
    a = b :=
  UInt32.toNat_inj.mp (eq_of_testBit_eq_of_lt ha hb h)

/-- Two words have the same field when they agree at its places. -/
theorem slice_eq_iff (h : width ≤ 32) :
    slice a lsb width = slice b lsb width ↔ AgreeAt (lsb + ·) width a b := by
  constructor
  · intro heq j hj
    have hbit := congrArg (fun s : UInt32 => s.toNat.testBit j) heq
    simpa only [testBit_slice _ h, hj, decide_true, Bool.true_and] using hbit
  · intro hagree
    have hbits : AgreeAt id width (slice a lsb width) (slice b lsb width) := by
      intro j hj
      rw [id, testBit_slice a h, testBit_slice b h, hagree j hj]
    exact hbits.eq (toNat_slice_lt a lsb h) (toNat_slice_lt b lsb h)

/-- Words that agree at the low places have the same fields there. -/
theorem AgreeAt.slice_eq {n : ℕ} (h : AgreeAt id n a b) (hn : n ≤ 32) (hfit : lsb + width ≤ n) :
    slice a lsb width = slice b lsb width :=
  (slice_eq_iff (by omega)).mpr fun j hj => h (lsb + j) (by omega)

end Word

namespace Immediate

open Word

variable {a b word imm12 : UInt32} {i j : ℕ}

/-- The place in an instruction word of a bit of its T32 immediate. -/
def placeT32 (j : ℕ) : ℕ := if j < 8 then j else if j < 11 then j + 4 else 26

/-- The word with the three fields of its T32 immediate overwritten: bit 26 by bit 11, bits 14 to 12
by bits 10 to 8, and bits 7 to 0 by bits 7 to 0. -/
def scatterT32 (word imm12 : UInt32) : UInt32 :=
  let withTop := overwrite word (slice imm12 11 1) 26 1
  let withMiddle := overwrite withTop (slice imm12 8 3) 12 3
  overwrite withMiddle (slice imm12 0 8) 0 8

theorem placeT32_of_lt (h : j < 8) : placeT32 j = j := if_pos h

theorem placeT32_of_le (h : 8 ≤ j) (h' : j < 11) : placeT32 j = j + 4 := by
  rw [placeT32, if_neg (Nat.not_lt.mpr h), if_pos h']

/-- The three fields that a bit of the immediate may lie in, from the lowest up. -/
theorem field_cases (h : j < 12) : j < 8 ∨ (8 ≤ j ∧ j < 11) ∨ j = 11 := by
  omega

theorem lt_of_gatherT32 (h : gatherT32 word = .ok imm12) : imm12.toNat < 2 ^ 12 :=
  Nat.lt_succ_of_le (UInt32.le_iff_toNat_le.mp (le_of_gatherT32 h))

theorem testBit_gatherT32 (h : gatherT32 word = .ok imm12) (hj : j < 12) :
    imm12.toNat.testBit j = word.toNat.testBit (placeT32 j) := by
  obtain ⟨imm12', h', hnum⟩ := exists_gatherT32_eq_ok word
  obtain rfl : imm12 = imm12' := Except.ok.inj (h.symm.trans h')
  have himm3 := toNat_slice_lt word 12 (by decide : 3 ≤ 32)
  have himm8 := toNat_slice_lt word 0 (by decide : 8 ≤ 32)
  have hsum : imm12.toNat = 2 ^ 11 * (slice word 26 1).toNat +
      (2 ^ 8 * (slice word 12 3).toNat + (slice word 0 8).toNat) := by omega
  rw [hsum, Nat.testBit_two_pow_mul_add _ (by omega), Nat.testBit_two_pow_mul_add _ himm8]
  rcases field_cases hj with h8 | ⟨h8, h11⟩ | rfl
  · rw [placeT32_of_lt h8, if_pos (by omega), if_pos h8, testBit_slice _ (by decide),
      decide_eq_true h8, Bool.true_and, Nat.zero_add]
  · have hplace : 12 + (j - 8) = j + 4 := by omega
    rw [placeT32_of_le h8 h11, if_pos h11, if_neg (Nat.not_lt.mpr h8), testBit_slice _ (by decide),
      decide_eq_true (by omega : j - 8 < 3), Bool.true_and, hplace]
  · rw [if_neg (by decide), testBit_slice _ (by decide)]
    rfl

/-- The places of an instruction word that hold its immediate say which one it is. -/
theorem gatherT32_eq_iff : gatherT32 a = gatherT32 b ↔ AgreeAt placeT32 12 a b := by
  obtain ⟨x, hx⟩ : ∃ x, gatherT32 a = .ok x := ⟨_, gatherT32_eq_ok a⟩
  obtain ⟨y, hy⟩ : ∃ y, gatherT32 b = .ok y := ⟨_, gatherT32_eq_ok b⟩
  constructor
  · intro h j hj
    rw [← testBit_gatherT32 hx hj, ← testBit_gatherT32 (h ▸ hx) hj]
  · intro h
    have hbits : AgreeAt id 12 x y := by
      intro j hj
      rw [id, testBit_gatherT32 hx hj, testBit_gatherT32 hy hj, h j hj]
    rw [hx, hy, hbits.eq (lt_of_gatherT32 hx) (lt_of_gatherT32 hy)]

/-- The fields are written from the top down, so that what is written before one lies outside of it. -/
theorem testBit_scatterT32_place (word imm12 : UInt32) (hj : j < 12) :
    (scatterT32 word imm12).toNat.testBit (placeT32 j) = imm12.toNat.testBit j := by
  rcases field_cases hj with h8 | ⟨h8, h11⟩ | rfl
  · rw [placeT32_of_lt h8, scatterT32, testBit_overwrite_inside (by omega) (by omega) (by omega),
      testBit_slice _ (by decide), Nat.sub_zero, decide_eq_true h8, Bool.true_and, Nat.zero_add]
  · have hplace : 8 + (j + 4 - 12) = j := by omega
    rw [placeT32_of_le h8 h11, scatterT32,
      testBit_overwrite_outside (by omega) (.inr (by omega)),
      testBit_overwrite_inside (by omega) (by omega) (by omega), testBit_slice _ (by decide), hplace,
      decide_eq_true (by omega : j + 4 - 12 < 3), Bool.true_and]
  · change (overwrite _ _ 0 8).toNat.testBit 26 = _
    rw [testBit_overwrite_outside (by decide) (.inr (by decide)),
      testBit_overwrite_outside (by decide) (.inr (by decide)),
      testBit_overwrite_inside (by decide) (by decide) (by decide), testBit_slice _ (by decide)]
    rfl

theorem testBit_scatterT32_of_ne (word imm12 : UInt32) (hi : i < 32)
    (h : ∀ j < 12, placeT32 j ≠ i) :
    (scatterT32 word imm12).toNat.testBit i = word.toNat.testBit i := by
  have hlow : 8 ≤ i := by
    by_contra hlt
    exact h i (by omega) (placeT32_of_lt (by omega))
  have hmiddle : i < 12 ∨ 12 + 3 ≤ i := by
    by_contra hin
    exact h (i - 4) (by omega) ((placeT32_of_le (by omega) (by omega)).trans (by omega))
  have htop : 26 ≠ i := h 11 (by decide)
  rw [scatterT32, testBit_overwrite_outside hi (by omega), testBit_overwrite_outside hi hmiddle,
    testBit_overwrite_outside hi (by omega)]

theorem gatherT32_scatterT32 (word : UInt32) (h : imm12 ≤ 0xFFF) :
    gatherT32 (scatterT32 word imm12) = .ok imm12 := by
  obtain ⟨x, hx⟩ : ∃ x, gatherT32 (scatterT32 word imm12) = .ok x := ⟨_, gatherT32_eq_ok _⟩
  have hlt : imm12.toNat < 2 ^ 12 := Nat.lt_succ_of_le (UInt32.le_iff_toNat_le.mp h)
  have hbits : AgreeAt id 12 x imm12 := by
    intro j hj
    rw [id, testBit_gatherT32 hx hj, testBit_scatterT32_place word imm12 hj]
  rw [hx, hbits.eq (lt_of_gatherT32 hx) hlt]

theorem expandT32Word_of_gatherT32 (h : gatherT32 word = .ok imm12) (carry : Bool) :
    expandT32Word word carry = expandT32 imm12 carry := by
  simp only [expandT32Word, h, bind, Except.bind]

theorem expandT32Word_congr (h : gatherT32 a = gatherT32 b) (carry : Bool) :
    expandT32Word a carry = expandT32Word b carry := by
  rw [expandT32Word, expandT32Word, h]

theorem expandA32_congr (h : AgreeAt id 12 a b) (carry : Bool) :
    expandA32 a carry = expandA32 b carry := by
  have hbyte : slice a 0 8 = slice b 0 8 := h.slice_eq (by decide) (by decide)
  have hrotate : slice a 8 4 = slice b 8 4 := h.slice_eq (by decide) (by decide)
  rw [expandA32_eq_ok, expandA32_eq_ok, hbyte, hrotate]

theorem expandT32_congr (h : AgreeAt id 12 a b) (carry : Bool) :
    expandT32 a carry = expandT32 b carry := by
  have hfield {lsb width : ℕ} (hfit : lsb + width ≤ 12) : slice a lsb width = slice b lsb width :=
    h.slice_eq (by decide) hfit
  rw [expandT32_eq_ok, expandT32_eq_ok, hfield (by decide : 10 + 2 ≤ 12),
    hfield (by decide : 0 + 8 ≤ 12), hfield (by decide : 8 + 2 ≤ 12),
    hfield (by decide : 0 + 7 ≤ 12), hfield (by decide : 7 + 5 ≤ 12)]

theorem exists_scaledOffset_eq_ok (word : UInt32) :
    ∃ offset, scaledOffset word = .ok offset ∧ offset.toNat = 4 * (slice word 0 7).toNat := by
  refine ⟨_, scaledOffset_eq_ok word, ?_⟩
  have hlt := toNat_slice_lt word 0 (by decide : 7 ≤ 32)
  rw [UInt32.toNat_mul]
  change (slice word 0 7).toNat * 4 % 2 ^ 32 = _
  omega

theorem scaledOffset_eq_iff : scaledOffset a = scaledOffset b ↔ AgreeAt id 7 a b := by
  have hslice : slice a 0 7 = slice b 0 7 ↔ AgreeAt id 7 a b := by
    rw [slice_eq_iff (by decide)]
    simp only [AgreeAt, Nat.zero_add, id]
  obtain ⟨x, hx, hnum⟩ := exists_scaledOffset_eq_ok a
  obtain ⟨y, hy, hnum'⟩ := exists_scaledOffset_eq_ok b
  rw [hx, hy, ← hslice, Except.ok.injEq, ← UInt32.toNat_inj, ← UInt32.toNat_inj]
  omega

/-- An immediate that is put into a word is gathered from it and expanded as it is by itself, and the
rest of the word stays. Words give the same immediate when they agree at its twelve places, and then
the same constants. The expansions of an A32 word and of a gathered immediate see the low twelve bits
alone, and the scaled offset is four times the low seven. -/
theorem immediates_isolated :
    (∀ word imm12, imm12 ≤ 0xFFF →
      (∀ j < 12, (scatterT32 word imm12).toNat.testBit (placeT32 j) = imm12.toNat.testBit j) ∧
      (∀ i < 32, (∀ j < 12, placeT32 j ≠ i) →
        (scatterT32 word imm12).toNat.testBit i = word.toNat.testBit i) ∧
      gatherT32 (scatterT32 word imm12) = .ok imm12 ∧
      ∀ carry, expandT32Word (scatterT32 word imm12) carry = expandT32 imm12 carry) ∧
    (∀ word, ∃ imm12, gatherT32 word = .ok imm12 ∧ imm12 ≤ 0xFFF ∧
      ∀ j < 12, imm12.toNat.testBit j = word.toNat.testBit (placeT32 j)) ∧
    (∀ a b, gatherT32 a = gatherT32 b ↔ AgreeAt placeT32 12 a b) ∧
    (∀ a b, AgreeAt placeT32 12 a b → ∀ carry, expandT32Word a carry = expandT32Word b carry) ∧
    (∀ a b, AgreeAt id 12 a b → ∀ carry,
      expandA32 a carry = expandA32 b carry ∧ expandT32 a carry = expandT32 b carry) ∧
    (∀ a b, scaledOffset a = scaledOffset b ↔ AgreeAt id 7 a b) ∧
    ∀ word, ∃ offset, scaledOffset word = .ok offset ∧
      offset.toNat = 4 * (word.toNat % 2 ^ 7) := by
  refine ⟨fun word imm12 h => ?_, fun word => ?_, fun a b => gatherT32_eq_iff,
    fun a b h carry => ?_, fun a b h carry => ⟨expandA32_congr h carry, expandT32_congr h carry⟩,
    fun a b => scaledOffset_eq_iff, fun word => ?_⟩
  · have hgather := gatherT32_scatterT32 word h
    exact ⟨fun j hj => testBit_scatterT32_place word imm12 hj,
      fun i hi hne => testBit_scatterT32_of_ne word imm12 hi hne, hgather,
      expandT32Word_of_gatherT32 hgather⟩
  · have hgather := gatherT32_eq_ok word
    exact ⟨_, hgather, le_of_gatherT32 hgather, fun j hj => testBit_gatherT32 hgather hj⟩
  · exact expandT32Word_congr (gatherT32_eq_iff.mpr h) carry
  · obtain ⟨offset, hoffset, hnum⟩ := exists_scaledOffset_eq_ok word
    rw [toNat_slice word (by decide), pow_zero, Nat.div_one] at hnum
    exact ⟨offset, hoffset, hnum⟩

/-- An immediate that has all its bits set, in a word that has none of them, and words that differ just
beside a field. -/
theorem immediates_isolated_at_edges :
    (scatterT32 0xFBFF8F00 0xFFF).toNat.testBit 15 = (0xFBFF8F00 : UInt32).toNat.testBit 15 ∧
    gatherT32 (scatterT32 0xFBFF8F00 0xFFF) = .ok 0xFFF ∧
    expandT32Word 0xFBFF8F00 true = expandT32Word 0 true ∧
    expandA32 0x1ABC true = expandA32 0xABC true ∧
    expandT32 0x1ABC true = expandT32 0xABC true := by
  obtain ⟨hscatter, -, -, hword, hlow, -⟩ := immediates_isolated
  obtain ⟨-, hrest, hgather, -⟩ := hscatter 0xFBFF8F00 0xFFF (by decide)
  have hagree : AgreeAt placeT32 12 0xFBFF8F00 0 := by unfold AgreeAt; decide
  have hagree' : AgreeAt id 12 0x1ABC 0xABC := by unfold AgreeAt; decide
  obtain ⟨hA32, hT32⟩ := hlow _ _ hagree' true
  exact ⟨hrest 15 (by decide) (by decide), hgather, hword _ _ hagree true, hA32, hT32⟩

end Immediate

end ShifterOperand

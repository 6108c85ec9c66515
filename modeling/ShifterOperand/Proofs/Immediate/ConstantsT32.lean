import Mathlib.Data.Set.Insert
import Mathlib.Tactic.IntervalCases
import ShifterOperand.Proofs.Immediate.Assembly
import ShifterOperand.Proofs.Shift.Exact

/-!
# T32 constants and their encodings

Which constants a T32 immediate of twelve bits can hold. They are the bytes repeated in one of four
patterns, and the numbers of eight bits, the highest of them set, that are moved up by one to 24
places. No two of these forms meet in a constant other than zero: a number of eight bits that is as
great as a repeated byte has more zeros at its bottom. Main statement: a constant has no encoding or
exactly one, zero has four, and two instruction words give the same constant when they hold the same
immediate or both give zero.
-/
namespace ShifterOperand.Immediate

open Word (slice rotateRight)

/-- The immediates of twelve bits that expand to the constant. -/
def encodingsT32 (constant : UInt32) (carry : Bool) : Set UInt32 :=
  {imm12 | imm12 ≤ 0xFFF ∧ ∃ w, expandT32 imm12 carry = .ok w ∧ w.value = constant}

/-- A byte in one of the patterns `000000XY`, `00XY00XY`, `XY00XY00` and `XYXYXYXY`. -/
def RepeatsByte (n : ℕ) : Prop := ∃ p b, p < 4 ∧ b < 256 ∧ n = b * multiplier p

/-- A number of eight bits, the highest of them set, moved up. -/
def MovesByte (n : ℕ) : Prop :=
  ∃ m k, 0x80 ≤ m ∧ m ≤ 0xFF ∧ 1 ≤ k ∧ k ≤ 24 ∧ n = m * 2 ^ k

/-- The number of an immediate, and the constant that it stands for. -/
inductive EncodesT32 : ℕ → ℕ → Prop
  | repeated {p b : ℕ} (hp : p < 4) (hb : b < 256) : EncodesT32 (256 * p + b) (b * multiplier p)
  | moved {m k : ℕ} (hm : 0x80 ≤ m) (hm' : m ≤ 0xFF) (hk : 1 ≤ k) (hk' : k ≤ 24) :
      EncodesT32 (128 * (32 - k) + (m - 0x80)) (m * 2 ^ k)

variable {b c e f j k l m n p q : ℕ}

/-! No two forms meet. -/

/-- A number of eight bits that has been moved to a place has only zeros well below it. -/
theorem dvd_of_two_pow_le (hm : m ≤ 0xFF) (h : 2 ^ j ≤ m * 2 ^ k) : 2 ^ (j - 7) ∣ m * 2 ^ k := by
  have hlt : 2 ^ j < 2 ^ (k + 8) := by
    calc 2 ^ j ≤ m * 2 ^ k := h
      _ < 2 ^ 8 * 2 ^ k := Nat.mul_lt_mul_of_pos_right (by omega) (Nat.two_pow_pos k)
      _ = 2 ^ (k + 8) := by rw [Nat.mul_comm, ← Nat.pow_add]
  have hj : j < k + 8 := (Nat.pow_lt_pow_iff_right (by decide)).mp hlt
  exact Dvd.dvd.mul_left (Nat.pow_dvd_pow 2 (by omega)) m

/-- A number of eight bits that is as great as a repeated byte has more zeros at its bottom. -/
theorem repeated_ne_moved (hp : p < 4) (hb : b < 256) (hm : 0x80 ≤ m) (hm' : m ≤ 0xFF)
    (hk : 1 ≤ k) : b * multiplier p ≠ m * 2 ^ k := by
  intro h
  have htwo : 2 ^ 1 ≤ 2 ^ k := Nat.pow_le_pow_right (by decide) hk
  have hlow : 0x80 * 2 ≤ m * 2 ^ k := Nat.mul_le_mul hm htwo
  have hdvd (j : ℕ) (hj : 2 ^ j ≤ b * multiplier p) : 2 ^ (j - 7) ∣ b * multiplier p := by
    rw [h] at hj ⊢
    exact dvd_of_two_pow_le hm' hj
  have hodd {o : ℕ} (ho : Nat.Coprime 512 o) : ¬ 512 ∣ b * o := by
    intro hmul
    have hb' : 512 ∣ b := ho.dvd_of_dvd_mul_right hmul
    have hzero : b = 0 := Nat.eq_zero_of_dvd_of_lt hb' (by omega)
    rw [← h, hzero] at hlow
    omega
  rw [← h] at hlow
  interval_cases p
  · simp only [multiplier] at hlow
    omega
  · simp only [multiplier] at hlow hdvd
    exact hodd (by decide : Nat.Coprime 512 0x00010001) (hdvd 16 (by omega))
  · simp only [multiplier] at hlow hdvd
    have hshift : 512 * 256 ∣ b * 0x00010001 * 256 := by
      rw [Nat.mul_assoc]
      exact hdvd 24 (by omega)
    exact hodd (by decide) (Nat.dvd_of_mul_dvd_mul_right (by decide) hshift)
  · simp only [multiplier] at hlow hdvd
    have hpow : 512 ∣ 2 ^ 17 := Nat.pow_dvd_pow 2 (by decide : 9 ≤ 17)
    exact hodd (by decide : Nat.Coprime 512 0x01010101) (hpow.trans (hdvd 24 (by omega)))

theorem repeated_inj (hp : p < 4) (hq : q < 4) (hb : b < 256) (hc : c < 256)
    (hne : b * multiplier p ≠ 0) (h : b * multiplier p = c * multiplier q) : p = q ∧ b = c := by
  interval_cases p <;> interval_cases q <;> simp only [multiplier] at h hne <;> omega

theorem moved_place_le (hm : 0x80 ≤ m) (hn : n ≤ 0xFF) (h : m * 2 ^ k = n * 2 ^ l) : k ≤ l := by
  have hlt : 2 ^ (k + 7) < 2 ^ (l + 8) := by
    calc 2 ^ (k + 7) = 2 ^ 7 * 2 ^ k := by rw [Nat.mul_comm, ← Nat.pow_add]
      _ ≤ m * 2 ^ k := Nat.mul_le_mul_right _ hm
      _ = n * 2 ^ l := h
      _ < 2 ^ 8 * 2 ^ l := Nat.mul_lt_mul_of_pos_right (by omega) (Nat.two_pow_pos l)
      _ = 2 ^ (l + 8) := by rw [Nat.mul_comm, ← Nat.pow_add]
  have hkl : k + 7 < l + 8 := (Nat.pow_lt_pow_iff_right (by decide)).mp hlt
  omega

theorem moved_inj (hm : 0x80 ≤ m) (hm' : m ≤ 0xFF) (hn : 0x80 ≤ n) (hn' : n ≤ 0xFF)
    (h : m * 2 ^ k = n * 2 ^ l) : m = n ∧ k = l := by
  obtain rfl : k = l := Nat.le_antisymm (moved_place_le hm hn' h) (moved_place_le hn hm' h.symm)
  exact ⟨Nat.eq_of_mul_eq_mul_right (Nat.two_pow_pos k) h, rfl⟩

namespace EncodesT32

theorem lt (h : EncodesT32 e n) : e < 4096 := by
  cases h with
  | repeated hp hb => omega
  | moved hm hm' hk hk' => omega

/-- A constant other than zero has one encoding at most. -/
theorem unique (he : EncodesT32 e n) (hf : EncodesT32 f n) (hn : n ≠ 0) : e = f := by
  generalize hx : n = x at hf
  cases he with
  | repeated hp hb =>
    cases hf with
    | repeated hq hc =>
      obtain ⟨rfl, rfl⟩ := repeated_inj hp hq hb hc hn hx
      rfl
    | moved hm hm' hk hk' => exact absurd hx (repeated_ne_moved hp hb hm hm' hk)
  | moved hm hm' hk hk' =>
    cases hf with
    | repeated hq hc => exact absurd hx.symm (repeated_ne_moved hq hc hm hm' hk)
    | moved hl hl' _ _ =>
      obtain ⟨rfl, rfl⟩ := moved_inj hm hm' hl hl' hx
      rfl

/-- An immediate encodes one constant. -/
theorem functional (hm : EncodesT32 e m) (hn : EncodesT32 e n) : m = n := by
  generalize hx : e = f at hn
  cases hm with
  | @repeated p b hp hb =>
    cases hn with
    | @repeated q c hq hc =>
      obtain rfl : p = q := by omega
      obtain rfl : b = c := by omega
      rfl
    | moved hm hm' hk hk' => omega
  | @moved m k hm hm' hk hk' =>
    cases hn with
    | repeated hq hc => omega
    | @moved n l hn hn' hl hl' =>
      obtain rfl : k = l := by omega
      obtain rfl : m = n := by omega
      rfl

theorem zero_iff : EncodesT32 e 0 ↔ ∃ p < 4, e = 256 * p := by
  constructor
  · intro h
    generalize hx : 0 = x at h
    cases h with
    | @repeated p b hp hb =>
      refine ⟨p, hp, ?_⟩
      interval_cases p <;> simp only [multiplier] at hx <;> omega
    | @moved m k hm =>
      have hpos := Nat.mul_pos (by omega : 0 < m) (Nat.two_pow_pos k)
      omega
  · rintro ⟨p, hp, rfl⟩
    simpa using EncodesT32.repeated hp (by decide : 0 < 256)

theorem exists_iff : (∃ e, EncodesT32 e n) ↔ RepeatsByte n ∨ MovesByte n := by
  constructor
  · rintro ⟨e, h⟩
    cases h with
    | repeated hp hb => exact .inl ⟨_, _, hp, hb, rfl⟩
    | moved hm hm' hk hk' => exact .inr ⟨_, _, hm, hm', hk, hk', rfl⟩
  · rintro (⟨p, b, hp, hb, rfl⟩ | ⟨m, k, hm, hm', hk, hk', rfl⟩)
    · exact ⟨_, .repeated hp hb⟩
    · exact ⟨_, .moved hm hm' hk hk'⟩

end EncodesT32

/-! What the expansion makes of an immediate. -/

variable {imm12 constant : UInt32}

/-- A number of eight bits that is moved up has its highest bit at the top of the word when it is
moved by 24 places. -/
theorem testBit_moved (hm : 0x80 ≤ m) (hm' : m ≤ 0xFF) (hk : k ≤ 24) :
    (m * 2 ^ k).testBit 31 = decide (k = 24) := by
  rw [Nat.testBit_mul_two_pow, decide_eq_true (by omega : k ≤ 31), Bool.true_and]
  by_cases h : k = 24
  · subst h
    rw [Nat.testBit_eq_decide_div_mod_eq]
    simp only [decide_true, decide_eq_true_eq]
    omega
  · have hlt : m < 2 ^ (31 - k) :=
      (by omega : m < 2 ^ 8).trans_le (Nat.pow_le_pow_right (by decide) (by omega))
    rw [Nat.testBit_lt_two_pow hlt, decide_eq_false h]

theorem exists_expandT32_repeated (hle : imm12 ≤ 0xFFF) (h : slice imm12 10 2 = 0) :
    ∃ constant : UInt32, EncodesT32 imm12.toNat constant.toNat ∧
      ∀ carry, expandT32 imm12 carry = .ok ⟨constant, carry⟩ := by
  have hle' : imm12.toNat ≤ 4095 := UInt32.le_iff_toNat_le.mp hle
  have hform := (Word.slice_eq_zero_iff imm12 10 2 (by decide)).mp h
  have hbyte := Word.toNat_slice_lt imm12 0 (by decide : 8 ≤ 32)
  have hpattern := Word.toNat_slice_lt imm12 8 (by decide : 2 ≤ 32)
  have hnum : imm12.toNat = 256 * (slice imm12 8 2).toNat + (slice imm12 0 8).toNat := by
    rw [Word.toNat_slice _ (by decide), Word.toNat_slice _ (by decide)]
    omega
  refine ⟨_, ?_, fun carry => by rw [expandT32_eq_ok, if_pos h]⟩
  rw [toNat_repeated _ hbyte, hnum]
  exact .repeated hpattern hbyte

theorem exists_expandT32_moved (hle : imm12 ≤ 0xFFF) (h : slice imm12 10 2 ≠ 0) :
    ∃ constant : UInt32, EncodesT32 imm12.toNat constant.toNat ∧
      ∀ carry, expandT32 imm12 carry = .ok ⟨constant, constant.toNat.testBit 31⟩ := by
  have hle' : imm12.toNat ≤ 4095 := UInt32.le_iff_toNat_le.mp hle
  have hlow := Word.toNat_slice_lt imm12 0 (by decide : 7 ≤ 32)
  have hlo := eight_le_slice h
  have hhi : (slice imm12 7 5).toNat ≤ 31 :=
    Nat.le_of_lt_succ (Word.toNat_slice_lt imm12 7 (by decide))
  have hlt : 0x80 + (slice imm12 0 7).toNat < 2 ^ (slice imm12 7 5).toNat :=
    (by omega : _ < 2 ^ 8).trans_le (Nat.pow_le_pow_right (by decide) hlo)
  have hnum : imm12.toNat = 128 * (32 - (32 - (slice imm12 7 5).toNat)) +
      (0x80 + (slice imm12 0 7).toNat - 0x80) := by
    rw [Nat.sub_sub_self (by omega), Word.toNat_slice _ (by decide), Word.toNat_slice _ (by decide)]
    omega
  refine ⟨_, ?_, fun carry => by rw [expandT32_eq_ok, if_neg h]⟩
  rw [Word.toNat_rotateRight _ hhi, toNat_unrotated, rotated_of_lt hlt, hnum]
  exact .moved (by omega) (by omega) (by omega) (by omega)

/-- An immediate of twelve bits expands to the constant that it encodes, whatever carry comes in. -/
theorem exists_expandT32 (hle : imm12 ≤ 0xFFF) :
    ∃ constant : UInt32, EncodesT32 imm12.toNat constant.toNat ∧
      ∀ carry, ∃ w, expandT32 imm12 carry = .ok w ∧ w.value = constant := by
  by_cases h : slice imm12 10 2 = 0
  · obtain ⟨constant, hcode, hexpand⟩ := exists_expandT32_repeated hle h
    exact ⟨constant, hcode, fun carry => ⟨_, hexpand carry, rfl⟩⟩
  · obtain ⟨constant, hcode, hexpand⟩ := exists_expandT32_moved hle h
    exact ⟨constant, hcode, fun carry => ⟨_, hexpand carry, rfl⟩⟩

theorem mem_encodingsT32_iff {carry : Bool} :
    imm12 ∈ encodingsT32 constant carry ↔ EncodesT32 imm12.toNat constant.toNat := by
  constructor
  · rintro ⟨hle, w, hw, rfl⟩
    obtain ⟨constant, hcode, hexpand⟩ := exists_expandT32 hle
    obtain ⟨w', hw', rfl⟩ := hexpand carry
    rw [hw, Except.ok.injEq] at hw'
    rwa [hw']
  · intro h
    have hle : imm12 ≤ 0xFFF := UInt32.le_iff_toNat_le.mpr (Nat.le_of_lt_succ h.lt)
    obtain ⟨constant', hcode, hexpand⟩ := exists_expandT32 hle
    obtain rfl : constant' = constant := UInt32.toNat_inj.mp (hcode.functional h)
    exact ⟨hle, hexpand carry⟩

theorem mem_encodingsT32_of_encodes {carry : Bool} (h : EncodesT32 e constant.toNat) :
    .ofNat e ∈ encodingsT32 constant carry := by
  have hsize : e < UInt32.size := h.lt.trans (by decide)
  rw [mem_encodingsT32_iff, UInt32.toNat_ofNat_of_lt' hsize]
  exact h

theorem encodingsT32_zero (carry : Bool) :
    encodingsT32 0 carry = {0x000, 0x100, 0x200, 0x300} := by
  ext imm12
  rw [mem_encodingsT32_iff, UInt32.toNat_zero, EncodesT32.zero_iff]
  simp only [Set.mem_insert_iff, Set.mem_singleton_iff, ← UInt32.toNat_inj, UInt32.reduceToNat]
  constructor
  · rintro ⟨p, hp, h⟩
    omega
  · intro h
    exact ⟨imm12.toNat / 256, by omega, by omega⟩

/-- The one encoding of a constant other than zero. -/
theorem encodingsT32_eq_singleton (hn : constant ≠ 0) (h : EncodesT32 e constant.toNat)
    (carry : Bool) : encodingsT32 constant carry = {.ofNat e} := by
  have hn' : constant.toNat ≠ 0 := fun hz => hn (UInt32.toNat_inj.mp hz)
  have hmem : .ofNat e ∈ encodingsT32 constant carry := mem_encodingsT32_of_encodes h
  ext imm12
  rw [Set.mem_singleton_iff]
  constructor
  · intro himm
    have heq := (mem_encodingsT32_iff.mp himm).unique (mem_encodingsT32_iff.mp hmem) hn'
    exact UInt32.toNat_inj.mp heq
  · rintro rfl
    exact hmem

theorem exists_encodingsT32_eq_singleton (hn : constant ≠ 0)
    (h : RepeatsByte constant.toNat ∨ MovesByte constant.toNat) :
    ∃ imm12, ∀ carry, encodingsT32 constant carry = {imm12} := by
  obtain ⟨e, he⟩ := EncodesT32.exists_iff.mpr h
  exact ⟨_, encodingsT32_eq_singleton hn he⟩

theorem encodingsT32_eq_empty {carry : Bool}
    (h : ¬ (RepeatsByte constant.toNat ∨ MovesByte constant.toNat)) :
    encodingsT32 constant carry = ∅ := by
  refine Set.eq_empty_iff_forall_notMem.mpr fun imm12 himm => h ?_
  exact EncodesT32.exists_iff.mp ⟨_, mem_encodingsT32_iff.mp himm⟩

theorem mul_two_pow_lt (hm : m ≤ 0xFF) (hk : k ≤ 24) : m * 2 ^ k < UInt32.size :=
  calc m * 2 ^ k ≤ 0xFF * 2 ^ 24 := Nat.mul_le_mul hm (Nat.pow_le_pow_right (by decide) hk)
    _ < UInt32.size := by decide

/-- The rotation that encodes a move wraps no bit that is set, and its carry is the highest bit of the
byte at the top of the word. -/
theorem expandT32_moved (hm : 0x80 ≤ m) (hm' : m ≤ 0xFF) (hk : 1 ≤ k) (hk' : k ≤ 24)
    (h : imm12.toNat = 128 * (32 - k) + (m - 0x80)) (carry : Bool) :
    expandT32 imm12 carry = .ok ⟨.ofNat (m * 2 ^ k), decide (k = 24)⟩ := by
  have hcode : EncodesT32 imm12.toNat (m * 2 ^ k) := h ▸ .moved hm hm' hk hk'
  have hle : imm12 ≤ 0xFFF := UInt32.le_iff_toNat_le.mpr (Nat.le_of_lt_succ hcode.lt)
  have hform : slice imm12 10 2 ≠ 0 := by
    rw [ne_eq, Word.slice_eq_zero_iff _ _ _ (by decide)]
    omega
  obtain ⟨constant, hcode', hexpand⟩ := exists_expandT32_moved hle hform
  have hnum := hcode'.functional hcode
  rw [hexpand, hnum, testBit_moved hm hm' hk', ← hnum, UInt32.ofNat_toNat]

theorem exists_moved_encoding (hm : 0x80 ≤ m) (hm' : m ≤ 0xFF) (hk : 1 ≤ k) (hk' : k ≤ 24) :
    ∃ imm12, (∀ carry, encodingsT32 (.ofNat (m * 2 ^ k)) carry = {imm12}) ∧
      (slice imm12 7 5).toNat = 32 - k ∧ (slice imm12 0 7).toNat = m - 0x80 ∧
      ∀ carry, expandT32 imm12 carry = .ok ⟨.ofNat (m * 2 ^ k), decide (k = 24)⟩ := by
  have hsize : 128 * (32 - k) + (m - 0x80) < UInt32.size := by
    simp only [UInt32.size]
    omega
  have hnum : (UInt32.ofNat (m * 2 ^ k)).toNat = m * 2 ^ k :=
    UInt32.toNat_ofNat_of_lt' (mul_two_pow_lt hm' hk')
  have hne : UInt32.ofNat (m * 2 ^ k) ≠ 0 := by
    intro hz
    rw [hz, UInt32.toNat_zero] at hnum
    have hpos := Nat.mul_pos (by omega : 0 < m) (Nat.two_pow_pos k)
    omega
  have hcode := EncodesT32.moved hm hm' hk hk'
  rw [← hnum] at hcode
  refine ⟨_, encodingsT32_eq_singleton hne hcode, ?_, ?_,
    expandT32_moved hm hm' hk hk' (UInt32.toNat_ofNat_of_lt' hsize)⟩
  · rw [Word.toNat_slice _ (by decide), UInt32.toNat_ofNat_of_lt' hsize]
    omega
  · rw [Word.toNat_slice _ (by decide), UInt32.toNat_ofNat_of_lt' hsize]
    omega

/-- An instruction word gives the constant that its immediate encodes. -/
theorem exists_constantT32Word (word : UInt32) :
    ∃ imm12 constant : UInt32, gatherT32 word = .ok imm12 ∧
      constantT32Word word = .ok constant ∧ EncodesT32 imm12.toNat constant.toNat := by
  obtain ⟨imm12, hgather, -⟩ := exists_gatherT32_eq_ok word
  obtain ⟨constant, hcode, hexpand⟩ := exists_expandT32 (le_of_gatherT32 hgather)
  obtain ⟨w, hw, rfl⟩ := hexpand false
  refine ⟨imm12, w.value, hgather, ?_, hcode⟩
  simp only [constantT32Word, expandT32Word, hgather, hw, bind, Except.bind, pure, Except.pure]

theorem constantT32Word_eq_iff (a b : UInt32) :
    constantT32Word a = constantT32Word b ↔
      gatherT32 a = gatherT32 b ∨ constantT32Word a = .ok 0 ∧ constantT32Word b = .ok 0 := by
  obtain ⟨e, constant, hgather, hconstant, hcode⟩ := exists_constantT32Word a
  obtain ⟨f, constant', hgather', hconstant', hcode'⟩ := exists_constantT32Word b
  rw [hgather, hgather', hconstant, hconstant']
  simp only [Except.ok.injEq]
  constructor
  · rintro rfl
    by_cases hz : constant = 0
    · exact .inr ⟨hz, hz⟩
    · have hz' : constant.toNat ≠ 0 := fun h => hz (UInt32.toNat_inj.mp h)
      exact .inl (UInt32.toNat_inj.mp (hcode.unique hcode' hz'))
  · rintro (rfl | ⟨rfl, rfl⟩)
    · exact UInt32.toNat_inj.mp (hcode.functional hcode')
    · rfl

/-- Zero has four encodings, and every other constant has one, the same for either carry, if it is a
repeated byte or a number of eight bits that is moved up, and none if it is neither. The encoding of a number that is moved holds
the amount of the rotation and the lower bits of the number, and its carry is set when the number
reaches the top of the word. Every instruction word gives a constant, and two of them give the same
when they hold the same immediate or both give zero. -/
theorem encodingsT32_classified :
    (∀ carry, encodingsT32 0 carry = {0x000, 0x100, 0x200, 0x300}) ∧
    (∀ constant : UInt32, constant ≠ 0 →
      RepeatsByte constant.toNat ∨ MovesByte constant.toNat →
        ∃ imm12, ∀ carry, encodingsT32 constant carry = {imm12}) ∧
    (∀ constant carry, ¬ (RepeatsByte constant.toNat ∨ MovesByte constant.toNat) →
      encodingsT32 constant carry = ∅) ∧
    (∀ m k, 0x80 ≤ m → m ≤ 0xFF → 1 ≤ k → k ≤ 24 →
      m * 2 ^ k < 2 ^ 32 ∧ ∃ imm12,
        (∀ carry, encodingsT32 (.ofNat (m * 2 ^ k)) carry = {imm12}) ∧
        (slice imm12 7 5).toNat = 32 - k ∧ (slice imm12 0 7).toNat = m - 0x80 ∧
        ∀ carry, expandT32 imm12 carry = .ok ⟨.ofNat (m * 2 ^ k), decide (k = 24)⟩) ∧
    (∀ word, ∃ constant, constantT32Word word = .ok constant) ∧
    ∀ a b, constantT32Word a = constantT32Word b ↔
      gatherT32 a = gatherT32 b ∨ constantT32Word a = .ok 0 ∧ constantT32Word b = .ok 0 := by
  refine ⟨encodingsT32_zero, fun _ hn h => exists_encodingsT32_eq_singleton hn h,
    fun _ _ h => encodingsT32_eq_empty h,
    fun _ _ hm hm' hk hk' => ⟨mul_two_pow_lt hm' hk', exists_moved_encoding hm hm' hk hk'⟩,
    fun word => ?_, constantT32Word_eq_iff⟩
  obtain ⟨-, constant, -, hconstant, -⟩ := exists_constantT32Word word
  exact ⟨constant, hconstant⟩

/-- A repeated byte, two bits that are too far apart, and a byte at the top of the word. -/
theorem encodingsT32_classified_at_edges :
    ((0x00AB00AB : UInt32) ≠ 0 ∧
      (RepeatsByte (0x00AB00AB : UInt32).toNat ∨ MovesByte (0x00AB00AB : UInt32).toNat) ∧
      ∃ imm12, ∀ carry, encodingsT32 0x00AB00AB carry = {imm12}) ∧
    (¬ (RepeatsByte (0x101 : UInt32).toNat ∨ MovesByte (0x101 : UInt32).toNat) ∧
      encodingsT32 0x101 false = ∅) ∧
    0x80 * 2 ^ 24 < 2 ^ 32 ∧ ∃ imm12,
      (∀ carry, encodingsT32 (.ofNat (0x80 * 2 ^ 24)) carry = {imm12}) ∧
      (slice imm12 7 5).toNat = 32 - 24 ∧ (slice imm12 0 7).toNat = 0x80 - 0x80 ∧
      ∀ carry, expandT32 imm12 carry = .ok ⟨.ofNat (0x80 * 2 ^ 24), decide (24 = 24)⟩ := by
  obtain ⟨-, hone, hnone, hmoved, -⟩ := encodingsT32_classified
  have hne : (0x00AB00AB : UInt32) ≠ 0 := by decide
  have hrepeats : RepeatsByte (0x00AB00AB : UInt32).toNat :=
    ⟨1, 0xAB, by decide, by decide, by decide⟩
  have hneither : ¬ (RepeatsByte (0x101 : UInt32).toNat ∨ MovesByte (0x101 : UInt32).toNat) := by
    rintro (⟨p, b, hp, hb, h⟩ | ⟨m, k, -, -, hk, -, h⟩)
    · simp only [UInt32.reduceToNat] at h
      interval_cases p <;> simp only [multiplier] at h <;> omega
    · have heven : 2 ^ 1 ∣ m * 2 ^ k := Dvd.dvd.mul_left (Nat.pow_dvd_pow 2 hk) m
      rw [← h] at heven
      exact absurd heven (by decide)
  exact ⟨⟨hne, .inl hrepeats, hone _ hne (.inl hrepeats)⟩,
    ⟨hneither, hnone _ false hneither⟩,
    hmoved 0x80 24 (by decide) (by decide) (by decide) (by decide)⟩

end ShifterOperand.Immediate

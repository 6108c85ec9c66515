import Mathlib.Tactic.Ring
import ShifterOperand.Proofs.Field

/-!
# Fields of fields, and fields side by side

As a number, a field is an extract: so many bits of the word from a place on. An extract of an extract
is an extract again, and two that lie side by side join to one. Main statement: a field of a field is
the field of the word that lies at its places, as far as the outer field reaches, and fields that lie
side by side through the whole word sum up to the word.
-/
namespace ShifterOperand

/-- The bits of a number from `lsb` on, as many as the width says. -/
def extract (n lsb width : ℕ) : ℕ := n / 2 ^ lsb % 2 ^ width

section Extract

variable (n lsb width : ℕ)

theorem extract_lt : extract n lsb width < 2 ^ width := Nat.mod_lt _ (Nat.two_pow_pos width)

theorem extract_of_zero_width : extract n lsb 0 = 0 := by simp [extract, Nat.mod_one]

theorem testBit_extract (i : ℕ) :
    (extract n lsb width).testBit i = (decide (i < width) && n.testBit (lsb + i)) := by
  rw [extract, Nat.testBit_mod_two_pow, Nat.testBit_div_two_pow, Nat.add_comm]

/-- What lies above the outer extract has been lost. -/
theorem extract_extract (lsb' width' : ℕ) :
    extract (extract n lsb width) lsb' width' =
      extract n (lsb + lsb') (min width' (width - lsb')) := by
  apply Nat.eq_of_testBit_eq
  intro i
  have hwidth : i < min width' (width - lsb') ↔ i < width' ∧ lsb' + i < width := by omega
  simp only [testBit_extract, hwidth, Bool.decide_and, Bool.and_assoc, Nat.add_assoc]

/-- The same by the places of the highest and the lowest bit: the inner extract ends where the outer one
ends if it would reach above. -/
theorem extract_nested {msb lsb msb' lsb' : ℕ} (hl : lsb ≤ msb) (hl' : lsb' ≤ msb') :
    extract (extract n lsb (msb - lsb + 1)) lsb' (msb' - lsb' + 1) =
      if lsb + lsb' ≤ msb then
        extract n (lsb + lsb') (min msb (lsb + msb') - (lsb + lsb') + 1)
      else 0 := by
  rw [extract_extract]
  split_ifs with hin
  · congr 1
    omega
  · have hwidth : min (msb' - lsb' + 1) (msb - lsb + 1 - lsb') = 0 := by omega
    rw [hwidth, extract_of_zero_width]

/-- Two extracts side by side. -/
theorem extract_add (lower upper : ℕ) :
    extract n lsb (lower + upper) =
      extract n (lsb + lower) upper * 2 ^ lower + extract n lsb lower := by
  unfold extract
  rw [pow_add, Nat.mod_mul, Nat.div_div_eq_div_mul, ← pow_add]
  ring

/-- An extract on top of all that lies below it. -/
theorem extract_mul_add_mod :
    extract n lsb width * 2 ^ lsb + n % 2 ^ lsb = n % 2 ^ (lsb + width) := by
  have h := extract_add n 0 lsb width
  simpa [extract] using h.symm

end Extract

namespace Word

variable {value part msb lsb : UInt32}

theorem exists_field_eq_ok (value : UInt32) (hl : lsb.toNat ≤ msb.toNat) (hm : msb.toNat < 32) :
    ∃ part, field value msb lsb = .ok part ∧
      part.toNat = extract value.toNat lsb.toNat (msb.toNat - lsb.toNat + 1) := by
  have hpow : 2 ^ (msb.toNat - lsb.toNat + 1) ≤ 2 ^ 32 := Nat.pow_le_pow_right (by simp) (by omega)
  have hlt := (extract_lt value.toNat lsb.toNat _).trans_le hpow
  exact ⟨_, field_eq_ok (UInt32.lt_iff_toNat_lt.mpr hm) (UInt32.le_iff_toNat_le.mpr hl),
    UInt32.toNat_ofNat_of_lt' hlt⟩

theorem field_eq_ok_iff (hl : lsb.toNat ≤ msb.toNat) (hm : msb.toNat < 32) :
    field value msb lsb = .ok part ↔
      part.toNat = extract value.toNat lsb.toNat (msb.toNat - lsb.toNat + 1) := by
  obtain ⟨x, hx, hnum⟩ := exists_field_eq_ok value hl hm
  rw [hx, Except.ok.injEq, ← UInt32.toNat_inj, hnum, eq_comm]

/-- The field that lies within another one, or as much of it as the other one has. -/
theorem exists_field_field (value : UInt32) {msb' lsb' : UInt32} (hl : lsb.toNat ≤ msb.toNat)
    (hm : msb.toNat < 32) (hl' : lsb'.toNat ≤ msb'.toNat) (hm' : msb'.toNat < 32) :
    ∃ outer inner, field value msb lsb = .ok outer ∧ field outer msb' lsb' = .ok inner ∧
      (lsb + lsb' ≤ msb → field value (min msb (lsb + msb')) (lsb + lsb') = .ok inner) ∧
      (msb < lsb + lsb' → inner = 0) := by
  obtain ⟨outer, houter, hvalue⟩ := exists_field_eq_ok value hl hm
  obtain ⟨inner, hinner, hnum⟩ := exists_field_eq_ok outer hl' hm'
  rw [hvalue, extract_nested _ hl hl'] at hnum
  have hlsb : (lsb + lsb').toNat = lsb.toNat + lsb'.toNat := by
    rw [UInt32.toNat_add, Nat.mod_eq_of_lt (by omega)]
  have htop : (lsb + msb').toNat = lsb.toNat + msb'.toNat := by
    rw [UInt32.toNat_add, Nat.mod_eq_of_lt (by omega)]
  have hmsb : (min msb (lsb + msb')).toNat = min msb.toNat (lsb.toNat + msb'.toNat) := by
    rw [UInt32.toNat_min, htop]
  refine ⟨outer, inner, houter, hinner, fun hin => ?_, fun hout => ?_⟩
  · rw [UInt32.le_iff_toNat_le, hlsb] at hin
    rw [field_eq_ok_iff (by omega) (by omega), hnum, if_pos hin, hlsb, hmsb]
  · rw [UInt32.lt_iff_toNat_lt, hlsb] at hout
    rw [if_neg (Nat.not_le.mpr hout)] at hnum
    exact UInt32.toNat_inj.mp hnum

/-- Bounds of fields that lie side by side, from the place below `top` down to the lowest one. -/
inductive Tiles : ℕ → List (UInt32 × UInt32) → Prop
  | nil : Tiles 0 []
  | cons {top : ℕ} {msb lsb : UInt32} {rest : List (UInt32 × UInt32)} (first : msb.toNat + 1 = top)
      (ordered : lsb ≤ msb) (below : Tiles lsb.toNat rest) : Tiles top ((msb, lsb) :: rest)

/-- The sum of the fields with these bounds, each of them moved back to its place. -/
def fieldSum (value : UInt32) : List (UInt32 × UInt32) → Answer ℕ
  | [] => .ok 0
  | (msb, lsb) :: rest => do
    let part ← field value msb lsb
    let below ← fieldSum value rest
    return part.toNat * 2 ^ lsb.toNat + below

variable {top : ℕ} {bounds : List (UInt32 × UInt32)}

theorem Tiles.bounded (h : Tiles top bounds) (hmem : (msb, lsb) ∈ bounds) :
    lsb.toNat ≤ msb.toNat ∧ msb.toNat < top := by
  induction h with
  | nil => simp at hmem
  | @cons top msb' lsb' rest first ordered below ih =>
    have hle : lsb'.toNat ≤ msb'.toNat := UInt32.le_iff_toNat_le.mp ordered
    rcases List.mem_cons.mp hmem with heq | hmem
    · cases heq
      exact ⟨hle, by omega⟩
    · obtain ⟨hl, hm⟩ := ih hmem
      exact ⟨hl, by omega⟩

/-- Fields side by side sum up to what the word has below the end of the first of them, as the first
lies on top of what the others sum up to. -/
theorem fieldSum_eq_ok (value : UInt32) (h : Tiles top bounds) (htop : top ≤ 32) :
    fieldSum value bounds = .ok (value.toNat % 2 ^ top) := by
  induction h with
  | nil => simp [fieldSum, Nat.mod_one]
  | @cons top msb lsb rest first ordered below ih =>
    have hle : lsb.toNat ≤ msb.toNat := UInt32.le_iff_toNat_le.mp ordered
    have hwidth : lsb.toNat + (msb.toNat - lsb.toNat + 1) = top := by omega
    obtain ⟨part, hpart, hnum⟩ := exists_field_eq_ok value hle (by omega)
    simp only [fieldSum, hpart, ih (by omega), bind, Except.bind, pure, Except.pure]
    rw [hnum, extract_mul_add_mod, hwidth]

/-- A field of a field is a field of the word: it ends with the outer field if it would reach above, and
it is zero if it would begin above. Nothing of the word gets lost between fields that lie side by
side: the sum of them, each at its place, is the word. -/
theorem fields_nest_and_tile (value : UInt32) :
    (∀ msb lsb msb' lsb' : UInt32, lsb ≤ msb → msb < 32 → lsb' ≤ msb' → msb' < 32 →
      ∃ outer inner, field value msb lsb = .ok outer ∧ field outer msb' lsb' = .ok inner ∧
        (lsb + lsb' ≤ msb → field value (min msb (lsb + msb')) (lsb + lsb') = .ok inner) ∧
        (msb < lsb + lsb' → inner = 0)) ∧
    ∀ bounds, Tiles 32 bounds → fieldSum value bounds = .ok value.toNat ∧
      ∀ msb lsb, (msb, lsb) ∈ bounds → ∃ part, field value msb lsb = .ok part ∧
        part.toNat < 2 ^ (msb.toNat - lsb.toNat + 1) := by
  refine ⟨fun msb lsb msb' lsb' hl hm hl' hm' => ?_, fun bounds h => ⟨?_, fun msb lsb hmem => ?_⟩⟩
  · rw [UInt32.le_iff_toNat_le] at hl hl'
    rw [UInt32.lt_iff_toNat_lt] at hm hm'
    exact exists_field_field value hl hm hl' hm'
  · rw [fieldSum_eq_ok value h le_rfl, Nat.mod_eq_of_lt value.toNat_lt]
  · obtain ⟨hl, hm⟩ := h.bounded hmem
    obtain ⟨part, hpart, hnum⟩ := exists_field_eq_ok value hl hm
    refine ⟨part, hpart, ?_⟩
    rw [hnum]
    exact extract_lt _ _ _

/-- A field that would reach above the one around it, a field that begins above it, and a word that is
cut at two places. -/
theorem fields_nest_and_tile_of_word :
    (∃ outer inner, field 0xABCD1234 15 8 = .ok outer ∧ field outer 11 4 = .ok inner ∧
      field 0xABCD1234 (min 15 (8 + 11)) (8 + 4) = .ok inner) ∧
    (∃ outer inner, field 0xABCD1234 15 8 = .ok outer ∧ field outer 8 8 = .ok inner ∧ inner = 0) ∧
    fieldSum 0xABCD1234 [(31, 31), (30, 12), (11, 0)] = .ok 0xABCD1234 := by
  obtain ⟨hnest, htile⟩ := fields_nest_and_tile 0xABCD1234
  obtain ⟨outer, inner, houter, hinner, hin, -⟩ :=
    hnest 15 8 11 4 (by decide) (by decide) (by decide) (by decide)
  obtain ⟨outer', inner', houter', hinner', -, hout⟩ :=
    hnest 15 8 8 8 (by decide) (by decide) (by decide) (by decide)
  refine ⟨⟨outer, inner, houter, hinner, hin (by decide)⟩,
    ⟨outer', inner', houter', hinner', hout (by decide)⟩, (htile _ ?_).1⟩
  exact .cons rfl (by decide) (.cons rfl (by decide) (.cons rfl (by decide) .nil))

end Word

end ShifterOperand

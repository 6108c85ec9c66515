import Mathlib.Order.Bounds.Basic
import ShifterOperand.Machine
import ShifterOperand.Proofs.Field.Extension

/-!
# Extensions one after the other

A run that extends the sign of its word again and again. The width of a word is a width that changes
nothing, and it stands for the widths that are refused as well. Main statement: an extension is the one
word that agrees in the low bits and needs no more of them as a signed number, and a run of extensions
is the one by the least of the widths that are not refused, in whatever order they come.
-/
namespace ShifterOperand.Machine

/-- The steps that extend by these widths. -/
def extensions (widths : List UInt32) : List Step := widths.map .signExtend

/-- The number of bits that an extension by this width leaves of a word. -/
def bitsLeft (width : UInt32) : ℕ := if 1 ≤ width ∧ width ≤ 32 then width.toNat else 32

/-- The least number of bits that the extensions leave of a word. -/
def leastLeft (widths : List UInt32) : ℕ := (widths.map bitsLeft).foldr min 32

theorem bitsLeft_bounds (width : UInt32) : 1 ≤ bitsLeft width ∧ bitsLeft width ≤ 32 := by
  unfold bitsLeft
  split_ifs with h
  · exact ⟨UInt32.le_iff_toNat_le.mp h.1, UInt32.le_iff_toNat_le.mp h.2⟩
  · decide

theorem leastLeft_cons (width : UInt32) (rest : List UInt32) :
    leastLeft (width :: rest) = min (bitsLeft width) (leastLeft rest) := rfl

theorem leastLeft_le_width (widths : List UInt32) : leastLeft widths ≤ 32 := by
  induction widths with
  | nil => exact le_rfl
  | cons width rest ih => exact (Nat.min_le_right _ _).trans ih

theorem leastLeft_le {width : UInt32} {widths : List UInt32} (h : width ∈ widths) :
    leastLeft widths ≤ bitsLeft width := by
  induction widths with
  | nil => cases h
  | cons first rest ih =>
    rw [leastLeft_cons]
    rcases List.mem_cons.mp h with rfl | h
    · exact Nat.min_le_left _ _
    · exact (Nat.min_le_right _ _).trans (ih h)

theorem le_leastLeft {n : ℕ} {widths : List UInt32} (hn : n ≤ 32)
    (h : ∀ width ∈ widths, n ≤ bitsLeft width) : n ≤ leastLeft widths := by
  induction widths with
  | nil => exact hn
  | cons first rest ih =>
    rw [leastLeft_cons]
    exact Nat.le_min.mpr ⟨h first List.mem_cons_self, ih fun width hw => h width (.tail _ hw)⟩

theorem leastLeft_perm {widths other : List UInt32} (h : other.Perm widths) :
    leastLeft other = leastLeft widths := (h.map bitsLeft).foldr_eq 32

theorem leastLeft_of_isLeast {m : UInt32} {widths : List UInt32}
    (h : IsLeast {n | n ∈ widths ∧ 1 ≤ n ∧ n ≤ 32} m) : leastLeft widths = m.toNat := by
  obtain ⟨⟨hmem, hvalid⟩, hleast⟩ := h
  have hm : bitsLeft m = m.toNat := if_pos hvalid
  have hle : m.toNat ≤ 32 := hm ▸ (bitsLeft_bounds m).2
  apply Nat.le_antisymm
  · exact hm ▸ leastLeft_le hmem
  · refine le_leastLeft hle fun width hw => ?_
    unfold bitsLeft
    split_ifs with hwidth
    · exact UInt32.le_iff_toNat_le.mp (hleast ⟨hw, hwidth⟩)
    · exact hle

theorem leastLeft_of_forall_not {widths : List UInt32}
    (h : ∀ n ∈ widths, ¬ (1 ≤ n ∧ n ≤ 32)) : leastLeft widths = 32 :=
  Nat.le_antisymm (leastLeft_le_width widths)
    (le_leastLeft le_rfl fun width hw => (if_neg (h width hw)).ge)

variable (w : Flagged)

theorem next_signExtend_eq_ok {width x : UInt32} (h : Word.signExtend w.value width = .ok x) :
    Step.next w (.signExtend width) = .ok ⟨x, w.carry⟩ := by
  rw [Step.next, h]
  rfl

theorem next_signExtend_eq_error {width : UInt32} (h : ¬ (1 ≤ width ∧ width ≤ 32)) :
    Step.next w (.signExtend width) = .error (.breach (.extensionWidth width)) := by
  rw [Step.next, Word.signExtend_eq_error h]
  rfl

/-- A step leaves as many bits as its width says, all of them when it is refused, and the carry. -/
theorem settle_signExtend (width : UInt32) :
    signed (settle w (Step.next w (.signExtend width))).value.toNat =
        (w.value.toNat : ℤ).bmod (2 ^ bitsLeft width) ∧
      (settle w (Step.next w (.signExtend width))).carry = w.carry := by
  unfold bitsLeft
  split_ifs with h
  · obtain ⟨x, hx, hsigned⟩ := Word.exists_signExtend_eq_ok w.value h.1 h.2
    rw [next_signExtend_eq_ok w hx, settle_ok]
    exact ⟨hsigned, rfl⟩
  · rw [next_signExtend_eq_error w h, settle_error]
    exact ⟨signed_eq_bmod w.value, rfl⟩

/-- A run leaves the least number of bits that one of its steps leaves. Each step replaces the word, and
what the rest makes of that is a remainder of a remainder. -/
theorem final_extensions (widths : List UInt32) :
    signed (final w (extensions widths)).value.toNat =
        (w.value.toNat : ℤ).bmod (2 ^ leastLeft widths) ∧
      (final w (extensions widths)).carry = w.carry := by
  induction widths generalizing w with
  | nil => exact ⟨signed_eq_bmod w.value, rfl⟩
  | cons width rest ih =>
    obtain ⟨hvalue, hcarry⟩ := settle_signExtend w width
    obtain ⟨hvalue', hcarry'⟩ := ih (settle w (Step.next w (.signExtend width)))
    refine ⟨?_, hcarry'.trans hcarry⟩
    change signed (final _ (extensions rest)).value.toNat = _
    rw [hvalue', bmod_toNat _ (leastLeft_le_width rest), hvalue,
      bmod_bmod_two_pow _ (bitsLeft_bounds width).1, leastLeft_cons]

theorem final_extensions_of_isLeast {m : UInt32} {widths : List UInt32}
    (h : IsLeast {n | n ∈ widths ∧ 1 ≤ n ∧ n ≤ 32} m) :
    ∃ x, Word.signExtend w.value m = .ok x ∧ final w (extensions widths) = ⟨x, w.carry⟩ := by
  obtain ⟨x, hx, hsigned⟩ := Word.exists_signExtend_eq_ok w.value h.1.2.1 h.1.2.2
  obtain ⟨hvalue, hcarry⟩ := final_extensions w widths
  rw [leastLeft_of_isLeast h, ← hsigned] at hvalue
  exact ⟨x, hx, Flagged.ext (signed_inj hvalue) hcarry⟩

theorem final_extensions_of_forall_not {widths : List UInt32}
    (h : ∀ n ∈ widths, ¬ (1 ≤ n ∧ n ≤ 32)) : final w (extensions widths) = w := by
  obtain ⟨hvalue, hcarry⟩ := final_extensions w widths
  rw [leastLeft_of_forall_not h, ← signed_eq_bmod] at hvalue
  exact Flagged.ext (signed_inj hvalue) hcarry

theorem final_extensions_perm {widths other : List UInt32} (h : other.Perm widths) :
    final w (extensions other) = final w (extensions widths) := by
  obtain ⟨hvalue, hcarry⟩ := final_extensions w widths
  obtain ⟨hvalue', hcarry'⟩ := final_extensions w other
  rw [leastLeft_perm h, ← hvalue] at hvalue'
  exact Flagged.ext (signed_inj hvalue') (hcarry'.trans hcarry.symm)

/-- The extension of a word by a width is the only one that there is, and a width that a word does not
have is refused. A run of extensions ends as the one by the least width that is not refused, or with
the word that it started from when all are. The order does not matter, and the carry is kept. -/
theorem final_extensions_eq_least (w : Flagged) :
    (∀ width, 1 ≤ width → width ≤ 32 → ∃ x, Word.signExtend w.value width = .ok x ∧
      ∀ y, Word.IsExtension w.value width.toNat y ↔ y = x) ∧
    (∀ width, ¬ (1 ≤ width ∧ width ≤ 32) →
      (∃ stop, Step.next w (.signExtend width) = .error stop) ∧
        settle w (Step.next w (.signExtend width)) = w) ∧
    (∀ widths m, IsLeast {n | n ∈ widths ∧ 1 ≤ n ∧ n ≤ 32} m →
      ∃ x, Word.signExtend w.value m = .ok x ∧ final w (extensions widths) = ⟨x, w.carry⟩) ∧
    (∀ widths : List UInt32, (∀ n ∈ widths, ¬ (1 ≤ n ∧ n ≤ 32)) →
      final w (extensions widths) = w) ∧
    ∀ widths other : List UInt32, other.Perm widths →
      final w (extensions other) = final w (extensions widths) := by
  refine ⟨fun width hlo hhi => Word.exists_isExtension_iff w.value hlo hhi, fun width h => ?_,
    fun widths m h => final_extensions_of_isLeast w h,
    fun widths h => final_extensions_of_forall_not w h,
    fun widths other h => final_extensions_perm w h⟩
  rw [next_signExtend_eq_error w h, settle_error]
  exact ⟨⟨_, rfl⟩, rfl⟩

/-- A byte whose top bit is set: it is extended again when it has been cut down to four bits first. -/
theorem final_extensions_eq_least_of_byte :
    (∃ x, Word.signExtend 0x1F8 8 = .ok x ∧
      ∀ y, Word.IsExtension 0x1F8 (8 : UInt32).toNat y ↔ y = x) ∧
    settle ⟨0x1F8, true⟩ (Step.next ⟨0x1F8, true⟩ (.signExtend 33)) = ⟨0x1F8, true⟩ ∧
    final ⟨0x1F8, true⟩ (extensions [16, 0, 8, 40, 9]) = ⟨0xFFFFFFF8, true⟩ ∧
    final ⟨0x1F8, true⟩ (extensions [0, 33]) = ⟨0x1F8, true⟩ ∧
    final ⟨0x1F8, true⟩ (extensions [8, 16, 4]) = final ⟨0x1F8, true⟩ (extensions [4, 8, 16]) := by
  obtain ⟨hunique, hrefused, hleast, hnone, hperm⟩ := final_extensions_eq_least ⟨0x1F8, true⟩
  have h : IsLeast {n | n ∈ [16, 0, 8, 40, 9] ∧ 1 ≤ n ∧ n ≤ 32} (8 : UInt32) := by
    refine ⟨by decide, ?_⟩
    rintro n ⟨hmem, hn⟩
    simp only [List.mem_cons, List.not_mem_nil, or_false] at hmem
    rcases hmem with rfl | rfl | rfl | rfl | rfl <;> revert hn <;> decide
  have h' : ∀ n ∈ ([0, 33] : List UInt32), ¬ (1 ≤ n ∧ n ≤ 32) := by
    rw [List.forall_mem_cons, List.forall_mem_singleton]
    decide
  obtain ⟨x, hx, hfinal⟩ := hleast _ _ h
  obtain rfl : 0xFFFFFFF8 = x := Except.ok.inj hx
  exact ⟨hunique 8 (by decide) (by decide), (hrefused 33 (by decide)).2, hfinal,
    hnone _ h', hperm [4, 8, 16] [8, 16, 4] (by decide)⟩

end ShifterOperand.Machine

import ShifterOperand.Proofs.Text.Numeral

/-!
# Positions at fault

Where a text of digits stops to be one that denotes a word, said of each position alone: its
character is no digit, or the number that ends there is greater than a word can be. The first such
position decides. The reader holds only the number read so far; the invariant of its loop is that
this is the number of the digits before the position it is at, and that none of these positions is
at fault. Main statement: the loop reports the fault of the position that decides, and an invalid
digit decides unless the number overflows before it.
-/
namespace ShifterOperand.Text.Numeral

/-- A character stands at the position that is no digit. -/
def NoDigitAt (r : Radix) (cs : List Char) (i : ℕ) : Prop :=
  ∃ c, cs[i]? = some c ∧ ∀ d, ¬ r.Digit c d

instance (r : Radix) (cs : List Char) (i : ℕ) : Decidable (NoDigitAt r cs i) :=
  decidable_of_iff ((cs[i]?.any fun c => (r.digit? c).isNone) = true) (by
    simp only [NoDigitAt, Option.any_eq_true, Option.isNone_iff_eq_none,
      Option.eq_none_iff_forall_ne_some, ne_eq, digit?_eq_some_iff])

/-- The digits up to the position, its own included, denote more than the greatest word. -/
def OverflowAt (r : Radix) (cs : List Char) (i : ℕ) : Prop :=
  i < cs.length ∧ ∃ n, Places r (cs.take (i + 1)) n ∧ 4294967295 < n

inductive FaultAt (r : Radix) (cs : List Char) (i : ℕ) : Fault → Prop
  | invalidDigit (h : NoDigitAt r cs i) : FaultAt r cs i .invalidDigit
  | tooLarge (h : OverflowAt r cs i) : FaultAt r cs i .tooLarge

/-- The position is the first one at fault. -/
def Decides (r : Radix) (cs : List Char) (i : ℕ) (f : Fault) : Prop :=
  FaultAt r cs i f ∧ ∀ j < i, ∀ g, ¬ FaultAt r cs j g

variable {r : Radix} {cs ds : List Char} {c : Char} {d i j m n p : ℕ} {f g : Fault}

theorem Radix.Digit.unique {e : ℕ} (h : r.Digit c d) (h' : r.Digit c e) : d = e := by
  rw [← digit?_eq_some_iff] at h h'
  exact Option.some.inj (h.symm.trans h')

theorem Places.unique (h : Places r cs m) (h' : Places r cs n) : m = n := by
  induction h generalizing n with
  | nil => cases h'; rfl
  | cons hd _ ih =>
    cases h' with
    | cons he hn => rw [hd.unique he, ih hn]

/-- One more digit takes the number to the next places. -/
theorem places_concat (h : Places r cs m) (hd : r.Digit c d) :
    Places r (cs ++ [c]) (m * r.base + d) := by
  induction h with
  | nil => simpa using Places.cons hd .nil
  | @cons a cs e m ha _ ih =>
    have hshift : e * r.base ^ (cs ++ [c]).length + (m * r.base + d) =
        (e * r.base ^ cs.length + m) * r.base + d := by
      rw [List.length_append, List.length_singleton, Nat.pow_succ]
      ring
    rw [← hshift]
    exact .cons ha ih

theorem places_lt (h : Places r cs n) : n < r.base ^ cs.length := by
  induction h with
  | nil => simp
  | @cons c cs d n hd _ ih =>
    have hle := Nat.mul_le_mul_right (r.base ^ cs.length) (Nat.succ_le_of_lt hd.1)
    rw [List.length_cons, Nat.pow_succ, Nat.mul_comm _ r.base]
    rw [Nat.succ_mul] at hle
    omega

/-- Eight digits denote a word in either radix. -/
theorem eight_le_of_overflowAt (h : OverflowAt r cs i) : 8 ≤ i := by
  obtain ⟨-, n, hn, hover⟩ := h
  have hbase : r.base ≤ 16 := by cases r <;> decide
  have hlen : (cs.take (i + 1)).length ≤ i + 1 := List.length_take_le _ _
  by_contra hi
  have hlt : n < 16 ^ 8 := by
    calc n < r.base ^ (cs.take (i + 1)).length := places_lt hn
      _ ≤ 16 ^ (cs.take (i + 1)).length := Nat.pow_le_pow_left hbase _
      _ ≤ 16 ^ 8 := Nat.pow_le_pow_right (by decide) (by omega)
  omega

/-- A position where the number overflows has a digit. -/
theorem not_noDigitAt_of_overflowAt (h : OverflowAt r cs i) : ¬ NoDigitAt r cs i := by
  obtain ⟨hi, n, hn, -⟩ := h
  rintro ⟨c, hc, hno⟩
  have hmem : c ∈ cs.take (i + 1) :=
    List.mem_of_getElem? ((List.getElem?_take_of_lt (Nat.lt_succ_self i)).trans hc)
  obtain ⟨d, hd⟩ := exists_digit_of_mem hn c hmem
  exact hno d hd

theorem FaultAt.unique (h : FaultAt r cs i f) (h' : FaultAt r cs i g) : f = g := by
  cases h with
  | invalidDigit h =>
    cases h' with
    | invalidDigit _ => rfl
    | tooLarge h' => exact absurd h (not_noDigitAt_of_overflowAt h')
  | tooLarge h =>
    cases h' with
    | invalidDigit h' => exact absurd h' (not_noDigitAt_of_overflowAt h)
    | tooLarge _ => rfl

theorem FaultAt.lt_length (h : FaultAt r cs i f) : i < cs.length := by
  cases h with
  | invalidDigit h =>
    obtain ⟨c, hc, -⟩ := h
    exact (List.getElem?_eq_some_iff.mp hc).1
  | tooLarge h => exact h.1

theorem Decides.unique (h : Decides r cs i f) (h' : Decides r cs j g) : i = j ∧ f = g := by
  have hij : i = j := by
    rcases Nat.lt_trichotomy i j with hlt | heq | hlt
    · exact absurd h.1 (h'.2 i hlt f)
    · exact heq
    · exact absurd h'.1 (h.2 j hlt g)
  subst hij
  exact ⟨rfl, h.1.unique h'.1⟩

/-- Nothing behind a position plays a part in its fault. -/
theorem FaultAt.of_take (hp : i < p) (h : ds.take p = cs.take p) (hf : FaultAt r cs i f) :
    FaultAt r ds i f := by
  have hlen : i < ds.length := by
    have hlt := hf.lt_length
    have heq := congrArg List.length h
    rw [List.length_take, List.length_take] at heq
    omega
  cases hf with
  | invalidDigit hf =>
    obtain ⟨c, hc, hno⟩ := hf
    refine .invalidDigit ⟨c, ?_, hno⟩
    rw [← List.getElem?_take_of_lt hp, h, List.getElem?_take_of_lt hp, hc]
  | tooLarge hf =>
    obtain ⟨-, n, hn, hlt⟩ := hf
    refine .tooLarge ⟨hlen, n, ?_, hlt⟩
    have htake : ds.take (i + 1) = cs.take (i + 1) := by
      have := congrArg (List.take (i + 1)) h
      rwa [List.take_take, List.take_take, Nat.min_eq_left hp] at this
    rwa [htake]

theorem Decides.of_take (h : ds.take (i + 1) = cs.take (i + 1)) (hd : Decides r cs i f) :
    Decides r ds i f := by
  refine ⟨hd.1.of_take (Nat.lt_succ_self i) h, fun j hj g hg => ?_⟩
  exact hd.2 j hj g (hg.of_take (Nat.lt_succ_of_lt hj) h.symm)

theorem faultAt_tooLarge_iff : FaultAt r cs i .tooLarge ↔ OverflowAt r cs i := by
  constructor
  · intro h
    cases h with
    | tooLarge h => exact h
  · exact .tooLarge

/-- The fault of a position decides when the positions before it are free of faults. -/
theorem exists_decides_iff (h : FaultAt r cs i g) (hfree : ∀ j < i, ∀ e, ¬ FaultAt r cs j e) :
    (∃ j, Decides r cs j f) ↔ g = f := by
  constructor
  · rintro ⟨j, hj⟩
    exact (Decides.unique ⟨h, hfree⟩ hj).2
  · rintro rfl
    exact ⟨i, h, hfree⟩

theorem take_length_succ : (ds ++ c :: cs).take (ds.length + 1) = ds ++ [c] := by
  rw [List.append_cons]
  exact List.take_left' (by simp)

/-- The position behind which the digits still denote a word is free of faults. -/
theorem not_faultAt_of_places (hn : Places r (ds ++ [c]) n) (hlt : n < UInt32.size) :
    ¬ FaultAt r (ds ++ c :: cs) ds.length f := by
  have hat : (ds ++ c :: cs)[ds.length]? = some c := by simp
  intro h
  cases h with
  | invalidDigit h =>
    obtain ⟨c', hc', hno⟩ := h
    obtain rfl := Option.some.inj (hat.symm.trans hc')
    obtain ⟨d, hd⟩ := exists_digit_of_mem hn c (by simp)
    exact hno d hd
  | tooLarge h =>
    obtain ⟨-, m, hm, hover⟩ := h
    rw [take_length_succ] at hm
    rw [hm.unique hn] at hover
    exact Nat.not_lt.mpr hover hlt

/-- The loop stands behind the digits `ds`, whose number it holds and of which none is at fault: it
reports the fault of the position that decides. -/
theorem readDigits_eq_error_iff (hm : Places r ds m) (hlt : m < UInt32.size)
    (hfree : ∀ j < ds.length, ∀ g, ¬ FaultAt r (ds ++ cs) j g) :
    readDigits r m cs = .error f ↔ ∃ i, Decides r (ds ++ cs) i f := by
  induction cs generalizing ds m with
  | nil =>
    constructor
    · intro h
      cases h
    · rintro ⟨i, hi, -⟩
      have hlen := hi.lt_length
      rw [List.length_append, List.length_nil, Nat.add_zero] at hlen
      exact absurd hi (hfree i hlen f)
  | cons c cs ih =>
    have hat : (ds ++ c :: cs)[ds.length]? = some c := by simp
    rw [readDigits]
    split
    · next hnone =>
      have hno : ∀ d, ¬ r.Digit c d := by
        intro d hd
        rw [digit?_eq_some_iff.mpr hd] at hnone
        cases hnone
      rw [exists_decides_iff (.invalidDigit ⟨c, hat, hno⟩) hfree, Except.error.injEq]
    · next d hd =>
      have hnext := places_concat hm (digit?_eq_some_iff.mp hd)
      split
      · next hfit =>
        have hfree' : ∀ j < (ds ++ [c]).length, ∀ g, ¬ FaultAt r (ds ++ c :: cs) j g := by
          intro j hj g
          rw [List.length_append, List.length_singleton] at hj
          rcases Nat.lt_succ_iff_lt_or_eq.mp hj with hj | rfl
          · exact hfree j hj g
          · exact not_faultAt_of_places hnext hfit
        rw [List.append_cons ds c cs] at hfree' ⊢
        exact ih hnext hfit hfree'
      · next hover =>
        have hgreater : 4294967295 < m * r.base + d := Nat.lt_of_succ_le (Nat.not_lt.mp hover)
        rw [exists_decides_iff (.tooLarge ⟨by simp, _, take_length_succ ▸ hnext, hgreater⟩) hfree,
          Except.error.injEq]

theorem readDigits_zero_eq_error_iff : readDigits r 0 cs = .error f ↔ ∃ i, Decides r cs i f :=
  readDigits_eq_error_iff .nil (by decide) (by simp)

/-- The first character that is no digit decides unless the number overflows before it, whatever
stands in its place and behind it. -/
theorem exists_decides_invalidDigit_iff (hp : NoDigitAt r cs p)
    (hfirst : ∀ j < p, ¬ NoDigitAt r cs j) (hds : ds.take p = cs.take p) :
    (∃ i, Decides r cs i .invalidDigit) ↔ ∀ q, OverflowAt r ds q → p ≤ q := by
  constructor
  · rintro ⟨i, ⟨hi⟩, hfree⟩ q hq
    have hpi : p ≤ i := Nat.not_lt.mp fun hlt => hfirst i hlt hi
    refine Nat.not_lt.mp fun hlt => hfree q (hlt.trans_le hpi) .tooLarge ?_
    exact FaultAt.of_take hlt hds.symm (.tooLarge hq)
  · intro h
    refine ⟨p, .invalidDigit hp, fun j hj g hg => ?_⟩
    cases hg with
    | invalidDigit hg => exact hfirst j hj hg
    | tooLarge hg =>
      have hover := faultAt_tooLarge_iff.mp (FaultAt.of_take hj hds (.tooLarge hg))
      exact Nat.not_lt.mpr (h j hover) hj

/-- A zero at the beginning is no fault. -/
theorem not_faultAt_zero : ¬ FaultAt r ('0' :: cs) 0 f := by
  have hn : Places r ([] ++ ['0']) 0 := by simpa using Places.cons (digit_zero r) .nil
  exact not_faultAt_of_places hn (by decide)

end ShifterOperand.Text.Numeral

import Mathlib.Data.List.TakeWhile
import Mathlib.Tactic.Tauto
import ShifterOperand.Json.Number

/-!
# The grammar of number literals

Number literals as a grammar: sign, whole part, fraction and exponent are put together, while the
reader takes them off the front of a text. Main statements: the reader accepts the literals of the
grammar and nothing else, and a literal has a whole value exactly when it is a whole part alone.
-/
namespace ShifterOperand.Json

/-- A text that does not begin with such a character. -/
def Stops (p : Char → Bool) (cs : List Char) : Prop := ∀ c ∈ cs.head?, p c = false

def Digits (cs : List Char) : Prop := cs ≠ [] ∧ ∀ c ∈ cs, isDigit c = true

inductive Whole : List Char → Prop
  | zero : Whole ['0']
  | nonzero {c : Char} {cs : List Char} (hc : isDigit c = true) (hne : c ≠ '0')
      (hcs : ∀ d ∈ cs, isDigit d = true) : Whole (c :: cs)

inductive Fraction : List Char → Prop
  | absent : Fraction []
  | present {cs : List Char} (h : Digits cs) : Fraction ('.' :: cs)

inductive Exponent : List Char → Prop
  | absent : Exponent []
  | present {e : Char} {sign cs : List Char} (he : e = 'e' ∨ e = 'E')
      (hs : sign = [] ∨ sign = ['+'] ∨ sign = ['-']) (h : Digits cs) : Exponent (e :: (sign ++ cs))

/-- A number literal. Its sign is a minus sign or none. -/
inductive Number : List Char → Prop
  | mk {sign w f e : List Char} (hs : sign = [] ∨ sign = ['-']) (hw : Whole w) (hf : Fraction f)
      (he : Exponent e) : Number (sign ++ (w ++ (f ++ e)))

theorem stops_nil (p : Char → Bool) : Stops p [] := by
  intro c hc
  cases hc

theorem stops_cons {p : Char → Bool} {c : Char} {cs : List Char} (h : p c = false) :
    Stops p (c :: cs) := by
  intro d hd
  cases hd
  exact h

theorem dropWhile_append_of_stops {p : Char → Bool} {ds rest : List Char}
    (hds : ∀ d ∈ ds, p d = true) (hr : Stops p rest) : (ds ++ rest).dropWhile p = rest := by
  rw [List.dropWhile_append_of_pos hds]
  cases rest with
  | nil => rfl
  | cons c cs => rw [List.dropWhile_cons_of_neg (by simp [hr c rfl])]

theorem not_digit_of_mem {c : Char} (h : c = '.' ∨ c = 'e' ∨ c = 'E' ∨ c = '+' ∨ c = '-') :
    isDigit c = false := by
  rcases h with rfl | rfl | rfl | rfl | rfl <;> rfl

theorem afterDigits_sound {cs rest : List Char} (h : afterDigits cs = some rest) :
    ∃ ds, cs = ds ++ rest ∧ Digits ds := by
  cases cs with
  | nil => cases h
  | cons c cs =>
    simp only [afterDigits] at h
    split at h
    · next hc =>
      cases h
      refine ⟨c :: cs.takeWhile isDigit, ?_, by simp, ?_⟩
      · rw [List.cons_append, List.takeWhile_append_dropWhile]
      · intro d hd
        rcases List.mem_cons.mp hd with rfl | hd
        · exact hc
        · exact List.mem_takeWhile_imp hd
    · cases h

theorem afterDigits_append {ds rest : List Char} (hd : Digits ds) (hr : Stops isDigit rest) :
    afterDigits (ds ++ rest) = some rest := by
  obtain ⟨hne, hall⟩ := hd
  cases ds with
  | nil => exact absurd rfl hne
  | cons c cs =>
    have hcs : ∀ d ∈ cs, isDigit d = true := fun d hd => hall d (by simp [hd])
    rw [List.cons_append, afterDigits, if_pos (hall c (by simp)), dropWhile_append_of_stops hcs hr]

theorem afterWhole_sound {cs rest : List Char} (h : afterWhole cs = some rest) :
    ∃ w, cs = w ++ rest ∧ Whole w := by
  unfold afterWhole at h
  split at h
  · next r =>
    cases h
    exact ⟨['0'], rfl, .zero⟩
  · next hz =>
    obtain ⟨ds, rfl, hne, hall⟩ := afterDigits_sound h
    cases ds with
    | nil => exact absurd rfl hne
    | cons c cs =>
      have hc : c ≠ '0' := by
        intro h
        subst h
        exact hz (cs ++ rest) rfl
      exact ⟨c :: cs, rfl, .nonzero (hall c (by simp)) hc fun d hd => hall d (by simp [hd])⟩

theorem afterWhole_append {w rest : List Char} (hw : Whole w) (hr : Stops isDigit rest) :
    afterWhole (w ++ rest) = some rest := by
  cases hw with
  | zero => rfl
  | @nonzero c cs hc hne hcs =>
    have hdigits : Digits (c :: cs) := by
      refine ⟨by simp, fun d hd => ?_⟩
      rcases List.mem_cons.mp hd with rfl | hd
      · exact hc
      · exact hcs d hd
    unfold afterWhole
    split
    · next r heq => exact absurd (List.cons.inj heq).1 hne
    · exact afterDigits_append hdigits hr

theorem afterFraction_sound {cs rest : List Char} (h : afterFraction cs = some rest) :
    ∃ f, cs = f ++ rest ∧ Fraction f := by
  unfold afterFraction at h
  split at h
  · next r =>
    obtain ⟨ds, rfl, hds⟩ := afterDigits_sound h
    exact ⟨'.' :: ds, rfl, .present hds⟩
  · cases h
    exact ⟨[], rfl, .absent⟩

theorem afterFraction_append {f e : List Char} (hf : Fraction f) (he : Exponent e) :
    afterFraction (f ++ e) = some e := by
  have hstop : Stops isDigit e := by
    cases he with
    | absent => exact stops_nil _
    | present he => exact stops_cons (not_digit_of_mem (by tauto))
  cases hf with
  | present hd => exact afterDigits_append hd hstop
  | absent =>
    cases he with
    | absent => rfl
    | present he => rcases he with rfl | rfl <;> rfl

theorem afterSigned_sound {cs rest : List Char} (h : afterSigned cs = some rest) :
    ∃ sign ds, cs = sign ++ ds ++ rest ∧ (sign = [] ∨ sign = ['+'] ∨ sign = ['-']) ∧
      Digits ds := by
  unfold afterSigned at h
  split at h
  · obtain ⟨ds, rfl, hds⟩ := afterDigits_sound h
    exact ⟨['+'], ds, rfl, by tauto, hds⟩
  · obtain ⟨ds, rfl, hds⟩ := afterDigits_sound h
    exact ⟨['-'], ds, rfl, by tauto, hds⟩
  · obtain ⟨ds, rfl, hds⟩ := afterDigits_sound h
    exact ⟨[], ds, rfl, by tauto, hds⟩

theorem afterSigned_digits {ds : List Char} (hd : Digits ds) : afterSigned ds = some [] := by
  have hafter : afterDigits ds = some [] := by
    simpa using afterDigits_append hd (stops_nil isDigit)
  obtain ⟨hne, hall⟩ := hd
  unfold afterSigned
  split
  · next r => exact absurd (hall '+' (by simp)) (by decide)
  · next r => exact absurd (hall '-' (by simp)) (by decide)
  · exact hafter

theorem afterExponent_sound {cs : List Char} (h : afterExponent cs = some []) : Exponent cs := by
  unfold afterExponent at h
  split at h
  · obtain ⟨sign, ds, rfl, hs, hds⟩ := afterSigned_sound h
    rw [List.append_nil]
    exact .present (.inl rfl) hs hds
  · obtain ⟨sign, ds, rfl, hs, hds⟩ := afterSigned_sound h
    rw [List.append_nil]
    exact .present (.inr rfl) hs hds
  · cases h
    exact .absent

theorem afterExponent_complete {e : List Char} (he : Exponent e) : afterExponent e = some [] := by
  cases he with
  | absent => rfl
  | @present e sign ds he hs hd =>
    have hsigned : afterSigned (sign ++ ds) = some [] := by
      have hafter : afterDigits ds = some [] := by
        simpa using afterDigits_append hd (stops_nil isDigit)
      rcases hs with rfl | rfl | rfl
      · exact afterSigned_digits hd
      · exact hafter
      · exact hafter
    rcases he with rfl | rfl
    · exact hsigned
    · exact hsigned

theorem afterUnsigned_eq_some_nil_iff {cs : List Char} :
    afterUnsigned cs = some [] ↔
      ∃ w f e, cs = w ++ (f ++ e) ∧ Whole w ∧ Fraction f ∧ Exponent e := by
  simp only [afterUnsigned, Option.bind_eq_bind, Option.bind_eq_some_iff]
  constructor
  · intro h
    obtain ⟨r, hr, s, hs, he⟩ := h
    obtain ⟨w, rfl, hw⟩ := afterWhole_sound hr
    obtain ⟨f, rfl, hf⟩ := afterFraction_sound hs
    exact ⟨w, f, s, rfl, hw, hf, afterExponent_sound he⟩
  · intro h
    obtain ⟨w, f, e, rfl, hw, hf, he⟩ := h
    refine ⟨f ++ e, afterWhole_append hw ?_, e, afterFraction_append hf he, afterExponent_complete he⟩
    cases hf with
    | present => exact stops_cons rfl
    | absent =>
      cases he with
      | absent => exact stops_nil _
      | present he => exact stops_cons (not_digit_of_mem (by tauto))

theorem whole_head {w : List Char} (hw : Whole w) : ∃ c cs, w = c :: cs ∧ isDigit c = true := by
  cases hw with
  | zero => exact ⟨'0', [], rfl, rfl⟩
  | @nonzero c cs hc => exact ⟨c, cs, rfl, hc⟩

theorem whole_digits {w : List Char} (hw : Whole w) : ∀ c ∈ w, isDigit c = true := by
  intro d hd
  cases hw with
  | zero =>
    rw [List.mem_singleton.mp hd]
    rfl
  | nonzero hc hne hcs =>
    rcases List.mem_cons.mp hd with rfl | hd
    · exact hc
    · exact hcs d hd

/-- The reader accepts the literals of the grammar and nothing else. -/
theorem isNumber_iff {cs : List Char} : isNumber cs = true ↔ Number cs := by
  constructor
  · intro h
    unfold isNumber at h
    split at h
    · obtain ⟨w, f, e, rfl, hw, hf, he⟩ := afterUnsigned_eq_some_nil_iff.mp (of_decide_eq_true h)
      exact @Number.mk ['-'] w f e (.inr rfl) hw hf he
    · obtain ⟨w, f, e, rfl, hw, hf, he⟩ := afterUnsigned_eq_some_nil_iff.mp (of_decide_eq_true h)
      exact @Number.mk [] w f e (.inl rfl) hw hf he
  · intro h
    obtain ⟨hs, hw, hf, he⟩ := h
    have hafter := afterUnsigned_eq_some_nil_iff.mpr ⟨_, _, _, rfl, hw, hf, he⟩
    rcases hs with rfl | rfl
    · obtain ⟨c, cs, rfl, hc⟩ := whole_head hw
      unfold isNumber
      split
      · next heq =>
        obtain ⟨rfl, -⟩ := List.cons.inj heq
        cases hc
      · exact decide_eq_true hafter
    · exact decide_eq_true hafter

theorem number_of_whole {cs : List Char} (h : Whole cs) : Number cs := by
  have hnumber := @Number.mk [] cs [] [] (.inl rfl) h .absent .absent
  simpa using hnumber

theorem whole_of_number {cs : List Char} (h : Number cs) (hall : ∀ c ∈ cs, isDigit c = true) :
    Whole cs := by
  have hmem : ∀ c ∈ cs, isDigit c = false → False := by
    intro c hc hn
    rw [hall c hc] at hn
    cases hn
  obtain ⟨hs, hw, hf, he⟩ := h
  rcases hs with rfl | rfl
  · cases hf with
    | present => exact (hmem '.' (by simp) rfl).elim
    | absent =>
      cases he with
      | absent => simpa using hw
      | @present e _ _ he => exact (hmem e (by simp) (not_digit_of_mem (by tauto))).elim
  · exact (hmem '-' (by simp) rfl).elim

/-- A literal has a whole value when it has neither sign nor fraction nor exponent. -/
theorem natural?_eq_some_iff {cs : List Char} {n : ℕ} :
    natural? cs = some n ↔ Whole cs ∧ Nat.ofDigitChars 10 cs 0 = n := by
  have hwhole : (isNumber cs && cs.all isDigit) = true ↔ Whole cs := by
    rw [Bool.and_eq_true, isNumber_iff, List.all_eq_true]
    constructor
    · intro h
      obtain ⟨hnum, hall⟩ := h
      exact whole_of_number hnum hall
    · intro hw
      exact ⟨number_of_whole hw, whole_digits hw⟩
  rw [← hwhole, natural?]
  split
  · next h => simp [h]
  · next h => simp [h]

end ShifterOperand.Json

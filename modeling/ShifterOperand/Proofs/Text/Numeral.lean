import Mathlib.Data.List.DropRight
import Mathlib.Tactic.Ring
import ShifterOperand.Proofs.Text.Written

/-!
# Texts that are numerals

Which texts are numerals of a word, said without reference to the reader: the blanks at the ends are
taken away, the mark chooses the radix, one sign may come next, and every digit counts a power of the
base. The reader goes through the digits from the left and stops where the number leaves the word, so
it never knows the place of the digit it is at. Main statement: it reads the numerals of words and no
other texts.
-/
namespace ShifterOperand.Text

open Json (Stops)

def Blanks (cs : List Char) : Prop := ∀ c ∈ cs, isBlank c = true

instance (cs : List Char) : Decidable (Blanks cs) := List.decidableBAll (isBlank · = true) cs

/-- The text without the blanks around it: what is left neither begins nor ends with a blank. -/
def Trimmed (s body : List Char) : Prop :=
  ∃ b b', s = b ++ (body ++ b') ∧ Blanks b ∧ Blanks b' ∧ Stops isBlank body ∧
    Stops isBlank body.reverse

theorem stops_dropWhile (p : Char → Bool) (cs : List Char) : Stops p (cs.dropWhile p) := by
  intro c hc
  have h := List.head?_dropWhile_not p cs
  rw [Option.mem_def.mp hc] at h
  exact h

theorem trimmed_trim (s : List Char) : Trimmed s (trim s) := by
  have hleft : s = s.takeWhile isBlank ++ s.dropWhile isBlank := List.takeWhile_append_dropWhile.symm
  have hright : s.dropWhile isBlank = trim s ++ (s.dropWhile isBlank).rtakeWhile isBlank :=
    List.rdropWhile_append_rtakeWhile.symm
  refine ⟨_, _, hleft.trans (congrArg _ hright), fun _ hc => List.mem_takeWhile_imp hc,
    fun _ hc => List.mem_rtakeWhile_imp hc, ?_, ?_⟩
  · intro c hc
    have h := stops_dropWhile isBlank s
    rw [hright] at h
    refine h c ?_
    rw [List.head?_append, hc]
    rfl
  · rw [trim, List.reverse_reverse]
    exact stops_dropWhile isBlank _

theorem trim_of_trimmed {s body : List Char} (h : Trimmed s body) : trim s = body := by
  obtain ⟨b, b', rfl, hb, hb', hfirst, hlast⟩ := h
  rw [trim, List.dropWhile_append_of_pos hb]
  cases body with
  | nil =>
    rw [List.nil_append, List.dropWhile_eq_nil_iff.mpr hb']
    rfl
  | cons c cs =>
    have hc : ¬ isBlank c = true := by simp [hfirst c rfl]
    have hrev : ∀ d ∈ b'.reverse, isBlank d = true := fun d hd => hb' d (List.mem_reverse.mp hd)
    rw [List.cons_append, List.dropWhile_cons_of_neg hc, ← List.cons_append, List.reverse_append,
      Json.dropWhile_append_of_stops hrev hlast, List.reverse_reverse]

theorem trim_eq_iff {s body : List Char} : trim s = body ↔ Trimmed s body := by
  constructor
  · rintro rfl
    exact trimmed_trim s
  · exact trim_of_trimmed

/-- More blanks around a text change nothing. -/
theorem trim_append {b s b' : List Char} (hb : Blanks b) (hb' : Blanks b') :
    trim (b ++ (s ++ b')) = trim s := by
  obtain ⟨a, a', hs, ha, ha', hfirst, hlast⟩ := trimmed_trim s
  refine trim_eq_iff.mpr ⟨b ++ a, a' ++ b', ?_, List.forall_mem_append.mpr ⟨hb, ha⟩,
    List.forall_mem_append.mpr ⟨ha', hb'⟩, hfirst, hlast⟩
  conv_lhs => rw [hs]
  simp only [List.append_assoc]

theorem trim_eq_self {s : List Char} (h : ∀ c ∈ s, isBlank c = false) : trim s = s :=
  trim_eq_iff.mpr ⟨[], [], by simp, by simp [Blanks], by simp [Blanks],
    fun c hc => h c (List.mem_of_mem_head? hc),
    fun c hc => h c (List.mem_reverse.mp (List.mem_of_mem_head? hc))⟩

namespace Numeral

/-- The digits in the order of their numbers. -/
def lowerDigits : List Char :=
  ['0', '1', '2', '3', '4', '5', '6', '7', '8', '9', 'a', 'b', 'c', 'd', 'e', 'f']

def upperDigits : List Char :=
  ['0', '1', '2', '3', '4', '5', '6', '7', '8', '9', 'A', 'B', 'C', 'D', 'E', 'F']

/-- The character is the digit for this number, which has to be below the base. -/
def Radix.Digit (r : Radix) (c : Char) (d : ℕ) : Prop :=
  d < r.base ∧ (lowerDigits[d]? = some c ∨ upperDigits[d]? = some c)

/-- The digits stand for this number: each of them counts the power of the base that the number of
digits behind it gives. -/
inductive Places (r : Radix) : List Char → ℕ → Prop
  | nil : Places r [] 0
  | cons {c : Char} {cs : List Char} {d n : ℕ} (hd : r.Digit c d) (h : Places r cs n) :
      Places r (c :: cs) (d * r.base ^ cs.length + n)

/-- A numeral without blanks around it, and its number. The mark stands before the sign. -/
inductive Denotes : List Char → ℕ → Prop
  | hexadecimal {mark sign cs : List Char} {n : ℕ} (hm : mark = ['0', 'x'] ∨ mark = ['0', 'X'])
      (hs : sign = [] ∨ sign = ['+']) (hne : cs ≠ []) (hn : Places .hexadecimal cs n) :
      Denotes (mark ++ (sign ++ cs)) n
  | decimal {sign cs : List Char} {n : ℕ} (hs : sign = [] ∨ sign = ['+']) (hne : cs ≠ [])
      (hn : Places .decimal cs n) : Denotes (sign ++ cs) n

variable {r : Radix}

/-- What holds of the entries of both tables holds of every digit. -/
theorem of_tables {P : Char → ℕ → Prop} {c : Char} {d : ℕ}
    (hlower : ∀ d, (hd : d < lowerDigits.length) → P lowerDigits[d] d)
    (hupper : ∀ d, (hd : d < upperDigits.length) → P upperDigits[d] d)
    (h : lowerDigits[d]? = some c ∨ upperDigits[d]? = some c) : P c d := by
  rcases h with h | h
  · obtain ⟨hd, rfl⟩ := List.getElem?_eq_some_iff.mp h
    exact hlower d hd
  · obtain ⟨hd, rfl⟩ := List.getElem?_eq_some_iff.mp h
    exact hupper d hd

theorem le_of_digitValue {c : Char} {d : ℕ} (h : digitValue c = some d) : c.toNat ≤ 'f'.toNat := by
  unfold digitValue at h
  split_ifs at h with h0 ha hA
  · exact le_trans h0.2 (by decide)
  · exact ha.2
  · exact le_trans hA.2 (by decide)

theorem digitValue_eq_some_iff {c : Char} {d : ℕ} :
    digitValue c = some d ↔ lowerDigits[d]? = some c ∨ upperDigits[d]? = some c := by
  constructor
  · intro h
    have hall : ∀ n ≤ 'f'.toNat, ∀ d ∈ digitValue (Char.ofNat n),
        lowerDigits[d]? = some (Char.ofNat n) ∨ upperDigits[d]? = some (Char.ofNat n) := by
      decide
    have hc := hall c.toNat (le_of_digitValue h)
    rw [Char.ofNat_toNat] at hc
    exact hc d h
  · exact of_tables (P := fun c d => digitValue c = some d) (by decide) (by decide)

theorem digit?_eq_some_iff {c : Char} {d : ℕ} : r.digit? c = some d ↔ r.Digit c d := by
  rw [Radix.digit?, Option.filter_eq_some_iff, digitValue_eq_some_iff, decide_eq_true_eq,
    and_comm, Radix.Digit]

theorem digit_zero (r : Radix) : r.Digit '0' 0 := ⟨Nat.zero_lt_of_lt (one_lt_base r), .inl rfl⟩

theorem ne_plus_of_digit {c : Char} {d : ℕ} (h : r.Digit c d) : c ≠ '+' :=
  of_tables (P := fun c _ => c ≠ '+') (by decide) (by decide) h.2

theorem ne_mark_of_digit {c : Char} {d : ℕ} (h : r.Digit c d) : c ≠ 'x' ∧ c ≠ 'X' :=
  of_tables (P := fun c _ => c ≠ 'x' ∧ c ≠ 'X') (by decide) (by decide) h.2

theorem isBlank_of_digit {c : Char} {d : ℕ} (h : r.Digit c d) : isBlank c = false :=
  of_tables (P := fun c _ => isBlank c = false) (by decide) (by decide) h.2

theorem exists_digit_of_mem {cs : List Char} {n : ℕ} (h : Places r cs n) :
    ∀ c ∈ cs, ∃ d, r.Digit c d := by
  induction h with
  | nil => simp
  | cons hd _ ih => exact List.forall_mem_cons.mpr ⟨⟨_, hd⟩, ih⟩

theorem readDigits_cons_eq_ok_iff {sofar n : ℕ} {c : Char} {cs : List Char} :
    readDigits r sofar (c :: cs) = .ok n ↔
      ∃ d, r.Digit c d ∧ sofar * r.base + d < UInt32.size ∧
        readDigits r (sofar * r.base + d) cs = .ok n := by
  simp only [readDigits, ← digit?_eq_some_iff]
  cases r.digit? c with
  | none => simp
  | some d =>
    by_cases hlt : sofar * r.base + d < UInt32.size
    · simp [hlt]
    · simp [hlt]

/-- What is read is the number of the digits, with what was read before them in the places above. The
number never falls on the way, so that it is in bounds throughout if it is at the end. -/
theorem readDigits_eq_ok_iff {sofar n : ℕ} {cs : List Char} (hs : sofar < UInt32.size) :
    readDigits r sofar cs = .ok n ↔
      ∃ m, Places r cs m ∧ n = sofar * r.base ^ cs.length + m ∧ n < UInt32.size := by
  induction cs generalizing sofar n with
  | nil =>
    constructor
    · intro h
      cases h
      exact ⟨0, .nil, by simp, hs⟩
    · rintro ⟨m, ⟨⟩, rfl, -⟩
      simp [readDigits]
  | cons c cs ih =>
    have hshift (d m : ℕ) : sofar * r.base ^ (c :: cs).length + (d * r.base ^ cs.length + m) =
        (sofar * r.base + d) * r.base ^ cs.length + m := by
      rw [List.length_cons, Nat.pow_succ]
      ring
    rw [readDigits_cons_eq_ok_iff]
    constructor
    · rintro ⟨d, hd, hlt, h⟩
      obtain ⟨m, hm, rfl, hn⟩ := (ih hlt).mp h
      exact ⟨_, .cons hd hm, (hshift d m).symm, hn⟩
    · rintro ⟨_, hm, rfl, hn⟩
      cases hm with
      | @cons _ _ d m hd hm =>
        rw [hshift] at hn ⊢
        have hpos : 0 < r.base ^ cs.length := Nat.pow_pos (Nat.zero_lt_of_lt (one_lt_base r))
        have hle : sofar * r.base + d ≤ (sofar * r.base + d) * r.base ^ cs.length :=
          Nat.le_mul_of_pos_right _ hpos
        have hlt : sofar * r.base + d < UInt32.size := by omega
        exact ⟨d, hd, hlt, (ih hlt).mpr ⟨m, hm, rfl, hn⟩⟩

theorem readDigits_zero_eq_ok_iff {n : ℕ} {cs : List Char} :
    readDigits r 0 cs = .ok n ↔ Places r cs n ∧ n < UInt32.size := by
  rw [readDigits_eq_ok_iff (by decide)]
  simp

theorem readUnsigned_plus {cs : List Char} (hne : cs ≠ []) :
    readUnsigned r ('+' :: cs) = readDigits r 0 cs := by
  cases cs with
  | nil => exact absurd rfl hne
  | cons c cs => rfl

theorem readUnsigned_of_ne_plus {c : Char} {cs : List Char} (hc : c ≠ '+') :
    readUnsigned r (c :: cs) = readDigits r 0 (c :: cs) := by
  unfold readUnsigned
  split
  · next heq => cases heq
  · next heq => exact absurd (List.cons.inj heq).1 hc
  · next heq => exact absurd (List.cons.inj heq).1 hc
  · rfl

theorem readUnsigned_of_places {cs : List Char} {n : ℕ} (hne : cs ≠ []) (h : Places r cs n) :
    readUnsigned r cs = readDigits r 0 cs := by
  cases h with
  | nil => exact absurd rfl hne
  | cons hd => exact readUnsigned_of_ne_plus (ne_plus_of_digit hd)

theorem readUnsigned_eq_ok_iff {n : ℕ} {cs : List Char} :
    readUnsigned r cs = .ok n ↔
      ∃ sign ds, cs = sign ++ ds ∧ (sign = [] ∨ sign = ['+']) ∧ ds ≠ [] ∧ Places r ds n ∧
        n < UInt32.size := by
  constructor
  · intro h
    unfold readUnsigned at h
    split at h
    · cases h
    · cases h
    · next ds hne =>
      obtain ⟨hn, hlt⟩ := readDigits_zero_eq_ok_iff.mp h
      exact ⟨['+'], ds, rfl, .inr rfl, fun hnil => hne hnil, hn, hlt⟩
    · next hne _ _ =>
      obtain ⟨hn, hlt⟩ := readDigits_zero_eq_ok_iff.mp h
      exact ⟨[], cs, rfl, .inl rfl, hne, hn, hlt⟩
  · rintro ⟨sign, ds, rfl, rfl | rfl, hne, hn, hlt⟩
    · rw [List.nil_append, readUnsigned_of_places hne hn]
      exact readDigits_zero_eq_ok_iff.mpr ⟨hn, hlt⟩
    · rw [List.singleton_append, readUnsigned_plus hne]
      exact readDigits_zero_eq_ok_iff.mpr ⟨hn, hlt⟩

theorem radixOf_cases (cs : List Char) :
    (∃ mark rest, cs = mark ++ rest ∧ (mark = ['0', 'x'] ∨ mark = ['0', 'X']) ∧
      radixOf cs = (.hexadecimal, rest)) ∨ radixOf cs = (.decimal, cs) := by
  unfold radixOf
  split
  · exact .inl ⟨_, _, rfl, .inl rfl, rfl⟩
  · exact .inl ⟨_, _, rfl, .inr rfl, rfl⟩
  · exact .inr rfl

theorem radixOf_of_forall_ne {cs : List Char} (h : ∀ c ∈ cs, c ≠ 'x' ∧ c ≠ 'X') :
    radixOf cs = (.decimal, cs) := by
  rcases radixOf_cases cs with ⟨mark, rest, rfl, rfl | rfl, -⟩ | hradix
  · exact absurd rfl (h 'x' (by simp)).1
  · exact absurd rfl (h 'X' (by simp)).2
  · exact hradix

/-- A text without blanks around it is read as the number that it denotes, if that is a word. No text
denotes one number with its mark and another one without, as the letter of the mark is no decimal
digit. -/
theorem readUnsigned_radixOf_eq_ok_iff {body : List Char} {n : ℕ} :
    readUnsigned (radixOf body).1 (radixOf body).2 = .ok n ↔ Denotes body n ∧ n < UInt32.size := by
  constructor
  · intro h
    rcases radixOf_cases body with ⟨mark, rest, rfl, hm, hradix⟩ | hradix
    · rw [hradix] at h
      obtain ⟨sign, ds, rfl, hs, hne, hn, hlt⟩ := readUnsigned_eq_ok_iff.mp h
      exact ⟨.hexadecimal hm hs hne hn, hlt⟩
    · rw [hradix] at h
      obtain ⟨sign, ds, rfl, hs, hne, hn, hlt⟩ := readUnsigned_eq_ok_iff.mp h
      exact ⟨.decimal hs hne hn, hlt⟩
  · rintro ⟨h, hlt⟩
    cases h with
    | @hexadecimal mark sign cs _ hm hs hne hn =>
      have hread := readUnsigned_eq_ok_iff.mpr ⟨sign, cs, rfl, hs, hne, hn, hlt⟩
      rcases hm with rfl | rfl
      · exact hread
      · exact hread
    | @decimal sign cs _ hs hne hn =>
      have hsign : ∀ c ∈ sign, c ≠ 'x' ∧ c ≠ 'X' := by
        rcases hs with rfl | rfl
        · simp
        · simp
      have hdigits : ∀ c ∈ cs, c ≠ 'x' ∧ c ≠ 'X' := fun c hc =>
        (exists_digit_of_mem hn c hc).elim fun _ => ne_mark_of_digit
      rw [radixOf_of_forall_ne (List.forall_mem_append.mpr ⟨hsign, hdigits⟩)]
      exact readUnsigned_eq_ok_iff.mpr ⟨sign, cs, rfl, hs, hne, hn, hlt⟩

theorem read_eq_ok_iff_denotes_trim {s : String} {w : UInt32} :
    read s = .ok w ↔ Denotes (trim s.toList) w.toNat := by
  have hread : read s = (readUnsigned (radixOf (trim s.toList)).1 (radixOf (trim s.toList)).2).map
      UInt32.ofNat := rfl
  rw [hread]
  constructor
  · intro h
    cases hu : readUnsigned (radixOf (trim s.toList)).1 (radixOf (trim s.toList)).2 with
    | error f =>
      rw [hu] at h
      cases h
    | ok n =>
      rw [hu] at h
      cases h
      obtain ⟨hn, hlt⟩ := readUnsigned_radixOf_eq_ok_iff.mp hu
      rwa [UInt32.toNat_ofNat_of_lt' hlt]
  · intro h
    rw [readUnsigned_radixOf_eq_ok_iff.mpr ⟨h, w.toNat_lt⟩]
    exact congrArg Except.ok UInt32.ofNat_toNat

/-- A text is read exactly when it is a numeral with any blanks around it, of either radix and with any
number of digits, and the number is at most the greatest word; that number is what is read. -/
theorem read_eq_ok_iff_denotes (s : String) (w : UInt32) :
    read s = .ok w ↔
      ∃ body n, Trimmed s.toList body ∧ Denotes body n ∧ n ≤ 4294967295 ∧ w.toNat = n := by
  rw [read_eq_ok_iff_denotes_trim]
  constructor
  · intro h
    exact ⟨_, _, trimmed_trim s.toList, h, Nat.le_of_lt_succ w.toNat_lt, rfl⟩
  · rintro ⟨body, n, hbody, hn, -, rfl⟩
    rwa [trim_of_trimmed hbody]

example : read "0x+000000005" = .ok 5 := rfl

example : read "+0x5" = .error .invalidDigit := rfl

end Numeral

end ShifterOperand.Text

import ShifterOperand.Proofs.Json.Denotation
import ShifterOperand.Proofs.Json.Layout
import ShifterOperand.Proofs.Text.Numeral

/-!
# Words from one text to another

Words are written in three forms, and they are read in two places: as numerals of their own, and as
number literals of JSON texts, which have a narrower grammar. Main statement: each form in which a word
is written is a numeral of it, every literal that denotes a word is a numeral of the same word, and of
the numerals without blanks around them only the canonical decimal ones are such literals.
-/
namespace ShifterOperand

namespace Json

/-- The word that a JSON text denotes, read as the readers of operands read the word in a field. -/
def wordOfText? (text : String) : Option UInt32 := do
  (← ofText? text).word?

theorem text_isBlank_of_isBlank {c : Char} (h : isBlank c = true) : Text.isBlank c = true := by
  rcases isBlank_cases h with rfl | rfl | rfl | rfl <;> rfl

theorem wordOfText?_eq_some_iff {text : String} {n : UInt32} :
    wordOfText? text = some n ↔ ∃ j, Element j text.toList ∧ DenotesWord n j := by
  simp only [wordOfText?, Option.bind_eq_bind, Option.bind_eq_some_iff, ofText?_eq_some_iff,
    word?_eq_some_iff]

/-- A literal alone may have blanks around it, and the blanks of JSON are blanks elsewhere too. -/
theorem exists_blanks_of_element {literal cs : List Char} (h : Element (.number literal) cs) :
    ∃ b b', cs = b ++ (literal ++ b') ∧ Text.Blanks b ∧ Text.Blanks b' := by
  rcases h with ⟨hb, hvalue, hb'⟩
  cases hvalue
  exact ⟨_, _, rfl, fun c hc => text_isBlank_of_isBlank (hb c hc),
    fun c hc => text_isBlank_of_isBlank (hb' c hc)⟩

theorem element_of_whole {cs : List Char} (h : Whole cs) : Element (.number cs) cs := by
  have helement : Element (.number cs) ([] ++ (cs ++ [])) :=
    .mk blanks_nil (.number (number_of_whole h)) blanks_nil
  simpa using helement

end Json

namespace Text.Numeral

variable {r : Radix} {cs : List Char} {n : ℕ} {w : UInt32}

/-! What words are written with are the digits of their numbers. -/

theorem places_toDigits (r : Radix) (w : UInt32) :
    Places r (Nat.toDigits r.base w.toNat) w.toNat :=
  (readDigits_zero_eq_ok_iff.mp (readDigits_toDigits w.toNat_lt)).1

/-- Zeros before a number count nothing. -/
theorem places_zeros (k : ℕ) (h : Places r cs n) : Places r (List.replicate k '0' ++ cs) n := by
  induction k with
  | zero => exact h
  | succ k ih =>
    have hcons := Places.cons (digit_zero r) ih
    rwa [Nat.zero_mul, Nat.zero_add] at hcons

theorem isBlank_of_mem_places (h : Places r cs n) : ∀ c ∈ cs, isBlank c = false :=
  fun c hc => (exists_digit_of_mem h c hc).elim fun _ => isBlank_of_digit

theorem read_of_places {s : String} (hs : s.toList = cs) (hne : cs ≠ [])
    (h : Places .decimal cs w.toNat) : read s = .ok w := by
  rw [read_eq_ok_iff_denotes_trim, hs, trim_eq_self (isBlank_of_mem_places h)]
  exact @Denotes.decimal [] cs _ (.inl rfl) hne h

theorem read_of_marked {s : String} (hs : s.toList = '0' :: 'x' :: cs) (hne : cs ≠ [])
    (h : Places .hexadecimal cs w.toNat) : read s = .ok w := by
  have hblank : ∀ c ∈ '0' :: 'x' :: cs, isBlank c = false := by
    simp only [List.forall_mem_cons]
    exact ⟨rfl, rfl, isBlank_of_mem_places h⟩
  rw [read_eq_ok_iff_denotes_trim, hs, trim_eq_self hblank]
  exact @Denotes.hexadecimal ['0', 'x'] [] cs _ (.inl rfl) (.inl rfl) hne h

theorem toList_hexWord (w : UInt32) :
    (hexWord w).toList = '0' :: 'x' :: (List.replicate
      (8 - (Nat.toDigits Radix.hexadecimal.base w.toNat).length) '0' ++
        Nat.toDigits Radix.hexadecimal.base w.toNat) := by
  simp only [hexWord, String.toList_append, String.toList_ofList, List.leftpad]
  rfl

theorem read_decimal (w : UInt32) : read (decimal w) = .ok w :=
  read_of_places (toList_decimal w) Nat.toDigits_ne_nil (places_toDigits .decimal w)

theorem read_hex (w : UInt32) : read (hex w) = .ok w :=
  read_of_marked (toList_hex w) Nat.toDigits_ne_nil (places_toDigits .hexadecimal w)

theorem read_hexWord (w : UInt32) : read (hexWord w) = .ok w :=
  read_of_marked (toList_hexWord w) (by simp) (places_zeros _ (places_toDigits .hexadecimal w))

/-- Blanks around a text do not change what is read. -/
theorem read_append {b b' : List Char} (hb : Blanks b) (hb' : Blanks b') (s : String) :
    read (String.ofList b ++ s ++ String.ofList b') = read s := by
  unfold read
  simp only [String.toList_append, String.toList_ofList, List.append_assoc, trim_append hb hb']

/-! Decimal numerals as literals. -/

theorem digit_decimal_iff {c : Char} {d : ℕ} :
    Radix.decimal.Digit c d ↔ Json.isDigit c = true ∧ d = c.toNat - '0'.toNat := by
  constructor
  · rintro ⟨hd, h⟩
    exact of_tables
      (P := fun c d => d < 10 → Json.isDigit c = true ∧ d = c.toNat - '0'.toNat)
      (by decide) (by decide) h hd
  · rintro ⟨hc, rfl⟩
    have hrange : '0' ≤ c ∧ c ≤ '9' := by simpa [Json.isDigit] using hc
    have hlt : c.toNat - '0'.toNat < Radix.decimal.base := by
      change c.toNat - '0'.toNat < 10
      have hle : c.toNat ≤ '9'.toNat := hrange.2
      have hnine : '9'.toNat - '0'.toNat = 9 := rfl
      omega
    rw [← digit?_eq_some_iff, Radix.digit?, digitValue, if_pos hrange, Option.filter_some,
      if_pos (decide_eq_true hlt)]

/-- The number of decimal digits, taken from the left. -/
theorem places_decimal_iff :
    Places .decimal cs n ↔
      (∀ c ∈ cs, Json.isDigit c = true) ∧ Nat.ofDigitChars 10 cs 0 = n := by
  induction cs generalizing n with
  | nil =>
    constructor
    · rintro ⟨⟩
      exact ⟨by simp, Nat.ofDigitChars_nil⟩
    · rintro ⟨-, rfl⟩
      rw [Nat.ofDigitChars_nil]
      exact .nil
  | cons c cs ih =>
    have hvalue : Nat.ofDigitChars 10 (c :: cs) 0 =
        (c.toNat - '0'.toNat) * Radix.decimal.base ^ cs.length + Nat.ofDigitChars 10 cs 0 := by
      rw [Nat.ofDigitChars_cons, Nat.ofDigitChars_eq_ofDigitChars_zero, Nat.mul_zero, Nat.zero_add,
        Nat.mul_comm]
      rfl
    constructor
    · intro h
      cases h with
      | cons hd hm =>
        obtain ⟨hc, rfl⟩ := digit_decimal_iff.mp hd
        obtain ⟨hcs, rfl⟩ := ih.mp hm
        exact ⟨List.forall_mem_cons.mpr ⟨hc, hcs⟩, hvalue⟩
    · rintro ⟨hall, rfl⟩
      obtain ⟨hc, hcs⟩ := List.forall_mem_cons.mp hall
      rw [hvalue]
      exact .cons (digit_decimal_iff.mpr ⟨hc, rfl⟩) (ih.mpr ⟨hcs, rfl⟩)

/-- Neither the mark nor the sign is a decimal digit. -/
theorem places_of_denotes (h : Denotes cs n) (hall : ∀ c ∈ cs, Json.isDigit c = true) :
    Places .decimal cs n := by
  cases h with
  | hexadecimal hm =>
    rcases hm with rfl | rfl
    · cases hall 'x' (by simp)
    · cases hall 'X' (by simp)
  | decimal hs hne hn =>
    rcases hs with rfl | rfl
    · exact hn
    · cases hall '+' (by simp)

theorem whole_ne_nil (h : Json.Whole cs) : cs ≠ [] := by
  rintro rfl
  cases h

theorem places_of_whole (h : Json.Whole cs) (hn : Nat.ofDigitChars 10 cs 0 = n) :
    Places .decimal cs n :=
  places_decimal_iff.mpr ⟨Json.whole_digits h, hn⟩

/-- The literal of a word is a numeral of the word. -/
theorem read_of_denotesWord {j : Json} (h : Json.DenotesWord w j) :
    ∃ literal, j = .number literal ∧ read (String.ofList literal) = .ok w := by
  obtain ⟨hw, hn⟩ := h
  exact ⟨_, rfl, read_of_places String.toList_ofList (whole_ne_nil hw) (places_of_whole hw hn)⟩

theorem trim_of_wordOfText? {text : String} (h : Json.wordOfText? text = some w) :
    Json.Whole (trim text.toList) ∧ Nat.ofDigitChars 10 (trim text.toList) 0 = w.toNat := by
  obtain ⟨j, helement, hw, hn⟩ := Json.wordOfText?_eq_some_iff.mp h
  obtain ⟨b, b', htext, hb, hb'⟩ := Json.exists_blanks_of_element helement
  rw [htext, trim_append hb hb', trim_eq_self (isBlank_of_mem_places (places_of_whole hw hn))]
  exact ⟨hw, hn⟩

theorem read_of_wordOfText? {text : String} (h : Json.wordOfText? text = some w) :
    read text = .ok w := by
  obtain ⟨hw, hn⟩ := trim_of_wordOfText? h
  rw [read_eq_ok_iff_denotes_trim]
  exact @Denotes.decimal [] _ _ (.inl rfl) (whole_ne_nil hw) (places_of_whole hw hn)

theorem wordOfText?_of_whole {text : String} (h : Json.Whole text.toList)
    (ht : trim text.toList = text.toList) (hr : read text = .ok w) :
    Json.wordOfText? text = some w := by
  rw [read_eq_ok_iff_denotes_trim, ht] at hr
  have hn := (places_decimal_iff.mp (places_of_denotes hr (Json.whole_digits h))).2
  exact Json.wordOfText?_eq_some_iff.mpr ⟨_, Json.element_of_whole h, .literal h hn⟩

theorem read_printed {b b' : List Char} (hb : Blanks b) (hb' : Blanks b') {text : String}
    (ht : text ∈ [hexWord w, hex w, decimal w]) :
    read (String.ofList b ++ text ++ String.ofList b') = .ok w := by
  rw [read_append hb hb']
  simp only [List.mem_cons, List.not_mem_nil, or_false] at ht
  rcases ht with rfl | rfl | rfl
  · exact read_hexWord w
  · exact read_hex w
  · exact read_decimal w

theorem ofWord_eq_decimal (w : UInt32) : Json.ofWord w = .number (decimal w).toList := by
  rw [toList_decimal]
  rfl

theorem exists_amount_literal {text : String} {s : Shift} (h : Shift.ofJsonText? text = some s) :
    ∃ j kind literal, Json.ofText? text = some j ∧
      j.fields? "kind" "amount" = some (kind, .number literal) ∧
      read (String.ofList literal) = .ok s.amount := by
  obtain ⟨j, hj, hs⟩ := Option.bind_eq_some_iff.mp h
  obtain ⟨hf, -, ha⟩ := Shift.ofJson?_eq_some_iff.mp hs
  obtain ⟨literal, rfl, hread⟩ := read_of_denotesWord ha
  exact ⟨j, _, literal, hj, Json.fields?_eq_some_iff.mpr hf, hread⟩

theorem exists_value_literal {text : String} {f : Flagged}
    (h : Flagged.ofJsonText? text = some f) :
    ∃ j literal carry, Json.ofText? text = some j ∧
      j.fields? "value" "carry" = some (.number literal, carry) ∧
      read (String.ofList literal) = .ok f.value := by
  obtain ⟨j, hj, hf⟩ := Option.bind_eq_some_iff.mp h
  obtain ⟨hfields, hv, -⟩ := Flagged.ofJson?_eq_some_iff.mp hf
  obtain ⟨literal, rfl, hread⟩ := read_of_denotesWord hv
  exact ⟨j, literal, _, hj, Json.fields?_eq_some_iff.mpr hfields, hread⟩

theorem wordOfText?_eq_some_iff_whole {text : String} {m : UInt32}
    (ht : trim text.toList = text.toList) (hr : read text = .ok w) :
    Json.wordOfText? text = some m ↔ Json.Whole text.toList ∧ m = w := by
  constructor
  · intro h
    have hw := (trim_of_wordOfText? h).1
    rw [ht] at hw
    rw [read_of_wordOfText? h] at hr
    exact ⟨hw, Except.ok.inj hr⟩
  · rintro ⟨hw, rfl⟩
    exact wordOfText?_of_whole hw ht hr

/-- Each form in which a word is written is a numeral of it, with any blanks around it, and the decimal
form is also how it is written as JSON. The literals that the readers of operands take in a field are
numerals of the words that they take them for, and so are the JSON texts that denote words. A numeral
without blanks around it denotes a word as JSON when it consists of decimal digits and has no zero that
could be left out, and then it denotes the same word. -/
theorem word_texts_agree :
    (∀ (w : UInt32) (b b' : List Char), Blanks b → Blanks b' →
      ∀ text ∈ [hexWord w, hex w, decimal w],
        read (String.ofList b ++ text ++ String.ofList b') = .ok w) ∧
    (∀ w : UInt32, Json.ofWord w = .number (decimal w).toList) ∧
    (∀ (text : String) (s : Shift), Shift.ofJsonText? text = some s →
      ∃ j kind literal, Json.ofText? text = some j ∧
        j.fields? "kind" "amount" = some (kind, .number literal) ∧
        read (String.ofList literal) = .ok s.amount) ∧
    (∀ (text : String) (f : Flagged), Flagged.ofJsonText? text = some f →
      ∃ j literal carry, Json.ofText? text = some j ∧
        j.fields? "value" "carry" = some (.number literal, carry) ∧
        read (String.ofList literal) = .ok f.value) ∧
    (∀ (text : String) (w : UInt32), Json.wordOfText? text = some w → read text = .ok w) ∧
    ∀ (text : String) (w : UInt32), trim text.toList = text.toList → read text = .ok w →
      ∀ m, Json.wordOfText? text = some m ↔ Json.Whole text.toList ∧ m = w :=
  ⟨fun _ _ _ hb hb' _ ht => read_printed hb hb' ht, ofWord_eq_decimal,
    fun _ _ h => exists_amount_literal h, fun _ _ h => exists_value_literal h,
    fun _ _ h => read_of_wordOfText? h, fun _ _ ht hr _ => wordOfText?_eq_some_iff_whole ht hr⟩

theorem word_texts_agree_greatest :
    (Blanks ['\u3000'] ∧ Blanks ['\u0085', '\t'] ∧
      read (String.ofList ['\u3000'] ++ hexWord 0xFFFFFFFF ++ String.ofList ['\u0085', '\t']) =
        .ok 0xFFFFFFFF) ∧
    (Shift.ofJsonText? "[\"ror\", 4294967295]" = some ⟨.ror, 0xFFFFFFFF⟩ ∧
      ∃ j kind literal, Json.ofText? "[\"ror\", 4294967295]" = some j ∧
        j.fields? "kind" "amount" = some (kind, .number literal) ∧
        read (String.ofList literal) = .ok 0xFFFFFFFF) ∧
    (Flagged.ofJsonText? "[0,true]" = some ⟨0, true⟩ ∧
      ∃ j literal carry, Json.ofText? "[0,true]" = some j ∧
        j.fields? "value" "carry" = some (.number literal, carry) ∧
        read (String.ofList literal) = .ok 0) ∧
    (Json.wordOfText? "\t4294967295\n" = some 0xFFFFFFFF ∧
      read "\t4294967295\n" = .ok 0xFFFFFFFF) ∧
    trim "04294967295".toList = "04294967295".toList ∧ read "04294967295" = .ok 0xFFFFFFFF ∧
      ∀ m, Json.wordOfText? "04294967295" ≠ some m := by
  obtain ⟨hprinted, -, hshift, hflagged, hword, hwhole⟩ := word_texts_agree
  have hb : Blanks ['\u3000'] := by decide
  have hb' : Blanks ['\u0085', '\t'] := by decide
  have hs : Shift.ofJsonText? "[\"ror\", 4294967295]" = some ⟨.ror, 0xFFFFFFFF⟩ := by decide +kernel
  have hf : Flagged.ofJsonText? "[0,true]" = some ⟨0, true⟩ := by decide +kernel
  have hw : Json.wordOfText? "\t4294967295\n" = some 0xFFFFFFFF := by decide +kernel
  have ht : trim "04294967295".toList = "04294967295".toList := by decide +kernel
  have hr : read "04294967295" = .ok 0xFFFFFFFF := rfl
  have hn : ¬ Json.Whole "04294967295".toList := by
    intro h
    cases h with
    | nonzero _ hne => exact hne rfl
  exact ⟨⟨hb, hb', hprinted _ _ _ hb hb' _ (by simp)⟩, ⟨hs, hshift _ _ hs⟩, ⟨hf, hflagged _ _ hf⟩,
    ⟨hw, hword _ _ hw⟩, ht, hr, fun m hm => hn ((hwhole _ _ ht hr m).mp hm).1⟩

end Text.Numeral

end ShifterOperand

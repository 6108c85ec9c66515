import ShifterOperand.Proofs.Text.Position

/-!
# Why a text is no numeral

The fault of a text that is read as no word, found from the text alone: the blanks at its ends, the
mark and the sign are taken away, and the first position at fault among the digits decides. Main
statement: the reader reports that fault, where an invalid digit wins over an overflow at the same
position but not over an earlier one, and it does not look at what stands behind.
-/
namespace ShifterOperand.Text.Numeral

/-- The text is a body that is read in this radix, behind its mark if the radix is hexadecimal. -/
inductive Marked : List Char → Radix → List Char → Prop
  | hexadecimal {mark body : List Char} (hm : mark = ['0', 'x'] ∨ mark = ['0', 'X']) :
      Marked (mark ++ body) .hexadecimal body
  | decimal {body : List Char} (hx : ¬ ['0', 'x'] <+: body) (hX : ¬ ['0', 'X'] <+: body) :
      Marked body .decimal body

/-- The body without one leading plus sign. -/
def withoutSign : List Char → List Char
  | '+' :: cs => cs
  | cs => cs

/-- The fault of a body that is no numeral of a word. -/
inductive Rejected (r : Radix) : List Char → Fault → Prop
  | empty : Rejected r [] .empty
  | sign {c : Char} (hc : c = '+' ∨ c = '-') : Rejected r [c] .invalidDigit
  | digits {body : List Char} {i : ℕ} {f : Fault} (hne : body ≠ []) (hplus : body ≠ ['+'])
      (hminus : body ≠ ['-']) (h : Decides r (withoutSign body) i f) : Rejected r body f

variable {r : Radix} {body : List Char} {c : Char} {i : ℕ} {f : Fault}

/-- The sign that is dropped is one plus sign or none, and no plus sign stands behind none. -/
theorem withoutSign_cases (body : List Char) :
    body = '+' :: withoutSign body ∨ withoutSign body = body ∧ ¬ ['+'] <+: body := by
  cases body with
  | nil => exact .inr ⟨rfl, by simp⟩
  | cons c cs =>
    by_cases hc : c = '+'
    · subst hc
      exact .inl rfl
    · refine .inr ⟨?_, by simp [Ne.symm hc]⟩
      unfold withoutSign
      split
      · next heq => exact absurd (List.cons.inj heq).1 hc
      · rfl

theorem readUnsigned_eq_readDigits (hne : withoutSign body ≠ []) :
    readUnsigned r body = readDigits r 0 (withoutSign body) := by
  rcases withoutSign_cases body with hbody | ⟨hself, hplus⟩
  · conv_lhs => rw [hbody]
    exact readUnsigned_plus hne
  · rw [hself] at hne ⊢
    cases body with
    | nil => exact absurd rfl hne
    | cons c cs => exact readUnsigned_of_ne_plus fun hc => hplus ⟨cs, by rw [hc]; rfl⟩

theorem readUnsigned_sign (hc : c = '+' ∨ c = '-') :
    readUnsigned r [c] = .error .invalidDigit := by
  rcases hc with rfl | rfl
  · rfl
  · cases r <;> rfl

theorem readUnsigned_eq_error_iff : readUnsigned r body = .error f ↔ Rejected r body f := by
  by_cases hnil : body = []
  · subst hnil
    constructor
    · intro h
      cases h
      exact .empty
    · intro h
      cases h with
      | empty => rfl
      | digits hne => exact absurd rfl hne
  by_cases hsign : body = ['+'] ∨ body = ['-']
  · have hc : ∃ c, body = [c] ∧ (c = '+' ∨ c = '-') := by
      rcases hsign with rfl | rfl
      · exact ⟨'+', rfl, .inl rfl⟩
      · exact ⟨'-', rfl, .inr rfl⟩
    obtain ⟨c, rfl, hc⟩ := hc
    rw [readUnsigned_sign hc]
    constructor
    · intro h
      cases h
      exact .sign hc
    · intro h
      cases h with
      | sign => rfl
      | digits _ hplus hminus => exact absurd hsign (not_or.mpr ⟨hplus, hminus⟩)
  obtain ⟨hplus, hminus⟩ := not_or.mp hsign
  have hne : withoutSign body ≠ [] := by
    rcases withoutSign_cases body with hbody | ⟨hself, -⟩
    · intro h
      rw [h] at hbody
      exact hplus hbody
    · rwa [hself]
  rw [readUnsigned_eq_readDigits hne, readDigits_zero_eq_error_iff]
  constructor
  · rintro ⟨i, hi⟩
    exact .digits hnil hplus hminus hi
  · intro h
    cases h with
    | empty => exact absurd rfl hnil
    | sign hc =>
      rcases hc with rfl | rfl
      · exact absurd rfl hplus
      · exact absurd rfl hminus
    | digits _ _ _ h => exact ⟨_, h⟩

theorem marked_radixOf (t : List Char) : Marked t (radixOf t).1 (radixOf t).2 := by
  unfold radixOf
  split
  · exact @Marked.hexadecimal ['0', 'x'] _ (.inl rfl)
  · exact @Marked.hexadecimal ['0', 'X'] _ (.inr rfl)
  · next hx hX =>
    refine .decimal ?_ ?_
    · rintro ⟨rest, rfl⟩
      exact hx rest rfl
    · rintro ⟨rest, rfl⟩
      exact hX rest rfl

theorem radixOf_of_marked {t : List Char} (h : Marked t r body) : radixOf t = (r, body) := by
  cases h with
  | hexadecimal hm =>
    rcases hm with rfl | rfl
    · rfl
    · rfl
  | decimal hx hX =>
    rcases radixOf_cases body with ⟨mark, rest, rfl, rfl | rfl, -⟩ | h
    · exact absurd ⟨rest, rfl⟩ hx
    · exact absurd ⟨rest, rfl⟩ hX
    · exact h

theorem read_eq_error_iff_of_marked {s : String} {t : List Char} (ht : Trimmed s.toList t)
    (h : Marked t r body) : read s = .error f ↔ readUnsigned r body = .error f := by
  have hread : read s = (readUnsigned r body).map UInt32.ofNat := by
    unfold read
    rw [trim_of_trimmed ht, radixOf_of_marked h]
  rw [hread]
  cases readUnsigned r body with
  | ok n => exact iff_of_false (fun h => nomatch h) fun h => nomatch h
  | error e =>
    constructor
    · rintro ⟨⟩
      rfl
    · rintro ⟨⟩
      rfl

theorem read_eq_error_iff_rejected {s : String} :
    read s = .error f ↔
      ∃ t r body, Trimmed s.toList t ∧ Marked t r body ∧ Rejected r body f := by
  constructor
  · intro h
    have ht := trimmed_trim s.toList
    have hm := marked_radixOf (trim s.toList)
    exact ⟨_, _, _, ht, hm,
      readUnsigned_eq_error_iff.mp ((read_eq_error_iff_of_marked ht hm).mp h)⟩
  · rintro ⟨t, r, body, ht, hm, h⟩
    exact (read_eq_error_iff_of_marked ht hm).mpr (readUnsigned_eq_error_iff.mpr h)

theorem read_eq_error_iff_decides {s : String} {t : List Char} (ht : Trimmed s.toList t)
    (hm : Marked t r body) (hne : withoutSign body ≠ []) :
    read s = .error f ↔ ∃ i, Decides r (withoutSign body) i f := by
  rw [read_eq_error_iff_of_marked ht hm, readUnsigned_eq_readDigits hne,
    readDigits_zero_eq_error_iff]

/-- The digits up to a position are the same in every body that begins as this one does up to it. -/
theorem take_withoutSign {b rest : List Char} (hi : i < (withoutSign body).length)
    (hb : body = b ++ (withoutSign body).drop (i + 1)) :
    (withoutSign (b ++ rest)).take (i + 1) = (withoutSign body).take (i + 1) := by
  have hlen : ((withoutSign body).take (i + 1)).length = i + 1 := by
    rw [List.length_take]
    omega
  have hsplit := List.take_append_drop (i + 1) (withoutSign body)
  rcases withoutSign_cases body with hplus | ⟨hself, hplus⟩
  · have hb' : b = '+' :: (withoutSign body).take (i + 1) := by
      refine List.append_cancel_right (hb.symm.trans ?_)
      rw [List.cons_append, hsplit]
      exact hplus
    rw [hb']
    exact List.take_left' hlen
  · have hb' : b = (withoutSign body).take (i + 1) := by
      refine List.append_cancel_right (hb.symm.trans ?_)
      rw [hsplit, hself]
    rw [← hb'] at hlen
    rcases withoutSign_cases (b ++ rest) with hplus' | ⟨hself', -⟩
    · cases b with
      | nil => cases hlen
      | cons c b =>
        obtain rfl := (List.cons.inj hplus').1
        exact absurd ⟨_, hb.symm⟩ hplus
    · rw [hself', List.take_left' hlen, hb']

theorem withoutSign_suffix (body : List Char) : withoutSign body <:+ body := by
  rcases withoutSign_cases body with hplus | ⟨hself, -⟩
  · exact ⟨['+'], hplus.symm⟩
  · exact ⟨[], hself⟩

/-- A body that is not marked stays so whatever follows the position that decides: a mark would need
a zero, which is no fault, and the letter behind it. -/
theorem not_mark_front {letter : Char} {b rest : List Char} (hbody : ¬ ['0', letter] <+: body)
    (hd : Decides r (withoutSign body) i f) (hb : body = b ++ (withoutSign body).drop (i + 1)) :
    ¬ ['0', letter] <+: b ++ rest := by
  have hi := hd.1.lt_length
  have hle := (withoutSign_suffix body).length_le
  have hlen := congrArg List.length hb
  rw [List.length_append, List.length_drop] at hlen
  rintro ⟨rest', h⟩
  match b, h with
  | [], _ =>
    rw [List.length_nil] at hlen
    omega
  | [c], h =>
    obtain rfl := (List.cons.inj h).1
    rcases withoutSign_cases body with hplus | ⟨hself, -⟩
    · cases (List.cons.inj (hb.symm.trans hplus)).1
    · rw [hself] at hd hi hlen
      obtain rfl : i = 0 := by
        rw [List.length_singleton] at hlen
        omega
      have hfault := hd.1
      rw [hb] at hfault
      exact not_faultAt_zero hfault
  | c :: e :: b', h =>
    obtain ⟨hzero, h⟩ := List.cons.inj h
    obtain ⟨hletter, -⟩ := List.cons.inj h
    rw [← hzero, ← hletter] at hb
    exact hbody ⟨_, hb.symm⟩

/-- A text that begins as a marked one does up to the position that decides is marked alike. -/
theorem marked_front {t front : List Char} (hm : Marked t r body)
    (hd : Decides r (withoutSign body) i f)
    (ht : t = front ++ (withoutSign body).drop (i + 1)) (rest : List Char) :
    ∃ b, body = b ++ (withoutSign body).drop (i + 1) ∧ Marked (front ++ rest) r (b ++ rest) := by
  obtain ⟨b, hb⟩ := (List.drop_suffix (i + 1) _).trans (withoutSign_suffix body)
  refine ⟨b, hb.symm, ?_⟩
  cases hm with
  | @hexadecimal mark _ hm =>
    have hfront : front = mark ++ b := by
      refine List.append_cancel_right (ht.symm.trans ?_)
      rw [List.append_assoc, hb]
    rw [hfront, List.append_assoc]
    exact .hexadecimal hm
  | decimal hx hX =>
    obtain rfl : front = b := List.append_cancel_right (ht.symm.trans hb.symm)
    exact .decimal (not_mark_front hx hd hb.symm) (not_mark_front hX hd hb.symm)

theorem read_eq_error_of_front {s' : String} {t front rest : List Char} (hm : Marked t r body)
    (hd : Decides r (withoutSign body) i f)
    (ht : t = front ++ (withoutSign body).drop (i + 1)) (hs' : Trimmed s'.toList (front ++ rest)) :
    read s' = .error f := by
  obtain ⟨b, hb, hm'⟩ := marked_front hm hd ht rest
  have hd' : Decides r (withoutSign (b ++ rest)) i f :=
    hd.of_take (take_withoutSign hd.1.lt_length hb)
  have hne : withoutSign (b ++ rest) ≠ [] :=
    List.ne_nil_of_length_pos (Nat.zero_lt_of_lt hd'.1.lt_length)
  exact (read_eq_error_iff_decides hs' hm' hne).mpr ⟨i, hd'⟩

/-- A text is rejected with the fault that its body shows: an empty body, a lone sign, or else the
first position at fault among the digits. The first character that is no digit is reported when the
number does not overflow before it; it may stand where any digit would overflow, whatever digits are
put there and behind it. Every text that begins alike up to the position that decides is rejected
with the same fault. The number never overflows within eight digits, so that a text with no more than
these is not too large. -/
theorem read_eq_error_iff_decided (s : String) (f : Fault) :
    (read s = .error f ↔
      ∃ t r body, Trimmed s.toList t ∧ Marked t r body ∧ Rejected r body f) ∧
    (∀ t r body, Trimmed s.toList t → Marked t r body →
      (∀ p ds, NoDigitAt r (withoutSign body) p →
        (∀ j < p, ¬ NoDigitAt r (withoutSign body) j) → ds.take p = (withoutSign body).take p →
        (read s = .error .invalidDigit ↔ ∀ q, OverflowAt r ds q → p ≤ q)) ∧
      ∀ i front rest s', Decides r (withoutSign body) i f →
        t = front ++ (withoutSign body).drop (i + 1) → Trimmed s'.toList (front ++ rest) →
        read s' = .error f) ∧
    ∀ r cs q, OverflowAt r cs q → 8 ≤ q := by
  refine ⟨read_eq_error_iff_rejected, fun t r body ht hm => ⟨fun p ds hp hfirst hds => ?_, ?_⟩,
    fun _ _ _ => eight_le_of_overflowAt⟩
  · have hne : withoutSign body ≠ [] :=
      List.ne_nil_of_length_pos (Nat.zero_lt_of_lt (FaultAt.invalidDigit hp).lt_length)
    rw [read_eq_error_iff_decides ht hm hne, exists_decides_invalidDigit_iff hp hfirst hds]
  · exact fun i front rest s' hd hfront hs' => read_eq_error_of_front hm hd hfront hs'

/-- A character that is no digit where any digit would overflow, a sign behind a mark, and the first
number past the greatest word. -/
theorem read_eq_error_iff_decided_at_limit :
    (Trimmed " 4294967295x".toList "4294967295x".toList ∧
      Marked "4294967295x".toList .decimal "4294967295x".toList ∧
      NoDigitAt .decimal "4294967295x".toList 10 ∧
      (∀ j < 10, ¬ NoDigitAt .decimal "4294967295x".toList j) ∧
      "42949672950".toList.take 10 = "4294967295x".toList.take 10 ∧
      (read " 4294967295x" = .error .invalidDigit ↔
        ∀ q, OverflowAt .decimal "42949672950".toList q → 10 ≤ q)) ∧
    (Trimmed "0x-1".toList "0x-1".toList ∧ Marked "0x-1".toList .hexadecimal "-1".toList ∧
      Decides .hexadecimal "-1".toList 0 .invalidDigit ∧
      "0x-1".toList = "0x-".toList ++ "-1".toList.drop 1 ∧
      Trimmed "0x-Ff\n".toList ("0x-".toList ++ "Ff".toList) ∧
      read "0x-Ff\n" = .error .invalidDigit) ∧
    OverflowAt .hexadecimal "100000000".toList 8 ∧ 8 ≤ 8 := by
  have ht : Trimmed " 4294967295x".toList "4294967295x".toList := trim_eq_iff.mp (by decide)
  have hm : Marked "4294967295x".toList .decimal "4294967295x".toList :=
    .decimal (by decide) (by decide)
  have hno : NoDigitAt .decimal "4294967295x".toList 10 := by decide
  have hfirst : ∀ j < 10, ¬ NoDigitAt .decimal "4294967295x".toList j := by decide
  have htake : "42949672950".toList.take 10 = "4294967295x".toList.take 10 := by decide
  have ht' : Trimmed "0x-1".toList "0x-1".toList := trim_eq_iff.mp (by decide)
  have hm' : Marked "0x-1".toList .hexadecimal "-1".toList :=
    @Marked.hexadecimal ['0', 'x'] _ (.inl rfl)
  have hd : Decides .hexadecimal "-1".toList 0 .invalidDigit :=
    ⟨.invalidDigit (by decide), fun j hj => absurd hj (Nat.not_lt_zero j)⟩
  have hs' : Trimmed "0x-Ff\n".toList ("0x-".toList ++ "Ff".toList) := trim_eq_iff.mp (by decide)
  have hplaces : Places .hexadecimal "10000000".toList 0x10000000 :=
    (readDigits_zero_eq_ok_iff.mp rfl).1
  have hover : OverflowAt .hexadecimal "100000000".toList 8 :=
    ⟨by decide, _, places_concat hplaces (digit_zero .hexadecimal), by decide⟩
  have hlimit := read_eq_error_iff_decided " 4294967295x" .invalidDigit
  have hsign := read_eq_error_iff_decided "0x-1" .invalidDigit
  exact ⟨⟨ht, hm, hno, hfirst, htake, (hlimit.2.1 _ _ _ ht hm).1 10 _ hno hfirst htake⟩,
    ⟨ht', hm', hd, rfl, hs', (hsign.2.1 _ _ _ ht' hm').2 0 _ _ _ hd rfl hs'⟩,
    hover, hlimit.2.2 _ _ _ hover⟩

end ShifterOperand.Text.Numeral

import ShifterOperand.Proofs.Json.NumberGrammar
import ShifterOperand.Text.Numeral

/-!
# Numerals as they are written

The digits that a number is written with, in either radix. Main statement: reading them gives the
number back, so that two words are never written alike, whatever text follows that could not belong
to them.
-/
namespace ShifterOperand.Text.Numeral

variable {r : Radix}

def isDigitOf (r : Radix) (c : Char) : Bool := (r.digit? c).isSome

theorem digit?_digitChar {d : ℕ} (h : d < r.base) : r.digit? d.digitChar = some d := by
  cases r with
  | decimal =>
    have hall : ∀ d < 10, Radix.decimal.digit? d.digitChar = some d := by decide
    exact hall d h
  | hexadecimal =>
    have hall : ∀ d < 16, Radix.hexadecimal.digit? d.digitChar = some d := by decide
    exact hall d h

theorem readDigits_append (sofar : ℕ) (cs ds : List Char) :
    readDigits r sofar (cs ++ ds) = (readDigits r sofar cs).bind fun n => readDigits r n ds := by
  induction cs generalizing sofar with
  | nil => rfl
  | cons c cs ih =>
    simp only [List.cons_append, readDigits]
    split
    · rfl
    · split
      · exact ih _
      · rfl

theorem readDigits_digitChar {sofar d : ℕ} (hd : d < r.base)
    (h : sofar * r.base + d < UInt32.size) :
    readDigits r sofar [d.digitChar] = .ok (sofar * r.base + d) := by
  simp only [readDigits, digit?_digitChar hd, if_pos h]

/-- The digits of a word denote the word. -/
theorem readDigits_toDigits {n : ℕ} (h : n < UInt32.size) :
    readDigits r 0 (Nat.toDigits r.base n) = .ok n := by
  have hb := one_lt_base r
  induction n using Nat.strong_induction_on with
  | _ n ih =>
    by_cases hlt : n < r.base
    · rw [Nat.toDigits_of_lt_base hlt, readDigits_digitChar hlt (by omega), Nat.zero_mul, Nat.zero_add]
    · have hle : r.base ≤ n := by omega
      have hdiv : n / r.base < n := Nat.div_lt_self (by omega) hb
      have hsplit : n / r.base * r.base + n % r.base = n := Nat.div_add_mod' n r.base
      have hmod : n % r.base < r.base := Nat.mod_lt n (by omega)
      rw [Nat.toDigits_of_base_le hb hle, readDigits_append, ih _ hdiv (by omega)]
      change readDigits r (n / r.base) [(n % r.base).digitChar] = _
      rw [readDigits_digitChar hmod (by omega), hsplit]

theorem isDigitOf_of_readDigits {sofar n : ℕ} {cs : List Char} (h : readDigits r sofar cs = .ok n) :
    ∀ c ∈ cs, isDigitOf r c = true := by
  induction cs generalizing sofar with
  | nil => simp
  | cons c cs ih =>
    simp only [readDigits] at h
    split at h
    · cases h
    · next d hd =>
      split at h
      · intro a ha
        rcases List.mem_cons.mp ha with rfl | ha
        · rw [isDigitOf, hd, Option.isSome_some]
        · exact ih h a ha
      · cases h

theorem isDigitOf_of_mem_toDigits (n : UInt32) :
    ∀ c ∈ Nat.toDigits r.base n.toNat, isDigitOf r c = true :=
  isDigitOf_of_readDigits (readDigits_toDigits n.toNat_lt)

theorem toDigits_inj {m n : UInt32}
    (h : Nat.toDigits r.base m.toNat = Nat.toDigits r.base n.toNat) : m = n := by
  have hm := readDigits_toDigits (r := r) m.toNat_lt
  rw [h, readDigits_toDigits n.toNat_lt] at hm
  exact (UInt32.toNat_inj.mp (Except.ok.inj hm)).symm

/-- What follows a numeral does not belong to it when it begins with no digit. -/
theorem toDigits_append_inj {m n : UInt32} {s t : List Char} (hs : Json.Stops (isDigitOf r) s)
    (ht : Json.Stops (isDigitOf r) t)
    (h : Nat.toDigits r.base m.toNat ++ s = Nat.toDigits r.base n.toNat ++ t) : m = n ∧ s = t := by
  have hst : s = t := by
    have hdrop := congrArg (List.dropWhile (isDigitOf r)) h
    rwa [Json.dropWhile_append_of_stops (isDigitOf_of_mem_toDigits m) hs,
      Json.dropWhile_append_of_stops (isDigitOf_of_mem_toDigits n) ht] at hdrop
  subst hst
  exact ⟨toDigits_inj (List.append_cancel_right h), rfl⟩

theorem toList_decimal (n : UInt32) :
    (decimal n).toList = Nat.toDigits Radix.decimal.base n.toNat := Nat.toList_repr

theorem toList_hex (n : UInt32) :
    (hex n).toList = '0' :: 'x' :: Nat.toDigits Radix.hexadecimal.base n.toNat := by
  simp only [hex, String.toList_append, String.toList_ofList]
  rfl

theorem append_decimal_inj {m n : UInt32} {s : String} (h : s ++ decimal m = s ++ decimal n) :
    m = n := by
  have hlist := congrArg String.toList h
  rw [String.toList_append, String.toList_append, toList_decimal, toList_decimal] at hlist
  exact toDigits_inj (List.append_cancel_left hlist)

theorem hex_inj {m n : UInt32} (h : hex m = hex n) : m = n := by
  have hlist := congrArg String.toList h
  rw [toList_hex, toList_hex] at hlist
  exact toDigits_inj (List.tail_eq_of_cons_eq (List.tail_eq_of_cons_eq hlist))

end ShifterOperand.Text.Numeral

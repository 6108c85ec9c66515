import ShifterOperand.Fault
import ShifterOperand.Proofs.Text.Written

/-!
# Messages of faults

A fault can be told from its message alone: the messages of two kinds of fault already differ at the
beginning, and those of one kind differ in the numerals and the mnemonic that they name.
-/
namespace ShifterOperand.Fault

open Text.Numeral

/-- The beginning of the message, which says what kind of fault it is. -/
def opening : Fault → String
  | shiftType _ => "invalid sh"
  | bitRange _ _ => "invalid bi"
  | rrxAmount _ => "rrx requir"
  | amountRange _ _ => "shift amou"
  | extensionWidth _ => "invalid si"

theorem take_message (f : Fault) : f.message.toList.take 10 = f.opening.toList := by
  unfold message opening
  cases f <;> simp only [String.toList_append] <;> rfl

theorem opening_eq {f g : Fault} (h : f.message = g.message) : f.opening = g.opening := by
  apply String.toList_injective
  rw [← take_message, ← take_message, h]

theorem message_shiftType_inj {code code' : UInt32}
    (h : (shiftType code).message = (shiftType code').message) : code = code' := by
  have hlist := congrArg String.toList h
  unfold message at hlist
  simp only [String.toList_append, List.append_cancel_left_eq, List.append_cancel_right_eq] at hlist
  exact hex_inj (String.toList_injective hlist)

/-- Each numeral ends at the punctuation that follows it. -/
theorem message_bitRange_inj {msb lsb msb' lsb' : UInt32}
    (h : (bitRange msb lsb).message = (bitRange msb' lsb').message) : msb = msb' ∧ lsb = lsb' := by
  have hlist := congrArg String.toList h
  unfold message at hlist
  simp only [String.toList_append, List.append_assoc, List.append_cancel_left_eq,
    toList_decimal] at hlist
  have hcolon (s : List Char) : Json.Stops (isDigitOf .decimal) (":".toList ++ s) := by
    rw [String.toList_ofList]
    exact Json.stops_cons rfl
  have hclose : Json.Stops (isDigitOf .decimal) "]".toList := by
    rw [String.toList_ofList]
    exact Json.stops_cons rfl
  obtain ⟨hmsb, hrest⟩ := toDigits_append_inj (hcolon _) (hcolon _) hlist
  exact ⟨hmsb, (toDigits_append_inj hclose hclose (List.append_cancel_left hrest)).1⟩

theorem message_amountRange_inj {k k' : Kind} {amount amount' : UInt32}
    (h : (amountRange k amount).message = (amountRange k' amount').message) :
    k = k' ∧ amount = amount' := by
  have hlist := congrArg String.toList h
  unfold message at hlist
  simp only [String.toList_append, List.append_assoc, List.append_cancel_left_eq,
    toList_decimal] at hlist
  have hblank (s : List Char) :
      Json.Stops (isDigitOf .decimal) (" out of range for ".toList ++ s) := by
    rw [String.toList_ofList]
    exact Json.stops_cons rfl
  obtain ⟨hamount, hrest⟩ := toDigits_append_inj (hblank _) (hblank _) hlist
  exact ⟨Kind.mnemonic_inj (String.toList_injective (List.append_cancel_left hrest)), hamount⟩

/-- Two faults never have the same message. -/
theorem message_inj {f g : Fault} (h : f.message = g.message) : f = g := by
  have hopening := opening_eq h
  cases f with
  | shiftType code =>
    cases g with
    | shiftType code' => rw [message_shiftType_inj h]
    | bitRange | rrxAmount | amountRange | extensionWidth => simp [opening] at hopening
  | bitRange msb lsb =>
    cases g with
    | bitRange msb' lsb' =>
      obtain ⟨rfl, rfl⟩ := message_bitRange_inj h
      rfl
    | shiftType | rrxAmount | amountRange | extensionWidth => simp [opening] at hopening
  | rrxAmount amount =>
    cases g with
    | rrxAmount amount' => rw [append_decimal_inj h]
    | shiftType | bitRange | amountRange | extensionWidth => simp [opening] at hopening
  | amountRange k amount =>
    cases g with
    | amountRange k' amount' =>
      obtain ⟨rfl, rfl⟩ := message_amountRange_inj h
      rfl
    | shiftType | bitRange | rrxAmount | extensionWidth => simp [opening] at hopening
  | extensionWidth width =>
    cases g with
    | extensionWidth width' => rw [append_decimal_inj h]
    | shiftType | bitRange | rrxAmount | amountRange => simp [opening] at hopening

end ShifterOperand.Fault

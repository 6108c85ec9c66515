import ShifterOperand.Command.Outcome
import ShifterOperand.Proofs.Json.RoundTrip
import ShifterOperand.Proofs.Text.Written

/-!
# Reports read back

A report as JSON is no operand, but some reports have the fields of one. Main statement: of what a call
prints as JSON, the readers of operands take back the flagged word of a report that holds one and the
shift of a report that holds one with its amount, and they refuse all other reports. The text in the
report of a shift is the text of the shift that is read.
-/
namespace ShifterOperand

open Json

theorem Json.printable_append {s t : String} (hs : Printable s) (ht : Printable t) :
    Printable (s ++ t) := by
  unfold Printable
  rw [String.toList_append]
  exact List.forall_mem_append.mpr ⟨hs, ht⟩

theorem Json.printable_decimal (n : UInt32) : Printable (Text.Numeral.decimal n) := by
  intro c hc
  rw [Text.Numeral.toList_decimal] at hc
  have hdigit := whole_digits (whole_toDigits n.toNat) c hc
  have hle : '0' ≤ c := by
    rw [isDigit, Bool.and_eq_true, decide_eq_true_eq] at hdigit
    exact hdigit.1
  exact Char.le_trans (show ' ' ≤ '0' by decide) hle

theorem Shift.printable_text (s : Shift) : Printable s.text := by
  unfold Shift.text
  split
  · exact s.kind.printable_mnemonic
  · exact printable_append (printable_append s.kind.printable_mnemonic (by decide))
      (printable_decimal s.amount)

namespace Json

theorem names_quote (s : String) : Names (quote s) s := text?_eq_some_iff.mp (text?_quote s)

/-- A member is the only one of its name when it is so among the names that were written. -/
theorem sole_ofMembers {name : String} {value : Json} {members : List (String × Json)}
    (h : (members.filter (·.1 = name)).map (·.2) = [value]) :
    Sole name value (members.map fun m => (quote m.1, m.2)) := by
  rw [sole_iff, ← filter_namedMembers? name (namedMembers?_quote members), h]

end Json

namespace Command

namespace Report

/-- The flagged word that the report holds. -/
def flagged? : Report → Option Flagged
  | flagged w => some w
  | _ => none

/-- The shift that the report holds, if it holds one with its amount. -/
def shift? : Report → Option Shift
  | shift s => some s
  | _ => none

theorem writable_toJson (r : Report) : r.toJson.Writable := by
  cases r with
  | flagged w => exact w.writable_toJson
  | word value =>
    apply writable_ofMembers
    simp only [List.forall_mem_cons]
    exact ⟨⟨by decide, writable_ofWord value⟩, by simp⟩
  | shift s =>
    apply writable_ofMembers
    simp only [List.forall_mem_cons]
    exact ⟨⟨by decide, s.kind.writable_toJson⟩, ⟨by decide, writable_ofWord s.amount⟩,
      ⟨by decide, writable_ofString s.printable_text⟩, by simp⟩
  | kind k =>
    apply writable_ofMembers
    simp only [List.forall_mem_cons]
    exact ⟨⟨by decide, k.writable_toJson⟩, ⟨by decide, writable_null⟩,
      ⟨by decide, writable_ofString k.printable_mnemonic⟩, by simp⟩
  | restricted bad =>
    apply writable_ofMembers
    simp only [List.forall_mem_cons]
    exact ⟨⟨by decide, writable_bool bad⟩, by simp⟩

theorem flagged_ofJson?_toJson (r : Report) : Flagged.ofJson? r.toJson = r.flagged? := by
  cases r with
  | flagged w => exact w.ofJson?_toJson
  | word | shift | kind | restricted =>
    simp [Flagged.ofJson?, toJson, fields?_ofMembers, member?, flagged?]

theorem shift_ofJson?_toJson (r : Report) : Shift.ofJson? r.toJson = r.shift? := by
  cases r with
  | shift s =>
    simp [Shift.ofJson?, toJson, fields?_ofMembers, member?, shift?, Kind.ofJson?_toJson,
      word?_ofWord]
  | flagged | word | kind | restricted =>
    simp [Shift.ofJson?, toJson, Flagged.toJson, fields?_ofMembers, member?, shift?, word?]

/-- The object has one text, and it is this one. -/
def HasText (j : Json) (text : String) : Prop :=
  ∃ members ps, j = .object members ∧ Sole "text" (.string ps) members ∧ Names ps text

theorem hasText_toJson (s : Shift) : HasText (shift s).toJson s.text :=
  ⟨_, _, rfl, sole_ofMembers rfl, names_quote s.text⟩

/-- What the readers of operands make of a text that holds the report. -/
structure ReadsAs (r : Report) (text : String) : Prop where
  flagged : Flagged.ofJsonText? text = r.flagged?
  shift : Shift.ofJsonText? text = r.shift?
  shiftText : ∀ s, Shift.ofJsonText? text = some s → ∃ j, ofText? text = some j ∧ HasText j s.text

theorem readsAs_of_ofText? {r : Report} {text : String} (h : ofText? text = some r.toJson) :
    r.ReadsAs text := by
  have hshift : Shift.ofJsonText? text = r.shift? := by
    rw [Shift.ofJsonText?, h]
    exact r.shift_ofJson?_toJson
  refine ⟨?_, hshift, fun s hs => ⟨_, h, ?_⟩⟩
  · rw [Flagged.ofJsonText?, h]
    exact r.flagged_ofJson?_toJson
  · rw [hshift] at hs
    cases r with
    | shift s' =>
      cases hs
      exact hasText_toJson s
    | flagged | word | kind | restricted => cases hs

end Report

/-- What a call prints for a report as JSON is read as what the report holds, and as no operand when it
holds none; the line end that the call adds does not matter. -/
theorem reports_read_back {command : Command} {r : Report} (h : command.run = .ok r) :
    r.ReadsAs (r.render .json) ∧ r.ReadsAs (outcome .json command).stdout := by
  constructor
  · exact Report.readsAs_of_ofText? (ofText?_indented r.writable_toJson)
  · have hout : (outcome .json command).stdout = r.toJson.indented ++ "\n" := by
      rw [outcome, h]
      rfl
    rw [hout]
    exact Report.readsAs_of_ofText?
      (ofText?_indented_append r.writable_toJson (List.all_eq_true.mp rfl))

/-- The amount that the text leaves out is read back. -/
theorem reports_read_back_rrx :
    (immShift 3 0).run = .ok (.shift ⟨.rrx, 1⟩) ∧
      (Report.shift ⟨.rrx, 1⟩).ReadsAs (outcome .json (immShift 3 0)).stdout :=
  ⟨rfl, (reports_read_back rfl).2⟩

end Command

end ShifterOperand

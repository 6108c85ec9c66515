import ShifterOperand.Command.Grammar
import ShifterOperand.Json.Layout
import ShifterOperand.Json.Operand

/-!
# Reports

What a command finds out, and its two written forms. The text form is for people, with words in the
eight hexadecimal digits of their registers; the JSON form has the fields of the report in a fixed
order, and it holds the text of a decoded shift besides its kind and its amount.
-/
namespace ShifterOperand.Command

inductive Report where
  /-- A word with the carry that comes with it. -/
  | flagged (w : Flagged)
  | word (value : UInt32)
  /-- A shift by a known amount. -/
  | shift (s : Shift)
  /-- A shift by an amount that a register holds. -/
  | kind (k : Kind)
  | restricted (bad : Bool)
  deriving DecidableEq, Repr

namespace Report

def boolText (b : Bool) : String := if b then "true" else "false"

def text : Report → String
  | flagged w =>
    "value: " ++ Text.Numeral.hexWord w.value ++ "\ncarry: " ++ (if w.carry then "1" else "0")
  | word value => "value: " ++ Text.Numeral.hexWord value
  | shift s => s.text
  | kind k => k.mnemonic
  | restricted bad => "bad: " ++ boolText bad

def toJson : Report → Json
  | flagged w => w.toJson
  | word value => Json.ofMembers [("value", Json.ofWord value)]
  | shift s =>
    Json.ofMembers
      [("kind", s.kind.toJson), ("amount", Json.ofWord s.amount), ("text", Json.ofString s.text)]
  | kind k =>
    Json.ofMembers [("kind", k.toJson), ("amount", .null), ("text", Json.ofString k.mnemonic)]
  | restricted bad => Json.ofMembers [("bad", .bool bad)]

def render : Format → Report → String
  | .text, r => r.text
  | .json, r => r.toJson.indented

end Report

end ShifterOperand.Command

import ShifterOperand.Flagged
import ShifterOperand.Json.Value
import ShifterOperand.Shift.Operand

/-!
# Operands as JSON

A kind is written as its mnemonic, a shift and a flagged word as objects of two members. The readers
take more than the writers produce. A kind may also be the only key of an object whose value is null.
An object of two members may have its members in any order and have others besides, which are ignored;
and it may be an array of the two values. A known member that occurs twice is refused, and so is a key
that denotes no text.
-/
namespace ShifterOperand

namespace Json

def ofString (s : String) : Json := .string (quote s)

def ofWord (n : UInt32) : Json := .number (Nat.toDigits 10 n.toNat)

/-- An object whose members have these keys. -/
def ofMembers (members : List (String × Json)) : Json :=
  .object (members.map fun m => (quote m.1, m.2))

/-- The word that a whole number without a sign denotes. -/
def word? : Json → Option UInt32
  | .number literal => ((natural? literal).filter (· < UInt32.size)).map UInt32.ofNat
  | _ => none

def flag? : Json → Option Bool
  | .bool b => some b
  | _ => none

/-- The members with the texts that their keys denote. -/
def namedMembers? (members : List (List Piece × Json)) : Option (List (String × Json)) :=
  members.mapM fun m => (text? m.1).map fun key => (String.ofList key, m.2)

/-- The value of the only member of this name. -/
def member? (name : String) (members : List (String × Json)) : Option Json :=
  match members.filter (·.1 = name) with
  | [(_, value)] => some value
  | _ => none

/-- The values of two fields, from an object that names them or from an array that lists them. -/
def fields? (first second : String) : Json → Option (Json × Json)
  | .array [a, b] => some (a, b)
  | .object members => do
    let named ← namedMembers? members
    return (← member? first named, ← member? second named)
  | _ => none

end Json

namespace Kind

def toJson (k : Kind) : Json := Json.ofString k.mnemonic

/-- The kind whose mnemonic the pieces denote. -/
def ofPieces? (pieces : List Json.Piece) : Option Kind := do
  ofMnemonic? (String.ofList (← Json.text? pieces))

def ofJson? : Json → Option Kind
  | .string pieces => ofPieces? pieces
  | .object [(key, .null)] => ofPieces? key
  | _ => none

/-- The kind that a JSON text denotes. -/
def ofJsonText? (text : String) : Option Kind := do
  ofJson? (← Json.ofText? text)

end Kind

namespace Shift

def toJson (s : Shift) : Json :=
  Json.ofMembers [("kind", s.kind.toJson), ("amount", Json.ofWord s.amount)]

def ofJson? (j : Json) : Option Shift := do
  let (kind, amount) ← j.fields? "kind" "amount"
  return ⟨← Kind.ofJson? kind, ← amount.word?⟩

/-- The shift that a JSON text denotes. -/
def ofJsonText? (text : String) : Option Shift := do
  ofJson? (← Json.ofText? text)

end Shift

namespace Flagged

def toJson (w : Flagged) : Json :=
  Json.ofMembers [("value", Json.ofWord w.value), ("carry", .bool w.carry)]

def ofJson? (j : Json) : Option Flagged := do
  let (value, carry) ← j.fields? "value" "carry"
  return ⟨← value.word?, ← carry.flag?⟩

/-- The flagged word that a JSON text denotes. -/
def ofJsonText? (text : String) : Option Flagged := do
  ofJson? (← Json.ofText? text)

end Flagged

end ShifterOperand

import ShifterOperand.Text.Numeral

/-!
# Quoted text

The inside of a JSON string is a list of pieces: a character that stands for itself or is named by a
short escape, or a UTF-16 code unit that is escaped by its four hexadecimal digits. A character beyond
the first 65536 takes two escaped units, a high and a low surrogate. A surrogate without its partner
is allowed in a string but denotes no character, so that `text?` is partial.
-/
namespace ShifterOperand

namespace Json

inductive Piece where
  | char (c : Char)
  | escaped (unit : UInt16)
  deriving DecidableEq, Repr

def isHighSurrogate (unit : UInt16) : Bool := 0xD800 ≤ unit && unit ≤ 0xDBFF

def isLowSurrogate (unit : UInt16) : Bool := 0xDC00 ≤ unit && unit ≤ 0xDFFF

/-- The character of a surrogate pair: ten bits from each of the two, above the first 65536. -/
def combine (high low : UInt16) : Char :=
  Char.ofNat (0x10000 + (high.toNat - 0xD800) * 0x400 + (low.toNat - 0xDC00))

/-- The characters that the pieces denote. -/
def text? : List Piece → Option (List Char)
  | [] => some []
  | .char c :: rest => (text? rest).map (c :: ·)
  | .escaped unit :: rest =>
    if isHighSurrogate unit then
      match rest with
      | .escaped low :: rest =>
        if isLowSurrogate low then (text? rest).map (combine unit low :: ·) else none
      | _ => none
    else if isLowSurrogate unit then none
    else (text? rest).map (Char.ofNat unit.toNat :: ·)

/-- The pieces of a text, each character for itself. -/
def quote (s : String) : List Piece := s.toList.map .char

/-- The four hexadecimal digits of a code unit. -/
def unitDigits (unit : UInt16) : List Char := List.leftpad 4 '0' (Nat.toDigits 16 unit.toNat)

/-- The written form of a piece. The quotation mark, the backslash and the control characters are
escaped, by a short escape where there is one. -/
def Piece.spelling : Piece → List Char
  | .escaped unit => '\\' :: 'u' :: unitDigits unit
  | .char c =>
    if c = '"' then ['\\', '"']
    else if c = '\\' then ['\\', '\\']
    else if c = '\x08' then ['\\', 'b']
    else if c = '\x0c' then ['\\', 'f']
    else if c = '\n' then ['\\', 'n']
    else if c = '\r' then ['\\', 'r']
    else if c = '\t' then ['\\', 't']
    else if c < ' ' then '\\' :: 'u' :: unitDigits (UInt16.ofNat c.toNat)
    else [c]

theorem text?_map_char (cs : List Char) : text? (cs.map .char) = some cs := by
  induction cs with
  | nil => rfl
  | cons c rest ih => simp [text?, ih]

@[simp] theorem text?_quote (s : String) : text? (quote s) = some s.toList :=
  text?_map_char s.toList

end Json

end ShifterOperand

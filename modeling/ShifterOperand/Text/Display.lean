/-!
# What a display shows

A text may hold characters that a display obeys instead of showing them: control characters, and the
sequences that an escape character begins. `displayed` is what is left to see. Tab, line feed, form
feed and carriage return count as seen, and one of them that stands in a sequence breaks it off; the
strings that some sequences carry swallow them.
-/
namespace ShifterOperand.Text

/-- The characters that only move the place of writing. -/
def isSpacing (c : Char) : Bool := c = '\t' || c = '\n' || c = '\x0c' || c = '\r'

def isGraphic (c : Char) : Bool := ' ' ≤ c && c ≠ '\x7f'

/-- What the next character is taken for. -/
inductive Mode where
  | text
  | escape
  /-- An escape sequence of more than one character. -/
  | escapeTail
  | control
  | deviceStart
  | deviceParameter
  | deviceTail
  /-- A string that ends with a bell. -/
  | command
  /-- A string that ends with the terminator `0x9c`. -/
  | string
  deriving DecidableEq, Repr

namespace Mode

def shows (m : Mode) (c : Char) : Bool :=
  match m with
  | text => isSpacing c || isGraphic c
  | escape | escapeTail | control => isSpacing c
  | _ => false

/-- The mode after a graphic character of ASCII. -/
def afterGraphic (m : Mode) (c : Char) : Mode :=
  match m with
  | text => text
  | escape =>
    if c ≤ '/' then escapeTail
    else if c = '[' then control
    else if c = ']' then command
    else if c = 'P' then deviceStart
    else if c = 'X' || c = '^' || c = '_' then string
    else text
  | escapeTail => if c ≤ '/' then escapeTail else text
  | control => if c ≤ '?' then control else text
  | deviceStart => if c ≤ '/' then deviceTail else if c ≤ '?' then deviceParameter else string
  | deviceParameter => if c ≤ '/' then deviceTail else if c ≤ ';' then deviceParameter else string
  | deviceTail => if c ≤ '/' then deviceTail else string
  | command => command
  | string => string

/-- The mode after a character that is not shown. The terminator of a string counts also where it is
one of the bytes that encode a character. -/
def next (m : Mode) (c : Char) : Mode :=
  if c = '\x1b' then escape
  else if c = '\x18' || c = '\x1a' then text
  else if c < ' ' then if m = command && c = '\x07' then text else m
  else if c < '\x7f' then m.afterGraphic c
  else if m = string && (String.utf8EncodeChar c).contains 0x9c then text
  else m

end Mode

/-- How the next character is taken, and what has been shown, the latest first. -/
structure Display where
  mode : Mode
  shown : List Char
  deriving DecidableEq, Repr

def Display.next (d : Display) (c : Char) : Display :=
  if d.mode.shows c then ⟨.text, c :: d.shown⟩ else ⟨d.mode.next c, d.shown⟩

def displayed (s : String) : String :=
  String.ofList (s.toList.foldl Display.next ⟨.text, []⟩).shown.reverse

end ShifterOperand.Text

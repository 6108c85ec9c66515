import ShifterOperand.Json.Number
import ShifterOperand.Json.Quoted

/-!
# Tokens

A JSON text is a sequence of tokens with blanks between them: the six punctuation marks, quoted
strings, and bare words, which are the three names and the number literals. `Token.spelling` writes a
token, and `tokens?` splits a text by reading one character after the other.

A bare word ends where a character stands that cannot be part of one. Two bare words that touch are
therefore one word and not a token, which loses nothing, as no JSON text has two of them in a row.
-/
namespace ShifterOperand.Json

inductive Token where
  | null
  | bool (b : Bool)
  | number (literal : List Char)
  | string (pieces : List Piece)
  | openArray
  | closeArray
  | openObject
  | closeObject
  | comma
  | colon
  deriving DecidableEq, Repr

def Token.spelling : Token → List Char
  | null => ['n', 'u', 'l', 'l']
  | bool true => ['t', 'r', 'u', 'e']
  | bool false => ['f', 'a', 'l', 's', 'e']
  | number literal => literal
  | string pieces => '"' :: pieces.flatMap Piece.spelling ++ ['"']
  | openArray => ['[']
  | closeArray => [']']
  | openObject => ['\x7b']
  | closeObject => ['\x7d']
  | comma => [',']
  | colon => [':']

/-- The four blanks of JSON. -/
def isBlank (c : Char) : Bool := c = ' ' || c = '\t' || c = '\n' || c = '\r'

def mark? (c : Char) : Option Token :=
  if c = '[' then some .openArray
  else if c = ']' then some .closeArray
  else if c = '\x7b' then some .openObject
  else if c = '\x7d' then some .closeObject
  else if c = ',' then some .comma
  else if c = ':' then some .colon
  else none

/-- Whether the character may be part of a bare word. -/
def isBare (c : Char) : Bool := c.isAlphanum || c = '-' || c = '+' || c = '.'

/-- The token of a bare word. -/
def bareWord? (word : List Char) : Option Token :=
  if word = ['n', 'u', 'l', 'l'] then some .null
  else if word = ['t', 'r', 'u', 'e'] then some (.bool true)
  else if word = ['f', 'a', 'l', 's', 'e'] then some (.bool false)
  else if isNumber word then some (.number word)
  else none

/-- The character that a letter after a backslash stands for. -/
def shortEscape? (c : Char) : Option Char :=
  if c = '"' then some '"'
  else if c = '\\' then some '\\'
  else if c = '/' then some '/'
  else if c = 'b' then some '\x08'
  else if c = 'f' then some '\x0c'
  else if c = 'n' then some '\n'
  else if c = 'r' then some '\r'
  else if c = 't' then some '\t'
  else none

/-- Where in a token the reading stands. Words and pieces are held with the latest first. -/
inductive Place where
  | between
  | bare (word : List Char)
  | quoted (pieces : List Piece)
  /-- Behind a backslash. -/
  | escape (pieces : List Piece)
  /-- Within an escaped code unit, of which `more` digits come after the next one. -/
  | unit (pieces : List Piece) (more value : Nat)
  deriving DecidableEq, Repr

/-- The tokens read so far, the latest first, and the place in the next one. -/
structure Scan where
  done : List Token
  place : Place
  deriving DecidableEq, Repr

namespace Scan

def start : Scan := ⟨[], .between⟩

/-- Reads a character that belongs to no token begun before. -/
def fresh (done : List Token) (c : Char) : Option Scan :=
  if isBlank c then some ⟨done, .between⟩
  else if c = '"' then some ⟨done, .quoted []⟩
  else if isBare c then some ⟨done, .bare [c]⟩
  else (mark? c).map fun t => ⟨t :: done, .between⟩

def next (s : Scan) (c : Char) : Option Scan :=
  match s.place with
  | .between => fresh s.done c
  | .bare word =>
    if isBare c then some ⟨s.done, .bare (c :: word)⟩
    else do fresh ((← bareWord? word.reverse) :: s.done) c
  | .quoted pieces =>
    if c = '"' then some ⟨.string pieces.reverse :: s.done, .between⟩
    else if c = '\\' then some ⟨s.done, .escape pieces⟩
    else if c < ' ' then none
    else some ⟨s.done, .quoted (.char c :: pieces)⟩
  | .escape pieces =>
    if c = 'u' then some ⟨s.done, .unit pieces 3 0⟩
    else (shortEscape? c).map fun d => ⟨s.done, .quoted (.char d :: pieces)⟩
  | .unit pieces more value => do
    let value := value * 16 + (← Text.Numeral.digitValue c)
    match more with
    | 0 => some ⟨s.done, .quoted (.escaped (UInt16.ofNat value) :: pieces)⟩
    | more + 1 => some ⟨s.done, .unit pieces more value⟩

/-- The tokens of a text that ends here; it may not end within a string. -/
def finish (s : Scan) : Option (List Token) :=
  match s.place with
  | .between => some s.done.reverse
  | .bare word => do return ((← bareWord? word.reverse) :: s.done).reverse
  | _ => none

end Scan

/-- The tokens of a text, if it is a sequence of tokens and blanks. -/
def tokens? (cs : List Char) : Option (List Token) := do
  (← cs.foldlM Scan.next Scan.start).finish

end ShifterOperand.Json

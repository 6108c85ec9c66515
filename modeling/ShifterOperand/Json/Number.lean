import ShifterOperand.Text.Numeral

/-!
# Number literals

The grammar of JSON numbers: an optional minus sign, a whole part without leading zeros, and an
optional fraction and exponent, each with at least one digit. Each of the functions takes its part
from the front of a text and gives what is left. `natural?` is the value of the literals that consist
of a whole part alone.
-/
namespace ShifterOperand.Json

def isDigit (c : Char) : Bool := '0' ≤ c && c ≤ '9'

/-- What follows the digits, of which there is at least one. -/
def afterDigits : List Char → Option (List Char)
  | [] => none
  | c :: rest => if isDigit c then some (rest.dropWhile isDigit) else none

/-- What follows the whole part: zero, or digits of which the first is not zero. -/
def afterWhole : List Char → Option (List Char)
  | '0' :: rest => some rest
  | cs => afterDigits cs

/-- What follows the fraction, if there is one. -/
def afterFraction : List Char → Option (List Char)
  | '.' :: rest => afterDigits rest
  | cs => some cs

/-- What follows the digits of the exponent and their sign. -/
def afterSigned : List Char → Option (List Char)
  | '+' :: rest => afterDigits rest
  | '-' :: rest => afterDigits rest
  | cs => afterDigits cs

/-- What follows the exponent, if there is one. -/
def afterExponent : List Char → Option (List Char)
  | 'e' :: rest => afterSigned rest
  | 'E' :: rest => afterSigned rest
  | cs => some cs

/-- What follows a number without its sign. -/
def afterUnsigned (cs : List Char) : Option (List Char) := do
  afterExponent (← afterFraction (← afterWhole cs))

/-- Whether the whole text is a number literal. -/
def isNumber : List Char → Bool
  | '-' :: rest => afterUnsigned rest = some []
  | cs => afterUnsigned cs = some []

/-- The value of a literal that is a whole part and nothing else. -/
def natural? (literal : List Char) : Option Nat :=
  if isNumber literal && literal.all isDigit then some (Nat.ofDigitChars 10 literal 0) else none

end ShifterOperand.Json

import ShifterOperand.Text.Blank

/-!
# Numerals of 32-bit words

A word is written in decimal, in hexadecimal with the mark `0x`, or in hexadecimal padded to the
eight digits of a full word; the digits above nine are lower-case letters. `read` takes all of these
forms back: blanks around the numeral are dropped, the mark `0x` or `0X` selects the radix, one plus
sign may precede the digits, and the digits are read from left to right until one of them is no digit
or takes the value out of the word.
-/
namespace ShifterOperand.Text.Numeral

/-- The decimal digits of a word, without leading zeros. -/
def decimal (n : UInt32) : String := n.toNat.repr

/-- The hexadecimal form with its mark and without leading zeros. -/
def hex (n : UInt32) : String := "0x" ++ String.ofList (Nat.toDigits 16 n.toNat)

/-- The hexadecimal form of a full word: the mark and eight digits. -/
def hexWord (n : UInt32) : String :=
  "0x" ++ String.ofList (List.leftpad 8 '0' (Nat.toDigits 16 n.toNat))

/-- The bases in which a numeral may be written. -/
inductive Radix where
  | decimal
  | hexadecimal
  deriving DecidableEq, Repr

def Radix.base : Radix → Nat
  | .decimal => 10
  | .hexadecimal => 16

/-- What the character stands for as a digit, letters of either case included. -/
def digitValue (c : Char) : Option Nat :=
  if '0' ≤ c ∧ c ≤ '9' then some (c.toNat - '0'.toNat)
  else if 'a' ≤ c ∧ c ≤ 'f' then some (c.toNat - 'a'.toNat + 10)
  else if 'A' ≤ c ∧ c ≤ 'F' then some (c.toNat - 'A'.toNat + 10)
  else none

def Radix.digit? (r : Radix) (c : Char) : Option Nat :=
  (digitValue c).filter (· < r.base)

/-- Why a text is no numeral of a word. -/
inductive Fault where
  | empty
  | invalidDigit
  | tooLarge
  deriving DecidableEq, Repr

def Fault.message : Fault → String
  | .empty => "cannot parse integer from empty string"
  | .invalidDigit => "invalid digit found in string"
  | .tooLarge => "number too large to fit in target type"

/-- Appends the digits to the number read so far. A character that is no digit is noticed before the
overflow that it would have caused. -/
def readDigits (r : Radix) (sofar : Nat) : List Char → Except Fault Nat
  | [] => .ok sofar
  | c :: rest =>
    match r.digit? c with
    | none => .error .invalidDigit
    | some d =>
      if sofar * r.base + d < UInt32.size then readDigits r (sofar * r.base + d) rest
      else .error .tooLarge

/-- The digits with at most one plus sign before them. A sign with nothing after it is no digit, and
a minus sign never is one. -/
def readUnsigned (r : Radix) : List Char → Except Fault Nat
  | [] => .error .empty
  | ['+'] => .error .invalidDigit
  | '+' :: digits => readDigits r 0 digits
  | digits => readDigits r 0 digits

/-- Splits off the mark of a hexadecimal numeral. -/
def radixOf : List Char → Radix × List Char
  | '0' :: 'x' :: body => (.hexadecimal, body)
  | '0' :: 'X' :: body => (.hexadecimal, body)
  | body => (.decimal, body)

/-- The word that a numeral denotes. -/
def read (s : String) : Except Fault UInt32 :=
  let (r, body) := radixOf (trim s.toList)
  (readUnsigned r body).map UInt32.ofNat

theorem one_lt_base (r : Radix) : 1 < r.base := by
  cases r <;> decide

end ShifterOperand.Text.Numeral

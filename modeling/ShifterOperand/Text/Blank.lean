/-!
# White space

`isBlank` holds of the twenty-five characters with the White_Space property, and `trim` removes them
at both ends of a text. The property is wider than the ASCII blanks: the next-line control, the
no-break space, the line separator and the ideographic space have it. The zero-width space, the byte
order mark and the unit separator do not.
-/
namespace ShifterOperand.Text

/-- The code points with the White_Space property, as inclusive ranges in ascending order. -/
def blankRanges : List (Nat × Nat) :=
  [(0x09, 0x0D), (0x20, 0x20), (0x85, 0x85), (0xA0, 0xA0), (0x1680, 0x1680), (0x2000, 0x200A),
   (0x2028, 0x2029), (0x202F, 0x202F), (0x205F, 0x205F), (0x3000, 0x3000)]

def isBlank (c : Char) : Bool :=
  blankRanges.any fun range => range.1 ≤ c.toNat && c.toNat ≤ range.2

/-- The text without the blanks at its ends; blanks between two other characters stay. -/
def trim (s : List Char) : List Char :=
  ((s.dropWhile isBlank).reverse.dropWhile isBlank).reverse

end ShifterOperand.Text

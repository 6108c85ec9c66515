import ShifterOperand.Json.Value

/-!
# Indented layout

The written form for people: each item and each member stands on a line of its own, indented by two
blanks for each array or object around it, and a blank follows the colon of a member. Empty arrays and
objects are written without a line break.
-/
namespace ShifterOperand.Json

/-- A line break and the indentation of the next line. -/
def lineBreak (depth : Nat) : List Char := '\n' :: List.replicate (2 * depth) ' '

/-- Writes the tokens, of which the first one stands at the given depth. -/
def layout (depth : Nat) : List Token → List Char
  | [] => []
  | .openArray :: .closeArray :: rest => '[' :: ']' :: layout depth rest
  | .openObject :: .closeObject :: rest => '\x7b' :: '\x7d' :: layout depth rest
  | .openArray :: rest => '[' :: (lineBreak (depth + 1) ++ layout (depth + 1) rest)
  | .openObject :: rest => '\x7b' :: (lineBreak (depth + 1) ++ layout (depth + 1) rest)
  | .closeArray :: rest => lineBreak (depth - 1) ++ ']' :: layout (depth - 1) rest
  | .closeObject :: rest => lineBreak (depth - 1) ++ '\x7d' :: layout (depth - 1) rest
  | .comma :: rest => ',' :: (lineBreak depth ++ layout depth rest)
  | .colon :: rest => ':' :: ' ' :: layout depth rest
  | t :: rest => t.spelling ++ layout depth rest

/-- The written form with line breaks and indentation. -/
def indented (j : Json) : String := String.ofList (layout 0 j.tokens)

end ShifterOperand.Json

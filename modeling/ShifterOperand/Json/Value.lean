import ShifterOperand.Json.Token

/-!
# Values

A JSON value as a tree, its tokens, and the reading of a list of tokens. A number keeps its literal,
and an object keeps its members in the order of the text, those with the same key included.

`ofTokens?` reads one token after the other and holds the arrays and objects that are still open in a
stack of its own, so that values may be nested to any depth.
-/
namespace ShifterOperand

inductive Json where
  | null
  | bool (b : Bool)
  | number (literal : List Char)
  | string (pieces : List Json.Piece)
  | array (items : List Json)
  | object (members : List (List Json.Piece × Json))

namespace Json

mutual

/-- The tokens of a value, in the order of its written form. -/
def tokens : Json → List Token
  | null => [.null]
  | bool b => [.bool b]
  | number literal => [.number literal]
  | string pieces => [.string pieces]
  | array [] => [.openArray, .closeArray]
  | array (item :: rest) => .openArray :: (item.tokens ++ tokensOfItems rest)
  | object [] => [.openObject, .closeObject]
  | object ((key, value) :: rest) =>
    .openObject :: .string key :: .colon :: (value.tokens ++ tokensOfMembers rest)

/-- The tokens of the items that follow another one, up to the end of the array. -/
def tokensOfItems : List Json → List Token
  | [] => [.closeArray]
  | item :: rest => .comma :: (item.tokens ++ tokensOfItems rest)

/-- The tokens of the members that follow another one, up to the end of the object. -/
def tokensOfMembers : List (List Piece × Json) → List Token
  | [] => [.closeObject]
  | (key, value) :: rest =>
    .comma :: .string key :: .colon :: (value.tokens ++ tokensOfMembers rest)

end

/-- An array or object that is still open, with what it holds so far, the latest first. -/
inductive Frame where
  | items (done : List Json)
  /-- The value of the key is being read. -/
  | members (done : List (List Piece × Json)) (key : List Piece)

/-- What has been read, and with it what may come next; the innermost open value is on top. -/
inductive Reading where
  /-- A value comes. -/
  | value (stack : List Frame)
  /-- A bracket was opened: the first item comes, or the end of the array. -/
  | firstItem (stack : List Frame)
  /-- A brace was opened: the first key comes, or the end of the object. -/
  | firstKey (stack : List Frame)
  /-- A key comes. -/
  | key (done : List (List Piece × Json)) (stack : List Frame)
  /-- A key was read, and its colon comes. -/
  | colon (done : List (List Piece × Json)) (key : List Piece) (stack : List Frame)
  /-- A value was read. -/
  | complete (j : Json) (stack : List Frame)

namespace Reading

/-- The first token of a value. -/
def enter (stack : List Frame) : Token → Option Reading
  | .null => some (complete .null stack)
  | .bool b => some (complete (.bool b) stack)
  | .number literal => some (complete (.number literal) stack)
  | .string pieces => some (complete (.string pieces) stack)
  | .openArray => some (firstItem stack)
  | .openObject => some (firstKey stack)
  | _ => none

/-- The token after a value. -/
def leave (j : Json) : List Frame → Token → Option Reading
  | .items done :: stack, .comma => some (value (.items (j :: done) :: stack))
  | .items done :: stack, .closeArray => some (complete (.array (j :: done).reverse) stack)
  | .members done k :: stack, .comma => some (key ((k, j) :: done) stack)
  | .members done k :: stack, .closeObject =>
    some (complete (.object ((k, j) :: done).reverse) stack)
  | _, _ => none

def next : Reading → Token → Option Reading
  | value stack, t => enter stack t
  | firstItem stack, .closeArray => some (complete (.array []) stack)
  | firstItem stack, t => enter (.items [] :: stack) t
  | firstKey stack, .closeObject => some (complete (.object []) stack)
  | firstKey stack, .string k => some (colon [] k stack)
  | key done stack, .string k => some (colon done k stack)
  | colon done k stack, .colon => some (value (.members done k :: stack))
  | complete j stack, t => leave j stack t
  | _, _ => none

/-- The value, if it has been read to its end. -/
def value? : Reading → Option Json
  | complete j [] => some j
  | _ => none

end Reading

/-- The value whose tokens these are. -/
def ofTokens? (ts : List Token) : Option Json := do
  (← ts.foldlM Reading.next (.value [])).value?

/-- The value that a text is the written form of, blanks between the tokens aside. -/
def ofText? (s : String) : Option Json := do
  ofTokens? (← tokens? s.toList)

/-- The written form without blanks. -/
def compact (j : Json) : String := String.ofList (j.tokens.flatMap Token.spelling)

namespace Reading

/-- A reading that takes the first token of a value, or of an item, onto the stack. -/
def Ready (r : Reading) (stack : List Frame) : Prop :=
  ∀ t, t ≠ .closeArray → r.next t = enter stack t

theorem ready_value (stack : List Frame) : Ready (value stack) stack :=
  fun _ _ => rfl

theorem ready_firstItem (stack : List Frame) : Ready (firstItem stack) (.items [] :: stack) := by
  intro t h
  cases t <;> first | rfl | exact absurd rfl h

mutual

theorem foldlM_tokens : (j : Json) → {r : Reading} → {stack : List Frame} → Ready r stack →
    j.tokens.foldlM next r = some (complete j stack)
  | .null, _, _, h => by simp [tokens, h .null (by simp), enter]
  | .bool b, _, _, h => by simp [tokens, h (.bool b) (by simp), enter]
  | .number l, _, _, h => by simp [tokens, h (.number l) (by simp), enter]
  | .string p, _, _, h => by simp [tokens, h (.string p) (by simp), enter]
  | .array [], _, _, h => by
    rw [tokens, List.foldlM_cons, h .openArray (by simp)]
    rfl
  | .array (item :: rest), _, stack, h => by
    have head := foldlM_tokens item (ready_firstItem stack)
    have tail := foldlM_tokensOfItems rest item [] stack
    rw [tokens, List.foldlM_cons, h .openArray (by simp)]
    simpa [enter, head] using tail
  | .object [], _, _, h => by
    rw [tokens, List.foldlM_cons, h .openObject (by simp)]
    rfl
  | .object ((k, j) :: rest), _, stack, h => by
    have head := foldlM_tokens j (ready_value (.members [] k :: stack))
    have tail := foldlM_tokensOfMembers rest k j [] stack
    rw [tokens, List.foldlM_cons, h .openObject (by simp)]
    simpa [enter, next, head] using tail

theorem foldlM_tokensOfItems : (items : List Json) → (j : Json) → (done : List Json) →
    (stack : List Frame) → (tokensOfItems items).foldlM next (complete j (.items done :: stack)) =
      some (complete (.array (done.reverse ++ j :: items)) stack)
  | [], j, done, stack => by simp [tokensOfItems, next, leave]
  | item :: rest, j, done, stack => by
    have head := foldlM_tokens item (ready_value (.items (j :: done) :: stack))
    have tail := foldlM_tokensOfItems rest item (j :: done) stack
    simpa [tokensOfItems, next, leave, head] using tail

theorem foldlM_tokensOfMembers : (members : List (List Piece × Json)) → (k : List Piece) →
    (j : Json) → (done : List (List Piece × Json)) → (stack : List Frame) →
    (tokensOfMembers members).foldlM next (complete j (.members done k :: stack)) =
      some (complete (.object (done.reverse ++ (k, j) :: members)) stack)
  | [], k, j, done, stack => by simp [tokensOfMembers, next, leave]
  | (k', j') :: rest, k, j, done, stack => by
    have head := foldlM_tokens j' (ready_value (.members ((k, j) :: done) k' :: stack))
    have tail := foldlM_tokensOfMembers rest k' j' ((k, j) :: done) stack
    simpa [tokensOfMembers, next, leave, head] using tail

end

end Reading

theorem ofTokens?_tokens (j : Json) : ofTokens? j.tokens = some j := by
  simp [ofTokens?, Reading.foldlM_tokens j (Reading.ready_value []), Reading.value?]

end Json

end ShifterOperand

import ShifterOperand.Json.Value
import ShifterOperand.Proofs.Json.NumberGrammar

/-!
# The grammar of JSON texts

`Element j cs` says that `cs` is a written form of the value `j`, with any blanks, any spelling of the
characters in its strings and any depth. It is the grammar of the format, and it has no trailing commas,
no comments and nothing else that a text may leave out or add.
-/
namespace ShifterOperand.Json

def Blanks (cs : List Char) : Prop := ∀ c ∈ cs, isBlank c = true

/-- The letters that may follow a backslash, with the characters that they stand for. -/
def shortEscapes : List (Char × Char) :=
  [('"', '"'), ('\\', '\\'), ('/', '/'), ('b', '\x08'), ('f', '\x0c'), ('n', '\n'), ('r', '\r'),
   ('t', '\t')]

/-- Hexadecimal digits continue a number to another one. -/
inductive Hex : ℕ → List Char → ℕ → Prop
  | nil (v : ℕ) : Hex v [] v
  | cons {c : Char} {cs : List Char} {v d u : ℕ} (hd : Text.Numeral.digitValue c = some d)
      (h : Hex (v * 16 + d) cs u) : Hex v (c :: cs) u

/-- The text between two quotation marks. A character below the blank has to be escaped. -/
inductive Body : List Piece → List Char → Prop
  | nil : Body [] []
  | plain {c : Char} {ps : List Piece} {cs : List Char} (hq : c ≠ '"') (hb : c ≠ '\\')
      (hc : ' ' ≤ c) (h : Body ps cs) : Body (.char c :: ps) (c :: cs)
  | short {e c : Char} {ps : List Piece} {cs : List Char} (he : (e, c) ∈ shortEscapes)
      (h : Body ps cs) : Body (.char c :: ps) ('\\' :: e :: cs)
  | unit {ds : List Char} {v : ℕ} {ps : List Piece} {cs : List Char} (hl : ds.length = 4)
      (hv : Hex 0 ds v) (h : Body ps cs) :
      Body (.escaped (UInt16.ofNat v) :: ps) ('\\' :: 'u' :: (ds ++ cs))

mutual

/-- A value without blanks around it. -/
inductive Value : Json → List Char → Prop
  | null : Value .null ['n', 'u', 'l', 'l']
  | true : Value (.bool true) ['t', 'r', 'u', 'e']
  | false : Value (.bool false) ['f', 'a', 'l', 's', 'e']
  | number {literal : List Char} (h : Number literal) : Value (.number literal) literal
  | string {ps : List Piece} {cs : List Char} (h : Body ps cs) :
      Value (.string ps) ('"' :: (cs ++ ['"']))
  | emptyArray {b : List Char} (h : Blanks b) : Value (.array []) ('[' :: (b ++ [']']))
  | array {items : List Json} {cs : List Char} (h : Elements items cs) :
      Value (.array items) ('[' :: (cs ++ [']']))
  | emptyObject {b : List Char} (h : Blanks b) : Value (.object []) ('\x7b' :: (b ++ ['\x7d']))
  | object {members : List (List Piece × Json)} {cs : List Char} (h : Members members cs) :
      Value (.object members) ('\x7b' :: (cs ++ ['\x7d']))

inductive Element : Json → List Char → Prop
  | mk {j : Json} {b cs b' : List Char} (hb : Blanks b) (h : Value j cs) (hb' : Blanks b') :
      Element j (b ++ (cs ++ b'))

/-- The items of an array, of which there is at least one. -/
inductive Elements : List Json → List Char → Prop
  | one {j : Json} {cs : List Char} (h : Element j cs) : Elements [j] cs
  | more {j : Json} {items : List Json} {cs ds : List Char} (h : Element j cs)
      (hs : Elements items ds) : Elements (j :: items) (cs ++ ',' :: ds)

inductive Member : List Piece → Json → List Char → Prop
  | mk {key : List Piece} {j : Json} {b ks b' cs : List Char} (hb : Blanks b) (hk : Body key ks)
      (hb' : Blanks b') (h : Element j cs) :
      Member key j (b ++ '"' :: (ks ++ '"' :: (b' ++ ':' :: cs)))

/-- The members of an object, of which there is at least one. -/
inductive Members : List (List Piece × Json) → List Char → Prop
  | one {key : List Piece} {j : Json} {cs : List Char} (h : Member key j cs) :
      Members [(key, j)] cs
  | more {key : List Piece} {j : Json} {members : List (List Piece × Json)} {cs ds : List Char}
      (h : Member key j cs) (hs : Members members ds) :
      Members ((key, j) :: members) (cs ++ ',' :: ds)

end

end ShifterOperand.Json

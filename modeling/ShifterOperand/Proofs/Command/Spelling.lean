import Mathlib.Data.List.Forall2
import ShifterOperand.Command.Grammar
import ShifterOperand.Text.Numeral

/-!
# Spellings of a command

What a list of arguments has to be in order to ask for a command, said without reference to the reader:
the arguments are put together from phrases, and the phrases are counted and looked up wherever they
stand. A value may be a word of its own or attached to its name, and behind the mark of two hyphens
every word is an operand.
-/
namespace ShifterOperand.Command

def topic : Command → Topic
  | shift .. => .shift
  | immShift .. => .immShift
  | regShift .. => .regShift
  | armImm .. => .armImm
  | thumbImm .. => .thumbImm
  | thumbImm12 .. => .thumbImm12
  | thumbImmScaled .. => .thumbImmScaled
  | badReg .. => .badReg

def amount : Command → UInt32
  | shift _ _ amount _ => amount
  | _ => 0

def carry : Command → Bool
  | shift _ _ _ carry => carry
  | armImm _ carry => carry
  | thumbImm _ carry => carry
  | _ => false

def Format.name : Format → String
  | text => "text"
  | json => "json"

inductive Phrase where
  | operand (text : String)
  | setting (s : Setting) (text : String) (attached : Bool)
  | carry
  deriving DecidableEq

namespace Phrase

def words : Phrase → List String
  | operand text => [text]
  | setting s text true => ["--" ++ s.name ++ "=" ++ text]
  | setting s text false => ["--" ++ s.name, text]
  | carry => ["--carry"]

end Phrase

/-- The parts of a list of arguments: a format, the name of the topic, phrases in any order, and then
possibly two hyphens with operands behind them. -/
structure Spelling where
  before : Option (String × Bool)
  topic : Topic
  phrases : List Phrase
  tail : Option (List String)

namespace Spelling

def earlier (s : Spelling) : List Phrase :=
  (s.before.map fun p => Phrase.setting .format p.1 p.2).toList

def marked : Option (List String) → List String
  | none => []
  | some texts => "--" :: texts

def words (s : Spelling) : List String :=
  s.earlier.flatMap Phrase.words ++
    s.topic.name :: (s.phrases.flatMap Phrase.words ++ marked s.tail)

end Spelling

end ShifterOperand.Command

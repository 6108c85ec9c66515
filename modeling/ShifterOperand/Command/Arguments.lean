import ShifterOperand.Command.Misuse

/-!
# Reading the arguments

The arguments are taken from left to right, first those before the command and then those of the
command itself. A value that stands as an argument of its own is put aside when it is met and examined
when the next argument has been recognised, or at the end; a value attached to the name of a setting
is examined at once. Of two faults the one that is noticed first is reported, so that an argument
which has no place at all is reported in preference to the value put aside before it, and the
arguments of a command are read before a format that was set before the command is examined.
-/
namespace ShifterOperand.Command

/-- How the reading ends when it yields no command. -/
inductive Ending where
  | misuse (m : Misuse)
  | help
  | version
  deriving DecidableEq, Repr

/-- The values that have been examined. -/
structure Values where
  operands : List UInt32 := []
  kind : Option Kind := none
  amount : Option UInt32 := none
  format : Option Format := none
  carry : Bool := false
  deriving DecidableEq, Repr

/-- What is put aside until it is examined. -/
inductive Pending where
  | nothing
  | operand (o : Operand) (text : String)
  /-- The name of a setting was met, and its value, if that was met too. -/
  | setting (s : Setting) (text : Option String)
  deriving DecidableEq, Repr

/-- How far the reading has come. Without a topic it is still before the command. -/
structure Level where
  topic : Option Topic
  values : Values := {}
  pending : Pending := .nothing
  /-- The operands still to come. -/
  due : List Operand := []
  /-- Only operands can follow. -/
  operandsOnly : Bool := false
  deriving DecidableEq, Repr

def fail {α : Type} (m : Misuse) : Except Ending α := .error (.misuse m)

namespace Values

def addOperand (v : Values) (o : Operand) (text : String) : Except Ending Values :=
  match Text.Numeral.read text with
  | .ok n => .ok { v with operands := v.operands ++ [n] }
  | .error fault => fail (.badOperand o text fault)

/-- The fault of a text that is none of the names of a setting; an empty text counts as no value. -/
def noChoice (s : Setting) (text : String) : Misuse :=
  if text = "" then .missingValue s else .badChoice s text

/-- Gives a setting its value. That it has one already is noticed before the text is looked at. -/
def assign (v : Values) (s : Setting) (text : String) : Except Ending Values :=
  match s with
  | .kind =>
    if v.kind.isSome then fail (.repeatedSetting .kind)
    else
      match Kind.ofMnemonic? text with
      | some k => .ok { v with kind := some k }
      | none => fail (noChoice .kind text)
  | .amount =>
    if v.amount.isSome then fail (.repeatedSetting .amount)
    else
      match Text.Numeral.read text with
      | .ok n => .ok { v with amount := some n }
      | .error fault => fail (.badAmount text fault)
  | .format =>
    if v.format.isSome then fail (.repeatedSetting .format)
    else
      match Format.ofName? text with
      | some f => .ok { v with format := some f }
      | none => fail (noChoice .format text)

end Values

namespace Level

/-- Before the command. -/
def outer : Level := { topic := none }

/-- At the first argument of a command. -/
def inner (t : Topic) : Level := { topic := some t, due := t.operands }

def settings (l : Level) : List Setting :=
  match l.topic with
  | none => [.format]
  | some t => t.settings

def switches (l : Level) : List Switch :=
  match l.topic with
  | none => [.help, .version]
  | some t => t.switches

/-- Whether the name of a setting has just been met. -/
def awaitsValue (l : Level) : Bool :=
  match l.pending with
  | .setting _ none => true
  | _ => false

/-- Examines what was put aside. -/
def settle (l : Level) : Except Ending Level :=
  match l.pending with
  | .nothing => .ok l
  | .operand o text => do
    return { l with values := ← l.values.addOperand o text, pending := .nothing }
  | .setting s none => fail (.missingValue s)
  | .setting s (some text) => do
    return { l with values := ← l.values.assign s text, pending := .nothing }

/-- Acts on a switch. -/
def turn (l : Level) (s : Switch) : Except Ending Level := do
  let l ← l.settle
  match s with
  | .carry =>
    if l.values.carry then fail (.repeatedSwitch .carry)
    else return { l with values := { l.values with carry := true } }
  | .help => .error .help
  | .version => .error .version

/-- Reads an argument that begins with two hyphens: a name, and the value attached to it. -/
def long (l : Level) (name : String) (value : Option String) : Except Ending Level :=
  match l.settings.find? (·.name = name), l.switches.find? (·.name = name), value with
  | some s, _, some text => do
    let l ← l.settle
    return { l with values := ← l.values.assign s text }
  | some s, _, none => do
    return { ← l.settle with pending := .setting s none }
  | none, some s, some text => fail (.unneededValue s text)
  | none, some s, none => l.turn s
  | none, none, _ => fail (.unexpected ("--" ++ name))

/-- Reads an argument that begins with one hyphen, of which the first letter decides. -/
def short (l : Level) (letter : Char) : Except Ending Level :=
  if letter = 'h' then l.turn .help
  else if letter = 'V' ∧ .version ∈ l.switches then l.turn .version
  else fail (.unexpected (String.ofList ['-', letter]))

/-- The words that stand for commands, the one that asks for help included. -/
def isCommandWord (word : String) : Bool := (Topic.ofName? word).isSome || word = "help"

/-- The fault of an argument for which there is no operand. -/
def surplus (l : Level) (text : String) : Misuse :=
  if l.topic = none ∧ ¬ (l.operandsOnly ∧ isCommandWord text) then .unknownCommand text
  else .unexpected text

/-- Puts an argument aside as the next operand. -/
def operand (l : Level) (text : String) : Except Ending Level :=
  match l.due with
  | [] => fail (l.surplus text)
  | o :: rest => do
    return { ← l.settle with pending := .operand o text, due := rest }

/-- Reads an argument that is neither a name nor a mark. -/
def word (l : Level) (text : String) : Except Ending Level :=
  match l.pending with
  | .setting s none => .ok { l with pending := .setting s (some text) }
  | _ => l.operand text

/-- Splits a name from the value attached to it. -/
def splitValue (cs : List Char) : String × Option String :=
  match cs.dropWhile (· ≠ '=') with
  | [] => (String.ofList cs, none)
  | _ :: value => (String.ofList (cs.takeWhile (· ≠ '=')), some (String.ofList value))

/-- Reads the next argument. Two hyphens alone are the mark after which only operands follow. -/
def next (l : Level) (arg : String) : Except Ending Level :=
  if l.operandsOnly then l.operand arg
  else
    match arg.toList with
    | ['-', '-'] => .ok { l with operandsOnly := true }
    | '-' :: '-' :: rest => l.long (splitValue rest).1 (splitValue rest).2
    | '-' :: letter :: _ => l.short letter
    | _ => l.word arg

/-- Reads all arguments of a command. -/
def readAll (l : Level) (args : List String) : Except Ending Level := do
  (← args.foldlM next l).settle

end Level

/-- The command of the topic, if no required value is missing. -/
def Topic.command? (t : Topic) (v : Values) : Option Command :=
  match t, v.operands with
  | .shift, [value] => v.kind.map fun kind => .shift value kind (v.amount.getD 0) v.carry
  | .immShift, [ty, imm5] => some (.immShift ty imm5)
  | .regShift, [ty] => some (.regShift ty)
  | .armImm, [imm12] => some (.armImm imm12 v.carry)
  | .thumbImm, [word] => some (.thumbImm word v.carry)
  | .thumbImm12, [word] => some (.thumbImm12 word)
  | .thumbImmScaled, [word] => some (.thumbImmScaled word)
  | .badReg, [reg] => some (.badReg reg)
  | _, _ => none

/-- How the reading ends at the word that asks for help, which may be followed by one command. -/
def helpEnding : List String → Ending
  | [] => .help
  | word :: rest =>
    if Level.isCommandWord word then
      match rest with
      | [] => .help
      | next :: _ => .misuse (.unknownCommand next)
    else .misuse (.unknownCommand word)

/-- Reads the arguments of a command, after what was read before it. A format that is set for the
command goes before one that was set earlier. -/
def readCommand (l : Level) (t : Topic) (args : List String) : Except Ending (Format × Command) := do
  let own ← (Level.inner t).readAll args
  match t.command? own.values with
  | none => fail .missingArguments
  | some command => do
    let earlier ← l.settle
    return ((own.values.format.or earlier.values.format).getD .text, command)

/-- Reads the arguments from a level that is before the command. -/
def readFrom (l : Level) : List String → Except Ending (Format × Command)
  | [] => do
    let l ← l.settle
    if l.values.format = none then fail .nothingGiven else fail .noCommand
  | arg :: rest =>
    if l.operandsOnly || l.awaitsValue then do readFrom (← l.next arg) rest
    else
      match Topic.ofName? arg with
      | some t => readCommand l t rest
      | none =>
        if arg = "help" then .error (helpEnding rest)
        else do readFrom (← l.next arg) rest

/-- The command that the arguments ask for, and the format of its output. -/
def read (args : List String) : Except Ending (Format × Command) := readFrom .outer args

end ShifterOperand.Command

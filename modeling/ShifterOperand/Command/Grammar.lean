import ShifterOperand.Shift.Kind

/-!
# Commands

What the command line can ask for, and the words that ask for it. A command is chosen by its topic;
its operands follow in a fixed order, and its settings and switches stand anywhere among them. The
output format may be set for every command.
-/
namespace ShifterOperand

/-- A request with all its values. -/
inductive Command where
  | shift (value : UInt32) (kind : Kind) (amount : UInt32) (carry : Bool)
  | immShift (ty imm5 : UInt32)
  | regShift (ty : UInt32)
  | armImm (imm12 : UInt32) (carry : Bool)
  | thumbImm (word : UInt32) (carry : Bool)
  | thumbImm12 (word : UInt32)
  | thumbImmScaled (word : UInt32)
  | badReg (reg : UInt32)
  deriving DecidableEq, Repr

namespace Command

inductive Format where
  | text
  | json
  deriving DecidableEq, Repr

def Format.ofName? (name : String) : Option Format :=
  if name = "text" then some .text else if name = "json" then some .json else none

/-- A value that is given by its place. All of them are numbers. -/
inductive Operand where
  | value
  | ty
  | imm5
  | imm12
  | word
  | reg
  deriving DecidableEq, Repr

def Operand.label : Operand → String
  | value => "<VALUE>"
  | ty => "<TY>"
  | imm5 => "<IMM5>"
  | imm12 => "<IMM12>"
  | word => "<WORD>"
  | reg => "<REG>"

/-- A value that is given after its name. -/
inductive Setting where
  | kind
  | amount
  | format
  deriving DecidableEq, Repr

def Setting.name : Setting → String
  | kind => "kind"
  | amount => "amount"
  | format => "format"

def Setting.label : Setting → String
  | kind => "--kind <KIND>"
  | amount => "--amount <AMOUNT>"
  | format => "--format <FORMAT>"

/-- A name that says all by itself. -/
inductive Switch where
  | carry
  | help
  | version
  deriving DecidableEq, Repr

def Switch.name : Switch → String
  | carry => "carry"
  | help => "help"
  | version => "version"

def Switch.label (s : Switch) : String := "--" ++ s.name

inductive Topic where
  | shift
  | immShift
  | regShift
  | armImm
  | thumbImm
  | thumbImm12
  | thumbImmScaled
  | badReg
  deriving DecidableEq, Repr

namespace Topic

def all : List Topic :=
  [shift, immShift, regShift, armImm, thumbImm, thumbImm12, thumbImmScaled, badReg]

def name : Topic → String
  | shift => "shift"
  | immShift => "imm-shift"
  | regShift => "reg-shift"
  | armImm => "arm-imm"
  | thumbImm => "thumb-imm"
  | thumbImm12 => "thumb-imm12"
  | thumbImmScaled => "thumb-imm-scaled"
  | badReg => "bad-reg"

def ofName? (name : String) : Option Topic := all.find? (·.name = name)

/-- The operands of a command, all of which have to be given. -/
def operands : Topic → List Operand
  | shift => [.value]
  | immShift => [.ty, .imm5]
  | regShift => [.ty]
  | armImm => [.imm12]
  | thumbImm => [.word]
  | thumbImm12 => [.word]
  | thumbImmScaled => [.word]
  | badReg => [.reg]

def settings : Topic → List Setting
  | shift => [.kind, .amount, .format]
  | _ => [.format]

def switches : Topic → List Switch
  | shift => [.carry, .help]
  | armImm => [.carry, .help]
  | thumbImm => [.carry, .help]
  | _ => [.help]

@[simp] theorem ofName?_name (t : Topic) : ofName? t.name = some t := by
  cases t <;> decide

theorem ofName?_eq_some_iff {name : String} {t : Topic} : ofName? name = some t ↔ name = t.name := by
  constructor
  · intro h
    have found := List.find?_some h
    exact (of_decide_eq_true found).symm
  · rintro rfl
    exact ofName?_name t

end Topic

end Command

end ShifterOperand

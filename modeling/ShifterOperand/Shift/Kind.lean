/-!
# Kinds of shift

The five ways in which the shifter moves a word, with their assembler mnemonics and the amounts that
each of them takes. A rotation with extend moves by one place only, through the carry flag. The two
shifts to the right also take the full width of the word, which empties it.
-/
namespace ShifterOperand

inductive Kind where
  /-- Logical shift left. -/
  | lsl
  /-- Logical shift right. -/
  | lsr
  /-- Arithmetic shift right. -/
  | asr
  /-- Rotation right. -/
  | ror
  /-- Rotation right by one place through the carry flag. -/
  | rrx
  deriving DecidableEq, Repr

namespace Kind

def all : List Kind := [lsl, lsr, asr, ror, rrx]

def mnemonic : Kind → String
  | lsl => "lsl"
  | lsr => "lsr"
  | asr => "asr"
  | ror => "ror"
  | rrx => "rrx"

/-- The kind with this mnemonic, in lower case. -/
def ofMnemonic? (name : String) : Option Kind := all.find? (·.mnemonic = name)

/-- The least amount of a shift of this kind. -/
def minAmount (_ : Kind) : UInt32 := 1

/-- The greatest amount of a shift of this kind. -/
def maxAmount : Kind → UInt32
  | lsl => 31
  | lsr => 32
  | asr => 32
  | ror => 31
  | rrx => 1

/-- Whether the kind takes this amount. -/
def Takes (k : Kind) (amount : UInt32) : Prop := k.minAmount ≤ amount ∧ amount ≤ k.maxAmount

instance (k : Kind) (amount : UInt32) : Decidable (k.Takes amount) :=
  inferInstanceAs (Decidable (_ ∧ _))

theorem mnemonic_inj {j k : Kind} (h : j.mnemonic = k.mnemonic) : j = k := by
  cases j <;> cases k <;> first | rfl | (revert h; decide)

@[simp] theorem ofMnemonic?_mnemonic (k : Kind) : ofMnemonic? k.mnemonic = some k := by
  cases k <;> decide

theorem ofMnemonic?_eq_some_iff {name : String} {k : Kind} :
    ofMnemonic? name = some k ↔ name = k.mnemonic := by
  constructor
  · intro h
    have found := List.find?_some h
    exact (of_decide_eq_true found).symm
  · rintro rfl
    exact ofMnemonic?_mnemonic k

end Kind

end ShifterOperand

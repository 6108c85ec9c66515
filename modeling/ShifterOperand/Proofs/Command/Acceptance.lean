import ShifterOperand.Proofs.Command.Reading

/-!
# What the reader accepts

Before the command stands at most one phrase, and after its name the level of the command takes the
phrases. Main statement: the arguments are read as a command exactly when they are a spelling of it
(`read_eq_ok_iff`).
-/
namespace ShifterOperand.Command

open Level

variable {l : Level} {args : List String} {format : Format} {command : Command}

theorem readFrom_next {arg : String} (h : l.operandsOnly = true ∨ l.awaitsValue = true) :
    readFrom l (arg :: args) = l.next arg >>= fun l' => readFrom l' args := by
  rw [readFrom, if_pos (by simpa using h)]

/-- An argument that begins with two hyphens names neither a command nor the help. -/
theorem readFrom_hyphens {arg : String} (h : ∃ cs, arg.toList = '-' :: cs)
    (ho : l.operandsOnly = false) (hw : l.awaitsValue = false) :
    readFrom l (arg :: args) = l.next arg >>= fun l' => readFrom l' args := by
  obtain ⟨cs, h⟩ := h
  have htopic : Topic.ofName? arg = none := by
    by_contra hne
    obtain ⟨t, ht⟩ := Option.ne_none_iff_exists'.mp hne
    rw [Topic.ofName?_eq_some_iff.mp ht] at h
    cases t <;> simp [Topic.name] at h
  have hhelp : arg ≠ "help" := by
    intro hname
    subst hname
    simp at h
  rw [readFrom, if_neg (by simp [ho, hw]), htopic]
  simp only [if_neg hhelp]

/-- What the arguments ask for, if the rest of them asks for it after the phrases. -/
def Asks (v : Values) (ps : List Phrase) (t : Topic) (args : List String) (format : Format)
    (command : Command) : Prop :=
  ∃ u w, TakesAll v ps u ∧ (inner t).Yields args w ∧ t.command? w = some command ∧
    format = (w.format.or u.format).getD .text

end ShifterOperand.Command

import ShifterOperand.Contract
import ShifterOperand.Immediate

/-!
# Runs of the shifter

A run starts from a flagged word and takes a list of steps. Each step that succeeds replaces the word,
and its answer is the new word; a step that fails leaves the word as it was, and its answer says why.
-/
namespace ShifterOperand.Machine

inductive Step where
  /-- Apply a shift, which is examined. -/
  | shift (s : Shift)
  /-- Decode an immediate shift and apply it. -/
  | immediate (code imm5 : UInt32)
  /-- Decode a register shift and apply it with the amount that the register holds. -/
  | register (code amount : UInt32)
  | expandA32
  | expandT32Word
  | expandT32
  | gatherT32
  | scaledOffset
  | signExtend (width : UInt32)
  | field (msb lsb : UInt32)
  /-- Move a bit of the word to the carry. -/
  | test (pos : UInt32)
  deriving DecidableEq, Repr

/-- The flagged word after the step. -/
def Step.next (w : Flagged) : Step → Answer Flagged
  | shift s => s.apply w
  | immediate code imm5 => do Contract.apply (← Contract.decodeImmediate code imm5) w
  | register code amount => do Contract.apply ⟨← Contract.decodeRegister code, amount⟩ w
  | expandA32 => Immediate.expandA32 w.value w.carry
  | expandT32Word => Immediate.expandT32Word w.value w.carry
  | expandT32 => Immediate.expandT32 w.value w.carry
  | gatherT32 => do return ⟨← Immediate.gatherT32 w.value, w.carry⟩
  | scaledOffset => do return ⟨← Immediate.scaledOffset w.value, w.carry⟩
  | signExtend width => do return ⟨← Word.signExtend w.value width, w.carry⟩
  | field msb lsb => do return ⟨← Word.field w.value msb lsb, w.carry⟩
  | test pos => do return ⟨w.value, ← Word.testBit w.value pos⟩

/-- The word that the run goes on with. -/
def settle (w : Flagged) : Answer Flagged → Flagged
  | .ok next => next
  | .error _ => w

@[simp] theorem settle_ok (w next : Flagged) : settle w (.ok next) = next := rfl

@[simp] theorem settle_error (w : Flagged) (stop : Stop) : settle w (.error stop) = w := rfl

/-- The answers of the steps, in their order. -/
def run (w : Flagged) : List Step → List (Answer Flagged)
  | [] => []
  | s :: rest => s.next w :: run (settle w (s.next w)) rest

/-- The word at the end of the run. -/
def final (w : Flagged) (steps : List Step) : Flagged :=
  steps.foldl (fun w s => settle w (s.next w)) w

theorem final_cons (w : Flagged) (s : Step) (rest : List Step) :
    final w (s :: rest) = final (settle w (s.next w)) rest := rfl

theorem run_length (w : Flagged) (steps : List Step) : (run w steps).length = steps.length := by
  induction steps generalizing w with
  | nil => rfl
  | cons s rest ih => simp [run, ih]

theorem run_append (w : Flagged) (first second : List Step) :
    run w (first ++ second) = run w first ++ run (final w first) second := by
  induction first generalizing w with
  | nil => rfl
  | cons s rest ih => simp [run, final, ih]

end ShifterOperand.Machine

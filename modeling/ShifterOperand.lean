import ShifterOperand.Machine
import ShifterOperand.Main
import ShifterOperand.Proofs.Shift.Exact
import ShifterOperand.Proofs.Shift.Accumulation
import ShifterOperand.Proofs.Json.Grammar
import ShifterOperand.Proofs.Json.Scanner
import ShifterOperand.Proofs.Json.Tree
import ShifterOperand.Proofs.Json.Denotation
import ShifterOperand.Proofs.Command.Gathering
import ShifterOperand.Proofs.Command.Step
import ShifterOperand.Proofs.Command.Reading
import ShifterOperand.Proofs.Command.Acceptance
import ShifterOperand.Proofs.Command.Completion
import ShifterOperand.Proofs.Shift.Decoded
import ShifterOperand.Proofs.Shift.Extend
import ShifterOperand.Proofs.Text.Message
import ShifterOperand.Proofs.Text.Numeral
import ShifterOperand.Proofs.Text.Exchange
import ShifterOperand.Proofs.Contract.Twins
import ShifterOperand.Proofs.Machine.Carry
import ShifterOperand.Proofs.Contract.Conditions
import ShifterOperand.Proofs.Machine.Rejection
import ShifterOperand.Proofs.Json.Layout
import ShifterOperand.Proofs.Json.RoundTrip
import ShifterOperand.Proofs.Command.Failure
import ShifterOperand.Proofs.Command.Format
import ShifterOperand.Proofs.Command.Ending
import ShifterOperand.Proofs.Command.Report
import ShifterOperand.Proofs.Command.Likeness
import ShifterOperand.Proofs.Text.Rejection
import ShifterOperand.Proofs.Immediate.Assembly
import ShifterOperand.Proofs.Immediate.Shifter
import ShifterOperand.Proofs.Immediate.ConstantsA32
import ShifterOperand.Proofs.Immediate.ConstantsT32
import ShifterOperand.Proofs.Field.Extension
import ShifterOperand.Proofs.Machine.Extension
import ShifterOperand.Proofs.Field.ShiftPair
import ShifterOperand.Proofs.Contract.Operands
import ShifterOperand.Proofs.Immediate.Scatter
import ShifterOperand.Proofs.Field.Halves
import ShifterOperand.Proofs.Text.Display
import ShifterOperand.Proofs.Command.Misuse

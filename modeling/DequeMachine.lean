import DequeMachine.Machine
import DequeMachine.Interpreter
import DequeMachine.Command.Run
import DequeMachine.Main
import DequeMachine.Proofs.Deque.History
import DequeMachine.Proofs.Deque.Linkage
import DequeMachine.Proofs.Deque.Rotation
import DequeMachine.Proofs.Machine.Steps
import DequeMachine.Proofs.Interpreter.Runs
import DequeMachine.Proofs.Interpreter.Composition
import DequeMachine.Proofs.Interpreter.BrokenSource
import DequeMachine.Proofs.Interpreter.ShortSink
import DequeMachine.Proofs.LineReader.Calls
import DequeMachine.Proofs.Interpreter.Decoding
import DequeMachine.Proofs.Interpreter.ReadBack
import DequeMachine.Proofs.Interpreter.Ahead
import DequeMachine.Proofs.Text.Canonical
import DequeMachine.Proofs.Interpreter.Spelling
import DequeMachine.Proofs.Interpreter.InertLines
import DequeMachine.Proofs.Interpreter.Diagnostics
import DequeMachine.Proofs.Interpreter.Balance
import DequeMachine.Proofs.Interpreter.Discipline
import DequeMachine.Proofs.Interpreter.Frame
import DequeMachine.Proofs.Interpreter.Rearrangement
import DequeMachine.Proofs.Interpreter.FailingLines
import DequeMachine.Proofs.Interpreter.Records
import DequeMachine.Proofs.Command.Arguments
import DequeMachine.Proofs.Command.Report
import DequeMachine.Proofs.Command.Contract
import DequeMachine.Proofs.Command.Logging
import DequeMachine.Proofs.Error
import DequeMachine.Proofs.Text.Numerals
import DequeMachine.Proofs.Plain.Wrapping
import DequeMachine.Proofs.Interpreter.Operators
import DequeMachine.Proofs.Interpreter.Stacked
import DequeMachine.Proofs.Interpreter.Slots
import DequeMachine.Proofs.Command.Verbosity

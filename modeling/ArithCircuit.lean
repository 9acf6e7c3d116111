import ArithCircuit.CrossCheck
import ArithCircuit.Json.Records
import ArithCircuit.Proofs.ByteForm.Safety
import ArithCircuit.Proofs.Circuit.Digits
import ArithCircuit.Proofs.Circuit.DigitChoices
import ArithCircuit.Proofs.Circuit.Equivalence
import ArithCircuit.Proofs.Circuit.Gadgets
import ArithCircuit.Proofs.Circuit.Ordering
import ArithCircuit.Proofs.Circuit.Atomicity
import ArithCircuit.Proofs.Circuit.Caches
import ArithCircuit.Proofs.Circuit.Calls
import ArithCircuit.Proofs.Circuit.Packing
import ArithCircuit.Proofs.Circuit.Rejection
import ArithCircuit.Proofs.Circuit.Slots
import ArithCircuit.Proofs.Constraint.Wiring
import ArithCircuit.Proofs.Linear.Assignments
import ArithCircuit.Proofs.Linear.Digits
import ArithCircuit.Proofs.Linear.Representation
import ArithCircuit.Proofs.Witness.Layers
import ArithCircuit.Proofs.Witness.Calls
import ArithCircuit.Proofs.Witness.Fixpoint
import ArithCircuit.Proofs.Witness.Irrelevance
import ArithCircuit.Proofs.Witness.Screening
import ArithCircuit.Proofs.Witness.Reuse
import ArithCircuit.Proofs.Text.Lines
import ArithCircuit.Proofs.System.Listing
import ArithCircuit.Proofs.Circuit.Determinism
import ArithCircuit.Proofs.Hint.Registrations
import ArithCircuit.Proofs.Witness.Spelling
import ArithCircuit.Proofs.Hint.Builtin
import ArithCircuit.Proofs.Circuit.Materialization
import ArithCircuit.Proofs.Witness.Isolation

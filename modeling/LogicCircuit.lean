import LogicCircuit.Circuit.Consistency
import LogicCircuit.Main
import LogicCircuit.Session
import LogicCircuit.Proofs.Circuit.Edits
import LogicCircuit.Proofs.Circuit.Reachable
import LogicCircuit.Proofs.Circuit.Dependency
import LogicCircuit.Proofs.Circuit.Letters
import LogicCircuit.Proofs.Circuit.Representation
import LogicCircuit.Proofs.Assignment.Digits
import LogicCircuit.Proofs.Evaluation.Traversal
import LogicCircuit.Proofs.Evaluation.Search
import LogicCircuit.Proofs.Evaluation.Exact
import LogicCircuit.Proofs.Lowering.Layout
import LogicCircuit.Proofs.Lowering.Meaning
import LogicCircuit.Proofs.Formula.Grammar
import LogicCircuit.Proofs.Formula.Reading
import LogicCircuit.Proofs.Formula.Rendering
import LogicCircuit.Proofs.Evaluation.Locality
import LogicCircuit.Proofs.TruthTable.Complete
import LogicCircuit.Proofs.Equivalence
import LogicCircuit.Proofs.Circuit.Sorting
import LogicCircuit.Proofs.Json.Reading
import LogicCircuit.Proofs.Record.Json
import LogicCircuit.Proofs.Record.Rebuild
import LogicCircuit.Proofs.Record.RoundTrip
import LogicCircuit.Proofs.Circuit.Counting
import LogicCircuit.Proofs.Circuit.Loops
import LogicCircuit.Proofs.Record.Acceptance
import LogicCircuit.Proofs.Propagation.Level
import LogicCircuit.Proofs.Propagation.Marks
import LogicCircuit.Proofs.Session.Stepping
import LogicCircuit.Proofs.Netlist.Bench
import LogicCircuit.Proofs.Netlist.Faithful
import LogicCircuit.Proofs.Formula.Outline
import LogicCircuit.Proofs.Formula.Viable
import LogicCircuit.Proofs.Session.Refusal
import LogicCircuit.Proofs.Circuit.Depth
import LogicCircuit.Proofs.Formula.Limit
import LogicCircuit.Proofs.Lowering.Height
import LogicCircuit.Proofs.Evaluation.Cone
import LogicCircuit.Proofs.Propagation.Halting
import LogicCircuit.Proofs.Propagation.Layers
import LogicCircuit.Proofs.TruthTable.Encodings
import LogicCircuit.Proofs.Circuit.Inputs
import LogicCircuit.Proofs.Session.Display
import LogicCircuit.Proofs.Session.Clearing
import LogicCircuit.Proofs.Session.Rows
import LogicCircuit.Proofs.Circuit.Fresh
import LogicCircuit.Proofs.Structure.Ranks
import LogicCircuit.Proofs.Structure.Congruence
import LogicCircuit.Proofs.Circuit.InPlace
import LogicCircuit.Proofs.Circuit.Wiring
import LogicCircuit.Proofs.Lowering.Accounting
import LogicCircuit.Proofs.Formula.Covering
import LogicCircuit.Proofs.Circuit.Correspondence
import LogicCircuit.Proofs.Formula.Operand
import LogicCircuit.Proofs.Association
import LogicCircuit.Proofs.Assignment.Entries
import LogicCircuit.Proofs.Assignment.History
import LogicCircuit.Proofs.FileStore.Put
import LogicCircuit.Proofs.FileStore.Export

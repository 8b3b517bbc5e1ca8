import StackMachine.Bytes
import StackMachine.Collector
import StackMachine.Compiled.Artifact
import StackMachine.Compiled.Compile
import StackMachine.Compiled.Isolated
import StackMachine.Compiled.Source
import StackMachine.Decimal
import StackMachine.Engine
import StackMachine.Fault
import StackMachine.Heap
import StackMachine.Heights
import StackMachine.Instr
import StackMachine.Json.Basic
import StackMachine.Json.Text
import StackMachine.Json.Token
import StackMachine.Lifecycle.Service
import StackMachine.Lifecycle.Session
import StackMachine.Lifecycle.Table
import StackMachine.Lifecycle.Threads
import StackMachine.Machine.Basic
import StackMachine.Machine.Control
import StackMachine.Machine.Data
import StackMachine.Memory
import StackMachine.Opcode
import StackMachine.Operator
import StackMachine.Peephole
import StackMachine.Program
import StackMachine.Run
import StackMachine.Settings
import StackMachine.Settings.File
import StackMachine.Stored.Binary
import StackMachine.Stored.Error
import StackMachine.Stored.File
import StackMachine.Stored.Json
import StackMachine.Toml.Basic
import StackMachine.Toml.Document
import StackMachine.Toml.Lexical
import StackMachine.Toml.Reading
import StackMachine.Value
import StackMachine.Proofs.Bodies
import StackMachine.Proofs.Paths
import StackMachine.Proofs.Runs
import StackMachine.Proofs.Operations
import StackMachine.Proofs.Passes
import StackMachine.Proofs.Visible
import StackMachine.Proofs.Compilation
import StackMachine.Proofs.Control
import StackMachine.Proofs.Transparency
import StackMachine.Proofs.Contexts
import StackMachine.Proofs.Elimination
import StackMachine.Proofs.Folding
import StackMachine.Proofs.Renumbering
import StackMachine.Proofs.Fixpoints
import StackMachine.Proofs.Activations
import StackMachine.Proofs.Origins
import StackMachine.Proofs.Isolation
import StackMachine.Proofs.Soundness
import StackMachine.Proofs.Reachability
import StackMachine.Proofs.Survivors
import StackMachine.Proofs.Sharing
import StackMachine.Proofs.Collections
import StackMachine.Proofs.Duties
import StackMachine.Proofs.Obedience
import StackMachine.Proofs.Lives
import StackMachine.Proofs.Closing
import StackMachine.Proofs.Chronicles
import StackMachine.Proofs.Standings
import StackMachine.Proofs.Thresholds
import StackMachine.Proofs.Alone
import StackMachine.Proofs.Sessions
import StackMachine.Proofs.Confinement
import StackMachine.Proofs.Operands
import StackMachine.Proofs.Effects
import StackMachine.Proofs.Frames
import StackMachine.Proofs.Limits
import StackMachine.Proofs.Encoding
import StackMachine.Proofs.Spelling
import StackMachine.Proofs.Records
import StackMachine.Proofs.Partition
import StackMachine.Proofs.Relocation
import StackMachine.Proofs.Canonical
import StackMachine.Proofs.Histories

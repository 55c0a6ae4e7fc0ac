import Bytecode.CommandLine
import Bytecode.Machine.Run
import Bytecode.Main
import Bytecode.Proofs.Step
import Bytecode.Proofs.Walk
import Bytecode.Proofs.Expression
import Bytecode.Proofs.Embedding
import Bytecode.Proofs.Insertion
import Bytecode.Proofs.Iteration
import Bytecode.Proofs.Loop
import Bytecode.Proofs.Contents
import Bytecode.Proofs.Result
import Bytecode.Proofs.Effect
import Bytecode.Proofs.Advance
import Bytecode.Proofs.Underflow
import Bytecode.Proofs.Binding
import Bytecode.Proofs.Balance
import Bytecode.Proofs.Inventory
import Bytecode.Proofs.WellFormed
import Bytecode.Proofs.Session
import Bytecode.Proofs.Passage
import Bytecode.Proofs.CallDepth
import Bytecode.Proofs.Coupling
import Bytecode.Proofs.Limits
import Bytecode.Proofs.GlobalStores
import Bytecode.Proofs.UnreadGlobals
import Bytecode.Proofs.Termination
import Bytecode.Proofs.Building
import Bytecode.Proofs.Conversion
import Bytecode.Proofs.JsonText
import Bytecode.Proofs.Document
import Bytecode.Proofs.Loading
import Bytecode.Proofs.Elements
import Bytecode.Proofs.Promotion
import Bytecode.Proofs.Coherence
import Bytecode.Proofs.MixedNumbers
import Bytecode.Proofs.Repetition
import Bytecode.Proofs.Sum
import Bytecode.Proofs.Rendering
import Bytecode.Proofs.Resolution
import Bytecode.Proofs.IntegerText

import SplitRadix.Main
import SplitRadix.Target.Recorder
import SplitRadix.Proofs.Decomposition
import SplitRadix.Proofs.Filling
import SplitRadix.Proofs.CallChain
import SplitRadix.Proofs.Simulation
import SplitRadix.Proofs.Tracing
import SplitRadix.Proofs.Observation
import SplitRadix.Proofs.CallRegisters
import SplitRadix.Proofs.Sites
import SplitRadix.Proofs.Kernels
import SplitRadix.Proofs.Budget
import SplitRadix.Proofs.Generation
import SplitRadix.Proofs.Lengths
import SplitRadix.Proofs.Capacity
import SplitRadix.Proofs.Scratch
import SplitRadix.Proofs.Encoding
import SplitRadix.Proofs.Ranges
import SplitRadix.Proofs.Reference
import SplitRadix.Proofs.Pieces
import SplitRadix.Proofs.Serving
import SplitRadix.Proofs.Wear
import SplitRadix.Proofs.Acceptance
import SplitRadix.Proofs.Plans
import SplitRadix.Proofs.Rejection
import SplitRadix.Proofs.Layout
import SplitRadix.Proofs.Directions
import SplitRadix.Proofs.History
import SplitRadix.Proofs.BufferRuns
import SplitRadix.Proofs.InPlace
import SplitRadix.Proofs.Isolation
import SplitRadix.Proofs.Decoding
import SplitRadix.Proofs.Sweep
import SplitRadix.Proofs.KernelText
import SplitRadix.Proofs.GlueText
import SplitRadix.Proofs.Requests
import SplitRadix.Proofs.Assembly
import SplitRadix.Proofs.Listing
import SplitRadix.Proofs.ChainText
import SplitRadix.Proofs.Relocation
import SplitRadix.Proofs.ObjectReading
import SplitRadix.Proofs.SymbolNames
import SplitRadix.Proofs.Export
import SplitRadix.Proofs.Execution
import SplitRadix.Proofs.Conjugation
import SplitRadix.Proofs.Blocks
import SplitRadix.Proofs.Coverage
import SplitRadix.Proofs.BaseCases
import SplitRadix.Proofs.Chunks
import SplitRadix.Proofs.MemoryLimit
import SplitRadix.Proofs.Retention
import SplitRadix.Proofs.PassRuns
import SplitRadix.Proofs.Truncation
import SplitRadix.Proofs.Nesting
import SplitRadix.Proofs.Reach
import SplitRadix.Proofs.Fields
import SplitRadix.Proofs.Validation
import SplitRadix.Proofs.Specialisation
import SplitRadix.Proofs.Alignment
import SplitRadix.Proofs.DeltaEncoding
import SplitRadix.Proofs.TwiddleLevels
import SplitRadix.Proofs.SizeCheck

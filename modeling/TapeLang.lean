import TapeLang.Word
import TapeLang.Factors
import TapeLang.Program
import TapeLang.Program.Text
import TapeLang.Source.Parser
import TapeLang.Source.Printer
import TapeLang.Source.Position
import TapeLang.Log
import TapeLang.Optimizer.Traversal
import TapeLang.Optimizer.Runs
import TapeLang.Optimizer.Clears
import TapeLang.Optimizer.Transfers
import TapeLang.Optimizer.DeadStores
import TapeLang.Optimizer.KnownZero
import TapeLang.Optimizer.Pass
import TapeLang.Optimizer.Pipeline
import TapeLang.Tape
import TapeLang.Device
import TapeLang.Device.Buffers
import TapeLang.Device.Script
import TapeLang.Machine
import TapeLang.Machine.Session
import TapeLang.Extent
import TapeLang.CCode.Block
import TapeLang.CCode.Generate
import TapeLang.Text.Blank
import TapeLang.Text.Style
import TapeLang.Source.Excerpt
import TapeLang.CommandLine.Options
import TapeLang.CommandLine.Directory
import TapeLang.CommandLine.Report
import TapeLang.Main
import TapeLang.Proofs.TapeView
import TapeLang.Proofs.Calls
import TapeLang.Proofs.Steps
import TapeLang.Proofs.Simulation
import TapeLang.Proofs.Operations
import TapeLang.Proofs.Contexts
import TapeLang.Proofs.WholeRuns
import TapeLang.Proofs.Turns
import TapeLang.Proofs.Counter
import TapeLang.Proofs.FactorTables
import TapeLang.Proofs.Optimizer.Runs
import TapeLang.Proofs.Optimizer.Clears
import TapeLang.Proofs.Optimizer.Transfers
import TapeLang.Proofs.Optimizer.DeadStores
import TapeLang.Proofs.Optimizer.KnownZero
import TapeLang.Proofs.Optimizer.Rounds
import TapeLang.Proofs.Optimizer.Pipeline
import TapeLang.Proofs.Optimizer.Soundness
import TapeLang.Proofs.Optimizer.Shrinking
import TapeLang.Proofs.Optimizer.Inventory
import TapeLang.Proofs.Unbounded
import TapeLang.Proofs.Extent
import TapeLang.Proofs.CCode.Meaning
import TapeLang.Proofs.CCode.Operations
import TapeLang.Proofs.CCode.Correctness
import TapeLang.Proofs.Texts
import TapeLang.Proofs.CCode.Layout
import TapeLang.Proofs.BigStep
import TapeLang.Proofs.Touched
import TapeLang.Proofs.WordTapes
import TapeLang.Proofs.Budget
import TapeLang.Proofs.Source.Brackets
import TapeLang.Proofs.Source.Spelling
import TapeLang.Proofs.Source.Inverse
import TapeLang.Proofs.Source.Walks
import TapeLang.Proofs.StoredCells
import TapeLang.Proofs.FailedOperations
import TapeLang.Proofs.Source.Expansions
import TapeLang.Proofs.Optimizer.Travel
import TapeLang.Proofs.Optimizer.Recognition
import TapeLang.Proofs.Optimizer.Merging
import TapeLang.Proofs.Source.Moves
import TapeLang.Proofs.Source.Recompilation
import TapeLang.Proofs.Source.RoundTrip
import TapeLang.Proofs.Source.Idempotence
import TapeLang.Proofs.Source.InWord
import TapeLang.Proofs.Executed
import TapeLang.Proofs.InputUse
import TapeLang.Proofs.Pieces
import TapeLang.Proofs.StreamCalls
import TapeLang.Proofs.Flushing
import TapeLang.Proofs.HighestCell
import TapeLang.Proofs.Nodes
import TapeLang.Proofs.Optimizer.StoreRemoval
import TapeLang.Proofs.Optimizer.Confluence
import TapeLang.Proofs.Optimizer.LeftToRight
import TapeLang.Proofs.Optimizer.NormalForm
import TapeLang.Proofs.Optimizer.SecondRuns
import TapeLang.Proofs.TapeHistory
import TapeLang.Proofs.Optimizer.TapeNeed
import TapeLang.Proofs.NetShift
import TapeLang.Proofs.Optimizer.PassCalls
import TapeLang.Proofs.Optimizer.FirstRound
import TapeLang.Proofs.Optimizer.Accounting
import TapeLang.Proofs.Source.Positions
import TapeLang.Proofs.Source.Caret
import TapeLang.Proofs.Source.Colours

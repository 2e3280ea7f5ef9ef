import Comet.Main
import Comet.Cli.Session
import Comet.Proofs.Machine.Replay
import Comet.Proofs.Machine.Limit
import Comet.Proofs.Layout.Acceptance
import Comet.Proofs.Program.Simulation
import Comet.Proofs.Machine.InPlace
import Comet.Proofs.Machine.History
import Comet.Proofs.Machine.Stack
import Comet.Proofs.Machine.AddressSpace
import Comet.Proofs.Source.Quoting
import Comet.Proofs.Source.OperandText
import Comet.Proofs.Source.OperandLanguages
import Comet.Proofs.Text.Printable
import Comet.Proofs.Source.StatementText
import Comet.Proofs.Source.Lines
import Comet.Proofs.Source.Core
import Comet.Proofs.Image.ObjectFile
import Comet.Proofs.Layout.Labels
import Comet.Proofs.Layout.ErrorPositions
import Comet.Proofs.Cli.Directory
import Comet.Proofs.Cli.CompiledRun
import Comet.Proofs.Layout.Stopping
import Comet.Proofs.Source.Alike
import Comet.Proofs.Layout.Alike
import Comet.Proofs.Program.Relayout
import Comet.Proofs.Program.SourceColumn
import Comet.Proofs.Machine.FaultConditions
import Comet.Proofs.Layout.ResolutionOrder
import Comet.Proofs.Machine.Tracing
import Comet.Proofs.Cli.TraceOption
import Comet.Proofs.Cli.TracedRun
import Comet.Proofs.Cli.Extension
import Comet.Proofs.Cli.SourceCommands
import Comet.Proofs.Machine.IntegerArithmetic
import Comet.Proofs.Machine.Branches
import Comet.Proofs.Machine.SupervisorCalls
import Comet.Proofs.Layout.Substitution
import Comet.Proofs.Display.RegisterTable
import Comet.Proofs.Source.Slicing
import Comet.Proofs.Layout.Indexing

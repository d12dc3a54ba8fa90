import ActorOwnership.Catalog
import ActorOwnership.Collections
import ActorOwnership.Command.Arguments
import ActorOwnership.Command.Frontend
import ActorOwnership.Command.Run
import ActorOwnership.Command.Settings
import ActorOwnership.Expression
import ActorOwnership.Files.Glob
import ActorOwnership.Files.Path
import ActorOwnership.Files.Pattern
import ActorOwnership.Files.Tree
import ActorOwnership.Flow.Basic
import ActorOwnership.Flow.Context
import ActorOwnership.Flow.Effect
import ActorOwnership.Flow.Origin
import ActorOwnership.Flow.Reaching
import ActorOwnership.Flow.Saturation
import ActorOwnership.Flow.Scope
import ActorOwnership.Instruction
import ActorOwnership.Library
import ActorOwnership.Location
import ActorOwnership.Lowering.Operand
import ActorOwnership.Lowering.State
import ActorOwnership.Lowering.Statement
import ActorOwnership.Main
import ActorOwnership.Number.Binary64
import ActorOwnership.Number.Decimal
import ActorOwnership.Ownership.Liveness
import ActorOwnership.Ownership.Point
import ActorOwnership.Ownership.Session
import ActorOwnership.Ownership.Slice
import ActorOwnership.Ownership.Sweep
import ActorOwnership.Ownership.Trace
import ActorOwnership.Ownership.Violation
import ActorOwnership.Procedure.Basic
import ActorOwnership.Procedure.Traversal
import ActorOwnership.Program
import ActorOwnership.Program.OfSource
import ActorOwnership.Proofs.Activation
import ActorOwnership.Proofs.Discovery
import ActorOwnership.Proofs.Explore
import ActorOwnership.Proofs.Growth
import ActorOwnership.Proofs.HandOff
import ActorOwnership.Proofs.Origin
import ActorOwnership.Proofs.Reaching
import ActorOwnership.Proofs.Request
import ActorOwnership.Proofs.Slice
import ActorOwnership.Proofs.Steady
import ActorOwnership.Proofs.Sweep
import ActorOwnership.Proofs.Tags
import ActorOwnership.Proofs.Walk
import ActorOwnership.Report.Document
import ActorOwnership.Report.Json
import ActorOwnership.Report.Sarif
import ActorOwnership.Report.Text
import ActorOwnership.Scan.Analysis
import ActorOwnership.Scan.Directory
import ActorOwnership.Scan.Finding
import ActorOwnership.Scan.OfText
import ActorOwnership.Summary.Basic
import ActorOwnership.Summary.Table
import ActorOwnership.Surface.Basic
import ActorOwnership.Surface.OperandOfTree
import ActorOwnership.Surface.StatementOfTree
import ActorOwnership.Symbol
import ActorOwnership.Syntax.Grammar.Basic
import ActorOwnership.Syntax.Grammar.Expression
import ActorOwnership.Syntax.Grammar.Operator
import ActorOwnership.Syntax.Grammar.Statement
import ActorOwnership.Syntax.Kind
import ActorOwnership.Syntax.Lexer
import ActorOwnership.Syntax.Parse
import ActorOwnership.Syntax.Token
import ActorOwnership.Syntax.Tree
import ActorOwnership.Text.Blank
import ActorOwnership.Text.Digit
import ActorOwnership.Text.Integer
import ActorOwnership.Text.Printable
import ActorOwnership.Text.Quoted
import ActorOwnership.Text.Utf8
import ActorOwnership.Proofs.Chain
import ActorOwnership.Proofs.Justified
import ActorOwnership.Proofs.Liveness
import ActorOwnership.Proofs.Order
import ActorOwnership.Proofs.Paths
import ActorOwnership.Proofs.Extension
import ActorOwnership.Proofs.Nodes
import ActorOwnership.Proofs.Occurrence
import ActorOwnership.Proofs.Final
import ActorOwnership.Proofs.Handler
import ActorOwnership.Proofs.Hoisting
import ActorOwnership.Proofs.CallNodes
import ActorOwnership.Proofs.HandOffNodes
import ActorOwnership.Proofs.Result
import ActorOwnership.Proofs.Exposure
import ActorOwnership.Proofs.GivenUp
import ActorOwnership.Proofs.Frame
import ActorOwnership.Proofs.Unrelated
import ActorOwnership.Proofs.Similar
import ActorOwnership.Proofs.Reordering
import ActorOwnership.Proofs.Arrival
import ActorOwnership.Proofs.Derivation
import ActorOwnership.Proofs.FilePath
import ActorOwnership.Proofs.ReadBeforeReset
import ActorOwnership.Proofs.Glob
import ActorOwnership.Proofs.Directory
import ActorOwnership.Proofs.Visits
import ActorOwnership.Proofs.Regular
import ActorOwnership.Proofs.WellFormed
import ActorOwnership.Proofs.FunctionNodes
import ActorOwnership.Proofs.TreeGraph
import ActorOwnership.Proofs.TreeRuns
import ActorOwnership.Proofs.Reads
import ActorOwnership.Proofs.Simultaneous
import ActorOwnership.Proofs.Mutation
import ActorOwnership.Proofs.Entry
import ActorOwnership.Proofs.LibraryCall
import ActorOwnership.Proofs.Termination
import ActorOwnership.Proofs.Traversal
import ActorOwnership.Proofs.Header
import ActorOwnership.Proofs.MoreEdges
import ActorOwnership.Proofs.Findings
import ActorOwnership.Proofs.SarifReport
import ActorOwnership.Proofs.EntryValue
import ActorOwnership.Proofs.Variables
import ActorOwnership.Proofs.Temporaries

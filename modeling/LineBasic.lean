import LineBasic.Ascending
import LineBasic.Builtin
import LineBasic.Check
import LineBasic.Check.Analysis
import LineBasic.Check.Analyst
import LineBasic.Code.Constant
import LineBasic.Code.Instr
import LineBasic.Code.Label
import LineBasic.Code.Module
import LineBasic.CommandLine.Arguments
import LineBasic.CommandLine.Directory
import LineBasic.CommandLine.Location
import LineBasic.CommandLine.Run
import LineBasic.CommandLine.Terminal
import LineBasic.Compile
import LineBasic.Decimal
import LineBasic.Decimal.Binary64
import LineBasic.Decimal.Shortest
import LineBasic.Desk
import LineBasic.Desk.Check
import LineBasic.Desk.Job
import LineBasic.Desk.Lower
import LineBasic.Desk.Read
import LineBasic.Desk.Scan
import LineBasic.Diagnostic
import LineBasic.Expr
import LineBasic.Expr.Reader
import LineBasic.Inventory
import LineBasic.Journal
import LineBasic.Lowering
import LineBasic.Lowering.Expr
import LineBasic.Lowering.Program
import LineBasic.Lowering.Stmt
import LineBasic.Main
import LineBasic.Numeral
import LineBasic.Numeral.Layout
import LineBasic.Position
import LineBasic.Program
import LineBasic.Program.Reader
import LineBasic.Proofs.Acceptance
import LineBasic.Proofs.BenchSteps
import LineBasic.Proofs.BenchWork
import LineBasic.Proofs.CheckFindings
import LineBasic.Proofs.CheckItems
import LineBasic.Proofs.CheckJournal
import LineBasic.Proofs.ClosedModules
import LineBasic.Proofs.CodeLayout
import LineBasic.Proofs.CodeMachine
import LineBasic.Proofs.Collection
import LineBasic.Proofs.CommandRuns
import LineBasic.Proofs.Completion
import LineBasic.Proofs.ConstantCode
import LineBasic.Proofs.Constants
import LineBasic.Proofs.ControlFlow
import LineBasic.Proofs.Derivation
import LineBasic.Proofs.DeskWork
import LineBasic.Proofs.Directories
import LineBasic.Proofs.Dissection
import LineBasic.Proofs.DistinctLabels
import LineBasic.Proofs.DoubleArithmetic
import LineBasic.Proofs.Doubles
import LineBasic.Proofs.Draws
import LineBasic.Proofs.ExactDecimals
import LineBasic.Proofs.ExactReading
import LineBasic.Proofs.ExpressionCode
import LineBasic.Proofs.Faults
import LineBasic.Proofs.Flow
import LineBasic.Proofs.FoldedValues
import LineBasic.Proofs.Grammar
import LineBasic.Proofs.Hosts
import LineBasic.Proofs.InstrText
import LineBasic.Proofs.Jobs
import LineBasic.Proofs.LabelText
import LineBasic.Proofs.LetterCase
import LineBasic.Proofs.LineMachine
import LineBasic.Proofs.LineOrder
import LineBasic.Proofs.Listing
import LineBasic.Proofs.Literals
import LineBasic.Proofs.Lookahead
import LineBasic.Proofs.Making
import LineBasic.Proofs.Meaning
import LineBasic.Proofs.ModuleLines
import LineBasic.Proofs.NearestDoubles
import LineBasic.Proofs.NormalForms
import LineBasic.Proofs.Numerals
import LineBasic.Proofs.Pipeline
import LineBasic.Proofs.Recursion
import LineBasic.Proofs.Refinement
import LineBasic.Proofs.Regions
import LineBasic.Proofs.Rendering
import LineBasic.Proofs.Resumption
import LineBasic.Proofs.Rounding
import LineBasic.Proofs.ScanFaults
import LineBasic.Proofs.Segments
import LineBasic.Proofs.Simplification
import LineBasic.Proofs.SimplifiedCode
import LineBasic.Proofs.SimplifiedRun
import LineBasic.Proofs.SingleAssignment
import LineBasic.Proofs.Splicing
import LineBasic.Proofs.StraightCode
import LineBasic.Proofs.StraightLayout
import LineBasic.Proofs.Strictness
import LineBasic.Proofs.TextOperands
import LineBasic.Proofs.TextPieces
import LineBasic.Proofs.TokenRecords
import LineBasic.Proofs.Tracking
import LineBasic.Proofs.Transcripts
import LineBasic.Proofs.Typing
import LineBasic.Proofs.WellFormedness
import LineBasic.Proofs.Words
import LineBasic.Quoted
import LineBasic.Reading
import LineBasic.Scopes
import LineBasic.Simplify
import LineBasic.Token
import LineBasic.Token.Scan
import LineBasic.Traced

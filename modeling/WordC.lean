import WordC.Main
import WordC.Proofs.Lowering.Emitter
import WordC.Proofs.Lowering.Expr
import WordC.Proofs.Machine.Run
import WordC.Proofs.Semantics.Expr
import WordC.Proofs.Simulation.Expr
import WordC.Proofs.Labels.Expr
import WordC.Proofs.Labels.Layout
import WordC.Proofs.Labels.Program
import WordC.Proofs.Semantics.Stmt
import WordC.Proofs.Simulation.Stmt
import WordC.Proofs.Source.Ensures
import WordC.Proofs.Source.Grammar
import WordC.Proofs.Text.Listing
import WordC.Proofs.Text.Program
import WordC.Proofs.Parser.Levels
import WordC.Proofs.Parser.Steady
import WordC.Proofs.Parser.Append
import WordC.Proofs.Grammar.Rules
import WordC.Proofs.Grammar.Expr
import WordC.Proofs.Grammar.Stmt
import WordC.Proofs.Machine.Stack
import WordC.Proofs.Simulation.Calls
import WordC.Proofs.Frame.Expr
import WordC.Proofs.Lowering.Visits
import WordC.Proofs.Stores.Expr
import WordC.Proofs.Stores.Session
import WordC.Proofs.Frame.Session
import WordC.Proofs.Frame.Layout
import WordC.Proofs.WellFormed.Rules
import WordC.Proofs.WellFormed.Expr
import WordC.Proofs.WellFormed.Stmt
import WordC.Proofs.WellFormed.Order
import WordC.Proofs.WellFormed.Program
import WordC.Proofs.Scan.Pieces
import WordC.Proofs.Scan.Layout
import WordC.Proofs.Scan.Lines
import WordC.Proofs.Scan.Spacing
import WordC.Proofs.Scan.Numerals
import WordC.Proofs.Diagnostics.Parser
import WordC.Proofs.Diagnostics.Places
import WordC.Proofs.Diagnostics.Lowering
import WordC.Proofs.Diagnostics.Report
import WordC.Proofs.Printer.Expr
import WordC.Proofs.Printer.Program
import WordC.Proofs.Machine.Pointer
import WordC.Proofs.Lowering.Calls
import WordC.Proofs.Simulation.Arguments
import WordC.Proofs.Command.Observers
import WordC.Proofs.Layout.Lowering
import WordC.Proofs.Registers.Discipline
import WordC.Proofs.Registers.Need
import WordC.Proofs.Grammar.Shape
import WordC.Proofs.Simulation.Cleanup
import WordC.Proofs.Depth.Lines
import WordC.Proofs.Labels.Owners
import WordC.Proofs.Depth.Expr
import WordC.Proofs.Depth.Stmt
import WordC.Proofs.Depth.Boundaries
import WordC.Proofs.Depth.Program
import WordC.Proofs.SymbolTable.Runs
import WordC.Proofs.Lowering.Scopes
import WordC.Proofs.Stores.Constants
import WordC.Proofs.Progress.Script
import WordC.Proofs.Progress.Descent
import WordC.Proofs.Progress.Routine
import WordC.Proofs.Progress.Program

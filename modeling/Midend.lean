import Midend.Analysis
import Midend.Body.Basic
import Midend.Body.Builder
import Midend.Body.Validate
import Midend.Body.Visit
import Midend.Decimal.Layout
import Midend.Decimal.Numeral
import Midend.Decimal.Shortest
import Midend.Diagnostic.Basic
import Midend.Diagnostic.Draft
import Midend.Diagnostic.Render
import Midend.Diagnostic.Reporter
import Midend.Effect.Basic
import Midend.Effect.Propagation
import Midend.Effect.Signature
import Midend.Eval.Context
import Midend.Eval.Expr
import Midend.Eval.Report
import Midend.Eval.State
import Midend.Eval.Stmt
import Midend.Floating.Arithmetic
import Midend.Floating.Format
import Midend.Fold.Edit
import Midend.Fold.Fixpoint
import Midend.IdMap
import Midend.IdSet
import Midend.Invariant
import Midend.Liveness.Accumulate
import Midend.Liveness.Info
import Midend.Liveness.Kills
import Midend.Liveness.Transfer
import Midend.Operator
import Midend.Options.Basic
import Midend.Options.Choice
import Midend.Options.CommandLine
import Midend.Span
import Midend.Text.Escape
import Midend.Text.Number
import Midend.Text.Piece
import Midend.Text.Terminal
import Midend.Tree.Callee
import Midend.Tree.Equality
import Midend.Tree.Expr
import Midend.Tree.Print
import Midend.Tree.Role
import Midend.Tree.Stmt
import Midend.Tree.Typing
import Midend.Tree.Visit
import Midend.Ty
import Midend.Value.Basic
import Midend.Value.Fault
import Midend.Value.Literal
import Midend.Value.Numeric
import Midend.Value.Operators
import Midend.Proofs.Liveness.Needs
import Midend.Proofs.Liveness.Pointwise
import Midend.Proofs.Liveness.Transfer
import Midend.Proofs.Body.Shape
import Midend.Proofs.Liveness.Soundness
import Midend.Proofs.Machine.Basic
import Midend.Proofs.Run.Keeps
import Midend.Proofs.Machine.Keeps
import Midend.Proofs.Eval.Closed
import Midend.Proofs.Eval.Frame
import Midend.Proofs.Eval.Alike
import Midend.Proofs.Eval.Simulation
import Midend.Proofs.Eval.Values
import Midend.Proofs.Eval.Arrival
import Midend.Proofs.Eval.Follows
import Midend.Proofs.Eval.Soundness
import Midend.Proofs.Eval.Continue
import Midend.Proofs.Eval.Labels
import Midend.Proofs.Effect.Recorded
import Midend.Proofs.Effect.Cover
import Midend.Proofs.Effect.Steady
import Midend.Proofs.Tree.Bare
import Midend.Proofs.Invariant.Soundness
import Midend.Proofs.Eval.Monotone
import Midend.Proofs.Eval.Typed
import Midend.Proofs.Tree.Operand
import Midend.Proofs.Tree.Subst
import Midend.Proofs.Body.Trees
import Midend.Proofs.Body.Fault
import Midend.Proofs.Effect.Performed
import Midend.Proofs.Fold.Apply
import Midend.Proofs.Fold.Collected
import Midend.Proofs.Fold.Replaced
import Midend.Proofs.Fold.Rounds
import Midend.Proofs.Fold.Effects
import Midend.Proofs.Fold.Types
import Midend.Proofs.Fold.Liveness
import Midend.Proofs.Value.Typed
import Midend.Proofs.Liveness.Heads
import Midend.Proofs.Liveness.Exhibits
import Midend.Proofs.Liveness.Exactness
import Midend.Proofs.Liveness.Unwritten
import Midend.Proofs.Liveness.Definite
import Midend.Proofs.Eval.Reports
import Midend.Proofs.Analysis.Errors
import Midend.Proofs.Analysis.Mended
import Midend.Proofs.Analysis.Erroneous
import Midend.Proofs.Analysis.Threaded
import Midend.Proofs.Eval.Discipline
import Midend.Proofs.Effect.Evaluation
import Midend.Proofs.Effect.Monotone
import Midend.Proofs.Eval.WellTyped
import Midend.Proofs.Diagnostic.Accounts
import Midend.Proofs.Diagnostic.Hashed
import Midend.Proofs.Body.SingleParent
import Midend.Proofs.Fold.Termination
import Midend.Proofs.Eval.Untouched
import Midend.Proofs.Eval.Course
import Midend.Proofs.Eval.Tracks
import Midend.Proofs.Eval.Walked
import Midend.Proofs.Eval.Division
import Midend.Proofs.Effect.Parents
import Midend.Proofs.Body.Roles
import Midend.Proofs.Tree.Parts
import Midend.Proofs.Invariant.Groups
import Midend.Proofs.Invariant.Maximal
import Midend.Proofs.Invariant.Order
import Midend.Proofs.Liveness.Jumps
import Midend.Proofs.Liveness.Targets
import Midend.Proofs.Value.Words
import Midend.Proofs.Value.Integers
import Midend.Proofs.Eval.NarrowLocals
import Midend.WordSet
import Midend.Proofs.Sets.Words
import Midend.Proofs.Sets.Calls
import Midend.Tree.Hash
import Midend.Proofs.Tree.Equality
import Midend.Proofs.Body.Equality
import Midend.Proofs.Value.Concat
import Midend.Proofs.Liveness.Accounted
import Midend.Proofs.Liveness.Ever
import Midend.Proofs.Liveness.Accumulated
import Midend.Proofs.Print.Reading
import Midend.Proofs.Print.Unambiguous
import Midend.Proofs.Print.Nesting
import Midend.Proofs.Print.Statements
import Midend.Proofs.Print.DanglingElse
import Midend.Proofs.Eval.Reuse
import Midend.Proofs.Text.Quoted
import Midend.Proofs.Eval.Evaluator
import Midend.Proofs.Eval.Restored
import Midend.Proofs.Eval.Joins
import Midend.Proofs.Tree.Slots
import Midend.Proofs.Body.Visits

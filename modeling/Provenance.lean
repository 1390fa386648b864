import Provenance.Calendar
import Provenance.CommandLine
import Provenance.Eval.Bind
import Provenance.Eval.Call
import Provenance.Eval.Evaluate
import Provenance.Eval.Fault
import Provenance.Eval.Operate
import Provenance.Eval.Session
import Provenance.Expr.Basic
import Provenance.Expr.Build
import Provenance.Expr.Outline
import Provenance.Expr.Substitute
import Provenance.Glob
import Provenance.Graph
import Provenance.Guard.Access
import Provenance.Guard.Formula
import Provenance.Interchange
import Provenance.Json.Basic
import Provenance.Json.Reader
import Provenance.Json.Token
import Provenance.Json.Writer
import Provenance.Library
import Provenance.Main
import Provenance.Number.Binary64
import Provenance.Number.Shortest
import Provenance.Operator
import Provenance.Path.Automaton
import Provenance.Path.Result
import Provenance.Path.Segment
import Provenance.Path.Walk
import Provenance.Prepare.IndexScan
import Provenance.Prepare.Node
import Provenance.Prepare.Simplify
import Provenance.Proofs.Eval.Budget
import Provenance.Proofs.Eval.CarryOver
import Provenance.Proofs.Eval.Coincidence
import Provenance.Proofs.Eval.Congruence
import Provenance.Proofs.Eval.Counting
import Provenance.Proofs.Eval.Ensures
import Provenance.Proofs.Eval.Faults
import Provenance.Proofs.Eval.Filing
import Provenance.Proofs.Eval.Finishing
import Provenance.Proofs.Eval.Gather
import Provenance.Proofs.Eval.Gives
import Provenance.Proofs.Eval.Indentation
import Provenance.Proofs.Eval.Isolation
import Provenance.Proofs.Eval.Mirrors
import Provenance.Proofs.Eval.NoClosure
import Provenance.Proofs.Eval.Rescoped
import Provenance.Proofs.Eval.Respect
import Provenance.Proofs.Eval.Restores
import Provenance.Proofs.Eval.Situated
import Provenance.Proofs.Eval.Sustained
import Provenance.Proofs.Eval.Turns
import Provenance.Proofs.Eval.Unchecked
import Provenance.Proofs.Eval.Uniform
import Provenance.Proofs.Eval.Untraced
import Provenance.Proofs.Eval.Upheld
import Provenance.Proofs.Eval.Yields
import Provenance.Proofs.Expr.Parts
import Provenance.Proofs.Expr.Supply
import Provenance.Proofs.Glob.Expression
import Provenance.Proofs.Glob.Reading
import Provenance.Proofs.Glob.Splits
import Provenance.Proofs.Graph.History
import Provenance.Proofs.Graph.Lookup
import Provenance.Proofs.Graph.Stored
import Provenance.Proofs.Guard.AccessSound
import Provenance.Proofs.Guard.Clauses
import Provenance.Proofs.Guard.Convergence
import Provenance.Proofs.Guard.Coverage
import Provenance.Proofs.Guard.Fetch
import Provenance.Proofs.Guard.Finds
import Provenance.Proofs.Guard.NormalForm
import Provenance.Proofs.Guard.Reading
import Provenance.Proofs.Number.Rounding
import Provenance.Proofs.Path.Assignment
import Provenance.Proofs.Path.Denotation
import Provenance.Proofs.Path.Ending
import Provenance.Proofs.Path.Evaluation
import Provenance.Proofs.Path.Extraction
import Provenance.Proofs.Path.Generations
import Provenance.Proofs.Path.Match
import Provenance.Proofs.Path.Onward
import Provenance.Proofs.Path.Reversal
import Provenance.Proofs.Path.Skipping
import Provenance.Proofs.Path.Tests
import Provenance.Proofs.Prepare.Arithmetic
import Provenance.Proofs.Prepare.Domains
import Provenance.Proofs.Prepare.Inlining
import Provenance.Proofs.Prepare.Intact
import Provenance.Proofs.Prepare.LetCount
import Provenance.Proofs.Prepare.Levels
import Provenance.Proofs.Prepare.LoopSound
import Provenance.Proofs.Prepare.Removal
import Provenance.Proofs.Prepare.Replaces
import Provenance.Proofs.Prepare.RuleClosed
import Provenance.Proofs.Prepare.Rules
import Provenance.Proofs.Prepare.ScanRules
import Provenance.Proofs.Prepare.ScanSound
import Provenance.Proofs.Prepare.Scoping
import Provenance.Proofs.Prepare.Settled
import Provenance.Proofs.Prepare.SimplifySound
import Provenance.Proofs.Prepare.Stable
import Provenance.Proofs.Prepare.Stands
import Provenance.Proofs.Prepare.Substitution
import Provenance.Proofs.Prepare.Tidy
import Provenance.Proofs.Prepare.Valueless
import Provenance.Proofs.Prepare.Visits
import Provenance.Proofs.Prepare.Whole
import Provenance.Proofs.Report.Lines
import Provenance.Proofs.Report.Links
import Provenance.Proofs.Report.Rows
import Provenance.Proofs.Report.Unordered
import Provenance.Proofs.Text.Unquoting
import Provenance.Proofs.Value.Closures
import Provenance.Proofs.Value.Domain
import Provenance.Proofs.Value.Everywhere
import Provenance.Proofs.Value.ObjectLists
import Provenance.Proofs.Value.Order
import Provenance.Proofs.Value.Ordering
import Provenance.Proofs.Value.Runs
import Provenance.Proofs.Value.SetOperations
import Provenance.Proofs.Value.Sorting
import Provenance.Proofs.Value.Tagged
import Provenance.Proofs.Value.Uniform
import Provenance.Query
import Provenance.Regex
import Provenance.Report.Answer
import Provenance.Report.TupleTree
import Provenance.Scope
import Provenance.Term
import Provenance.Text.Join
import Provenance.Text.Outline
import Provenance.Text.Quoted
import Provenance.Value.Basic
import Provenance.Value.Members
import Provenance.Value.Order

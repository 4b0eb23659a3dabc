import Sato.Foundation.Decimal
import Sato.Foundation.Regex
import Sato.Foundation.Scan
import Sato.Foundation.Words
import Sato.Foundation.Cnf
import Sato.Foundation.Interval
import Sato.Foundation.Text
import Sato.Foundation.Result
import Sato.Foundation.Grouping
import Sato.Foundation.SignedRow
import Sato.Foundation.Enumeration
import Sato.Foundation.Choice
import Sato.Foundation.Interleaving
import Sato.Foundation.Entailment
import Sato.Foundation.Levels
import Sato.Foundation.Marks
import Sato.Foundation.Number
import Sato.Foundation.Compare
import Sato.Source.ComparisonBase
import Sato.Source.IntegerVariable
import Sato.Source.PrimitiveComparison
import Sato.Source.LinearTerm
import Sato.Source.Inequation
import Sato.Source.CSP
import Sato.Source.Script
import Sato.Source.SAT
import Sato.Source.Encoder
import Sato.Source.Dimacs
import Sato.Source.Solver
import Sato.Source.Machine
import Sato.Semantics
import Sato.Encoding.Combinations
import Sato.Encoding.Coefficient
import Sato.Encoding.Proposition
import Sato.Encoding.Order
import Sato.Encoding.Clauses
import Sato.Encoding.Correctness
import Sato.Dimacs.Export
import Sato.Dimacs.Decode
import Sato.Dimacs.File
import Sato.Dimacs.Search
import Sato.Dimacs.Verdict
import Sato.Parsing.Relation
import Sato.Parsing.Distribution
import Sato.Parsing.Forms
import Sato.Parsing.Summands
import Sato.Parsing.Terms
import Sato.Parsing.Literal
import Sato.Parsing.Expression
import Sato.Parsing.Grammar
import Sato.Parsing.CommandLine
import Sato.Parsing.Acceptance
import Sato.Parsing.Cancellation
import Sato.Parsing.Overflow
import Sato.Parsing.Negation
import Sato.Parsing.Interleaving
import Sato.Parsing.Meaning
import Sato.Parsing.Zero
import Sato.Parsing.Regular
import Sato.Script.Groups
import Sato.Script.Options
import Sato.Script.Verdict
import Sato.Source.Glucose.Solver
import Sato.Source.Glucose.Propagate
import Sato.Source.Glucose.Analyze
import Sato.Source.Glucose.Search
import Sato.Glucose.Trail
import Sato.Glucose.Invariant
import Sato.Glucose.Propagate
import Sato.Glucose.Analyze
import Sato.Glucose.Minimise
import Sato.Glucose.Learnt
import Sato.Glucose.Clauses
import Sato.Glucose.Removal
import Sato.Glucose.Search
import Sato.Glucose.AddClause
import Sato.Glucose.NewVar
import Sato.Glucose.Solve
import Sato.Glucose.Runs

import ProgramGraph.Lowering.Session
import ProgramGraph.Main
import ProgramGraph.Proofs.Versions
import ProgramGraph.Proofs.Computation
import ProgramGraph.Proofs.Names
import ProgramGraph.Proofs.Layout
import ProgramGraph.Proofs.Operands
import ProgramGraph.Proofs.Ascending
import ProgramGraph.Proofs.Follows.Assignment
import ProgramGraph.Proofs.Follows.Block
import ProgramGraph.Proofs.TopLevel
import ProgramGraph.Proofs.Lines.Trees
import ProgramGraph.Proofs.Lines.Statements
import ProgramGraph.Proofs.Lines.Programs
import ProgramGraph.Proofs.Program
import ProgramGraph.Proofs.Plates
import ProgramGraph.Proofs.SingleAssignment
import ProgramGraph.Proofs.Isolation
import ProgramGraph.Proofs.Dominance
import ProgramGraph.Proofs.Meaning.Evaluation
import ProgramGraph.Proofs.Meaning.Preservation
import ProgramGraph.Proofs.Nearest
import ProgramGraph.Proofs.Validity.RoundTrip
import ProgramGraph.Proofs.Validity.Admissible
import ProgramGraph.Proofs.Validity.Operands
import ProgramGraph.Proofs.Validity.Statements
import ProgramGraph.Proofs.Validity.Blocks
import ProgramGraph.Proofs.Validity.Reading
import ProgramGraph.Proofs.Validity.Closure
import ProgramGraph.Proofs.Validity.Document
import ProgramGraph.Proofs.Retention
import ProgramGraph.Proofs.LoopInputs
import ProgramGraph.Proofs.Decisions
import ProgramGraph.Proofs.Literals.Rounding
import ProgramGraph.Proofs.Literals.Powers
import ProgramGraph.Proofs.Literals.Digits
import ProgramGraph.Proofs.Literals.Values
import ProgramGraph.Proofs.Literals.Ordering
import ProgramGraph.Proofs.Literals.Denotes
import ProgramGraph.Proofs.Literals.Grid
import ProgramGraph.Proofs.Literals.Division
import ProgramGraph.Proofs.Literals.Folding
import ProgramGraph.Proofs.Literals.Flattening
import ProgramGraph.Proofs.Literals.Arithmetic
import ProgramGraph.Proofs.Literals.Payloads
import ProgramGraph.Proofs.Literals.Recorded
import ProgramGraph.Proofs.Outputs
import ProgramGraph.Proofs.Naming
import ProgramGraph.Proofs.Lambdas
import ProgramGraph.Proofs.Conditions.Accounts
import ProgramGraph.Proofs.Conditions.Merged
import ProgramGraph.Proofs.Conditions.Accounted
import ProgramGraph.Proofs.Conditions.Fresh
import ProgramGraph.Proofs.Spelling.Leaves
import ProgramGraph.Proofs.Spelling.Reader
import ProgramGraph.Proofs.Spelling.Recovery
import ProgramGraph.Proofs.Spelling.Unambiguous
import ProgramGraph.Proofs.Independence.Keys
import ProgramGraph.Proofs.Independence.Parallel
import ProgramGraph.Proofs.Independence.Blocks
import ProgramGraph.Proofs.Independence.Programs
import ProgramGraph.Proofs.Reading.Nodes
import ProgramGraph.Proofs.Reading.Definitions
import ProgramGraph.Proofs.Reading.Rendering
import ProgramGraph.Proofs.Reading.RoundTrip
import ProgramGraph.Proofs.Reading.Grammar
import ProgramGraph.Proofs.Reading.Misfits
import ProgramGraph.Proofs.Reading.Blame
import ProgramGraph.Proofs.Reading.Traversal
import ProgramGraph.Proofs.Reading.Modern
import ProgramGraph.Proofs.Reading.Alike
import ProgramGraph.Proofs.Reading.Older
import ProgramGraph.Proofs.Subset.Expressions
import ProgramGraph.Proofs.Subset.Programs
import ProgramGraph.Proofs.Supply.Operands
import ProgramGraph.Proofs.Supply.Records
import ProgramGraph.Proofs.Scopes.Seen
import ProgramGraph.Proofs.Scopes.Blocks
import ProgramGraph.Proofs.Scopes.Declared
import ProgramGraph.Proofs.Supply.Free
import ProgramGraph.Proofs.Supply.Closed
import ProgramGraph.Proofs.Merges.Kept
import ProgramGraph.Proofs.Merges.Decided
import ProgramGraph.Proofs.Merges.Complete
import ProgramGraph.Proofs.Literals.Integers
import ProgramGraph.Proofs.ReadOnly
import ProgramGraph.Proofs.Validity.Accepted
import ProgramGraph.Proofs.Validity.Externals
import ProgramGraph.Proofs.Validity.Verdict
import ProgramGraph.Proofs.Arguments
import ProgramGraph.Proofs.Encoding
import ProgramGraph.Proofs.Embedding
import ProgramGraph.Proofs.History
import ProgramGraph.Proofs.Occurrences
import ProgramGraph.Proofs.Views
import ProgramGraph.Proofs.Forks
import ProgramGraph.Proofs.Sessions

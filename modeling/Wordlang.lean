import Wordlang.Asm.Layout
import Wordlang.Asm.Live
import Wordlang.Asm.Machine
import Wordlang.Fact.Effect
import Wordlang.Fact.Exploration
import Wordlang.Fact.Order
import Wordlang.Main
import Wordlang.Scope.Operation
import Wordlang.Scope.Search
import Wordlang.Scope.WellFormed
import Wordlang.Semantics.Eval
import Wordlang.Tree.Grammar
import Wordlang.Proofs.Evaluation
import Wordlang.Proofs.Labels
import Wordlang.Proofs.Scopes
import Wordlang.Proofs.Searches
import Wordlang.Proofs.Tables
import Wordlang.Proofs.WellFormed
import Wordlang.Proofs.Acceptance
import Wordlang.Proofs.Frames
import Wordlang.Proofs.Calls
import Wordlang.Proofs.Uses
import Wordlang.Proofs.Layout
import Wordlang.Proofs.Statements
import Wordlang.Proofs.Correctness
import Wordlang.Proofs.Walks
import Wordlang.Proofs.Numbering
import Wordlang.Proofs.Propagation
import Wordlang.Proofs.Folding
import Wordlang.Proofs.Lexing
import Wordlang.Proofs.Reading
import Wordlang.Proofs.Spelling
import Wordlang.Proofs.Reading.Expr
import Wordlang.Proofs.Reading.Stmt
import Wordlang.Proofs.RoundTrip
import Wordlang.Proofs.Scanning
import Wordlang.Proofs.Following
import Wordlang.Proofs.Following.Parts
import Wordlang.Proofs.Following.Expr
import Wordlang.Proofs.Following.Stmt
import Wordlang.Proofs.Following.Program
import Wordlang.Proofs.Language
import Wordlang.Proofs.Bounds
import Wordlang.Proofs.Visits
import Wordlang.Proofs.Live
import Wordlang.Proofs.Explorations
import Wordlang.Proofs.Effects
import Wordlang.Fact.Listing
import Wordlang.Proofs.Monotonicity
import Wordlang.Proofs.Consistency
import Wordlang.Proofs.Collisions
import Wordlang.Token.Pieces
import Wordlang.Token.Operation
import Wordlang.Asm.Depth
import Wordlang.Proofs.Pieces
import Wordlang.Proofs.OnDemand
import Wordlang.Proofs.Lines
import Wordlang.Proofs.Spacing
import Wordlang.Proofs.Depths
import Wordlang.Proofs.Discipline
import Wordlang.Blocks
import Wordlang.Asm.Number
import Wordlang.Proofs.Jumps
import Wordlang.Proofs.Renumbering
import Wordlang.Proofs.Permutation
import Wordlang.Proofs.Numbers
import Wordlang.Proofs.Relocation
import Wordlang.Proofs.Expressions
import Wordlang.Asm.Comment
import Wordlang.Proofs.Plain
import Wordlang.Proofs.Comments
import Wordlang.Proofs.PrintedLines
import Wordlang.Proofs.Dumps
import Wordlang.Tree.Calls
import Wordlang.Tree.Descent
import Wordlang.Tree.Routine
import Wordlang.Proofs.Steps
import Wordlang.Proofs.Descents
import Wordlang.Proofs.Progress
import Wordlang.Proofs.Repeated
import Wordlang.Tree.Stand
import Wordlang.Proofs.Stands
import Wordlang.Proofs.IdOrder
import Wordlang.Proofs.Literals
import Wordlang.Tree.Rename
import Wordlang.Proofs.Renaming.Walks
import Wordlang.Proofs.Renaming.Code
import Wordlang.Proofs.Renaming
import Wordlang.Scope.Blame
import Wordlang.Proofs.Spans
import Wordlang.Proofs.Written
import Wordlang.Proofs.Misuses
import Wordlang.Proofs.Resolution

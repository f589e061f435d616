import WaccArm.Main
import WaccArm.Scope.Table
import WaccArm.Proofs.Checker.Scoping
import WaccArm.Proofs.Scalar.Statement
import WaccArm.Proofs.Stack.Balance
import WaccArm.Proofs.Stack.Steps
import WaccArm.Proofs.Typing.Rules
import WaccArm.Proofs.Typing.Expr
import WaccArm.Proofs.Typing.Program
import WaccArm.Proofs.Checker.Labels
import WaccArm.Proofs.Emission.Unique
import WaccArm.Proofs.Emission.Overloads
import WaccArm.Proofs.Variables.Points
import WaccArm.Proofs.Variables.Layout
import WaccArm.Proofs.Variables.Agreement
import WaccArm.Proofs.Variables.Program
import WaccArm.Proofs.Parser.Grammar
import WaccArm.Proofs.Parser.Stream
import WaccArm.Proofs.Parser.Type
import WaccArm.Proofs.Parser.Expr
import WaccArm.Proofs.Parser.Right
import WaccArm.Proofs.Parser.Stmt
import WaccArm.Proofs.Parser.Program
import WaccArm.Proofs.Machine.Calls
import WaccArm.Proofs.Registers.Expr
import WaccArm.Proofs.Typing.Calls
import WaccArm.Proofs.Registers.Arguments
import WaccArm.Proofs.Encoding.Expr
import WaccArm.Proofs.Encoding.Program
import WaccArm.Proofs.References.Semantics
import WaccArm.Proofs.References.Shapes
import WaccArm.Proofs.References.Stores
import WaccArm.Proofs.References.Safety
import WaccArm.Proofs.References.Operations
import WaccArm.Proofs.References.Expr
import WaccArm.Proofs.References.Stmt
import WaccArm.Proofs.References.Soundness
import WaccArm.Proofs.Positions.Tree
import WaccArm.Proofs.Positions.Parser
import WaccArm.Proofs.Positions.Checker
import WaccArm.Proofs.Lexer.Literals
import WaccArm.Proofs.Lexer.Reread
import WaccArm.Proofs.Positions.Compiler
import WaccArm.Proofs.Rendering.Text
import WaccArm.Proofs.Rendering.Spelling
import WaccArm.Proofs.Rendering.RoundTrip
import WaccArm.Proofs.Renaming.Tree
import WaccArm.Proofs.Renaming.Typing
import WaccArm.Proofs.Renaming.Emission
import WaccArm.Proofs.Reordering.Headers
import WaccArm.Proofs.Reordering.Labelling
import WaccArm.Proofs.Reordering.Program
import WaccArm.Proofs.Scope.History
import WaccArm.Proofs.CommandLine.Usage
import WaccArm.Proofs.Parser.Integers
import WaccArm.Proofs.Parser.Unbounded
import WaccArm.Proofs.Parser.Progress
import WaccArm.Proofs.Strings.Spelling
import WaccArm.Proofs.Strings.Checker
import WaccArm.Proofs.Strings.Emission
import WaccArm.Proofs.Literals.Size
import WaccArm.Proofs.Literals.Reach
import WaccArm.Proofs.Machine.Access
import WaccArm.Proofs.Arrays.Bounds
import WaccArm.Proofs.Arrays.Nest
import WaccArm.Proofs.Arrays.Address
import WaccArm.Proofs.Lexer.Lexeme
import WaccArm.Proofs.Lexer.Munch
import WaccArm.Proofs.Blame.Tracked
import WaccArm.Proofs.Blame.Type
import WaccArm.Proofs.Blame.Expr
import WaccArm.Proofs.Blame.Stmt
import WaccArm.Proofs.Blame.Program
import WaccArm.Proofs.Control.Runs
import WaccArm.Proofs.Control.Epilogue
import WaccArm.Proofs.Blocks.Elements
import WaccArm.Proofs.Blocks.Storing
import WaccArm.Proofs.Blocks.Constructors
import WaccArm.Proofs.Blocks.Reads
import WaccArm.Proofs.Blocks.RoundTrip
import WaccArm.Proofs.Rendering.Spaced
import WaccArm.Proofs.Types.Overloads
import WaccArm.Proofs.Types.Symmetry
import WaccArm.Proofs.Types.Expansion
import WaccArm.Proofs.Types.Normal
import WaccArm.Proofs.Types.Program
import WaccArm.Proofs.DataSection.Reader
import WaccArm.Proofs.Emission.Catalogue
import WaccArm.Proofs.Scope.Declarations
import WaccArm.Proofs.Scope.Resolution
import WaccArm.Proofs.DataSection.Interned

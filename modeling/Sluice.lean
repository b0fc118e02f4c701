import Sluice.Analysis
import Sluice.Bytecode.Codec
import Sluice.Bytecode.File
import Sluice.Bytecode.Layout
import Sluice.Bytes
import Sluice.Decimal.Binary
import Sluice.Decimal.Layout
import Sluice.Decimal.Reader
import Sluice.Decimal.Shortest
import Sluice.Expr
import Sluice.Expr.Parser
import Sluice.Expr.Postfix
import Sluice.Instruction
import Sluice.Journal
import Sluice.Lexeme
import Sluice.Lexeme.Scan
import Sluice.Library
import Sluice.Library.Standard
import Sluice.Machine
import Sluice.Pool
import Sluice.Problem
import Sluice.Program
import Sluice.Proofs.Arrangement
import Sluice.Proofs.AtomRendering
import Sluice.Proofs.Build
import Sluice.Proofs.Codecs
import Sluice.Proofs.CompiledTypes
import Sluice.Proofs.Defects
import Sluice.Proofs.Environments
import Sluice.Proofs.Execution
import Sluice.Proofs.Failures
import Sluice.Proofs.Files
import Sluice.Proofs.Floors
import Sluice.Proofs.ForeignCode
import Sluice.Proofs.Frames
import Sluice.Proofs.Grammar
import Sluice.Proofs.Interpretation
import Sluice.Proofs.Interpreter
import Sluice.Proofs.Invocations
import Sluice.Proofs.Isolation
import Sluice.Proofs.LexicalBinding
import Sluice.Proofs.Mistakes
import Sluice.Proofs.Occurrences
import Sluice.Proofs.Operations
import Sluice.Proofs.Overloads
import Sluice.Proofs.Patterns
import Sluice.Proofs.Phrases
import Sluice.Proofs.Pieces
import Sluice.Proofs.PipedCalls
import Sluice.Proofs.Pipes
import Sluice.Proofs.Placements
import Sluice.Proofs.Places
import Sluice.Proofs.Reading
import Sluice.Proofs.Realization
import Sluice.Proofs.Records
import Sluice.Proofs.Refinement
import Sluice.Proofs.Refusals
import Sluice.Proofs.Root
import Sluice.Proofs.Sizes
import Sluice.Proofs.StackLayout
import Sluice.Proofs.Steps
import Sluice.Proofs.Stores
import Sluice.Proofs.Translation
import Sluice.Proofs.Trees
import Sluice.Proofs.Types
import Sluice.Proofs.Typing
import Sluice.Proofs.Unlocated
import Sluice.Report
import Sluice.Scalar
import Sluice.Scopes
import Sluice.Source
import Sluice.Source.Compile
import Sluice.Store
import Sluice.Text.Digits
import Sluice.Text.Extending
import Sluice.Text.Printable
import Sluice.Text.Quoted
import Sluice.Text.Shapeless
import Sluice.Text.Utf8
import Sluice.Token
import Sluice.Ty.Atom
import Sluice.Ty.Basic
import Sluice.Ty.Matching
import Sluice.Ty.Outline
import Sluice.Ty.Skeleton
import Sluice.Ty.Tree
import Sluice.Value
import Sluice.Proofs.Registration
import Sluice.Proofs.Extension
import Sluice.Proofs.Nesting
import Sluice.Proofs.Arena
import Sluice.Proofs.Descent
import Sluice.Proofs.Wildcards
import Sluice.Proofs.Members
import Sluice.Proofs.Blocks
import Sluice.Proofs.Subexpressions
import Sluice.Proofs.Commas
import Sluice.Proofs.TypeTexts
import Sluice.Proofs.Rendering
import Sluice.Proofs.Lines
import Sluice.Proofs.Words
import Sluice.Proofs.Scanning
import Sluice.Proofs.Spacing
import Sluice.Proofs.Decoding
import Sluice.Proofs.Quotations
import Sluice.Proofs.Pointers
import Sluice.Proofs.Carets
import Sluice.Proofs.Wraparound
import Sluice.Proofs.Literals
import Sluice.Proofs.Powers

import Formula.Dictionary
import Formula.Error
import Formula.Expression
import Formula.Failure
import Formula.Number.Binary64
import Formula.Number.Layout
import Formula.Number.Numeral
import Formula.Number.Shortest
import Formula.Pattern.Basic
import Formula.Pattern.Catalogue
import Formula.Pattern.Language
import Formula.Pattern.Matcher
import Formula.Postfix
import Formula.Reader
import Formula.Routine
import Formula.Scalar.Arithmetic
import Formula.Scalar.Basic
import Formula.Scalar.Hook
import Formula.Table
import Formula.Text.Blank
import Formula.Text.Digit
import Formula.Text.Printable
import Formula.Text.Quoted
import Formula.Token.Basic
import Formula.Token.Lexer
import Formula.Token.Predefined
import Formula.Tree.Basic
import Formula.Tree.Evaluation
import Formula.Tree.OfPostfix
import Formula.Tree.Printer
import Formula.Tree.Work
import Formula.Workspace
import Formula.Proofs.Postorder
import Formula.Climbing
import Formula.Proofs.Moves
import Formula.Proofs.Hole
import Formula.Proofs.Shunting
import Formula.Proofs.Balance
import Formula.Proofs.Acceptance
import Formula.Proofs.Updates
import Formula.Proofs.Labels
import Formula.Proofs.Coverage
import Formula.Proofs.Literals
import Formula.Proofs.Rendering
import Formula.Proofs.Words
import Formula.Proofs.Printing
import Formula.Proofs.Reading
import Formula.Proofs.Rereading
import Formula.Proofs.RoundTrip
import Formula.Proofs.Legible
import Formula.Proofs.Rebuilding
import Formula.Proofs.Evaluating
import Formula.Proofs.StackMachine
import Formula.Proofs.Valuation
import Formula.Proofs.Regrouping
import Formula.Proofs.Totals
import Formula.Proofs.Tally
import Formula.Proofs.Fidelity
import Formula.Glossary
import Formula.Proofs.Glossary
import Formula.Proofs.Inorder
import Formula.Proofs.SourceOrder
import Formula.Proofs.Conservation
import Formula.Proofs.Positions
import Formula.Proofs.Neighbours
import Formula.Proofs.Breaks
import Formula.Proofs.Relocation
import Formula.Proofs.Spacing
import Formula.Proofs.Vocabulary
import Formula.Proofs.Composition
import Formula.Proofs.Parentheses
import Formula.Proofs.Relevance
import Formula.Proofs.Bindings
import Formula.Proofs.Demand
import Formula.Proofs.Nesting
import Formula.Proofs.LongestLiteral
import Formula.Proofs.LongestLabel
import Formula.Proofs.Commutation
import Formula.Proofs.Constants
import Formula.Proofs.Spelling

import Frontend.Text.CharClass
import Frontend.Text.Unicode
import Frontend.Text.Escape
import Frontend.Source.Word
import Frontend.Source.Position
import Frontend.Source.Span
import Frontend.Source.File
import Frontend.Lexing.Lexeme
import Frontend.Lexing.Recognizer
import Frontend.Syntax.TypeExpr
import Frontend.Syntax.Exp
import Frontend.Syntax.Decl
import Frontend.Typing.Ty
import Frontend.Journal
import Frontend.Lexing.Match
import Frontend.Lexing.Stream
import Frontend.Lexing.Lexer
import Frontend.Lexing.Operators
import Frontend.Typing.Error
import Frontend.Typing.Env
import Frontend.Typing.Infer
import Frontend.Typing.Judgement
import Frontend.Typing.Bindings
import Frontend.Typing.Check
import Frontend.Report.Terminal
import Frontend.Report.Message
import Frontend.Report.Snippet
import Frontend.Report.Failure
import Frontend.Session
import Frontend.Proofs.Lexing.Calls
import Frontend.Proofs.Lexing.Attempt
import Frontend.Proofs.Lexing.MaximalMunch
import Frontend.Proofs.Lexing.Tiling
import Frontend.Proofs.Typing.Inference
import Frontend.Proofs.Typing.Arguments
import Frontend.Proofs.Typing.Currying
import Frontend.Proofs.Typing.Program
import Frontend.Proofs.Typing.FirstError
import Frontend.Proofs.Typing.Permutation
import Frontend.Proofs.Typing.Postorder
import Frontend.Proofs.Lexing.Discarding
import Frontend.Proofs.Lexing.Checking
import Frontend.Proofs.Lexing.Spacing
import Frontend.Proofs.Source.Excerpt
import Frontend.Proofs.Source.Windows
import Frontend.Proofs.Source.Truncation
import Frontend.Proofs.Source.Lines
import Frontend.Proofs.Source.Quoting
import Frontend.Proofs.Session.Accounting
import Frontend.Proofs.Report.Plain
import Frontend.Proofs.Report.Carets
import Frontend.Proofs.Lexing.Languages
import Frontend.Proofs.Lexing.Priority
import Frontend.Proofs.Lexing.Splitting
import Frontend.Proofs.Lexing.CommentLines
import Frontend.Proofs.Lexing.Touching
import Frontend.Proofs.Syntax.Printing
import Frontend.Proofs.Typing.Spine
import Frontend.Proofs.Typing.Substitution
import Frontend.Proofs.Typing.Weakening
import Frontend.Proofs.Typing.Congruence
import Frontend.Proofs.Typing.Renaming
import Frontend.Proofs.Typing.Application
import Frontend.Proofs.Typing.Shadowing
import Frontend.Proofs.Lexing.Reading
import Frontend.Proofs.Lexing.Lookahead
import Frontend.Proofs.Lexing.Slicing
import Frontend.Proofs.Lexing.TokenClasses
import Frontend.Proofs.Lexing.Unexpected
import Frontend.Proofs.Lexing.Filters
import Frontend.Proofs.Report.Ranges
import Frontend.Proofs.Report.Colours
import Frontend.Proofs.Syntax.Unambiguous
import Frontend.Proofs.Typing.Spelling
import Frontend.Proofs.Session.Records
import Frontend.Proofs.Session.Listing
import Frontend.Proofs.Typing.Indexing
import Frontend.Proofs.Lexing.DeadStates

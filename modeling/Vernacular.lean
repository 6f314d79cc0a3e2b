import Vernacular.Check.Walk
import Vernacular.Command.Outcome
import Vernacular.Compiler
import Vernacular.Execution
import Vernacular.Grammar.Program
import Vernacular.Main
import Vernacular.Proofs.Check.Enclosed
import Vernacular.Proofs.Check.Frame
import Vernacular.Proofs.Check.Resolution
import Vernacular.Proofs.Check.Scopes
import Vernacular.Proofs.Check.Spelling
import Vernacular.Proofs.Check.Verdict
import Vernacular.Proofs.Command.Dump
import Vernacular.Proofs.Grammar.Header
import Vernacular.Proofs.Grammar.Hint
import Vernacular.Proofs.Grammar.Lookahead
import Vernacular.Proofs.Grammar.Nesting
import Vernacular.Proofs.Grammar.Precedence
import Vernacular.Proofs.Grammar.Respelling
import Vernacular.Proofs.Grammar.Separators
import Vernacular.Proofs.Grammar.Session
import Vernacular.Proofs.Grammar.Spans
import Vernacular.Proofs.Grammar.Wording
import Vernacular.Proofs.Script.Balance
import Vernacular.Proofs.Script.Derivation
import Vernacular.Proofs.Script.Erased
import Vernacular.Proofs.Script.FixedPoint
import Vernacular.Proofs.Script.Headings
import Vernacular.Proofs.Script.Indentation
import Vernacular.Proofs.Script.Renaming
import Vernacular.Proofs.Token.Failure
import Vernacular.Proofs.Token.Lossless
import Vernacular.Proofs.Token.Place
import Vernacular.Proofs.Token.Respacing
import Vernacular.Script.Render
import Vernacular.Token.Scanner

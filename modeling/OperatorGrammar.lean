import OperatorGrammar.Main
import OperatorGrammar.Session
import OperatorGrammar.Grammar.Validation
import OperatorGrammar.Proofs.Precedence
import OperatorGrammar.Proofs.TokenOrder
import OperatorGrammar.Proofs.Unambiguity
import OperatorGrammar.Proofs.Bundled
import OperatorGrammar.Proofs.Arithmetic.Conventional
import OperatorGrammar.Proofs.Depth.Limit
import OperatorGrammar.Proofs.Scan.Source
import OperatorGrammar.Proofs.Scan.Places
import OperatorGrammar.Proofs.Spacing
import OperatorGrammar.Proofs.Term.Arity
import OperatorGrammar.Proofs.Term.Bundled
import OperatorGrammar.Proofs.Term.Truth
import OperatorGrammar.Proofs.Consistency
import OperatorGrammar.Proofs.Juxtaposition
import OperatorGrammar.Proofs.Scan.Parenthesized
import OperatorGrammar.Proofs.Parenthesized
import OperatorGrammar.Proofs.Scan.LetterCase
import OperatorGrammar.Proofs.TokenTree.LetterCase
import OperatorGrammar.Proofs.LetterCase
import OperatorGrammar.Proofs.Term.Outline
import OperatorGrammar.Proofs.Depth.Bound
import OperatorGrammar.Proofs.Arguments
import OperatorGrammar.Proofs.Command.Report
import OperatorGrammar.Proofs.Term.Strictness
import OperatorGrammar.Proofs.Term.Sorts
import OperatorGrammar.Proofs.Registration
import OperatorGrammar.Proofs.Scan.LongestMatch
import OperatorGrammar.Proofs.Aggregate
import OperatorGrammar.Proofs.DelimiterOrder
import OperatorGrammar.Proofs.Scan.WholeName
import OperatorGrammar.Proofs.Scan.Progress
import OperatorGrammar.Proofs.Row.Levels
import OperatorGrammar.Proofs.Depth.Tracked
import OperatorGrammar.Proofs.Number.Literal
import OperatorGrammar.Proofs.Session

import FullMatch.Main
import FullMatch.Nfa.Chain
import FullMatch.Proofs.Console.Report
import FullMatch.Proofs.Console.Session
import FullMatch.Proofs.Dfa.DeadEnd
import FullMatch.Proofs.Dfa.Exact
import FullMatch.Proofs.Dfa.Shortlex
import FullMatch.Proofs.Expr.Composition
import FullMatch.Proofs.Expr.Counts
import FullMatch.Proofs.Expr.Parentheses
import FullMatch.Proofs.Expr.Spine
import FullMatch.Proofs.Grammar.ClassSize
import FullMatch.Proofs.Grammar.Groups
import FullMatch.Proofs.Grammar.InStep
import FullMatch.Proofs.Grammar.Number
import FullMatch.Proofs.Length.Accepted
import FullMatch.Proofs.Length.Exact
import FullMatch.Proofs.Nfa.Closure
import FullMatch.Proofs.Nfa.Metering
import FullMatch.Proofs.Nfa.Position
import FullMatch.Proofs.Nfa.Shape
import FullMatch.Proofs.Regex.Report
import FullMatch.Proofs.Regex.Verdict
import FullMatch.Proofs.Token.Delimiter
import FullMatch.Proofs.Token.Lossless

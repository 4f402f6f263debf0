import Scriptlet.Main
import Scriptlet.Tree.Print
import Scriptlet.Proofs.Arena.Reachable
import Scriptlet.Proofs.Eval.Recycling
import Scriptlet.Proofs.Tree.RoundTrip
import Scriptlet.Proofs.Grammar.Completeness
import Scriptlet.Proofs.Eval.ByName
import Scriptlet.Proofs.Scope.Soundness
import Scriptlet.Proofs.Scope.Assignment
import Scriptlet.Proofs.Eval.Balance
import Scriptlet.Proofs.Grammar.Recovery
import Scriptlet.Proofs.Session.Joining
import Scriptlet.Proofs.Token.Layout
import Scriptlet.Proofs.Tree.Height
import Scriptlet.Proofs.Eval.Fuel
import Scriptlet.Proofs.Eval.Termination
import Scriptlet.Proofs.Eval.Encapsulation
import Scriptlet.Proofs.Scope.Lexical
import Scriptlet.Proofs.Token.LongestMatch
import Scriptlet.Proofs.Scope.Faults
import Scriptlet.Proofs.Session.ErrorLines
import Scriptlet.Proofs.Arena.Threshold
import Scriptlet.Proofs.Grammar.Alignment
import Scriptlet.Proofs.Eval.Unrolling
import Scriptlet.Proofs.Number.Counting
import Scriptlet.Proofs.Number.Numeral
import Scriptlet.Proofs.Eval.Ranges
import Scriptlet.Proofs.Token.Respacing
import Scriptlet.Proofs.Arena.Search
import Scriptlet.Proofs.Scope.Stability

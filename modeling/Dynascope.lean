import Dynascope.Main
import Dynascope.Proofs.Command.Complaints
import Dynascope.Proofs.Eval.Attribution
import Dynascope.Proofs.Eval.Balance
import Dynascope.Proofs.Eval.CallLimit
import Dynascope.Proofs.Eval.ForLoop
import Dynascope.Proofs.Eval.Layout
import Dynascope.Proofs.Eval.LineByLine
import Dynascope.Proofs.Eval.ObjectStore
import Dynascope.Proofs.Eval.Receiver
import Dynascope.Proofs.Eval.Safety
import Dynascope.Proofs.Eval.SameFunction
import Dynascope.Proofs.Eval.Transparency
import Dynascope.Proofs.Eval.Unrelated
import Dynascope.Proofs.Grammar.Acceptance
import Dynascope.Proofs.Scope.Discipline
import Dynascope.Proofs.Token.Ascent
import Dynascope.Proofs.Token.Delimited
import Dynascope.Proofs.Token.Munch
import Dynascope.Proofs.Token.Offences
import Dynascope.Proofs.Token.Spaced
import Dynascope.Proofs.Tree.Boundaries
import Dynascope.Proofs.Tree.Levels
import Dynascope.Proofs.Tree.Recovery
import Dynascope.Proofs.Tree.Termination
import Dynascope.Proofs.Tree.Unambiguous
import Dynascope.Proofs.Tree.Unparse

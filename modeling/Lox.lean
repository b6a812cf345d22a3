import Lox.CommandLine
import Lox.Main
import Lox.Tree.Same
import Lox.Proofs.Grammar.Accepted
import Lox.Proofs.Lexical.Refinement
import Lox.Proofs.Session.Rejected
import Lox.Proofs.Session.ResolvedReads
import Lox.Proofs.Session.ResolvedWrites
import Lox.Proofs.Session.Restored
import Lox.Proofs.Token.LongestMatch
import Lox.Proofs.Grammar.Sequence
import Lox.Proofs.Session.Split
import Lox.Proofs.Session.WellFormed
import Lox.Proofs.Session.LoopFree
import Lox.Proofs.Session.Identity
import Lox.Proofs.Session.Receiver
import Lox.Proofs.Session.Truncated
import Lox.Proofs.Session.Operators
import Lox.Proofs.Scope.Static
import Lox.Proofs.Grammar.Faults
import Lox.Proofs.Grammar.Nesting
import Lox.Proofs.Token.Places
import Lox.Proofs.Token.Respaced
import Lox.Proofs.Grammar.Paths
import Lox.Proofs.Session.CallLimit
import Lox.Proofs.Session.Evaluation
import Lox.Proofs.Grammar.FirstEnd
import Lox.Proofs.Grammar.Termination
import Lox.Proofs.Eval.Returns
import Lox.Proofs.Grammar.Printed

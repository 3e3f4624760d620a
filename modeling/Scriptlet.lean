import Scriptlet.Command
import Scriptlet.Main
import Scriptlet.Scope.Holder
import Scriptlet.Token.Stream
import Scriptlet.Tree.Equality
import Scriptlet.Proofs.Eval.Pieces
import Scriptlet.Proofs.Eval.Registers
import Scriptlet.Proofs.Eval.Release
import Scriptlet.Proofs.Grammar.Completeness
import Scriptlet.Proofs.Grammar.Soundness
import Scriptlet.Proofs.Scope.Holder
import Scriptlet.Proofs.Token.Spans
import Scriptlet.Proofs.Token.ByteScanner
import Scriptlet.Proofs.Token.ByteText
import Scriptlet.Proofs.Token.ByteSteps
import Scriptlet.Proofs.Token.ByteRounds
import Scriptlet.Proofs.Token.Accounting
import Scriptlet.Proofs.Grammar.Composed
import Scriptlet.Proofs.Grammar.Declarations
import Scriptlet.Proofs.Grammar.Recovery
import Scriptlet.Proofs.Grammar.Cursor
import Scriptlet.Proofs.Grammar.Tape
import Scriptlet.Proofs.Grammar.Tracking
import Scriptlet.Proofs.Grammar.Safety
import Scriptlet.Proofs.Eval.Layout
import Scriptlet.Proofs.Sink
import Scriptlet.Proofs.Eval.Semantics
import Scriptlet.Proofs.Eval.Moments
import Scriptlet.Proofs.Eval.Cut
import Scriptlet.Proofs.Eval.CallLimit
import Scriptlet.Proofs.Eval.FullSink
import Scriptlet.Proofs.Scope.Chain
import Scriptlet.Proofs.Eval.Rooted
import Scriptlet.Proofs.Tree.Induction
import Scriptlet.Proofs.Scope.Loops
import Scriptlet.Proofs.Eval.Termination
import Scriptlet.Proofs.Token.Respacing
import Scriptlet.Proofs.Eval.Output
import Scriptlet.Proofs.Scope.Lookup
import Scriptlet.Proofs.Command
import Scriptlet.Proofs.Grammar.Resuming
import Scriptlet.Proofs.Grammar.ErrorOrder
import Scriptlet.Proofs.Scope.Contract
import Scriptlet.Proofs.Eval.Grouping
import Scriptlet.Proofs.Eval.Lowering
import Scriptlet.Proofs.Grammar.Legible
import Scriptlet.Proofs.Eval.LastResult
import Scriptlet.Proofs.Decimal.Whole
import Scriptlet.Proofs.Grammar.Height
import Scriptlet.Proofs.Eval.DeadCode

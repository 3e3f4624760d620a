import Scriptlet.Proofs.Eval.Recording

/-!
# What happens in the course of a run

The evaluator tells how a run ends. A trace tells what happens on the way: the calls made, refused
and finished, the values of expressions and the lines printed. It is the record of one scribe, so
that the traced evaluator does what the evaluator does (`erase_traced`).
-/

namespace Scriptlet

/-- Something that happens in the course of a run. -/
inductive Event
  /-- A callable is called with the right number of arguments, and the call is refused or not. -/
  | call (refused : Bool)
  /-- What is called starts to run, with the given count of active calls in the register. -/
  | body (depth : Nat)
  /-- A call that was not refused is over. -/
  | back
  /-- An expression has got its value. -/
  | result (v : Value)
  | printed (line : String)

/-- A computation that records what happens. -/
abbrev Traced : Type → Type := Recording Event

namespace Event

/-- A line that is printed, unless the sink has no room for it. -/
def ofPrint (line : String) : Outcome Unit → List Event
  | .done _ _ => [printed line]
  | _ => []

/-- A call that is not refused: it is over unless fuel ran out. -/
def ofCall {α : Type} (depth : Nat) (t : List Event) : Outcome α → List Event
  | .outOfFuel => call false :: body depth :: t
  | _ => call false :: body depth :: (t ++ [back])

end Event

/-- Writes down what happens. -/
def Scribe.tracing : Scribe Event where
  step _ := []
  remember v _ := [.result v]
  print line _ o := Event.ofPrint line o
  refused _ _ := [.call true]
  call depth t o := Event.ofCall depth t o
  part _ _ _ _ t _ := t

/-- Evaluation that traces what happens. -/
def Semantics.traced : Semantics Traced := .recording .tracing

/-- The traced evaluator with the given fuel. -/
def traced (setting : Setting) (n : Nat) : Evaluator Traced := .ofFuel .traced setting n

namespace Traced

variable (setting : Setting) (n : Nat)

/-- The value of an expression, traced. -/
def evaluate : List Reference → Expr → Traced Value := (traced setting n).evaluate

/-- Runs one statement, traced. -/
def execute : List Reference → Stmt → Traced Flow := (traced setting n).execute

/-- Runs statements in order, traced. -/
def executeAll : List Reference → List Stmt → Traced Flow := (traced setting n).executeAll

/-- Runs statements with the given frame current, traced. -/
def executeBlock : List Reference → List Stmt → FrameId → Traced Flow :=
  (traced setting n).executeBlock

end Traced

/-- The traced evaluator without its records is the evaluator. -/
theorem erase_traced (setting : Setting) (n : Nat) :
    Evaluator.Related (fun _ _ _ x y => x.erase = y) (traced setting n) (.direct setting n) :=
  erase_recording .tracing setting n

end Scriptlet

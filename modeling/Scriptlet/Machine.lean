import Scriptlet.Error
import Scriptlet.Scope.References
import Scriptlet.Sink
import Scriptlet.Value.Host

/-!
# The state of a running script

A `Machine` is what a running script reads and changes: the heap of frames, a register for the
current frame, the number of active calls, the last result, and the output. An `Eval` is a
computation on it, which ends with a result, with an error, or because its fuel ran out.
-/

namespace Scriptlet

/-- What stays fixed while scripts run. -/
structure Setting where
  host : Host
  /-- How many calls may be active at once. -/
  callLimit : Nat
  /-- Whether frames are released at the end of their block. -/
  releases : Bool

/-- The setting scripts normally run in. -/
def Setting.standard : Setting := ⟨.standard, 1024, true⟩

/-- The state of a running script. -/
structure Machine where
  heap : Heap
  /-- The frame in which names are looked up now. -/
  current : FrameId
  /-- The number of active calls. -/
  callDepth : Nat
  /-- The last result that was not `null`. -/
  lastValue : Value
  sink : Sink

namespace Machine

/-- The frame of the global names, which is made first. -/
def globals : FrameId := 0

/-- A machine that has run nothing yet and writes to the given sink. -/
def start (sink : Sink) : Machine where
  heap := Heap.empty.push ⟨[], none⟩
  current := globals
  callDepth := 0
  lastValue := .null
  sink := sink

/-- Binds a name in the current frame. -/
def define (m : Machine) (name : String) (v : Value) : Machine :=
  { m with heap := m.heap.define m.current name v }

end Machine

/-- How a computation ends. -/
inductive Outcome (α : Type)
  | done (a : α) (m : Machine)
  | failed (e : Error) (m : Machine)
  | outOfFuel

/-- A computation on the state of a script. -/
def Eval (α : Type) := Machine → Outcome α

namespace Eval

variable {α β : Type}

/-- Ends at once with a result. -/
@[inline] protected def pure (a : α) : Eval α := fun m => .done a m

/-- One computation and then another that depends on its result. -/
@[inline] protected def bind (x : Eval α) (f : α → Eval β) : Eval β := fun m =>
  match x m with
  | .done a m => f a m
  | .failed e m => .failed e m
  | .outOfFuel => .outOfFuel

instance : Monad Eval where
  pure := Eval.pure
  bind := Eval.bind

/-- Ends for lack of fuel. -/
@[inline] def exhausted : Eval α := fun _ => .outOfFuel

/-- Ends with an error. -/
@[inline] def fail (e : Error) : Eval α := fun m => .failed e m

/-- Ends with a result, or with a fault at the given line. -/
@[inline] def ofExcept (line : Nat) (r : Except RuntimeFault α) : Eval α := fun m =>
  match r with
  | .ok a => .done a m
  | .error fault => .failed (.runtime fault line) m

/-- The state of the script. -/
@[inline] def state : Eval Machine := fun m => .done m m

/-- Changes the state of the script. -/
@[inline] def change (f : Machine → Machine) : Eval Unit := fun m => .done () (f m)

/-- Runs a computation and then, unless fuel ran out, changes the state in a way that may depend on
the result. -/
@[inline] def andThen (x : Eval α) (exit : Option α → Machine → Machine) : Eval α := fun m =>
  match x m with
  | .done a m => .done a (exit (some a) m)
  | .failed e m => .failed e (exit none m)
  | .outOfFuel => .outOfFuel

end Eval

end Scriptlet

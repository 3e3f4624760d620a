import Scriptlet.Eval
import Scriptlet.Program
import Scriptlet.Scope.Given
import Scriptlet.Token.Scan

/-!
# Running scripts

A session is a machine on which scripts run one after another. Between them the host may read and
change the global names. A script with a lexical error does not run at all; after grammar errors the
statements that could be read still run; the first error at run time ends the script.
-/

namespace Scriptlet

/-- What the run of a script comes to. -/
structure Report where
  /-- The last result that was not `null`. -/
  value : Value
  /-- The errors, in the order in which they were reported. -/
  errors : List Error

namespace Report

/-- Whether a run had no errors. -/
def isOk (r : Report) : Bool := r.errors.isEmpty

end Report

namespace Machine

/-- Writes an error's line; a failure to write it is ignored. -/
def report (m : Machine) (e : Error) : Machine := { m with sink := (m.sink.writeLine e.message).1 }

/-- Forgets the last result. -/
def forget (m : Machine) : Machine := { m with lastValue := .null }

/-- Runs the statements of a program after reporting its errors. -/
def runProgram (setting : Setting) (fuel : Nat) (program : Program) (m : Machine) :
    Option (Report × Machine) :=
  match executeAll setting fuel [] program.statements (program.errors.foldl report m) with
  | .done _ m => some (⟨m.lastValue, program.errors⟩, m.forget)
  | .failed e m => some (⟨m.lastValue, program.errors ++ [e]⟩, (m.report e).forget)
  | .outOfFuel => none

/-- Runs a script. The answer is `none` if the fuel runs out. -/
def runScript (setting : Setting) (fuel : Nat) (source : String) (m : Machine) :
    Option (Report × Machine) :=
  match scan source with
  | .error e => some (⟨.null, [e]⟩, m.forget.report e)
  | .ok tokens => m.forget.runProgram setting fuel (.ofTokens tokens)

/-- Whether a global name is bound. -/
def hasGlobal (m : Machine) (name : String) : Bool := m.heap.binds globals name

/-- The value of a global name; a failure is reported at the given line. -/
def global (m : Machine) (name : String) (line : Nat) : Except Error Value :=
  match m.heap.lookup globals name with
  | some v => .ok v
  | none => .error (.undefinedVariable name line)

/-- Binds a global name. -/
def defineGlobal (m : Machine) (name : String) (g : Given) : Machine :=
  let (v, heap) := m.heap.make g
  { m with heap := heap.define globals name v }

/-- Replaces the value of a global name that is bound. -/
def assignGlobal (m : Machine) (name : String) (g : Given) (line : Nat) : Except Error Machine :=
  let (v, heap) := m.heap.make g
  match heap.assign globals name v with
  | some heap => .ok { m with heap }
  | none => .error (.undefinedVariable name line)

/-- Binds a global name to the host function with the given key. -/
def defineHost (m : Machine) (name : String) (arity : Nat) (key : String) : Machine :=
  let (v, heap) := m.heap.makeFunction (.host name arity key)
  { m with heap := heap.define globals name v }

end Machine

end Scriptlet

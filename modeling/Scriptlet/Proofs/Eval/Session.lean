import Scriptlet.Session

/-!
# Sessions

A host runs scripts on one machine one after another and lends it functions in between. What it sees
of this are the reports of the scripts and what was written.
-/

namespace Scriptlet

/-- A call that a host makes on a machine between scripts. -/
inductive HostCall
  | run (source : String)
  | defineHost (name : String) (arity : Nat) (key : String)

namespace Machine

/-- Makes the calls of a host one after another. The answer is `none` if a script runs out of
fuel. -/
def session (setting : Setting) (fuel : Nat) :
    List HostCall → Machine → Option (List Report × Machine)
  | [], m => some ([], m)
  | .run source :: calls, m =>
    (m.runScript setting fuel source).bind fun r =>
      (session setting fuel calls r.2).map (Prod.map (r.1 :: ·) id)
  | .defineHost name arity key :: calls, m =>
    session setting fuel calls (m.defineHost name arity key)

/-- What a host sees of a session: the reports of the scripts and all that was written. -/
def observe (setting : Setting) (fuel : Nat) (calls : List HostCall) (m : Machine) :
    Option (List Report × Sink) :=
  (m.session setting fuel calls).map fun rs => (rs.1, rs.2.sink)

end Machine

end Scriptlet

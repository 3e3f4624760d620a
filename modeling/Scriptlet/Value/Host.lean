import Scriptlet.Value.Basic

/-!
# Host functions

Functions that the host lends to scripts. A script reaches one through a key; the table of a host
says what each key does with its arguments. `Host.standard` is the table that comes with the
project.
-/

namespace Scriptlet

/-- What a host does with the arguments of a call, by the key of the function called: a value, or
the message of a failure. -/
abbrev Host := String → List Value → Except String Value

namespace Host

/-- Twice a number. -/
def twice : List Value → Except String Value
  | .number x :: _ => .ok (.number (2 * x))
  | _ => .error "twice expects a number."

/-- Whether every value equals the next. -/
def allSame : List Value → Bool
  | v :: w :: rest => v.same w && allSame (w :: rest)
  | _ => true

/-- The host functions that come with the project; an unknown key gives `null`. -/
def standard : Host
  | "twice", args => twice args
  | "first", args => .ok (args.head?.getD .null)
  | "last", args => .ok (args.getLast?.getD .null)
  | "count", args => .ok (.number (Float.ofNat args.length))
  | "types", args => .ok (.string (",".intercalate (args.map Value.typeName)))
  | "show", args => .ok (.string ("|".intercalate (args.map Value.text)))
  | "truthy", args => .ok (.boolean (args.all Value.isTruthy))
  | "same", args => .ok (.boolean (allSame args))
  | "fail", args =>
    .error ("native failure with " ++ toString args.length ++ " argument(s)")
  | _, _ => .ok .null

end Host

end Scriptlet

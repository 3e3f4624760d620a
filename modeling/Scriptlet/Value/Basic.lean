import Scriptlet.Decimal.Layout
import Scriptlet.Tree.Basic

/-!
# Values

What expressions evaluate to. A function value is an identity together with what a call needs: a
declaration and the frame it was made in, or a host function. Two function values are equal when
their identities are.
-/

namespace Scriptlet

/-- The identity of a scope frame. -/
abbrev FrameId := Nat

/-- The identity of a function value. -/
abbrev FunctionId := Nat

/-- What a call of a function value runs. -/
inductive Callable
  /-- A declared function and the frame that was current when its declaration ran. -/
  | closure (decl : FunctionDecl) (frame : FrameId)
  /-- The host function registered under a key. -/
  | host (name : String) (arity : Nat) (key : String)

namespace Callable

/-- The number of arguments a call has to give. -/
def arity : Callable → Nat
  | closure decl _ => decl.params.length
  | host _ arity _ => arity

/-- The frame a callable keeps alive, if it keeps one. -/
def frame? : Callable → Option FrameId
  | closure _ frame => some frame
  | host _ _ _ => none

/-- The text of a callable. -/
def text : Callable → String
  | closure decl _ => "<fn " ++ decl.name.lexeme ++ ">"
  | host name _ _ => "<native fn " ++ name ++ ">"

end Callable

/-- A value of a script. -/
inductive Value
  | number (x : Float)
  | string (s : String)
  | boolean (b : Bool)
  | null
  | function (id : FunctionId) (callable : Callable)

namespace Value

/-- The value of a literal. -/
def ofLiteral : Literal → Value
  | .number x => number x
  | .string s => string s
  | .boolean b => boolean b
  | .null => null

/-- The name of a value's type. -/
def typeName : Value → String
  | number _ => "number"
  | string _ => "string"
  | boolean _ => "boolean"
  | null => "null"
  | function _ _ => "function"

/-- The text of a value, as printing shows it. -/
def text : Value → String
  | number x => Decimal.numberText x
  | string s => s
  | boolean true => "true"
  | boolean false => "false"
  | null => "null"
  | function _ callable => callable.text

/-- Equality of values: by content within a type, by identity for functions, never across types. -/
def same : Value → Value → Bool
  | number x, number y => x == y
  | string s, string t => s == t
  | boolean a, boolean b => a == b
  | null, null => true
  | function i _, function j _ => i == j
  | _, _ => false

/-- Everything but `null` and `false` counts as true. -/
def isTruthy : Value → Bool
  | null => false
  | boolean b => b
  | _ => true

/-- Whether a value is `null`. -/
def isNull : Value → Bool
  | null => true
  | _ => false

end Value

end Scriptlet

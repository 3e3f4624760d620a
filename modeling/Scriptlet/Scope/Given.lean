import Scriptlet.Scope.Basic

/-!
# Values given from outside

A host that works on frames gives values: plain ones, or functions that do nothing and are told
apart only by their identity. Each function given is a new one.
-/

namespace Scriptlet

/-- The declaration of a function without parameters that does nothing. -/
def FunctionDecl.trivial (name : String) : FunctionDecl :=
  ⟨⟨.mark .identifier, name, 1⟩, [], []⟩

/-- A value as a host gives it. -/
inductive Given
  | plain (literal : Literal)
  /-- A new function with a frame of its own around it. -/
  | function (name : String)
  /-- A new host function without parameters. -/
  | host (name : String)

/-- The value that is given, and the heap after it has been made. -/
def Heap.make (h : Heap) : Given → Value × Heap
  | .plain literal => (.ofLiteral literal, h)
  | .function name => (h.push ⟨[], none⟩).makeFunction (.closure (.trivial name) h.size)
  | .host name => h.makeFunction (.host name 0 "null")

end Scriptlet

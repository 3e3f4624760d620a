import Scriptlet.Scope.Basic
import Std.Data.HashSet.Basic

/-!
# References and the release of frames

A frame is kept by handles from outside the heap, by allocated frames nested in it, and by the
functions made in it; a function is kept by the bindings of allocated frames and from outside. What
nothing keeps is freed by `sweep`; a cycle keeps itself. The common cycle is a frame that binds a
function made in that same frame, and `release` breaks it: it empties a frame that nothing but such
functions of its own keeps, besides the one handle that asks.
-/

namespace Scriptlet

/-- A reference from outside the heap. -/
inductive Reference
  /-- A handle to a frame. -/
  | frame (id : FrameId)
  /-- A value in use, which keeps a function if it is one. -/
  | value (v : Value)

namespace Reference

/-- The frame a reference is a handle to. -/
def frame? : Reference → Option FrameId
  | frame id => some id
  | value _ => none

/-- The value a reference holds. -/
def value? : Reference → Option Value
  | frame _ => none
  | value v => some v

end Reference

namespace Value

/-- The frame that a function value was made in. -/
def closure? : Value → Option FrameId
  | function _ callable => callable.frame?
  | _ => none

/-- The identity of a function value. -/
def functionId? : Value → Option FunctionId
  | function id _ => some id
  | _ => none

end Value

namespace Heap

/-- The frames that are allocated, the newest first. -/
def live (h : Heap) : List Frame := h.ids.filterMap h.get?

/-- The values in use: one entry for each binding of an allocated frame and for each value held
from outside. -/
def valuesInUse (h : Heap) (roots : List Reference) : List Value :=
  h.live.flatMap (·.values) ++ roots.filterMap (·.value?)

/-- The handles from outside and the parents of allocated frames, one entry for each. -/
def framesInUse (h : Heap) (roots : List Reference) : List FrameId :=
  roots.filterMap (·.frame?) ++ h.live.filterMap (·.parent)

/-- How many references keep a function. -/
def functionCount (h : Heap) (roots : List Reference) (id : FunctionId) : Nat :=
  (h.valuesInUse roots).countP fun v => v.functionId? = some id

/-- The functions in use that were made in a frame, each once. -/
def functionsOf (h : Heap) (roots : List Reference) (frame : FrameId) : List FunctionId :=
  ((h.valuesInUse roots).filter fun v => v.closure? = some frame).filterMap (·.functionId?)
    |>.eraseDups

/-- How many references keep a frame. -/
def frameCount (h : Heap) (roots : List Reference) (frame : FrameId) : Nat :=
  (h.framesInUse roots).count frame + (h.functionsOf roots frame).length

/-- Every frame that something keeps, in any order and possibly repeated. -/
def kept (h : Heap) (roots : List Reference) : List FrameId :=
  h.framesInUse roots ++ (h.valuesInUse roots).filterMap (·.closure?)

/-- Frees every frame that nothing keeps, and then every frame that only those kept, until all
that is left is kept. -/
def sweep (h : Heap) (roots : List Reference) : Heap :=
  go h.ids.length h
where
  /-- At most the given number of rounds, stopping when there is nothing to free. -/
  go : Nat → Heap → Heap
    | 0, h => h
    | n + 1, h =>
      let kept := Std.HashSet.ofList (h.kept roots)
      if h.ids.all kept.contains then h else go n (h.keep kept.contains)

/-- Whether a frame binds a function that was made in it and is not in use outside the heap. No
other frame is releasable. -/
def capturesItself (h : Heap) (roots : List Reference) (frame : FrameId) : Bool :=
  match h.get? frame with
  | some f =>
    f.values.any fun v =>
      v.closure? = some frame &&
        !(roots.filterMap (·.value?)).any fun w => w.functionId? = v.functionId?
  | none => false

/-- How many bindings of a frame store a function that was made in it and that nothing else
keeps. -/
def selfCaptured (h : Heap) (roots : List Reference) (frame : FrameId) : Nat :=
  match h.get? frame with
  | some f =>
    f.values.countP fun v =>
      v.closure? = some frame && v.functionId?.any fun id => h.functionCount roots id = 1
  | none => 0

/-- Whether a frame is kept by one handle and otherwise only by functions of its own. -/
def releasable (h : Heap) (roots : List Reference) (frame : FrameId) : Bool :=
  let own := h.selfCaptured roots frame
  own != 0 && h.frameCount roots frame == 1 + own

/-- Drops all bindings of a frame. -/
def clear (h : Heap) (frame : FrameId) : Heap :=
  h.modify frame fun f => { f with bindings := [] }

/-- Empties a frame if it is releasable. The handle that asks is one of the roots. -/
def release (h : Heap) (roots : List Reference) (frame : FrameId) : Heap :=
  if h.releasable roots frame then h.clear frame else h

end Heap

end Scriptlet

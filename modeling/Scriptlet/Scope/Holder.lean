import Scriptlet.Error
import Scriptlet.Scope.Given
import Scriptlet.Scope.References

/-!
# Frames under named handles

A `Holder` owns frames through named handles and function values through named holds, and works on
them one operation at a time. After each operation everything that nothing keeps is freed.
-/

namespace Scriptlet

/-- Where an operation takes a value from. -/
inductive Operand
  | given (g : Given)
  /-- The value held under a name. -/
  | held (name : String)

/-- An operation on the frames of a holder. -/
inductive Operation
  /-- Makes a frame, nested in another or on its own. -/
  | new (frame : String) (parent : Option String)
  | define (frame name : String) (value : Operand)
  | assign (frame name : String) (value : Operand) (line : Nat)
  /-- Looks a name up, and may hold the value found. -/
  | get (frame name : String) (line : Nat) (hold : Option String)
  | has (frame name : String)
  /-- Makes a function in a frame and binds it there; it may be held as well. -/
  | declare (frame name : String) (hold : Option String)
  | unhold (name : String)
  /-- A second handle to the same frame. -/
  | alias (frame name : String)
  | drop (frame : String)
  /-- Asks for the release of a frame and drops the handle. -/
  | release (frame : String)
  | alive (frame : String)

/-- What an operation answers. -/
inductive Answer
  | done
  | value (v : Value)
  | flag (b : Bool)
  | failed (e : Error)
  /-- The operation names a handle or hold that does not exist. -/
  | unknown

/-- Frames and functions with the names that keep them. -/
structure Holder where
  heap : Heap
  /-- The handles, by name. -/
  handles : List (String × FrameId)
  /-- The held values, by name. -/
  holds : List (String × Value)
  /-- The frame last made under each name, whether or not it still has a handle. -/
  made : List (String × FrameId)

namespace Holder

/-- A holder of nothing. -/
def empty : Holder := ⟨.empty, [], [], []⟩

/-- What the holder keeps from outside the heap. -/
def roots (w : Holder) : List Reference :=
  w.handles.map (fun h => .frame h.2) ++ w.holds.map (fun h => .value h.2)

/-- The table with a name's entry replaced. -/
def put {α : Type} (table : List (String × α)) (name : String) (a : α) : List (String × α) :=
  (name, a) :: table.filter fun e => e.1 != name

/-- The table without a name's entry. -/
def remove {α : Type} (table : List (String × α)) (name : String) : List (String × α) :=
  table.filter fun e => e.1 != name

/-- Frees what nothing keeps. -/
def settle (w : Holder) : Holder := { w with heap := w.heap.sweep w.roots }

/-- Holds a value if a name is given for it. -/
def hold (w : Holder) (name : Option String) (v : Value) : Holder :=
  match name with
  | some n => { w with holds := put w.holds n v }
  | none => w

/-- The value of an operand, and the holder after it has been made. -/
def operand (w : Holder) : Operand → Option (Holder × Value)
  | .given g =>
    let (v, heap) := w.heap.make g
    some ({ w with heap }, v)
  | .held name => (w.holds.lookup name).map fun v => (w, v)

/-- One operation before anything is freed. -/
def perform (w : Holder) : Operation → Holder × Answer
  | .new name parent =>
    match parent.map fun p => w.handles.lookup p with
    | some none => (w, .unknown)
    | outer =>
      let frame := w.heap.size
      ({ w with
          heap := w.heap.push ⟨[], outer.join⟩
          handles := put w.handles name frame
          made := put w.made name frame }, .done)
  | .define frame name value =>
    match w.handles.lookup frame, w.operand value with
    | some id, some (w, v) => ({ w with heap := w.heap.define id name v }, .done)
    | _, _ => (w, .unknown)
  | .assign frame name value line =>
    match w.handles.lookup frame, w.operand value with
    | some id, some (w, v) =>
      match w.heap.assign id name v with
      | some heap => ({ w with heap }, .done)
      | none => (w, .failed (.undefinedVariable name line))
    | _, _ => (w, .unknown)
  | .get frame name line hold =>
    match w.handles.lookup frame with
    | some id =>
      match w.heap.lookup id name with
      | some v => (w.hold hold v, .value v)
      | none => (w, .failed (.undefinedVariable name line))
    | none => (w, .unknown)
  | .has frame name =>
    match w.handles.lookup frame with
    | some id => (w, .flag (w.heap.binds id name))
    | none => (w, .unknown)
  | .declare frame name hold =>
    match w.handles.lookup frame with
    | some id =>
      let (v, heap) := w.heap.makeFunction (.closure (.trivial name) id)
      ({ w.hold hold v with heap := heap.define id name v }, .done)
    | none => (w, .unknown)
  | .unhold name =>
    ({ w with holds := remove w.holds name }, .flag (w.holds.lookup name).isSome)
  | .alias frame name =>
    match w.handles.lookup frame with
    | some id => ({ w with handles := put w.handles name id }, .done)
    | none => (w, .unknown)
  | .drop frame =>
    ({ w with handles := remove w.handles frame }, .flag (w.handles.lookup frame).isSome)
  | .release frame =>
    match w.handles.lookup frame with
    | some id =>
      ({ w with
          heap := w.heap.release w.roots id
          handles := remove w.handles frame }, .flag (w.heap.releasable w.roots id))
    | none => (w, .unknown)
  | .alive frame =>
    match w.made.lookup frame with
    | some id => (w, .flag (w.heap.allocated id))
    | none => (w, .unknown)

/-- One operation, after which what nothing keeps is freed. -/
def step (w : Holder) (op : Operation) : Holder × Answer :=
  let (w, answer) := w.perform op
  (w.settle, answer)

/-- A sequence of operations and their answers. -/
def run (w : Holder) : List Operation → Holder × List Answer
  | [] => (w, [])
  | op :: ops =>
    let (w, answer) := w.step op
    let (w, answers) := w.run ops
    (w, answer :: answers)

end Holder

end Scriptlet

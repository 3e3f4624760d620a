import Scriptlet.Machine
import Scriptlet.Value.Operators

/-!
# Evaluation

What statements and expressions do to the state of a script. Every function takes fuel, which bounds
the depth of its recursion, and the references that pending computations hold: operands and
arguments already evaluated, functions being called, and the frames of open blocks. The references
matter only when a block ends, where they decide whether its frame can be released.
-/

namespace Scriptlet

/-- How a statement ends. -/
inductive Flow
  | normal
  /-- A return on its way out of the function. -/
  | ret (v : Value)

namespace Flow

/-- The value a call has when its body ends. -/
def value : Flow → Value
  | normal => .null
  | ret v => v

/-- The references in a flow. -/
def references : Flow → List Reference
  | normal => []
  | ret v => [.value v]

end Flow

namespace Eval

/-- The value of a name in the current frame. -/
def lookup (name : Token) : Eval Value := fun m =>
  match m.heap.lookup m.current name.lexeme with
  | some v => .done v m
  | none => .failed (.undefinedVariable name.lexeme name.line) m

/-- Replaces the value of a name that the current frame can see. -/
def assign (name : Token) (v : Value) : Eval Unit := fun m =>
  match m.heap.resolve m.current name.lexeme with
  | some owner => .done () { m with heap := m.heap.define owner name.lexeme v }
  | none => .failed (.undefinedVariable name.lexeme name.line) m

/-- Makes a function in the current frame and binds it there. -/
def declare (decl : FunctionDecl) : Eval Unit := fun m =>
  let (v, heap) := m.heap.makeFunction (.closure decl m.current)
  .done () ({ m with heap }.define decl.name.lexeme v)

/-- Writes a line of output. -/
def print (line : String) : Eval Unit := fun m =>
  let (sink, fits) := m.sink.writeLine line
  if fits then .done () { m with sink } else .failed .sinkFull { m with sink }

/-- Remembers a result unless it is `null`. -/
def remember (v : Value) : Eval Value := fun m =>
  if v.isNull then .done v m else .done v { m with lastValue := v }

/-- Makes a frame inside another one and binds parameters to arguments there in order. -/
def newFrame (parent : FrameId) (bindings : List (String × Value)) : Eval FrameId := fun m =>
  let frame := bindings.foldl (fun f b => f.bind b.1 b.2) ⟨[], some parent⟩
  .done m.heap.size { m with heap := m.heap.push frame }

end Eval

/-- What a machine keeps from outside its heap, given what pending computations hold. -/
def Machine.roots (m : Machine) (held : List Reference) : List Reference :=
  .frame globals :: .frame m.current :: .value m.lastValue :: held

/-- The end of a block: the frame before it is current again, and the block's own frame is released
if nothing else can reach it. -/
def Machine.leave (setting : Setting) (held : List Reference) (frame previous : FrameId)
    (flow : Option Flow) (m : Machine) : Machine :=
  let m := { m with current := previous }
  let roots := .frame frame :: ((flow.map (·.references)).getD [] ++ m.roots held)
  if setting.releases && m.heap.capturesItself roots frame then
    { m with heap := (m.heap.sweep roots).release roots frame }
  else
    m

mutual

/-- The value of an expression. -/
def evaluate (setting : Setting) : Nat → List Reference → Expr → Eval Value
  | 0, _, _ => Eval.exhausted
  | n + 1, held, e => do
    let v ← match e with
      | .literal value => pure (.ofLiteral value)
      | .group inner => evaluate setting n held inner
      | .var name => Eval.lookup name
      | .assign name value => do
        let v ← evaluate setting n held value
        Eval.assign name v
        pure v
      | .unary operator operand => do
        let v ← evaluate setting n held operand
        Eval.ofExcept operator.line (v.applyUnary operator)
      | .binary left operator right => do
        let a ← evaluate setting n held left
        let b ← evaluate setting n (.value a :: held) right
        Eval.ofExcept operator.line (Value.applyBinary operator a b)
      | .logical left operator right => do
        let a ← evaluate setting n held left
        if Value.shortCircuits operator a then
          pure a
        else
          evaluate setting n (.value a :: held) right
      | .call callee paren arguments => do
        let f ← evaluate setting n held callee
        let args ← evaluateEach setting n (.value f :: held) arguments
        invoke setting n (.value f :: held) paren.line f args
    Eval.remember v

/-- The values of expressions, from left to right. -/
def evaluateEach (setting : Setting) : Nat → List Reference → List Expr → Eval (List Value)
  | 0, _, _ => Eval.exhausted
  | _ + 1, _, [] => pure []
  | n + 1, held, e :: es => do
    let v ← evaluate setting n held e
    let vs ← evaluateEach setting n (.value v :: held) es
    pure (v :: vs)

/-- The value of a call. The call counts as active until it ends, however it ends. -/
def invoke (setting : Setting) : Nat → List Reference → Nat → Value → List Value → Eval Value
  | 0, _, _, _, _ => Eval.exhausted
  | n + 1, held, line, .function _ callable, args => do
    if args.length ≠ callable.arity then
      Eval.fail (.runtime (.wrongArity callable.arity args.length) line)
    else if setting.callLimit ≤ (← Eval.state).callDepth then
      Eval.fail (.runtime .stackOverflow line)
    else do
      Eval.change fun m => { m with callDepth := m.callDepth + 1 }
      Eval.andThen (match callable with
        | .closure decl closure => do
          let frame ← Eval.newFrame closure ((decl.params.map (·.lexeme)).zip args)
          let flow ← executeBlock setting n held decl.body frame
          pure flow.value
        | .host _ _ key => Eval.ofExcept line ((setting.host key args).mapError .native))
        fun _ m => { m with callDepth := m.callDepth - 1 }
  | _ + 1, _, line, _, _ => Eval.fail (.runtime .notCallable line)

/-- Runs one statement. -/
def execute (setting : Setting) : Nat → List Reference → Stmt → Eval Flow
  | 0, _, _ => Eval.exhausted
  | n + 1, held, .expression e => do
    let _ ← evaluate setting n held e
    pure .normal
  | n + 1, held, .print e => do
    let v ← evaluate setting n held e
    Eval.print v.text
    pure .normal
  | n + 1, held, .var name (some e) => do
    let v ← evaluate setting n held e
    Eval.change (·.define name.lexeme v)
    pure .normal
  | _ + 1, _, .var name none => do
    Eval.change (·.define name.lexeme .null)
    pure .normal
  | _ + 1, _, .function name params body => do
    Eval.declare ⟨name, params, body⟩
    pure .normal
  | n + 1, held, .block body => do
    let frame ← Eval.newFrame (← Eval.state).current []
    executeBlock setting n held body frame
  | n + 1, held, .ifElse condition thenBranch elseBranch => do
    let v ← evaluate setting n held condition
    if v.isTruthy then
      execute setting n held thenBranch
    else
      match elseBranch with
      | some s => execute setting n held s
      | none => pure .normal
  | n + 1, held, .whileLoop condition body => do
    let v ← evaluate setting n held condition
    if v.isTruthy then
      match ← execute setting n held body with
      | .ret v => pure (.ret v)
      | .normal => execute setting n held (.whileLoop condition body)
    else
      pure .normal
  | n + 1, held, .forLoop (some initializer) condition increment body => do
    let _ ← execute setting n held initializer
    execute setting n held (.forLoop none condition increment body)
  | n + 1, held, .forLoop none condition increment body => do
    let continues ← match condition with
      | some e => do
        let v ← evaluate setting n held e
        pure v.isTruthy
      | none => pure true
    if continues then
      match ← execute setting n held body with
      | .ret v => pure (.ret v)
      | .normal =>
        match increment with
        | some e => do
          let _ ← evaluate setting n held e
          execute setting n held (.forLoop none condition increment body)
        | none => execute setting n held (.forLoop none condition increment body)
    else
      pure .normal
  | n + 1, held, .ret _ (some e) => do
    let v ← evaluate setting n held e
    pure (.ret v)
  | _ + 1, _, .ret _ none => pure (.ret .null)

/-- Runs statements in order, up to the first return. -/
def executeAll (setting : Setting) : Nat → List Reference → List Stmt → Eval Flow
  | 0, _, _ => Eval.exhausted
  | _ + 1, _, [] => pure .normal
  | n + 1, held, s :: ss => do
    match ← execute setting n held s with
    | .ret v => pure (.ret v)
    | .normal => executeAll setting n held ss

/-- Runs statements with the given frame current, and leaves the frame however they end. -/
def executeBlock (setting : Setting) : Nat → List Reference → List Stmt → FrameId → Eval Flow
  | 0, _, _, _ => Eval.exhausted
  | n + 1, held, body, frame => do
    let previous := (← Eval.state).current
    Eval.change fun m => { m with current := frame }
    Eval.andThen (executeAll setting n (.frame frame :: .frame previous :: held) body)
      (Machine.leave setting held frame previous)

end

end Scriptlet

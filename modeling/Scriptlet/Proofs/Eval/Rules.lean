import Scriptlet.Eval

/-!
# The rules of evaluation

One equation for each kind of expression and statement, with the fuel already counted down. Parts
that may be missing in a tree (an initializer, a condition, an else branch) and the parts of a call
get names of their own, so that a proof about all computations meets each of them once.
-/

namespace Scriptlet

namespace Eval

theorem bind_pure_eq {α : Type} (x : Eval α) : Eval.bind x Eval.pure = x := by
  funext m
  unfold Eval.bind
  cases x m <;> rfl

theorem bind_bind {α β γ : Type} (x : Eval α) (f : α → Eval β) (g : β → Eval γ) :
    Eval.bind (Eval.bind x f) g = Eval.bind x fun a => Eval.bind (f a) g := by
  funext m
  unfold Eval.bind
  cases x m <;> rfl

instance : LawfulMonad Eval :=
  LawfulMonad.mk' Eval (fun x => bind_pure_eq x) (fun _ _ => rfl) (fun x f g => bind_bind x f g)

/-- A computation during which one more call is active. -/
def counted {α : Type} (x : Eval α) : Eval α := do
  change fun m => { m with callDepth := m.callDepth + 1 }
  andThen x fun _ m => { m with callDepth := m.callDepth - 1 }

theorem counted_apply {α : Type} (x : Eval α) (m : Machine) : counted x m =
    andThen x (fun _ m => { m with callDepth := m.callDepth - 1 })
      { m with callDepth := m.callDepth + 1 } := rfl

end Eval

variable (setting : Setting) (n : Nat) (held : List Reference)

/-! ### Expressions -/

/-- The value of an expression before it is remembered. -/
def evaluateNode : Expr → Eval Value
  | .literal value => pure (.ofLiteral value)
  | .group inner => evaluate setting n held inner
  | .var name => Eval.lookup name
  | .assign name value => do
    let v ← evaluate setting n held value
    Eval.assign name v
    pure v
  | .unary operator operand => do
    let v ← evaluate setting n held operand
    Eval.ofExcept operator.line (v.applyUnary operator)
  | .binary left operator right => do
    let a ← evaluate setting n held left
    let b ← evaluate setting n (.value a :: held) right
    Eval.ofExcept operator.line (Value.applyBinary operator a b)
  | .logical left operator right => do
    let a ← evaluate setting n held left
    if Value.shortCircuits operator a then
      pure a
    else
      evaluate setting n (.value a :: held) right
  | .call callee paren arguments => do
    let f ← evaluate setting n held callee
    let args ← evaluateEach setting n (.value f :: held) arguments
    invoke setting n (.value f :: held) paren.line f args

theorem evaluate_succ (e : Expr) :
    evaluate setting (n + 1) held e = evaluateNode setting n held e >>= Eval.remember := by
  cases e with
  | logical left operator right =>
    simp only [evaluate, evaluateNode, bind_assoc]
    congr 1
    funext a
    split <;> rfl
  | literal | group | var | assign | unary | binary | call =>
    simp only [evaluate, evaluateNode, bind_assoc]

/-- The value of an expression that may be missing, and then is the given one. -/
def evaluateOr (v : Value) : Option Expr → Eval Value
  | some e => evaluate setting n held e
  | none => pure v

/-! ### Calls -/

/-- What a call runs while it is active. -/
def runCallable (line : Nat) (args : List Value) : Callable → Eval Value
  | .closure decl closure => do
    let frame ← Eval.newFrame closure ((decl.params.map (·.lexeme)).zip args)
    let flow ← executeBlock setting n held decl.body frame
    pure flow.value
  | .host _ _ key => Eval.ofExcept line ((setting.host key args).mapError .native)

theorem invoke_function (line : Nat) (id : FunctionId) (callable : Callable) (args : List Value) :
    invoke setting (n + 1) held line (.function id callable) args =
      if args.length ≠ callable.arity then
        Eval.fail (.runtime (.wrongArity callable.arity args.length) line)
      else (do
        if setting.callLimit ≤ (← Eval.state).callDepth then
          Eval.fail (.runtime .stackOverflow line)
        else
          Eval.counted (runCallable setting n held line args callable)) := by
  cases callable <;> rw [invoke] <;> rfl

theorem invoke_of_functionId?_eq_none (line : Nat) {f : Value} (args : List Value)
    (hf : f.functionId? = none) :
    invoke setting (n + 1) held line f args = Eval.fail (.runtime .notCallable line) := by
  cases f with
  | function id callable => cases hf
  | number _ | string _ | boolean _ | null =>
    rw [invoke]
    simp

/-! ### Statements -/

/-- Runs a statement that may be missing. -/
def executeOption : Option Stmt → Eval Flow
  | some s => execute setting n held s
  | none => pure .normal

theorem execute_var (name : Token) (initializer : Option Expr) :
    execute setting (n + 1) held (.var name initializer) = (do
      let v ← evaluateOr setting n held .null initializer
      Eval.change (·.define name.lexeme v)
      pure .normal) := by
  cases initializer <;> rw [execute] <;> rfl

theorem execute_ret (keyword : Token) (value : Option Expr) :
    execute setting (n + 1) held (.ret keyword value) = (do
      let v ← evaluateOr setting n held .null value
      pure (.ret v)) := by
  cases value <;> rw [execute] <;> rfl

theorem execute_ifElse (condition : Expr) (thenBranch : Stmt) (elseBranch : Option Stmt) :
    execute setting (n + 1) held (.ifElse condition thenBranch elseBranch) = (do
      let v ← evaluate setting n held condition
      if v.isTruthy then
        execute setting n held thenBranch
      else
        executeOption setting n held elseBranch) := by
  cases elseBranch <;> rw [execute] <;> rfl

/-- A loop without a condition goes on as if its condition were true. -/
theorem execute_forLoop (condition increment : Option Expr) (body : Stmt) :
    execute setting (n + 1) held (.forLoop none condition increment body) = (do
      let v ← evaluateOr setting n held (.boolean true) condition
      if v.isTruthy then
        match ← execute setting n held body with
        | .ret v => pure (.ret v)
        | .normal => do
          let _ ← evaluateOr setting n held .null increment
          execute setting n held (.forLoop none condition increment body)
      else
        pure .normal) := by
  cases condition <;> cases increment <;> rw [execute] <;> rfl

end Scriptlet

import Scriptlet.Grammar.Rule
import Scriptlet.Tree.Basic

/-!
# Rules for expressions

From loosest to tightest: assignment, `or`, `and`, equality, comparison, sums, products, unary
operators, calls, and the primary expressions. Each rule is written over the rules that are one
level of nesting deeper, so the nesting limit is the height of a tower of rules and no rule calls
itself.
-/

namespace Scriptlet

/-- The rules for expressions that may be entered at one level of nesting. -/
structure ExprRules where
  expression : Rule Expr
  /-- The operand of a unary operator. -/
  operand : Rule Expr

namespace ExprRules

/-- The rules where no further nesting is allowed. -/
def exhausted : ExprRules where
  expression := .fail .tooDeep
  operand := .fail .tooDeep

open Rule

/-- Operands joined by the operators of one level, grouped to the left. -/
def chain (marks : List Mark) (node : Expr → Token → Expr → Expr) (operand : Rule Expr) :
    Rule Expr := do
  let first ← operand
  iterate (fun left => do
    match ← acceptAny marks with
    | some operator => do
      let right ← operand
      pure (node left operator right, true)
    | none => pure (left, false)) first

/-- Literals, names and expressions in parentheses. -/
def primary (deeper : ExprRules) : Rule Expr := do
  match ← peek? with
  | some t =>
    match t.kind with
    | .number x => do skip; pure (.literal (.number x))
    | .string contents => do skip; pure (.literal (.string contents))
    | .mark .kwFalse => do skip; pure (.literal (.boolean false))
    | .mark .kwTrue => do skip; pure (.literal (.boolean true))
    | .mark .kwNull => do skip; pure (.literal .null)
    | .mark .identifier => do skip; pure (.var t)
    | .mark .leftParen => do
      skip
      let inner ← deeper.expression
      let _ ← expect .rightParen .parenAfterExpression
      pure (.group inner)
    | .mark _ => fail (.expected .expression)
  | none => fail (.expected .expression)

/-- The arguments of a call up to its closing parenthesis. -/
def arguments (deeper : ExprRules) : Rule (List Expr) := do
  if ← nextIs .rightParen then
    pure []
  else
    iterate (fun args => do
      if maxArity ≤ args.length then
        noteHere .tooManyArguments
      let arg ← deeper.expression
      let comma ← accept .comma
      pure (args ++ [arg], comma.isSome)) []

/-- A primary expression and the calls that follow it. -/
def call (deeper : ExprRules) : Rule Expr := do
  let first ← primary deeper
  iterate (fun callee => do
    match ← accept .leftParen with
    | some _ => do
      let args ← arguments deeper
      let paren ← expect .rightParen .parenAfterArguments
      pure (.call callee paren args, true)
    | none => pure (callee, false)) first

/-- A call behind any number of unary operators. -/
def unary (deeper : ExprRules) : Rule Expr := do
  match ← acceptAny [.bang, .minus] with
  | some operator => do
    let operand ← deeper.operand
    pure (.unary operator operand)
  | none => call deeper

/-- The levels of binary operators, from products out to `or`. -/
def operators (deeper : ExprRules) : Rule Expr :=
  chain [.kwOr] .logical <|
  chain [.kwAnd] .logical <|
  chain [.bangEqual, .equalEqual] .binary <|
  chain [.greater, .greaterEqual, .less, .lessEqual] .binary <|
  chain [.minus, .plus] .binary <|
  chain [.star, .slash] .binary <|
  unary deeper

/-- An expression, possibly the target of an assignment. A target that is no name is noted after the
assigned value has been read, and stands for the whole assignment. -/
def assignment (deeper : ExprRules) : Rule Expr := do
  let target ← operators deeper
  match ← accept .equal with
  | some equals => do
    let value ← deeper.expression
    match target with
    | .var name => pure (.assign name value)
    | _ => do
      note ⟨some equals, .invalidTarget⟩
      pure target
  | none => pure target

/-- The rules one level further out than the given ones. -/
def outer (deeper : ExprRules) : ExprRules where
  expression := assignment deeper
  operand := unary deeper

end ExprRules

end Scriptlet

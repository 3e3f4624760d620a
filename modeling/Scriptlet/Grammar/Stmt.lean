import Scriptlet.Grammar.Expr

/-!
# Rules for statements

Declarations and statements, again over the rules that are one level of nesting deeper. A
declaration never fails: a fatal complaint becomes a note, and reading goes on where the next
statement may start.
-/

namespace Scriptlet

/-- All rules that may be entered at one level of nesting. -/
structure Grammar extends ExprRules where
  /-- One declaration, or nothing if it was malformed. -/
  declaration : Rule (Option Stmt)
  statement : Rule Stmt

namespace Grammar

/-- The marks that start a statement. -/
def statementMarks : List Mark :=
  [.kwFunction, .kwVar, .kwFor, .kwIf, .kwWhile, .kwPrint, .kwReturn]

/-- Drops tokens until a semicolon has just been dropped or a statement starts. -/
def settle (previous : Token) : List Token → List Token
  | [] => []
  | t :: ts =>
    if previous.is .semicolon || statementMarks.any fun m => t.is m then t :: ts else settle t ts

/-- Where reading goes on after a fatal complaint: the offending token is dropped, and then tokens
up to the next place where a statement may start. -/
def resume : List Token → List Token
  | [] => []
  | t :: ts => settle t ts

theorem settle_suffix (previous : Token) (ts : List Token) : settle previous ts <:+ ts := by
  induction ts generalizing previous with
  | nil => exact List.suffix_rfl
  | cons t ts ih =>
    unfold settle
    split
    · exact List.suffix_rfl
    · exact (ih t).trans (List.suffix_cons t ts)

theorem resume_suffix (ts : List Token) : resume ts <:+ ts := by
  cases ts with
  | nil => exact List.suffix_rfl
  | cons t ts => exact (settle_suffix t ts).trans (List.suffix_cons t ts)

theorem resume_length_lt {ts : List Token} (h : ts ≠ []) : (resume ts).length < ts.length := by
  cases ts with
  | nil => exact absurd rfl h
  | cons t ts => exact Nat.lt_succ_of_le (settle_suffix t ts).length_le

/-- Turns a fatal complaint into a note and resumes behind the malformed part. -/
def recovering (r : Rule Stmt) : Rule (Option Stmt) where
  run ts :=
    match r.run ts with
    | ⟨.ok s, rest, notes, moved⟩ => ⟨.ok (some s), rest, notes, moved⟩
    | ⟨.error e, rest, notes, moved⟩ =>
      ⟨.ok none, resume rest, notes ++ [e], moved || !rest.isEmpty⟩
  suffix ts := by
    have hr := r.suffix ts
    split
    · rename_i heq
      rwa [heq] at hr
    · rename_i rest notes moved heq
      rw [heq] at hr
      exact (resume_suffix rest).trans hr
  moved_iff ts := by
    have hr := r.suffix ts
    have hm := r.moved_iff ts
    split
    · rename_i heq
      rwa [heq] at hm
    · rename_i rest notes moved heq
      rw [heq] at hr hm
      have hl : rest.isEmpty = false ↔ (resume rest).length < rest.length := by
        cases rest with
        | nil => simp [resume]
        | cons t ts => simpa using resume_length_lt (List.cons_ne_nil t ts)
      simp only [Bool.or_eq_true, Bool.not_eq_true', hm, hl]
      exact (Rule.length_lt_iff (resume_suffix rest) hr).symm

/-- The rules where no further nesting is allowed. -/
def exhausted : Grammar where
  toExprRules := .exhausted
  declaration := recovering (.fail .tooDeep)
  statement := .fail .tooDeep

open Rule

variable (deeper : Grammar)

/-- Declarations as long as the next token lets the list go on. They are collected in reverse. -/
def declarations (goesOn : Token → Bool) : Rule (List Stmt) :=
  List.reverse <$> iterate (fun stmts => do
    match ← peek? with
    | some t =>
      if goesOn t then
        match ← deeper.declaration with
        | some s => pure (s :: stmts, true)
        | none => pure (stmts, true)
      else
        pure (stmts, false)
    | none => pure (stmts, false)) []

/-- The rest of a block behind its opening brace. -/
def block : Rule (List Stmt) := do
  let body ← declarations deeper fun t => !t.is .rightBrace
  let _ ← expect .rightBrace .braceAfterBlock
  pure body

/-- The parameters of a function up to the closing parenthesis. -/
def parameters : Rule (List Token) := do
  if ← nextIs .rightParen then
    pure []
  else
    iterate (fun params => do
      if maxArity ≤ params.length then
        noteHere .tooManyParameters
      let param ← expect .identifier .parameterName
      let comma ← accept .comma
      pure (params ++ [param], comma.isSome)) []

/-- A function declaration behind its keyword. -/
def function : Rule Stmt := do
  let name ← expect .identifier .functionName
  let _ ← expect .leftParen .parenAfterFunctionName
  let params ← parameters
  let _ ← expect .rightParen .parenAfterParameters
  let _ ← expect .leftBrace .braceBeforeBody
  let body ← block deeper
  pure (.function name params body)

/-- A variable declaration behind its keyword. -/
def variableDeclaration : Rule Stmt := do
  let name ← expect .identifier .variableName
  let initializer ← do
    match ← accept .equal with
    | some _ => some <$> deeper.expression
    | none => pure none
  let _ ← expect .semicolon .semicolonAfterVariable
  pure (.var name initializer)

/-- An expression and its semicolon. -/
def expressionStatement : Rule Stmt := do
  let e ← deeper.expression
  let _ ← expect .semicolon .semicolonAfterExpression
  pure (.expression e)

/-- An expression, unless the given mark comes next. -/
def optionalExpression (stop : Mark) : Rule (Option Expr) := do
  if ← nextIs stop then
    pure none
  else
    some <$> deeper.expression

/-- The first clause of a loop header with its semicolon. -/
def forInitializer : Rule (Option Stmt) := do
  match ← acceptAny [.semicolon, .kwVar] with
  | some t =>
    if t.is .semicolon then
      pure none
    else
      some <$> variableDeclaration deeper
  | none => some <$> expressionStatement deeper

/-- A counting loop behind its keyword. -/
def forStatement : Rule Stmt := do
  let _ ← expect .leftParen .parenAfterFor
  let initializer ← forInitializer deeper
  let condition ← optionalExpression deeper .semicolon
  let _ ← expect .semicolon .semicolonAfterLoopCondition
  let increment ← optionalExpression deeper .rightParen
  let _ ← expect .rightParen .parenAfterForClauses
  let body ← deeper.statement
  pure (.forLoop initializer condition increment body)

/-- A conditional behind its keyword. -/
def ifStatement : Rule Stmt := do
  let _ ← expect .leftParen .parenAfterIf
  let condition ← deeper.expression
  let _ ← expect .rightParen .parenAfterIfCondition
  let thenBranch ← deeper.statement
  match ← accept .kwElse with
  | some _ => do
    let elseBranch ← deeper.statement
    pure (.ifElse condition thenBranch (some elseBranch))
  | none => pure (.ifElse condition thenBranch none)

/-- A print statement behind its keyword. -/
def printStatement : Rule Stmt := do
  let e ← deeper.expression
  let _ ← expect .semicolon .semicolonAfterValue
  pure (.print e)

/-- A return statement behind its keyword. -/
def returnStatement (keyword : Token) : Rule Stmt := do
  let value ← optionalExpression deeper .semicolon
  let _ ← expect .semicolon .semicolonAfterReturn
  pure (.ret keyword value)

/-- A conditional loop behind its keyword. -/
def whileStatement : Rule Stmt := do
  let _ ← expect .leftParen .parenAfterWhile
  let condition ← deeper.expression
  let _ ← expect .rightParen .parenAfterCondition
  let body ← deeper.statement
  pure (.whileLoop condition body)

/-- A statement that is no declaration. -/
def plainStatement : Rule Stmt := do
  match ← acceptAny [.kwFor, .kwIf, .kwPrint, .kwReturn, .kwWhile, .leftBrace] with
  | some t =>
    match t.kind with
    | .mark .kwFor => forStatement deeper
    | .mark .kwIf => ifStatement deeper
    | .mark .kwPrint => printStatement deeper
    | .mark .kwReturn => returnStatement deeper t
    | .mark .kwWhile => whileStatement deeper
    | _ => .block <$> block deeper
  | none => expressionStatement deeper

/-- A declaration or a statement. -/
def anyDeclaration : Rule Stmt := do
  match ← acceptAny [.kwFunction, .kwVar] with
  | some t => if t.is .kwFunction then function deeper else variableDeclaration deeper
  | none => deeper.statement

/-- The rules one level further out than the given ones. -/
def outer : Grammar where
  toExprRules := deeper.toExprRules.outer
  declaration := recovering (anyDeclaration deeper)
  statement := plainStatement deeper

/-- The rules that leave room for the given number of levels. -/
def ofDepth : Nat → Grammar
  | 0 => exhausted
  | n + 1 => (ofDepth n).outer

end Grammar

end Scriptlet

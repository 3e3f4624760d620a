import Scriptlet.Token.Basic

/-!
# Syntax trees

Expressions and statements. A node keeps the tokens that a later error may have to point at: names,
operators, the closing parenthesis of a call and the keyword of a return.
-/

namespace Scriptlet

/-- A constant written in a script. -/
inductive Literal
  | number (value : Float)
  | string (contents : String)
  | boolean (value : Bool)
  | null

/-- An expression. -/
inductive Expr
  | literal (value : Literal)
  | var (name : Token)
  | assign (name : Token) (value : Expr)
  | unary (operator : Token) (operand : Expr)
  | binary (left : Expr) (operator : Token) (right : Expr)
  /-- An operator that may leave its right operand unevaluated. -/
  | logical (left : Expr) (operator : Token) (right : Expr)
  /-- An expression in parentheses. -/
  | group (inner : Expr)
  /-- A call, with its closing parenthesis. -/
  | call (callee : Expr) (paren : Token) (arguments : List Expr)

/-- A statement or declaration. -/
inductive Stmt
  | expression (e : Expr)
  | print (e : Expr)
  | var (name : Token) (initializer : Option Expr)
  | block (body : List Stmt)
  | function (name : Token) (params : List Token) (body : List Stmt)
  | ifElse (condition : Expr) (thenBranch : Stmt) (elseBranch : Option Stmt)
  | whileLoop (condition : Expr) (body : Stmt)
  | forLoop (initializer : Option Stmt) (condition increment : Option Expr) (body : Stmt)
  | ret (keyword : Token) (value : Option Expr)

/-- What a function declaration says: a name, parameters and a body. -/
structure FunctionDecl where
  name : Token
  params : List Token
  body : List Stmt

end Scriptlet

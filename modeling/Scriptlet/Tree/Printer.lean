import Scriptlet.Decimal.Layout
import Scriptlet.Tree.Basic

/-!
# Trees in prefix form

Every node is written as a parenthesised list that starts with its operator or keyword, so that the
shape of a tree can be read off its text: `(+ 1 (* 2 3))`.
-/

namespace Scriptlet

/-- The text of a literal; strings are quoted and nothing in them is escaped. -/
def Literal.render : Literal → String
  | .number x => Decimal.numberText x
  | .string contents => "\"" ++ contents ++ "\""
  | .boolean true => "true"
  | .boolean false => "false"
  | .null => "null"

namespace Expr

mutual

/-- An expression in prefix form. -/
def render : Expr → String
  | .literal value => value.render
  | .var name => name.lexeme
  | .assign name value => "(= " ++ name.lexeme ++ " " ++ render value ++ ")"
  | .unary operator operand => "(" ++ operator.lexeme ++ " " ++ render operand ++ ")"
  | .binary left operator right =>
    "(" ++ operator.lexeme ++ " " ++ render left ++ " " ++ render right ++ ")"
  | .logical left operator right =>
    "(" ++ operator.lexeme ++ " " ++ render left ++ " " ++ render right ++ ")"
  | .group inner => "(group " ++ render inner ++ ")"
  | .call callee _ arguments => "(call " ++ render callee ++ renderEach arguments ++ ")"

/-- Expressions in prefix form, each after a space. -/
def renderEach : List Expr → String
  | [] => ""
  | e :: rest => " " ++ render e ++ renderEach rest

end

/-- An optional expression in prefix form, with a placeholder for its absence. -/
def renderOr (placeholder : String) : Option Expr → String
  | some e => e.render
  | none => placeholder

end Expr

namespace Stmt

mutual

/-- A statement in prefix form. -/
def render : Stmt → String
  | .expression e => "(; " ++ e.render ++ ")"
  | .print e => "(print " ++ e.render ++ ")"
  | .var name (some e) => "(var " ++ name.lexeme ++ " " ++ e.render ++ ")"
  | .var name none => "(var " ++ name.lexeme ++ ")"
  | .block body => "(block" ++ renderEach body ++ ")"
  | .function name params body =>
    "(fun " ++ name.lexeme ++ " (" ++ " ".intercalate (params.map (·.lexeme)) ++ ")" ++
      renderEach body ++ ")"
  | .ifElse condition thenBranch elseBranch =>
    "(if " ++ condition.render ++ " " ++ render thenBranch ++ renderElse elseBranch ++ ")"
  | .whileLoop condition body => "(while " ++ condition.render ++ " " ++ render body ++ ")"
  | .forLoop initializer condition increment body =>
    "(for " ++ renderInitializer initializer ++ " " ++ Expr.renderOr "_" condition ++ " " ++
      Expr.renderOr "_" increment ++ " " ++ render body ++ ")"
  | .ret _ (some e) => "(return " ++ e.render ++ ")"
  | .ret _ none => "(return)"

/-- Statements in prefix form, each after a space. -/
def renderEach : List Stmt → String
  | [] => ""
  | s :: rest => " " ++ render s ++ renderEach rest

/-- The second branch of a conditional after a space, if there is one. -/
def renderElse : Option Stmt → String
  | some s => " " ++ render s
  | none => ""

/-- The initializer of a loop, or an underscore. -/
def renderInitializer : Option Stmt → String
  | some s => render s
  | none => "_"

end

end Stmt

end Scriptlet

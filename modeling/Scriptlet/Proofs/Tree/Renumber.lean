import Scriptlet.Error
import Scriptlet.Tree.Basic

/-!
# Renumbering lines

A function on line numbers acts on everything that carries them: tokens, trees and errors. Nothing
but the lines changes, and acting twice is acting by the composed function.
-/

namespace Scriptlet

variable (f g : Nat → Nat)

/-- The same token on another line. -/
def Token.renumber (t : Token) : Token := { t with line := f t.line }

namespace Token

@[simp] theorem kind_renumber (t : Token) : (t.renumber f).kind = t.kind := rfl

@[simp] theorem lexeme_renumber (t : Token) : (t.renumber f).lexeme = t.lexeme := rfl

@[simp] theorem line_renumber (t : Token) : (t.renumber f).line = f t.line := rfl

@[simp] theorem is_renumber (m : Mark) (t : Token) : (t.renumber f).is m = t.is m := rfl

@[simp] theorem renumber_renumber (t : Token) :
    (t.renumber f).renumber g = t.renumber (g ∘ f) := rfl

@[simp] theorem renumber_id : Token.renumber id = id := rfl

end Token

/-- The same expression with its tokens on other lines. -/
def Expr.renumber : Expr → Expr
  | .literal value => .literal value
  | .var name => .var (name.renumber f)
  | .assign name value => .assign (name.renumber f) value.renumber
  | .unary operator operand => .unary (operator.renumber f) operand.renumber
  | .binary left operator right => .binary left.renumber (operator.renumber f) right.renumber
  | .logical left operator right => .logical left.renumber (operator.renumber f) right.renumber
  | .group inner => .group inner.renumber
  | .call callee paren arguments =>
    .call callee.renumber (paren.renumber f) (arguments.map fun a => a.renumber)

/-- The same statement with its tokens on other lines. -/
def Stmt.renumber : Stmt → Stmt
  | .expression e => .expression (e.renumber f)
  | .print e => .print (e.renumber f)
  | .var name initializer => .var (name.renumber f) (initializer.map (Expr.renumber f))
  | .block body => .block (body.map fun s => s.renumber)
  | .function name params body =>
    .function (name.renumber f) (params.map (Token.renumber f)) (body.map fun s => s.renumber)
  | .ifElse condition thenBranch none => .ifElse (condition.renumber f) thenBranch.renumber none
  | .ifElse condition thenBranch (some elseBranch) =>
    .ifElse (condition.renumber f) thenBranch.renumber (some elseBranch.renumber)
  | .whileLoop condition body => .whileLoop (condition.renumber f) body.renumber
  | .forLoop none condition increment body =>
    .forLoop none (condition.map (Expr.renumber f)) (increment.map (Expr.renumber f)) body.renumber
  | .forLoop (some initializer) condition increment body =>
    .forLoop (some initializer.renumber) (condition.map (Expr.renumber f))
      (increment.map (Expr.renumber f)) body.renumber
  | .ret keyword value => .ret (keyword.renumber f) (value.map (Expr.renumber f))

namespace Expr

@[simp] theorem renumber_renumber (e : Expr) : (e.renumber f).renumber g = e.renumber (g ∘ f) := by
  induction e using Expr.renumber.induct with
  | _ => simp_all [renumber]

@[simp] theorem renumber_id : renumber id = id := by
  funext e
  induction e using Expr.renumber.induct with
  | case8 callee paren arguments ihc iha => simp [renumber, ihc, List.map_congr_left iha]
  | _ => simp_all [renumber]

end Expr

namespace Stmt

@[simp] theorem renumber_ifElse (condition : Expr) (thenBranch : Stmt) (elseBranch : Option Stmt) :
    (ifElse condition thenBranch elseBranch).renumber f =
      .ifElse (condition.renumber f) (thenBranch.renumber f) (elseBranch.map (renumber f)) := by
  cases elseBranch <;> simp [renumber]

@[simp] theorem renumber_forLoop (initializer : Option Stmt) (condition increment : Option Expr)
    (body : Stmt) : (forLoop initializer condition increment body).renumber f =
      .forLoop (initializer.map (renumber f)) (condition.map (Expr.renumber f))
        (increment.map (Expr.renumber f)) (body.renumber f) := by
  cases initializer <;> simp [renumber]

@[simp] theorem renumber_renumber (s : Stmt) : (s.renumber f).renumber g = s.renumber (g ∘ f) := by
  induction s using Stmt.renumber.induct with
  | _ => simp_all [renumber, Function.comp_def]

@[simp] theorem renumber_id : renumber id = id := by
  funext s
  induction s using Stmt.renumber.induct with
  | case4 body ih => simp [renumber, List.map_congr_left ih]
  | case5 name params body ih => simp [renumber, List.map_congr_left ih]
  | _ => simp_all [renumber]

end Stmt

/-- The same declaration with its tokens on other lines. -/
def FunctionDecl.renumber (d : FunctionDecl) : FunctionDecl :=
  ⟨d.name.renumber f, d.params.map (Token.renumber f), d.body.map (Stmt.renumber f)⟩

@[simp] theorem FunctionDecl.renumber_renumber (d : FunctionDecl) :
    (d.renumber f).renumber g = d.renumber (g ∘ f) := by
  simp [renumber, Function.comp_def]

@[simp] theorem FunctionDecl.renumber_id : FunctionDecl.renumber id = id := by
  funext d
  simp [renumber]

/-- The same error at another line. -/
def Error.renumber : Error → Error
  | lex fault line => lex fault (f line)
  | parse site complaint line => parse site complaint (f line)
  | runtime fault line => runtime fault (f line)
  | sinkFull => sinkFull

namespace Error

@[simp] theorem renumber_renumber (e : Error) :
    (e.renumber f).renumber g = e.renumber (g ∘ f) := by
  cases e <;> rfl

@[simp] theorem renumber_id : renumber id = id := by
  funext e
  cases e <;> rfl

/-- The text of an error mentions its line only if it was found in the text of the script. -/
theorem message_renumber {e : Error} (he : ∀ fault line, e ≠ .lex fault line) :
    (e.renumber f).message = e.message := by
  cases e with
  | lex fault line => exact absurd rfl (he fault line)
  | parse site complaint line => cases site <;> rfl
  | runtime fault line => rfl
  | sinkFull => rfl

end Error

end Scriptlet

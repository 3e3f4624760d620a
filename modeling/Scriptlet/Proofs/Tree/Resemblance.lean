import Mathlib.Data.List.Forall2
import Mathlib.Data.Option.Basic
import Scriptlet.Tree.Basic

/-!
# Trees that resemble each other

A resemblance relates trees that are to be run side by side. Of two trees in it the nodes are of one
kind and their parts resemble each other, except that either tree may have parentheses that the
other has not, and that what stands behind a return in a list of statements is not compared. One
layer of this is stated for arbitrary relations of the parts, so a resemblance may be any relation
that can be followed from layer to layer.
-/

namespace Scriptlet

/-- Expressions of one kind, other than parentheses, with related parts. -/
inductive Expr.Node (E : Expr → Expr → Prop) : Expr → Expr → Prop
  | literal (value : Literal) : Node E (.literal value) (.literal value)
  | var (name : Token) : Node E (.var name) (.var name)
  | assign (name : Token) {value value' : Expr} :
      E value value' → Node E (.assign name value) (.assign name value')
  | unary (operator : Token) {operand operand' : Expr} :
      E operand operand' → Node E (.unary operator operand) (.unary operator operand')
  | binary (operator : Token) {left left' right right' : Expr} :
      E left left' → E right right' →
      Node E (.binary left operator right) (.binary left' operator right')
  | logical (operator : Token) {left left' right right' : Expr} :
      E left left' → E right right' →
      Node E (.logical left operator right) (.logical left' operator right')
  | call (paren : Token) {callee callee' : Expr} {arguments arguments' : List Expr} :
      E callee callee' → List.Forall₂ E arguments arguments' →
      Node E (.call callee paren arguments) (.call callee' paren arguments')

/-- Expressions that are alike but for parentheses around them, with related parts. -/
inductive Expr.Layer (E : Expr → Expr → Prop) : Expr → Expr → Prop
  | node {e e' : Expr} : Node E e e' → Layer E e e'
  | group {e e' : Expr} : E e e' → Layer E (.group e) (.group e')
  | groupLeft {e e' : Expr} : E e e' → Layer E (.group e) e'
  | groupRight {e e' : Expr} : E e e' → Layer E e (.group e')

/-- Statements of one kind with related parts; `B` relates the bodies of blocks and functions. A
`for` with an initializer goes on as the one without. -/
inductive Stmt.Layer (E : Expr → Expr → Prop) (S : Stmt → Stmt → Prop)
    (B : List Stmt → List Stmt → Prop) : Stmt → Stmt → Prop
  | expression {e e' : Expr} : E e e' → Layer E S B (.expression e) (.expression e')
  | print {e e' : Expr} : E e e' → Layer E S B (.print e) (.print e')
  | var (name : Token) {initializer initializer' : Option Expr} :
      Option.Rel E initializer initializer' →
      Layer E S B (.var name initializer) (.var name initializer')
  | block {body body' : List Stmt} : B body body' → Layer E S B (.block body) (.block body')
  | function (name : Token) (params : List Token) {body body' : List Stmt} :
      B body body' → Layer E S B (.function name params body) (.function name params body')
  | ifElse {condition condition' : Expr} {thenBranch thenBranch' : Stmt}
      {elseBranch elseBranch' : Option Stmt} :
      E condition condition' → S thenBranch thenBranch' → Option.Rel S elseBranch elseBranch' →
      Layer E S B (.ifElse condition thenBranch elseBranch)
        (.ifElse condition' thenBranch' elseBranch')
  | whileLoop {condition condition' : Expr} {body body' : Stmt} :
      E condition condition' → S body body' →
      Layer E S B (.whileLoop condition body) (.whileLoop condition' body')
  | forEntry {initializer initializer' : Stmt} {condition condition' increment increment' :
      Option Expr} {body body' : Stmt} :
      S initializer initializer' →
      S (.forLoop none condition increment body) (.forLoop none condition' increment' body') →
      Layer E S B (.forLoop (some initializer) condition increment body)
        (.forLoop (some initializer') condition' increment' body')
  | forLoop {condition condition' increment increment' : Option Expr} {body body' : Stmt} :
      Option.Rel E condition condition' → Option.Rel E increment increment' → S body body' →
      Layer E S B (.forLoop none condition increment body)
        (.forLoop none condition' increment' body')
  | ret (keyword : Token) {value value' : Option Expr} :
      Option.Rel E value value' → Layer E S B (.ret keyword value) (.ret keyword value')

/-- Lists of statements that are alike up to the first return, with related parts. -/
inductive Stmt.ListLayer (S : Stmt → Stmt → Prop) (B : List Stmt → List Stmt → Prop) :
    List Stmt → List Stmt → Prop
  | nil : ListLayer S B [] []
  | cons {s s' : Stmt} {ss ss' : List Stmt} :
      S s s' → B ss ss' → ListLayer S B (s :: ss) (s' :: ss')
  | ret {keyword keyword' : Token} {value value' : Option Expr} {ss ss' : List Stmt} :
      S (.ret keyword value) (.ret keyword' value') →
      ListLayer S B (.ret keyword value :: ss) (.ret keyword' value' :: ss')

/-- Relations of trees, and of lists of statements, that hold of the parts of related trees. -/
structure Resemblance where
  expr : Expr → Expr → Prop
  stmt : Stmt → Stmt → Prop
  body : List Stmt → List Stmt → Prop
  expr_layer : ∀ {e e' : Expr}, expr e e' → Expr.Layer expr e e'
  stmt_layer : ∀ {s s' : Stmt}, stmt s s' → Stmt.Layer expr stmt body s s'
  body_layer : ∀ {ss ss' : List Stmt}, body ss ss' → Stmt.ListLayer stmt body ss ss'
  body_refl : ∀ ss, body ss ss

namespace Resemblance

theorem optionRel_refl {α : Type} {R : α → α → Prop} (hR : ∀ a, R a a) (o : Option α) :
    Option.Rel R o o := by
  cases o with
  | none => exact .none
  | some a => exact .some (hR a)

theorem optionRel_of_map_eq {α β : Type} {f : α → β} {o o' : Option α} (h : o.map f = o'.map f) :
    Option.Rel (fun a a' => f a = f a') o o' := by
  cases o with
  | none =>
    cases o' with
    | none => exact .none
    | some a' => cases h
  | some a =>
    cases o' with
    | none => cases h
    | some a' => exact .some (Option.some.inj h)

/-- Every tree resembles itself. -/
def same : Resemblance where
  expr := Eq
  stmt := Eq
  body := Eq
  expr_layer := by
    rintro e _ rfl
    cases e with
    | literal value => exact .node (.literal value)
    | var name => exact .node (.var name)
    | assign name value => exact .node (.assign name rfl)
    | unary operator operand => exact .node (.unary operator rfl)
    | binary left operator right => exact .node (.binary operator rfl rfl)
    | logical left operator right => exact .node (.logical operator rfl rfl)
    | group inner => exact .group rfl
    | call callee paren arguments =>
      exact .node (.call paren rfl (List.forall₂_eq_eq_eq ▸ rfl))
  stmt_layer := by
    have refl : ∀ {α : Type} (o : Option α), Option.Rel Eq o o := optionRel_refl fun _ => rfl
    rintro s _ rfl
    cases s with
    | expression e => exact .expression rfl
    | print e => exact .print rfl
    | var name initializer => exact .var name (refl _)
    | block body => exact .block rfl
    | function name params body => exact .function name params rfl
    | ifElse condition thenBranch elseBranch => exact .ifElse rfl rfl (refl _)
    | whileLoop condition body => exact .whileLoop rfl rfl
    | forLoop initializer condition increment body =>
      cases initializer with
      | none => exact .forLoop (refl _) (refl _) rfl
      | some s => exact .forEntry rfl rfl
    | ret keyword value => exact .ret keyword (refl _)
  body_layer := by
    rintro ss _ rfl
    cases ss with
    | nil => exact .nil
    | cons s ss => exact .cons rfl rfl
  body_refl _ := rfl

end Resemblance

end Scriptlet

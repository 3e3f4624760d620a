import Scriptlet.Proofs.Decimal.Text
import Scriptlet.Proofs.Tree.Form
import Scriptlet.Proofs.Tree.Induction
import Scriptlet.Proofs.Tree.Renumber
import Scriptlet.Tree.Printer

/-!
# The printed form of a tree

The text of a tree is that of a form with the node's operator or keyword as its first atom. A
missing clause of a loop header stands there as an underscore, and so does the name that consists
of one.
-/

namespace Scriptlet

/-! ### The forms of trees -/

/-- The form of an expression. -/
def Expr.form : Expr → Form
  | .literal value => .atom value.render
  | .var name => .atom name.lexeme
  | .assign name value => .list [.atom "=", .atom name.lexeme, value.form]
  | .unary operator operand => .list [.atom operator.lexeme, operand.form]
  | .binary left operator right => .list [.atom operator.lexeme, left.form, right.form]
  | .logical left operator right => .list [.atom operator.lexeme, left.form, right.form]
  | .group inner => .list [.atom "group", inner.form]
  | .call callee _ arguments => .list (.atom "call" :: callee.form :: arguments.map fun a => a.form)

/-- The form of a clause of a loop header. -/
def Expr.clauseForm (e : Option Expr) : Form := (e.map Expr.form).getD (.atom "_")

/-- The form of a statement. -/
def Stmt.form : Stmt → Form
  | .expression e => .list [.atom ";", e.form]
  | .print e => .list [.atom "print", e.form]
  | .var name initializer =>
    .list (.atom "var" :: .atom name.lexeme :: (initializer.map Expr.form).toList)
  | .block body => .list (.atom "block" :: body.map fun s => s.form)
  | .function name params body =>
    .list (.atom "fun" :: .atom name.lexeme :: .list (params.map fun p => .atom p.lexeme) ::
      body.map fun s => s.form)
  | .ifElse condition thenBranch none => .list [.atom "if", condition.form, thenBranch.form]
  | .ifElse condition thenBranch (some elseBranch) =>
    .list [.atom "if", condition.form, thenBranch.form, elseBranch.form]
  | .whileLoop condition body => .list [.atom "while", condition.form, body.form]
  | .forLoop none condition increment body =>
    .list [.atom "for", .atom "_", Expr.clauseForm condition, Expr.clauseForm increment, body.form]
  | .forLoop (some initializer) condition increment body =>
    .list [.atom "for", initializer.form, Expr.clauseForm condition, Expr.clauseForm increment,
      body.form]
  | .ret _ value => .list (.atom "return" :: (value.map Expr.form).toList)

@[simp] theorem Stmt.form_ifElse (condition : Expr) (thenBranch : Stmt) (elseBranch : Option Stmt) :
    (Stmt.ifElse condition thenBranch elseBranch).form =
      .list (.atom "if" :: condition.form :: thenBranch.form ::
        (elseBranch.map Stmt.form).toList) := by
  cases elseBranch <;> rw [form] <;> rfl

@[simp] theorem Stmt.form_forLoop (initializer : Option Stmt) (condition increment : Option Expr)
    (body : Stmt) : (Stmt.forLoop initializer condition increment body).form =
      .list [.atom "for", (initializer.map Stmt.form).getD (.atom "_"), Expr.clauseForm condition,
        Expr.clauseForm increment, body.form] := by
  cases initializer <;> rw [form] <;> rfl

namespace Form

@[simp] theorem textEach_nil : textEach [] = [] := rfl

@[simp] theorem textEach_cons (x : Form) (xs : List Form) :
    textEach (x :: xs) = ' ' :: (x.text ++ textEach xs) := rfl

@[simp] theorem text_atom (s : String) : (atom s).text = s.toList := by rw [text]

end Form

theorem Expr.toList_render (e : Expr) : e.render.toList = e.form.text := by
  have heach (es : List Expr) (ih : ∀ e ∈ es, e.render.toList = e.form.text) :
      (renderEach es).toList = Form.textEach (es.map fun e => e.form) := by
    induction es with
    | nil => rfl
    | cons e es ihes =>
      obtain ⟨he, hes⟩ := List.forall_mem_cons.1 ih
      simp [renderEach, he, ihes hes]
  induction e using Expr.tree_induction with
  | call callee paren arguments ihcallee ihargs =>
    simp [render, form, Form.text_list, ihcallee, heach arguments ihargs]
  | literal value => simp [render, form]
  | var name => simp [render, form]
  | assign name value ih => simp [render, form, Form.text_list, ih]
  | unary operator operand ih => simp [render, form, Form.text_list, ih]
  | binary left operator right ihl ihr => simp [render, form, Form.text_list, ihl, ihr]
  | logical left operator right ihl ihr => simp [render, form, Form.text_list, ihl, ihr]
  | group inner ih => simp [render, form, Form.text_list, ih]

theorem Expr.toList_renderOr (e : Option Expr) :
    (Expr.renderOr "_" e).toList = (Expr.clauseForm e).text := by
  cases e with
  | none => simp [renderOr, clauseForm]
  | some e => simp [renderOr, clauseForm, toList_render]

theorem toList_intercalate_lexemes (params : List Token) :
    (" ".intercalate (params.map (·.lexeme))).toList =
      (Form.textEach (params.map fun p => .atom p.lexeme)).tail := by
  cases params with
  | nil => rfl
  | cons p params =>
    rw [List.map_cons, List.map_cons, Form.textEach_cons, List.tail_cons]
    induction params generalizing p with
    | nil => simp
    | cons q params ih =>
      rw [List.map_cons, String.intercalate_cons_cons, String.toList_append, String.toList_append,
        ih q]
      simp

theorem Stmt.toList_render (s : Stmt) : s.render.toList = s.form.text := by
  have heach (ss : List Stmt) (ih : ∀ s ∈ ss, s.render.toList = s.form.text) :
      (renderEach ss).toList = Form.textEach (ss.map fun s => s.form) := by
    induction ss with
    | nil => simp [renderEach]
    | cons s ss ihss =>
      obtain ⟨hs, hss⟩ := List.forall_mem_cons.1 ih
      simp [renderEach, hs, ihss hss]
  induction s using Stmt.tree_induction with
  | expression e => simp [render, form, Form.text_list, Expr.toList_render]
  | print e => simp [render, form, Form.text_list, Expr.toList_render]
  | var name initializer =>
    cases initializer <;> simp [render, form, Form.text_list, Expr.toList_render]
  | block body ih => simp [render, form, Form.text_list, heach body ih]
  | function name params body ih =>
    simp only [render, String.toList_append, toList_intercalate_lexemes, heach body ih]
    simp [form, Form.text_list]
  | ifElse condition thenBranch elseBranch ihthen ihelse =>
    cases elseBranch with
    | none => simp [render, renderElse, Form.text_list, Expr.toList_render, ihthen]
    | some s => simp [render, renderElse, Form.text_list, Expr.toList_render, ihthen, ihelse s rfl]
  | whileLoop condition body ih => simp [render, form, Form.text_list, Expr.toList_render, ih]
  | forLoop initializer condition increment body ihinit ih =>
    cases initializer with
    | none => simp [render, renderInitializer, Form.text_list, Expr.toList_renderOr, ih]
    | some s =>
      simp [render, renderInitializer, Form.text_list, Expr.toList_renderOr, ih, ihinit s rfl]
  | ret keyword value =>
    cases value <;> simp [render, form, Form.text_list, Expr.toList_render]

end Scriptlet

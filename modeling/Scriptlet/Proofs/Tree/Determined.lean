import Scriptlet.Proofs.Tree.Legible

/-!
# Forms determine trees

A legible tree is known from its form but for what the form does not say: the lines of the tokens,
and whether a clause of a loop header is missing or the name `_`. `Stmt.cleared` takes both for a
missing clause.
-/

namespace Scriptlet

/-- What equal images under one function say of the images under another holds of whole lists. -/
theorem map_eq_map_of_imp {α β γ : Type} {f : α → β} {g : α → γ} {xs ys : List α}
    (h : ∀ x ∈ xs, ∀ y ∈ ys, f x = f y → g x = g y) (heq : xs.map f = ys.map f) :
    xs.map g = ys.map g := by
  induction xs generalizing ys with
  | nil => simp_all
  | cons x xs ih =>
    cases ys with
    | nil => cases heq
    | cons y ys =>
      obtain ⟨hx, hxs⟩ := List.cons.inj heq
      rw [List.map_cons, List.map_cons, h x (by simp) y (by simp) hx,
        ih (fun x hx y hy => h x (by simp [hx]) y (by simp [hy])) hxs]

theorem option_map_eq_map_of_imp {α β γ : Type} {f : α → β} {g : α → γ} {x y : Option α}
    (h : ∀ a ∈ x, ∀ b ∈ y, f a = f b → g a = g b) (heq : (x.map f).toList = (y.map f).toList) :
    x.map g = y.map g := by
  cases x <;> cases y <;> simp_all

/-! ### Expressions -/

namespace Expr

/-- What the head and the length of a form tell about the expression. -/
inductive Shape
  | leaf
  | assign
  | unary
  | binary
  | logical
  | group
  | call

/-- The shape of an expression. -/
def shape : Expr → Expr.Shape
  | .literal _ | .var _ => .leaf
  | .assign _ _ => .assign
  | .unary _ _ => .unary
  | .binary _ _ _ => .binary
  | .logical _ _ _ => .logical
  | .group _ => .group
  | .call _ _ _ => .call

/-- The shape of the expressions with a form. -/
def shapeOf : Form → Expr.Shape
  | .list (.atom head :: items) =>
    if head = "=" then .assign
    else if head = "group" then .group
    else if head = "call" then .call
    else if head = "or" ∨ head = "and" then .logical
    else if items.length = 1 then .unary
    else .binary
  | _ => .leaf

/-- Whether an expression is the name that a missing clause is written like. -/
def isUnderscore : Expr → Bool
  | .var name => name.lexeme = "_"
  | _ => false

variable {e e' : Expr}

@[simp] theorem isUnderscore_renumber (f : Nat → Nat) (e : Expr) :
    (e.renumber f).isUnderscore = e.isUnderscore := by
  cases e <;> rw [renumber] <;> rfl

@[simp] theorem form_renumber (f : Nat → Nat) (e : Expr) : (e.renumber f).form = e.form := by
  induction e using Expr.tree_induction with
  | call callee paren arguments ihcallee ihargs =>
    simp [renumber, form, ihcallee, Function.comp_def, List.map_congr_left ihargs]
  | _ => simp_all [renumber, form]

namespace Legible

theorem head_ne {m : Mark} {operator : Token} (hm : m ∈ unaryMarks ++ binaryMarks)
    (h : operator.WrittenAs m) :
    operator.lexeme ∉ ["=", "group", "call", "or", "and"] := by
  cases m <;> first
    | exact absurd hm (by decide)
    | rw [h.lexeme_eq rfl]; decide

theorem shapeOf_form (h : e.Legible) : shapeOf e.form = e.shape := by
  cases h with
  | unary hm hop =>
    have hhead := head_ne (List.mem_append_left _ hm) hop
    simp_all [form, shape, shapeOf]
  | binary hm hop =>
    have hhead := head_ne (List.mem_append_right _ hm) hop
    simp_all [form, shape, shapeOf]
  | @logical _ _ _ m hm hop =>
    have hmem : m = .kwOr ∨ m = .kwAnd := by simpa [logicalMarks] using hm
    rcases hmem with rfl | rfl <;> rw [form, hop.lexeme_eq rfl] <;> rfl
  | literal | var | assign | group | call =>
    rw [form]
    rfl

theorem shape_eq (h : e.Legible) (h' : e'.Legible) (heq : e.form = e'.form) :
    e.shape = e'.shape := by
  rw [← h.shapeOf_form, ← h'.shapeOf_form, heq]

/-- A legible expression is known from its form, but for the lines of its tokens. -/
theorem renumber_eq (h : e.Legible) (h' : e'.Legible) (heq : e.form = e'.form) :
    e.renumber (fun _ => 0) = e'.renumber fun _ => 0 := by
  have hshape := h.shape_eq h' heq
  induction h generalizing e' with
  | literal hv =>
    cases h' with
    | literal hv' =>
      simp only [form, Form.atom.injEq] at heq
      rw [hv.eq_of_render_eq hv' heq]
    | var hname =>
      simp only [form, Form.atom.injEq] at heq
      exact absurd heq (hv.render_ne_name hname)
    | _ => cases hshape
  | var hname =>
    cases h' with
    | literal hv =>
      simp only [form, Form.atom.injEq] at heq
      exact absurd heq.symm (hv.render_ne_name hname)
    | var hname' =>
      simp only [form, Form.atom.injEq] at heq
      rw [renumber, renumber, hname.renumber_eq hname' heq]
    | _ => cases hshape
  | assign hname hvalue ih =>
    cases h' with
    | assign hname' hvalue' =>
      simp only [form, Form.list.injEq, List.cons.injEq, Form.atom.injEq, and_true, true_and] at heq
      obtain ⟨hlexeme, heq⟩ := heq
      rw [renumber, renumber, hname.renumber_eq hname' hlexeme,
        ih hvalue' heq (hvalue.shape_eq hvalue' heq)]
    | _ => cases hshape
  | unary _ hop hoperand ih =>
    cases h' with
    | unary _ hop' hoperand' =>
      simp only [form, Form.list.injEq, List.cons.injEq, Form.atom.injEq, and_true] at heq
      obtain ⟨hlexeme, heq⟩ := heq
      rw [renumber, renumber, hop.renumber_eq hop' hlexeme,
        ih hoperand' heq (hoperand.shape_eq hoperand' heq)]
    | _ => cases hshape
  | binary _ hop hleft hright ihl ihr =>
    cases h' with
    | binary _ hop' hleft' hright' =>
      simp only [form, Form.list.injEq, List.cons.injEq, Form.atom.injEq, and_true] at heq
      obtain ⟨hlexeme, heql, heqr⟩ := heq
      rw [renumber, renumber, hop.renumber_eq hop' hlexeme,
        ihl hleft' heql (hleft.shape_eq hleft' heql),
        ihr hright' heqr (hright.shape_eq hright' heqr)]
    | _ => cases hshape
  | logical _ hop hleft hright ihl ihr =>
    cases h' with
    | logical _ hop' hleft' hright' =>
      simp only [form, Form.list.injEq, List.cons.injEq, Form.atom.injEq, and_true] at heq
      obtain ⟨hlexeme, heql, heqr⟩ := heq
      rw [renumber, renumber, hop.renumber_eq hop' hlexeme,
        ihl hleft' heql (hleft.shape_eq hleft' heql),
        ihr hright' heqr (hright.shape_eq hright' heqr)]
    | _ => cases hshape
  | group hinner ih =>
    cases h' with
    | group hinner' =>
      simp only [form, Form.list.injEq, List.cons.injEq, and_true, true_and] at heq
      rw [renumber, renumber, ih hinner' heq (hinner.shape_eq hinner' heq)]
    | _ => cases hshape
  | call hcallee hparen hargs ihcallee ihargs =>
    cases h' with
    | call hcallee' hparen' hargs' =>
      simp only [form, Form.list.injEq, List.cons.injEq, true_and] at heq
      obtain ⟨heqcallee, heqargs⟩ := heq
      rw [renumber, renumber, hparen.renumber_eq_of_text? hparen' rfl,
        ihcallee hcallee' heqcallee (hcallee.shape_eq hcallee' heqcallee)]
      refine congrArg _ (map_eq_map_of_imp (fun a ha b hb hab => ?_) heqargs)
      exact ihargs a ha (hargs' b hb) hab ((hargs a ha).shape_eq (hargs' b hb) hab)
    | _ => cases hshape

end Legible

end Expr

/-! ### Statements -/

namespace Stmt

/-- The same statement with underscores left out of loop headers. -/
def cleared : Stmt → Stmt
  | .expression e => .expression e
  | .print e => .print e
  | .var name initializer => .var name initializer
  | .block body => .block (body.map fun s => s.cleared)
  | .function name params body => .function name params (body.map fun s => s.cleared)
  | .ifElse condition thenBranch none => .ifElse condition thenBranch.cleared none
  | .ifElse condition thenBranch (some elseBranch) =>
    .ifElse condition thenBranch.cleared (some elseBranch.cleared)
  | .whileLoop condition body => .whileLoop condition body.cleared
  | .forLoop none condition increment body =>
    .forLoop none (condition.filter fun e => !e.isUnderscore)
      (increment.filter fun e => !e.isUnderscore) body.cleared
  | .forLoop (some initializer) condition increment body =>
    .forLoop (some initializer.cleared) (condition.filter fun e => !e.isUnderscore)
      (increment.filter fun e => !e.isUnderscore) body.cleared
  | .ret keyword value => .ret keyword value

@[simp] theorem cleared_ifElse (condition : Expr) (thenBranch : Stmt) (elseBranch : Option Stmt) :
    (ifElse condition thenBranch elseBranch).cleared =
      .ifElse condition thenBranch.cleared (elseBranch.map cleared) := by
  cases elseBranch <;> simp [cleared]

@[simp] theorem cleared_forLoop (initializer : Option Stmt) (condition increment : Option Expr)
    (body : Stmt) : (forLoop initializer condition increment body).cleared =
      .forLoop (initializer.map cleared) (condition.filter fun e => !e.isUnderscore)
        (increment.filter fun e => !e.isUnderscore) body.cleared := by
  cases initializer <;> simp [cleared]

/-- The head of the form of a statement. -/
def head : Stmt → String
  | .expression _ => ";"
  | .print _ => "print"
  | .var _ _ => "var"
  | .block _ => "block"
  | .function _ _ _ => "fun"
  | .ifElse _ _ _ => "if"
  | .whileLoop _ _ => "while"
  | .forLoop _ _ _ _ => "for"
  | .ret _ _ => "return"

theorem exists_form_eq (s : Stmt) : ∃ items, s.form = .list (.atom s.head :: items) := by
  cases s with
  | ifElse => exact ⟨_, form_ifElse _ _ _⟩
  | forLoop => exact ⟨_, form_forLoop _ _ _ _⟩
  | _ =>
    rw [form]
    exact ⟨_, rfl⟩

theorem head_eq {s s' : Stmt} (h : s.form = s'.form) : s.head = s'.head := by
  obtain ⟨items, hs⟩ := s.exists_form_eq
  obtain ⟨items', hs'⟩ := s'.exists_form_eq
  rw [hs, hs'] at h
  exact Form.atom.inj (List.cons.inj (Form.list.inj h)).1

end Stmt

theorem Expr.clauseForm_filter (e : Option Expr) :
    clauseForm (e.filter fun e => !e.isUnderscore) = clauseForm e := by
  cases e with
  | none => rfl
  | some e =>
    cases h : e.isUnderscore with
    | false => rw [Option.filter_some, h, Bool.not_false, if_pos rfl]
    | true =>
      rw [Option.filter_some, h, Bool.not_true, if_neg Bool.false_ne_true]
      cases e with
      | var name =>
        have hname : name.lexeme = "_" := by simpa [isUnderscore] using h
        simp [clauseForm, form, hname]
      | _ => cases h

@[simp] theorem Expr.clauseForm_map_renumber (f : Nat → Nat) (e : Option Expr) :
    clauseForm (e.map (Expr.renumber f)) = clauseForm e := by
  cases e <;> simp [clauseForm]

namespace Stmt

@[simp] theorem form_cleared (s : Stmt) : s.cleared.form = s.form := by
  induction s using Stmt.tree_induction with
  | expression | print | var | ret => rw [cleared]
  | block body ih => simp [cleared, form, Function.comp_def, List.map_congr_left ih]
  | function name params body ih =>
    simp [cleared, form, Function.comp_def, List.map_congr_left ih]
  | ifElse condition thenBranch elseBranch ihthen ihelse =>
    cases elseBranch with
    | none => simp [ihthen]
    | some s => simp [ihthen, ihelse s rfl]
  | whileLoop condition body ih => simp [cleared, form, ih]
  | forLoop initializer condition increment body ihinit ih =>
    cases initializer with
    | none => simp [Expr.clauseForm_filter, ih]
    | some s => simp [Expr.clauseForm_filter, ih, ihinit s rfl]

@[simp] theorem form_renumber (f : Nat → Nat) (s : Stmt) : (s.renumber f).form = s.form := by
  induction s using Stmt.tree_induction with
  | expression | print => simp [renumber, form]
  | var name initializer => cases initializer <;> simp [renumber, form]
  | ret keyword value => cases value <;> simp [renumber, form]
  | block body ih => simp [renumber, form, Function.comp_def, List.map_congr_left ih]
  | function name params body ih =>
    simp [renumber, form, Function.comp_def, List.map_congr_left ih]
  | ifElse condition thenBranch elseBranch ihthen ihelse =>
    cases elseBranch with
    | none => simp [ihthen]
    | some s => simp [ihthen, ihelse s rfl]
  | whileLoop condition body ih => simp [renumber, form, ih]
  | forLoop initializer condition increment body ihinit ih =>
    cases initializer with
    | none => simp [ih]
    | some s => simp [ih, ihinit s rfl]

end Stmt

/-! ### Reading statements off their forms -/

namespace Expr.Legible

variable {e e' : Option Expr}

theorem isUnderscore_of_form {e : Expr} (h : e.Legible) (heq : e.form = .atom "_") :
    e.isUnderscore = true := by
  cases h with
  | literal hv =>
    have hname : Token.WrittenAs .identifier ⟨.mark .identifier, "_", 0⟩ :=
      ⟨rfl, .name (Scan.isWord_of_all rfl rfl) (by decide)⟩
    simp only [form, Form.atom.injEq] at heq
    exact absurd heq (hv.render_ne_name hname)
  | var => simpa [form, isUnderscore] using heq
  | _ => simp [form] at heq

theorem clause_eq (h : ∀ x ∈ e, x.Legible) (h' : ∀ x ∈ e', x.Legible)
    (heq : clauseForm e = clauseForm e') :
    (e.filter fun e => !e.isUnderscore).map (Expr.renumber fun _ => 0) =
      (e'.filter fun e => !e.isUnderscore).map (Expr.renumber fun _ => 0) := by
  cases e with
  | none =>
    cases e' with
    | none => rfl
    | some x' =>
      have hunder := (h' x' rfl).isUnderscore_of_form heq.symm
      simp [hunder]
  | some x =>
    cases e' with
    | none =>
      have hunder := (h x rfl).isUnderscore_of_form heq
      simp [hunder]
    | some x' =>
      have hx := (h x rfl).renumber_eq (h' x' rfl) heq
      have hunder := congrArg isUnderscore hx
      rw [isUnderscore_renumber, isUnderscore_renumber] at hunder
      rw [Option.filter_some, Option.filter_some, hunder]
      split
      · exact congrArg some hx
      · rfl

end Expr.Legible

namespace Stmt

/-- A missing initializer is not written like one. -/
theorem initializer_eq {x y : Option Stmt}
    (h : (x.map form).getD (.atom "_") = (y.map form).getD (.atom "_")) :
    x.map form = y.map form := by
  cases x with
  | none =>
    cases y with
    | none => rfl
    | some s =>
      obtain ⟨items, hs⟩ := s.exists_form_eq
      simp [hs] at h
  | some s =>
    cases y with
    | none =>
      obtain ⟨items, hs⟩ := s.exists_form_eq
      simp [hs] at h
    | some s' => exact congrArg some h

/-- A legible statement is known from its form, but for the lines of its tokens and the underscores
in its loop headers. -/
theorem Legible.renumber_cleared_eq {s s' : Stmt} (h : s.Legible) (h' : s'.Legible)
    (heq : s.form = s'.form) :
    s.cleared.renumber (fun _ => 0) = s'.cleared.renumber fun _ => 0 := by
  have hhead := head_eq heq
  induction h generalizing s' with
  | expression he =>
    cases h' with
    | expression he' =>
      simp only [form, Form.list.injEq, List.cons.injEq, and_true, true_and] at heq
      rw [cleared, cleared, renumber, renumber, he.renumber_eq he' heq]
    | _ => exact absurd hhead (by simp [head])
  | print he =>
    cases h' with
    | print he' =>
      simp only [form, Form.list.injEq, List.cons.injEq, and_true, true_and] at heq
      rw [cleared, cleared, renumber, renumber, he.renumber_eq he' heq]
    | _ => exact absurd hhead (by simp [head])
  | var hname hinit =>
    cases h' with
    | var hname' hinit' =>
      simp only [form, Form.list.injEq, List.cons.injEq, Form.atom.injEq, true_and] at heq
      obtain ⟨hlexeme, heq⟩ := heq
      rw [cleared, cleared, renumber, renumber, hname.renumber_eq hname' hlexeme,
        option_map_eq_map_of_imp (fun e he e' he' => (hinit e he).renumber_eq (hinit' e' he')) heq]
    | _ => exact absurd hhead (by simp [head])
  | block _ ih =>
    cases h' with
    | block hbody' =>
      simp only [form, Form.list.injEq, List.cons.injEq, true_and] at heq
      rw [cleared, cleared, renumber, renumber, List.map_map, List.map_map]
      refine congrArg _ (map_eq_map_of_imp (fun s hs s' hs' h => ?_) heq)
      exact ih s hs (hbody' s' hs') h (head_eq h)
    | _ => exact absurd hhead (by simp [head])
  | function hname hparams _ ih =>
    cases h' with
    | function hname' hparams' hbody' =>
      simp only [form, Form.list.injEq, List.cons.injEq, Form.atom.injEq, true_and] at heq
      obtain ⟨hlexeme, heqparams, heqbody⟩ := heq
      rw [cleared, cleared, renumber, renumber, List.map_map, List.map_map,
        hname.renumber_eq hname' hlexeme]
      congr 1
      · refine map_eq_map_of_imp (fun p hp p' hp' h => ?_) heqparams
        exact (hparams p hp).renumber_eq (hparams' p' hp') (Form.atom.inj h)
      · refine map_eq_map_of_imp (fun s hs s' hs' h => ?_) heqbody
        exact ih s hs (hbody' s' hs') h (head_eq h)
    | _ => exact absurd hhead (by simp [head])
  | ifElse hcond _ _ ihthen ihelse =>
    cases h' with
    | ifElse hcond' hthen' helse' =>
      simp only [form_ifElse, Form.list.injEq, List.cons.injEq, true_and] at heq
      obtain ⟨heqcond, heqthen, heqelse⟩ := heq
      rw [cleared_ifElse, cleared_ifElse, renumber_ifElse, renumber_ifElse, Option.map_map,
        Option.map_map, hcond.renumber_eq hcond' heqcond, ihthen hthen' heqthen (head_eq heqthen)]
      refine congrArg _ (option_map_eq_map_of_imp (fun s hs s' hs' h => ?_) heqelse)
      exact ihelse s hs (helse' s' hs') h (head_eq h)
    | _ => exact absurd hhead (by simp [head])
  | whileLoop hcond _ ih =>
    cases h' with
    | whileLoop hcond' hbody' =>
      simp only [form, Form.list.injEq, List.cons.injEq, and_true, true_and] at heq
      obtain ⟨heqcond, heqbody⟩ := heq
      rw [cleared, cleared, renumber, renumber, hcond.renumber_eq hcond' heqcond,
        ih hbody' heqbody (head_eq heqbody)]
    | _ => exact absurd hhead (by simp [head])
  | forLoop _ hcond hincr _ ihinit ih =>
    cases h' with
    | forLoop hinit' hcond' hincr' hbody' =>
      simp only [form_forLoop, Form.list.injEq, List.cons.injEq, and_true, true_and] at heq
      obtain ⟨heqinit, heqcond, heqincr, heqbody⟩ := heq
      rw [cleared_forLoop, cleared_forLoop, renumber_forLoop, renumber_forLoop, Option.map_map,
        Option.map_map, Expr.Legible.clause_eq hcond hcond' heqcond,
        Expr.Legible.clause_eq hincr hincr' heqincr, ih hbody' heqbody (head_eq heqbody)]
      congr 1
      refine option_map_eq_map_of_imp (fun s hs s' hs' h => ?_)
        (congrArg Option.toList (initializer_eq heqinit))
      exact ihinit s hs (hinit' s' hs') h (head_eq h)
    | _ => exact absurd hhead (by simp [head])
  | ret hkeyword hvalue =>
    cases h' with
    | ret hkeyword' hvalue' =>
      simp only [form, Form.list.injEq, List.cons.injEq, true_and] at heq
      rw [cleared, cleared, renumber, renumber, hkeyword.renumber_eq_of_text? hkeyword' rfl,
        option_map_eq_map_of_imp (fun e he e' he' => (hvalue e he).renumber_eq (hvalue' e' he'))
          heq]
    | _ => exact absurd hhead (by simp [head])

end Stmt

end Scriptlet

import Mathlib.Data.List.Forall2
import Scriptlet.Proofs.Tree.Resemblance

/-!
# Trees without parentheses

The parentheses of an expression are kept in its tree. Without them it says the same, as the tree
itself shows what belongs together. Two trees that are equal without parentheses resemble each
other.
-/

namespace Scriptlet

/-- The same expression without parentheses. -/
def Expr.ungrouped : Expr → Expr
  | .literal value => .literal value
  | .var name => .var name
  | .assign name value => .assign name value.ungrouped
  | .unary operator operand => .unary operator operand.ungrouped
  | .binary left operator right => .binary left.ungrouped operator right.ungrouped
  | .logical left operator right => .logical left.ungrouped operator right.ungrouped
  | .group inner => inner.ungrouped
  | .call callee paren arguments =>
    .call callee.ungrouped paren (arguments.map fun a => a.ungrouped)

/-- The same statement with all expressions in it changed. -/
def Stmt.mapExprs (f : Expr → Expr) : Stmt → Stmt
  | .expression e => .expression (f e)
  | .print e => .print (f e)
  | .var name initializer => .var name (initializer.map f)
  | .block body => .block (body.map fun s => s.mapExprs f)
  | .function name params body => .function name params (body.map fun s => s.mapExprs f)
  | .ifElse condition thenBranch none => .ifElse (f condition) (thenBranch.mapExprs f) none
  | .ifElse condition thenBranch (some elseBranch) =>
    .ifElse (f condition) (thenBranch.mapExprs f) (some (elseBranch.mapExprs f))
  | .whileLoop condition body => .whileLoop (f condition) (body.mapExprs f)
  | .forLoop none condition increment body =>
    .forLoop none (condition.map f) (increment.map f) (body.mapExprs f)
  | .forLoop (some initializer) condition increment body =>
    .forLoop (some (initializer.mapExprs f)) (condition.map f) (increment.map f) (body.mapExprs f)
  | .ret keyword value => .ret keyword (value.map f)

/-- The same statement without parentheses, also in the bodies of functions. -/
def Stmt.ungrouped (s : Stmt) : Stmt := s.mapExprs Expr.ungrouped

@[simp] theorem Expr.ungrouped_ungrouped (e : Expr) : e.ungrouped.ungrouped = e.ungrouped := by
  induction e using Expr.ungrouped.induct with
  | _ => simp_all [ungrouped]

namespace Stmt

variable (f g : Expr → Expr)

@[simp] theorem mapExprs_ifElse (condition : Expr) (thenBranch : Stmt) (elseBranch : Option Stmt) :
    (ifElse condition thenBranch elseBranch).mapExprs f =
      .ifElse (f condition) (thenBranch.mapExprs f) (elseBranch.map (mapExprs f)) := by
  cases elseBranch <;> simp [mapExprs]

@[simp] theorem mapExprs_forLoop (initializer : Option Stmt) (condition increment : Option Expr)
    (body : Stmt) : (forLoop initializer condition increment body).mapExprs f =
      .forLoop (initializer.map (mapExprs f)) (condition.map f) (increment.map f)
        (body.mapExprs f) := by
  cases initializer <;> simp [mapExprs]

theorem mapExprs_mapExprs (s : Stmt) : (s.mapExprs f).mapExprs g = s.mapExprs (g ∘ f) := by
  induction s using Stmt.mapExprs.induct with
  | _ => simp_all [mapExprs, Function.comp_def]

@[simp] theorem ungrouped_ungrouped (s : Stmt) : s.ungrouped.ungrouped = s.ungrouped := by
  unfold ungrouped
  rw [mapExprs_mapExprs]
  congr 1
  funext e
  exact e.ungrouped_ungrouped

end Stmt

/-! ### Trees that are equal without parentheses -/

theorem forall₂_of_map_eq {α β : Type} {f : α → β} {l l' : List α} (h : l.map f = l'.map f) :
    List.Forall₂ (fun a a' => f a = f a') l l' := by
  rwa [← List.forall₂_eq_eq_eq, List.forall₂_map_left_iff, List.forall₂_map_right_iff] at h

theorem Expr.layer_of_ungrouped_eq {e e' : Expr} (h : e.ungrouped = e'.ungrouped) :
    Layer (fun e e' => e.ungrouped = e'.ungrouped) e e' := by
  cases e with
  | group inner => exact .groupLeft (by simpa only [ungrouped] using h)
  | literal value =>
    cases e' with
    | group inner => exact .groupRight (by simpa only [ungrouped] using h)
    | literal value' =>
      simp only [ungrouped, Expr.literal.injEq] at h
      subst h
      exact .node (.literal value)
    | _ => simp [ungrouped] at h
  | var name =>
    cases e' with
    | group inner => exact .groupRight (by simpa only [ungrouped] using h)
    | var name' =>
      simp only [ungrouped, Expr.var.injEq] at h
      subst h
      exact .node (.var name)
    | _ => simp [ungrouped] at h
  | assign name value =>
    cases e' with
    | group inner => exact .groupRight (by simpa only [ungrouped] using h)
    | assign name' value' =>
      simp only [ungrouped, Expr.assign.injEq] at h
      obtain ⟨rfl, h⟩ := h
      exact .node (.assign name h)
    | _ => simp [ungrouped] at h
  | unary operator operand =>
    cases e' with
    | group inner => exact .groupRight (by simpa only [ungrouped] using h)
    | unary operator' operand' =>
      simp only [ungrouped, Expr.unary.injEq] at h
      obtain ⟨rfl, h⟩ := h
      exact .node (.unary operator h)
    | _ => simp [ungrouped] at h
  | binary left operator right =>
    cases e' with
    | group inner => exact .groupRight (by simpa only [ungrouped] using h)
    | binary left' operator' right' =>
      simp only [ungrouped, Expr.binary.injEq] at h
      obtain ⟨hleft, rfl, hright⟩ := h
      exact .node (.binary operator hleft hright)
    | _ => simp [ungrouped] at h
  | logical left operator right =>
    cases e' with
    | group inner => exact .groupRight (by simpa only [ungrouped] using h)
    | logical left' operator' right' =>
      simp only [ungrouped, Expr.logical.injEq] at h
      obtain ⟨hleft, rfl, hright⟩ := h
      exact .node (.logical operator hleft hright)
    | _ => simp [ungrouped] at h
  | call callee paren arguments =>
    cases e' with
    | group inner => exact .groupRight (by simpa only [ungrouped] using h)
    | call callee' paren' arguments' =>
      simp only [ungrouped, Expr.call.injEq] at h
      obtain ⟨hcallee, rfl, harguments⟩ := h
      exact .node (.call paren hcallee (forall₂_of_map_eq harguments))
    | _ => simp [ungrouped] at h

theorem Stmt.layer_of_ungrouped_eq {s s' : Stmt} (h : s.ungrouped = s'.ungrouped) :
    Layer (fun e e' => e.ungrouped = e'.ungrouped) (fun s s' => s.ungrouped = s'.ungrouped)
      (fun ss ss' => ss.map ungrouped = ss'.map ungrouped) s s' := by
  unfold ungrouped at h
  cases s with
  | expression e =>
    cases s' <;> simp only [mapExprs, mapExprs_ifElse, mapExprs_forLoop, reduceCtorEq] at h
    exact .expression (Stmt.expression.inj h)
  | print e =>
    cases s' <;> simp only [mapExprs, mapExprs_ifElse, mapExprs_forLoop, reduceCtorEq] at h
    exact .print (Stmt.print.inj h)
  | var name initializer =>
    cases s' <;> simp only [mapExprs, mapExprs_ifElse, mapExprs_forLoop, reduceCtorEq] at h
    obtain ⟨rfl, hinitializer⟩ := Stmt.var.inj h
    exact .var name (Resemblance.optionRel_of_map_eq hinitializer)
  | block body =>
    cases s' <;> simp only [mapExprs, mapExprs_ifElse, mapExprs_forLoop, reduceCtorEq] at h
    exact .block (Stmt.block.inj h)
  | function name params body =>
    cases s' <;> simp only [mapExprs, mapExprs_ifElse, mapExprs_forLoop, reduceCtorEq] at h
    obtain ⟨rfl, rfl, hbody⟩ := Stmt.function.inj h
    exact .function name params hbody
  | ifElse condition thenBranch elseBranch =>
    cases s' <;> simp only [mapExprs, mapExprs_ifElse, mapExprs_forLoop, reduceCtorEq] at h
    obtain ⟨hcondition, hthen, helse⟩ := Stmt.ifElse.inj h
    exact .ifElse hcondition hthen (Resemblance.optionRel_of_map_eq helse)
  | whileLoop condition body =>
    cases s' <;> simp only [mapExprs, mapExprs_ifElse, mapExprs_forLoop, reduceCtorEq] at h
    obtain ⟨hcondition, hbody⟩ := Stmt.whileLoop.inj h
    exact .whileLoop hcondition hbody
  | forLoop initializer condition increment body =>
    cases s' with
    | forLoop initializer' condition' increment' body' =>
      simp only [mapExprs_forLoop] at h
      obtain ⟨hinitializer, hcondition, hincrement, hbody⟩ := Stmt.forLoop.inj h
      cases Resemblance.optionRel_of_map_eq hinitializer with
      | none =>
        exact .forLoop (Resemblance.optionRel_of_map_eq hcondition)
          (Resemblance.optionRel_of_map_eq hincrement) hbody
      | some hs =>
        refine .forEntry hs ?_
        unfold ungrouped
        rw [mapExprs_forLoop, mapExprs_forLoop, hcondition, hincrement, hbody]
    | _ => simp [mapExprs] at h
  | ret keyword value =>
    cases s' <;> simp only [mapExprs, mapExprs_ifElse, mapExprs_forLoop, reduceCtorEq] at h
    obtain ⟨rfl, hvalue⟩ := Stmt.ret.inj h
    exact .ret keyword (Resemblance.optionRel_of_map_eq hvalue)

/-- Trees that are equal without parentheses resemble each other. -/
def Resemblance.grouping : Resemblance where
  expr e e' := e.ungrouped = e'.ungrouped
  stmt s s' := s.ungrouped = s'.ungrouped
  body ss ss' := ss.map Stmt.ungrouped = ss'.map Stmt.ungrouped
  expr_layer := Expr.layer_of_ungrouped_eq
  stmt_layer := Stmt.layer_of_ungrouped_eq
  body_layer := by
    intro ss ss' h
    cases ss with
    | nil =>
      cases ss' with
      | nil => exact .nil
      | cons s' ss' => cases h
    | cons s ss =>
      cases ss' with
      | nil => cases h
      | cons s' ss' =>
        obtain ⟨hs, hss⟩ := List.cons.inj h
        exact .cons hs hss
  body_refl _ := rfl

end Scriptlet

import Scriptlet.Proofs.Grammar.Language
import Scriptlet.Proofs.Scope.Renumber

/-!
# The lines a tree mentions

A tree mentions the lines of the tokens it keeps, and a function those of its declaration. Two ways
of renumbering do the same to a tree if and only if they do the same to the lines it mentions.
-/

namespace Scriptlet

variable {f g : Nat → Nat}

@[simp] theorem Token.renumber_eq_iff {t : Token} :
    t.renumber f = t.renumber g ↔ f t.line = g t.line := by
  simp [renumber]

/-! ### Spellings -/

/-- Two ways of renumbering do the same to the tokens that a spelling keeps. -/
def AgreeOn (f g : Nat → Nat) (xs : List Symbol) : Prop :=
  ∀ t, .token t ∈ xs → f t.line = g t.line

namespace AgreeOn

@[simp] theorem nil : AgreeOn f g [] := fun _ h => by cases h

@[simp] theorem token_cons {t : Token} {xs : List Symbol} :
    AgreeOn f g (.token t :: xs) ↔ f t.line = g t.line ∧ AgreeOn f g xs := by
  simp [AgreeOn, or_imp, forall_and]

@[simp] theorem kind_cons {k : Kind} {xs : List Symbol} :
    AgreeOn f g (.kind k :: xs) ↔ AgreeOn f g xs := by
  simp [AgreeOn]

@[simp] theorem append {xs ys : List Symbol} :
    AgreeOn f g (xs ++ ys) ↔ AgreeOn f g xs ∧ AgreeOn f g ys := by
  simp [AgreeOn, or_imp, forall_and]

@[simp] theorem flatMap {α : Type} {xs : List α} {spelling : α → List Symbol} :
    AgreeOn f g (xs.flatMap spelling) ↔ ∀ x ∈ xs, AgreeOn f g (spelling x) := by
  induction xs with
  | nil => simp
  | cons x xs ih => simp [ih]

@[simp] theorem separated {xs : List (List Symbol)} :
    AgreeOn f g (separated xs) ↔ ∀ x ∈ xs, AgreeOn f g x := by
  induction xs with
  | nil => simp [Scriptlet.separated]
  | cons x xs ih =>
    cases xs with
    | nil => simp [Scriptlet.separated]
    | cons y ys =>
      simp only [Scriptlet.separated, append, kind_cons, ih, List.mem_cons, forall_eq_or_imp]

end AgreeOn

/-! ### Trees -/

theorem Expr.renumber_eq_iff {e : Expr} : e.renumber f = e.renumber g ↔ AgreeOn f g e.yield := by
  induction e using Expr.renumber.induct with
  | case1 value =>
    rcases value with x | contents | (_ | _) | _ <;> simp [renumber, yield, Literal.symbol]
  | case8 callee paren arguments ihc iha =>
    have hargs : (∀ a ∈ arguments, a.renumber f = a.renumber g) ↔
        ∀ a ∈ arguments, AgreeOn f g a.yield := forall₂_congr iha
    simp [renumber, yield, ihc, hargs, and_comm]
  | _ => simp_all [renumber, yield]

theorem Expr.map_renumber_eq_iff {o : Option Expr} :
    o.map (Expr.renumber f) = o.map (Expr.renumber g) ↔ AgreeOn f g (Expr.yieldOption o) := by
  cases o with
  | none => simp [yieldOption]
  | some e => simp [yieldOption, renumber_eq_iff]

theorem Stmt.renumber_eq_iff {s : Stmt} : s.renumber f = s.renumber g ↔ AgreeOn f g s.yield := by
  induction s using Stmt.renumber.induct with
  | case3 name initializer =>
    cases initializer <;> simp [renumber, yield, Expr.renumber_eq_iff]
  | case4 body ih =>
    have hbody : (∀ s ∈ body, s.renumber f = s.renumber g) ↔ ∀ s ∈ body, AgreeOn f g s.yield :=
      forall₂_congr ih
    simp [renumber, yield, hbody]
  | case5 name params body ih =>
    have hbody : (∀ s ∈ body, s.renumber f = s.renumber g) ↔ ∀ s ∈ body, AgreeOn f g s.yield :=
      forall₂_congr ih
    simp [renumber, yield, hbody]
  | _ => simp_all [renumber, yield, Expr.renumber_eq_iff, Expr.map_renumber_eq_iff]

/-! ### Values -/

/-- How a declaration is spelled. -/
def FunctionDecl.yield (d : FunctionDecl) : List Symbol :=
  (Stmt.function d.name d.params d.body).yield

theorem FunctionDecl.renumber_eq_iff {d : FunctionDecl} :
    d.renumber f = d.renumber g ↔ AgreeOn f g d.yield := by
  obtain ⟨name, params, body⟩ := d
  rw [yield, ← Stmt.renumber_eq_iff]
  simp [renumber, Stmt.renumber]

namespace Value

/-- How the function that a value is was declared, if it is one. -/
def yield : Value → List Symbol
  | function _ (.closure decl _) => decl.yield
  | _ => []

theorem renumber_eq_iff {v : Value} : v.renumber f = v.renumber g ↔ AgreeOn f g v.yield := by
  cases v with
  | function id callable =>
    cases callable with
    | closure decl frame => simp [renumber, Callable.renumber, yield, FunctionDecl.renumber_eq_iff]
    | host name arity key => simp [renumber, Callable.renumber, yield]
  | number | string | boolean | null => simp [renumber, yield]

end Value

end Scriptlet

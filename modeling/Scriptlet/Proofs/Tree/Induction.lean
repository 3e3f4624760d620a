import Scriptlet.Tree.Basic

/-!
# Induction on trees

What holds of a node if it holds of its parts holds of every tree. The parts of a node may stand in
a list or be missing, so the principles that follow from the recursors say it of each of them.
-/

namespace Scriptlet

/-- Induction on expressions. -/
@[elab_as_elim]
theorem Expr.tree_induction {motive : Expr → Prop}
    (literal : ∀ value, motive (.literal value))
    (var : ∀ name, motive (.var name))
    (assign : ∀ name value, motive value → motive (.assign name value))
    (unary : ∀ operator operand, motive operand → motive (.unary operator operand))
    (binary : ∀ left operator right, motive left → motive right →
      motive (.binary left operator right))
    (logical : ∀ left operator right, motive left → motive right →
      motive (.logical left operator right))
    (group : ∀ inner, motive inner → motive (.group inner))
    (call : ∀ callee paren arguments, motive callee → (∀ a ∈ arguments, motive a) →
      motive (.call callee paren arguments)) (e : Expr) : motive e :=
  @Expr.rec motive (fun es => ∀ a ∈ es, motive a) literal var assign unary binary logical group
    call (List.forall_mem_nil motive) (fun _ _ he hes => List.forall_mem_cons.2 ⟨he, hes⟩) e

/-- Induction on statements. -/
@[elab_as_elim]
theorem Stmt.tree_induction {motive : Stmt → Prop}
    (expression : ∀ e, motive (.expression e))
    (print : ∀ e, motive (.print e))
    (var : ∀ name initializer, motive (.var name initializer))
    (block : ∀ body, (∀ s ∈ body, motive s) → motive (.block body))
    (function : ∀ name params body, (∀ s ∈ body, motive s) → motive (.function name params body))
    (ifElse : ∀ condition thenBranch elseBranch, motive thenBranch →
      (∀ s, elseBranch = some s → motive s) → motive (.ifElse condition thenBranch elseBranch))
    (whileLoop : ∀ condition body, motive body → motive (.whileLoop condition body))
    (forLoop : ∀ initializer condition increment body,
      (∀ s, initializer = some s → motive s) → motive body →
      motive (.forLoop initializer condition increment body))
    (ret : ∀ keyword value, motive (.ret keyword value)) (s : Stmt) : motive s :=
  @Stmt.rec motive (fun ss => ∀ s ∈ ss, motive s) (fun o => ∀ s, o = some s → motive s) expression
    print var block function ifElse whileLoop forLoop ret (List.forall_mem_nil motive)
    (fun _ _ hs hss => List.forall_mem_cons.2 ⟨hs, hss⟩) (fun _ h => by cases h)
    (fun _ hs _ h => Option.some.inj h ▸ hs) s

end Scriptlet

import Scriptlet.Proofs.Grammar.Language
import Scriptlet.Proofs.Tree.Induction

/-!
# Heights of trees

The height of a tree is made of two kinds of steps: steps to a left operand or to a callee, and all
others. Runs of the first kind are the chains of a tree. Between its chains a tree is no higher than
its steps of the second kind, so its height is at most their number times the length of its longest
chain, which `Stmt.height_le` states.
-/

namespace Scriptlet

/-! ### Expressions -/

namespace Expr

/-- How many levels a tree has below its root, if a step to a left operand or to a callee counts for
the given number of levels and any other step for one. -/
@[simp] def levels (leftward : Nat) : Expr → Nat
  | .literal _ | .var _ => 0
  | .assign _ value => value.levels leftward + 1
  | .unary _ operand => operand.levels leftward + 1
  | .binary left _ right => max (left.levels leftward + leftward) (right.levels leftward + 1)
  | .logical left _ right => max (left.levels leftward + leftward) (right.levels leftward + 1)
  | .group inner => inner.levels leftward + 1
  | .call callee _ arguments =>
    max (callee.levels leftward + leftward)
      (largest (arguments.map fun a => a.levels leftward + 1))

/-- The height of a tree: every step counts. -/
def height (e : Expr) : Nat := e.levels 1

/-- How many steps to left operands and callees can be taken from the root. -/
@[simp] def spine : Expr → Nat
  | .binary left _ _ => left.spine + 1
  | .logical left _ _ => left.spine + 1
  | .call callee _ _ => callee.spine + 1
  | .literal _ | .var _ | .assign _ _ | .unary _ _ | .group _ => 0

/-- The length of the longest chain of a tree: how many steps to left operands and callees can be
taken one after another. -/
@[simp] def chain : Expr → Nat
  | .literal _ | .var _ => 0
  | .assign _ value => value.chain
  | .unary _ operand => operand.chain
  | .binary left _ right => max (left.spine + 1) (max left.chain right.chain)
  | .logical left _ right => max (left.spine + 1) (max left.chain right.chain)
  | .group inner => inner.chain
  | .call callee _ arguments =>
    max (callee.spine + 1) (max callee.chain (largest (arguments.map fun a => a.chain)))

theorem spine_le_chain (e : Expr) : e.spine ≤ e.chain := by
  cases e with
  | binary | logical | call =>
    simp only [spine, chain]
    exact Nat.le_max_left _ _
  | literal | var | assign | unary | group => exact Nat.zero_le _

@[simp] theorem levels_node (t : Tier) (leftward : Nat) (left right : Expr) (operator : Token) :
    (t.node left operator right).levels leftward =
      max (left.levels leftward + leftward) (right.levels leftward + 1) := by
  cases t <;> simp [Tier.node]

end Expr

/-- One more step behind the end of a chain: the next chain may be as long as any. -/
theorem Expr.succ_le_of_le {h spine steps steps' c : Nat} (hh : h ≤ spine + steps * (c + 1))
    (hspine : spine ≤ c) (hsteps : steps + 1 ≤ steps') : h + 1 ≤ steps' * (c + 1) :=
  calc h + 1
      ≤ (steps + 1) * (c + 1) := by rw [Nat.succ_mul]; omega
    _ ≤ steps' * (c + 1) := Nat.mul_le_mul_right _ hsteps

/-- A tree is no higher than the chain at its root and, for each other step, one chain more. -/
theorem Expr.levels_one_le (e : Expr) {c : Nat} (hc : e.chain ≤ c) :
    e.levels 1 ≤ e.spine + e.levels 0 * (c + 1) := by
  have hstep {e' : Expr} {steps' : Nat} (hc' : e'.chain ≤ c)
      (ih : e'.levels 1 ≤ e'.spine + e'.levels 0 * (c + 1)) (h : e'.levels 0 + 1 ≤ steps') :
      e'.levels 1 + 1 ≤ steps' * (c + 1) :=
    succ_le_of_le ih (Nat.le_trans e'.spine_le_chain hc') h
  have hleft {e' : Expr} {steps' : Nat} (ih : e'.levels 1 ≤ e'.spine + e'.levels 0 * (c + 1))
      (h : e'.levels 0 ≤ steps') : e'.levels 1 + 1 ≤ e'.spine + 1 + steps' * (c + 1) := by
    have hmul := Nat.mul_le_mul_right (c + 1) h
    omega
  induction e using Expr.tree_induction with
  | literal | var => simp
  | assign name value ih =>
    simp only [chain] at hc
    simp only [levels, spine, Nat.zero_add]
    exact hstep hc (ih hc) (Nat.le_refl _)
  | unary operator operand ih =>
    simp only [chain] at hc
    simp only [levels, spine, Nat.zero_add]
    exact hstep hc (ih hc) (Nat.le_refl _)
  | group inner ih =>
    simp only [chain] at hc
    simp only [levels, spine, Nat.zero_add]
    exact hstep hc (ih hc) (Nat.le_refl _)
  | binary left operator right ihl ihr | logical left operator right ihl ihr =>
    simp only [chain, Nat.max_le] at hc
    obtain ⟨-, hcl, hcr⟩ := hc
    simp only [levels, spine, Nat.max_le]
    have hl := hleft (ihl hcl) (Nat.le_max_left _ (right.levels 0 + 1))
    have hr := hstep hcr (ihr hcr) (Nat.le_max_right (left.levels 0 + 0) _)
    exact ⟨hl, Nat.le_trans hr (Nat.le_add_left _ _)⟩
  | call callee paren arguments ih ihargs =>
    simp only [chain, Nat.max_le, largest_le_iff, List.forall_mem_map] at hc
    obtain ⟨-, hcc, hca⟩ := hc
    simp only [levels, spine, Nat.max_le, largest_le_iff, List.forall_mem_map]
    refine ⟨hleft (ih hcc) (Nat.le_max_left _ _), fun a ha => ?_⟩
    have hmem : a.levels 0 + 1 ≤ largest (arguments.map fun a => a.levels 0 + 1) :=
      largest_le_iff.1 (Nat.le_refl _) _ (List.mem_map_of_mem ha)
    have hr := hstep (hca a ha) (ihargs a ha (hca a ha))
      (Nat.le_trans hmem (Nat.le_max_right (callee.levels 0 + 0) _))
    exact Nat.le_trans hr (Nat.le_add_left _ _)

/-! ### Statements -/

namespace Stmt

/-- How many levels a tree has below its root, if a step to a left operand or to a callee counts for
the given number of levels and any other step for one. -/
@[simp] def levels (leftward : Nat) : Stmt → Nat
  | .expression e => e.levels leftward + 1
  | .print e => e.levels leftward + 1
  | .var _ initializer => largest (initializer.toList.map fun e => e.levels leftward + 1)
  | .block body => largest (body.map fun s => s.levels leftward + 1)
  | .function _ _ body => largest (body.map fun s => s.levels leftward + 1)
  | .ifElse condition thenBranch none =>
    max (condition.levels leftward + 1) (thenBranch.levels leftward + 1)
  | .ifElse condition thenBranch (some elseBranch) =>
    largest [condition.levels leftward + 1, thenBranch.levels leftward + 1,
      elseBranch.levels leftward + 1]
  | .whileLoop condition body => max (condition.levels leftward + 1) (body.levels leftward + 1)
  | .forLoop none condition increment body =>
    max (largest ((condition.toList ++ increment.toList).map fun e => e.levels leftward + 1))
      (body.levels leftward + 1)
  | .forLoop (some initializer) condition increment body =>
    largest [initializer.levels leftward + 1,
      largest ((condition.toList ++ increment.toList).map fun e => e.levels leftward + 1),
      body.levels leftward + 1]
  | .ret _ value => largest (value.toList.map fun e => e.levels leftward + 1)

/-- The height of a tree: every step counts. -/
def height (s : Stmt) : Nat := s.levels 1

/-- The length of the longest chain of a tree. -/
@[simp] def chain : Stmt → Nat
  | .expression e => e.chain
  | .print e => e.chain
  | .var _ initializer => largest (initializer.toList.map Expr.chain)
  | .block body => largest (body.map fun s => s.chain)
  | .function _ _ body => largest (body.map fun s => s.chain)
  | .ifElse condition thenBranch none => max condition.chain thenBranch.chain
  | .ifElse condition thenBranch (some elseBranch) =>
    largest [condition.chain, thenBranch.chain, elseBranch.chain]
  | .whileLoop condition body => max condition.chain body.chain
  | .forLoop none condition increment body =>
    max (largest ((condition.toList ++ increment.toList).map Expr.chain)) body.chain
  | .forLoop (some initializer) condition increment body =>
    largest [initializer.chain,
      largest ((condition.toList ++ increment.toList).map Expr.chain), body.chain]
  | .ret _ value => largest (value.toList.map Expr.chain)

end Stmt

/-! ### A bound for the height -/

theorem largest_map_le_mul {α : Type} {f g : α → Nat} {xs : List α} {k : Nat}
    (h : ∀ x ∈ xs, f x ≤ g x * k) : largest (xs.map f) ≤ largest (xs.map g) * k := by
  refine largest_le_iff.2 (List.forall_mem_map.2 fun x hx => Nat.le_trans (h x hx) ?_)
  exact Nat.mul_le_mul_right k (largest_le_iff.1 (Nat.le_refl _) _ (List.mem_map_of_mem hx))

theorem max_le_max_mul {a b a' b' k : Nat} (ha : a ≤ a' * k) (hb : b ≤ b' * k) :
    max a b ≤ max a' b' * k :=
  Nat.max_le.2 ⟨Nat.le_trans ha (Nat.mul_le_mul_right k (Nat.le_max_left _ _)),
    Nat.le_trans hb (Nat.mul_le_mul_right k (Nat.le_max_right _ _))⟩

theorem Expr.succ_levels_one_le (e : Expr) {c : Nat} (hc : e.chain ≤ c) :
    e.levels 1 + 1 ≤ (e.levels 0 + 1) * (c + 1) :=
  succ_le_of_le (e.levels_one_le hc) (Nat.le_trans e.spine_le_chain hc) (Nat.le_refl _)

namespace Stmt

theorem levels_one_le (s : Stmt) {c : Nat} (hc : s.chain ≤ c) :
    s.levels 1 ≤ s.levels 0 * (c + 1) := by
  have hexprs {es : List Expr} (hes : largest (es.map Expr.chain) ≤ c) :
      largest (es.map fun e => e.levels 1 + 1) ≤
        largest (es.map fun e => e.levels 0 + 1) * (c + 1) :=
    largest_map_le_mul fun e he =>
      e.succ_levels_one_le (largest_le_iff.1 hes _ (List.mem_map.2 ⟨e, he, rfl⟩))
  have hsucc {a b : Nat} (h : a ≤ b * (c + 1)) : a + 1 ≤ (b + 1) * (c + 1) := by
    rw [Nat.succ_mul]
    omega
  induction s using Stmt.tree_induction with
  | expression e | print e =>
    simp only [chain] at hc
    simp only [levels]
    exact e.succ_levels_one_le hc
  | var name initializer | ret keyword value =>
    simp only [chain] at hc
    simp only [levels]
    exact hexprs hc
  | block body ih | function name params body ih =>
    simp only [chain] at hc
    simp only [levels]
    exact largest_map_le_mul fun s hs =>
      hsucc (ih s hs (largest_le_iff.1 hc _ (List.mem_map_of_mem hs)))
  | ifElse condition thenBranch elseBranch iht ihe =>
    cases elseBranch with
    | none =>
      simp only [chain, Nat.max_le] at hc
      simp only [levels]
      exact max_le_max_mul (condition.succ_levels_one_le hc.1) (hsucc (iht hc.2))
    | some elseBranch =>
      simp only [chain, largest, List.foldr_cons, List.foldr_nil, Nat.max_le] at hc
      obtain ⟨hcond, hthen, helse, -⟩ := hc
      simp only [levels, largest, List.foldr_cons, List.foldr_nil]
      refine max_le_max_mul (condition.succ_levels_one_le hcond) ?_
      exact max_le_max_mul (hsucc (iht hthen))
        (max_le_max_mul (hsucc (ihe elseBranch rfl helse)) (Nat.zero_le _))
  | whileLoop condition body ih =>
    simp only [chain, Nat.max_le] at hc
    simp only [levels]
    exact max_le_max_mul (condition.succ_levels_one_le hc.1) (hsucc (ih hc.2))
  | forLoop initializer condition increment body ihi ih =>
    cases initializer with
    | none =>
      simp only [chain, Nat.max_le] at hc
      simp only [levels]
      exact max_le_max_mul (hexprs hc.1) (hsucc (ih hc.2))
    | some initializer =>
      simp only [chain, largest_le_iff, List.forall_mem_cons] at hc
      obtain ⟨hinit, hclauses, hbody, -⟩ := hc
      simp only [levels, largest, List.foldr_cons, List.foldr_nil]
      refine max_le_max_mul (hsucc (ihi initializer rfl hinit)) ?_
      refine max_le_max_mul (hexprs (largest_le_iff.2 hclauses)) ?_
      exact max_le_max_mul (hsucc (ih hbody)) (Nat.zero_le _)

/-- **The height of a tree is bounded by its chains and the steps between them**: it is at most the
number of levels that the steps outside of chains make, times the nodes of the longest chain. -/
theorem height_le (s : Stmt) : s.height ≤ s.levels 0 * (s.chain + 1) :=
  s.levels_one_le (Nat.le_refl _)

end Stmt

end Scriptlet

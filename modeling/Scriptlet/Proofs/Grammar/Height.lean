import Scriptlet.Proofs.Grammar.Completeness
import Scriptlet.Proofs.Grammar.Invariant
import Scriptlet.Proofs.Tree.Height

/-!
# How high the trees are that are read

Every level of nesting that is entered lets a tree grow by the levels of precedence and one more, so
the limit on nesting bounds the steps of a tree that belong to no chain. Chains of operators and of
calls are read by loops that enter no level of nesting, and nothing bounds them: the trees that are
read are as high as any number (`unbounded_height`), and the longest chain tells how high at most
(`height_le_of_mem`).
-/

namespace Scriptlet

/-- How many steps to right operands a tree at a level of precedence can take before it enters a
level of nesting. -/
def Level.slack : Level → Nat
  | assignment => 6
  | tier .or => 6
  | tier .and => 5
  | tier .equality => 4
  | tier .comparison => 3
  | tier .sum => 2
  | tier .product => 1
  | unary | call | primary => 0

theorem Tier.slack_operand (t : Tier) : t.operand.slack + 1 = (Level.tier t).slack := by
  cases t <;> rfl

/-- An expression with a number of levels of nesting left has at most seven levels for each but the
last of them, without the steps along chains. -/
def Expr.Shallow (n : Nat) (level : Level) (e : Expr) : Prop :=
  e.levels 0 + 7 ≤ 7 * n + level.slack

/-- A statement has one level more than the expressions in it, and a loop has one more than its
header. -/
def Stmt.Shallow (n : Nat) (s : Stmt) : Prop :=
  s.levels 0 + 7 ≤ 7 * n + if s.isClause then 0 else 1

namespace Expr.Shallow

variable {n : Nat}

theorem succ_le {e : Expr} (h : e.Shallow n .assignment) : e.levels 0 + 1 ≤ 7 * n := by
  change e.levels 0 + 7 ≤ 7 * n + 6 at h
  omega

theorem largest_le {es : List Expr} (h : ∀ e ∈ es, e.Shallow n .assignment) :
    largest (es.map fun e => e.levels 0 + 1) ≤ 7 * n :=
  largest_le_iff.2 (List.forall_mem_map.2 fun e he => (h e he).succ_le)

theorem largest_toList_le {o : Option Expr} (h : ∀ e ∈ o, e.Shallow n .assignment) :
    largest (o.toList.map fun e => e.levels 0 + 1) ≤ 7 * n :=
  largest_le fun e he => h e (Option.mem_toList.1 he)

/-- A node outside of expressions and unary operands: it enters no level. -/
theorem of_le {level : Level} {e : Expr} (h : e.levels 0 ≤ 7 * n + level.slack) :
    e.Shallow (n + 1) level := by
  unfold Shallow
  omega

end Expr.Shallow

namespace Stmt.Shallow

variable {n : Nat} {s : Stmt}

theorem succ_le (h : s.Shallow n) : s.levels 0 + 1 ≤ 7 * n := by
  unfold Shallow at h
  split at h <;> omega

/-- The first clause of a loop header is entered together with the loop. -/
theorem succ_le_of_isClause (h : s.Shallow (n + 1)) (hs : s.isClause = true) :
    s.levels 0 + 1 ≤ 7 * n + 1 := by
  unfold Shallow at h
  rw [if_pos hs] at h
  omega

theorem largest_le {body : List Stmt} (h : ∀ s ∈ body, s.Shallow n) :
    largest (body.map fun s => s.levels 0 + 1) ≤ 7 * n :=
  largest_le_iff.2 (List.forall_mem_map.2 fun s hs => (h s hs).succ_le)

theorem of_le (h : s.levels 0 ≤ 7 * n) : s.Shallow (n + 1) := by
  unfold Shallow
  omega

end Stmt.Shallow

/-- What the limit on nesting bounds: the levels of a tree without the steps along chains. -/
theorem shallow_gradedInvariant :
    GradedInvariant (fun _ => True) Expr.Shallow Stmt.Shallow where
  operators h := h
  operand {n t e} h := by
    have hslack := t.slack_operand
    unfold Expr.Shallow at h ⊢
    omega
  callee h := h
  primary h := h
  literal _ _ := .of_le (by simp)
  name _ _ := .of_le (by simp)
  assign _ h := .of_le (by
    rw [Expr.levels]
    exact Nat.le_trans h.succ_le (Nat.le_add_right _ _))
  unary _ _ _ h := .of_le (by
    change _ ≤ 7 * _ + 0 at h ⊢
    rw [Expr.levels]
    omega)
  node {n t _ _ _ _} _ _ _ hl hr := by
    have hslack := t.slack_operand
    simp only [Expr.Shallow, Expr.levels_node] at hl hr ⊢
    omega
  group h := .of_le (by
    rw [Expr.levels]
    exact Nat.le_trans h.succ_le (Nat.le_add_right _ _))
  call hc _ _ ha := .of_le (by
    change _ ≤ 7 * _ + 0 at hc ⊢
    rw [Expr.levels, Nat.max_le]
    exact ⟨by omega, Expr.Shallow.largest_le ha⟩)
  weaken h := by
    unfold Stmt.Shallow at h ⊢
    omega
  expression h := .of_le (by
    rw [Stmt.levels]
    exact h.succ_le)
  print h := .of_le (by
    rw [Stmt.levels]
    exact h.succ_le)
  var _ _ h := .of_le (by
    rw [Stmt.levels]
    exact Expr.Shallow.largest_toList_le h)
  block h := .of_le (by
    rw [Stmt.levels]
    exact Stmt.Shallow.largest_le h)
  function _ _ _ h := .of_le (by
    rw [Stmt.levels]
    exact Stmt.Shallow.largest_le h)
  ifElse {n condition thenBranch elseBranch} hc ht he := .of_le (by
    cases elseBranch with
    | none =>
      rw [Stmt.levels, Nat.max_le]
      exact ⟨hc.succ_le, ht.succ_le⟩
    | some elseBranch =>
      rw [Stmt.levels]
      refine largest_le_iff.2 ?_
      simp only [List.forall_mem_cons, List.not_mem_nil, false_imp_iff, implies_true, and_true]
      exact ⟨hc.succ_le, ht.succ_le, (he elseBranch rfl).succ_le⟩)
  whileLoop hc hb := .of_le (by
    rw [Stmt.levels, Nat.max_le]
    exact ⟨hc.succ_le, hb.succ_le⟩)
  forLoop {n initializer condition increment body} hinit hcond hincr hbody := by
    have hclauses : largest ((condition.toList ++ increment.toList).map fun e => e.levels 0 + 1) ≤
        7 * n := by
      refine Expr.Shallow.largest_le fun e he => ?_
      rcases List.mem_append.1 he with he | he
      · exact hcond e (Option.mem_toList.1 he)
      · exact hincr e (Option.mem_toList.1 he)
    cases initializer with
    | none =>
      refine .of_le ?_
      rw [Stmt.levels, Nat.max_le]
      exact ⟨hclauses, hbody.succ_le⟩
    | some initializer =>
      obtain ⟨hs, hclause⟩ := hinit initializer rfl
      have hle : (Stmt.forLoop (some initializer) condition increment body).levels 0 ≤
          7 * n + 1 := by
        rw [Stmt.levels]
        refine largest_le_iff.2 ?_
        simp only [List.forall_mem_cons, List.not_mem_nil, false_imp_iff, implies_true, and_true]
        exact ⟨hs.succ_le_of_isClause hclause, Nat.le_succ_of_le hclauses,
          Nat.le_succ_of_le hbody.succ_le⟩
      unfold Stmt.Shallow
      rw [if_neg (by simp [Stmt.isClause])]
      omega
  ret _ _ h := .of_le (by
    rw [Stmt.levels]
    exact Expr.Shallow.largest_toList_le h)

/-- Whatever the tokens are, a statement that is read has at most 3578 levels without the steps
along chains. -/
theorem levels_zero_le_of_mem {tokens : List Token} {s : Stmt}
    (hs : s ∈ (Program.ofTokens tokens).statements) : s.levels 0 ≤ 3578 := by
  have hshallow : s.Shallow maxNesting := shallow_gradedInvariant.of_mem (fun _ _ => trivial) hs
  unfold Stmt.Shallow at hshallow
  have hmax : maxNesting = 512 := rfl
  rw [hmax] at hshallow
  split at hshallow <;> omega

/-! ### Chains of any length -/

namespace Expr

/-- A number of ones that are subtracted from a one, one after another. -/
def ones : Nat → Expr
  | 0 => .literal (.number 1)
  | k + 1 => .binary (ones k) ⟨.mark .minus, "-", 1⟩ (.literal (.number 1))

/-- The tokens of such a difference. -/
def onesTokens : Nat → List Token
  | 0 => [⟨.number 1, "1", 1⟩]
  | k + 1 => onesTokens k ++ [⟨.mark .minus, "-", 1⟩, ⟨.number 1, "1", 1⟩]

theorem derives_ones (k : Nat) : (ones k).Derives (.tier .sum) := by
  induction k with
  | zero => exact .of_primary (.literal _) .sum
  | succ k ih =>
    exact .join (t := .sum) (m := .minus) (by decide) rfl ih (.of_primary (.literal _) .product)

theorem spells_ones (k : Nat) : List.Forall₂ Symbol.Spells (ones k).yield (onesTokens k) := by
  induction k with
  | zero => simp [ones, onesTokens, yield, Literal.symbol, Symbol.Spells]
  | succ k ih =>
    simp only [ones, onesTokens, yield]
    exact List.rel_append ih (.cons rfl (.cons rfl .nil))

theorem width_ones (k : Nat) : (ones k).width = 0 := by
  induction k with
  | zero => simp [ones]
  | succ k ih => simp [ones, ih]

theorem nesting_ones (k : Nat) : (ones k).nesting = 0 := by
  induction k with
  | zero => simp [ones]
  | succ k ih => simp [ones, ih]

theorem height_ones (k : Nat) : (ones k).height = k := by
  unfold height
  induction k with
  | zero => simp [ones]
  | succ k ih => simp [ones, ih]

end Expr

/-- However often a one is subtracted, the statement is read, and nothing is complained of. -/
theorem ofTokens_ones (k : Nat) :
    Program.ofTokens ((Expr.onesTokens k ++ [⟨.mark .semicolon, ";", 1⟩]) ++
      [⟨.mark .eof, "", 1⟩]) = ⟨[.expression (Expr.ones k)], []⟩ := by
  have hderives : (Stmt.expression (Expr.ones k)).Derives .declaration :=
    .statement (.expression (.operators (.operand (t := .or) (.operand (t := .and)
      (.operand (t := .equality) (.operand (t := .comparison) (Expr.derives_ones k)))))))
  have hfits : (Stmt.expression (Expr.ones k)).FitsDeclared maxNesting := by
    simp [Stmt.FitsDeclared, Stmt.nesting, Stmt.entry, Stmt.width, Expr.nesting_ones,
      Expr.width_ones, maxNesting]
  have hspells : List.Forall₂ Symbol.Spells
      ([Stmt.expression (Expr.ones k)].flatMap Stmt.yield)
      (Expr.onesTokens k ++ [⟨.mark .semicolon, ";", 1⟩]) := by
    simp only [List.flatMap_cons, List.flatMap_nil, List.append_nil, Stmt.yield]
    exact List.rel_append (Expr.spells_ones k) (.cons rfl .nil)
  refine Program.ofTokens_of_reads (Program.body_append ?_ hspells rfl)
    (Program.rule_reads (List.forall_mem_singleton.2 ⟨hderives, hfits⟩) hspells)
  exact List.forall_mem_flatMap.2 (List.forall_mem_singleton.2 hderives.isText)

/-! ### The height of what is read -/

/-- **The height of what is read is bounded by its longest chain.** Whatever the tokens are, every
statement that is read has at most 3578 levels for each node of its longest chain. -/
theorem height_le_of_mem {tokens : List Token} {s : Stmt}
    (hs : s ∈ (Program.ofTokens tokens).statements) : s.height ≤ 3578 * (s.chain + 1) :=
  Nat.le_trans s.height_le (Nat.mul_le_mul_right _ (levels_zero_le_of_mem hs))

/-- Three ones subtracted from a one. -/
theorem height_le_of_mem_three :
    let s := Stmt.expression (Expr.ones 3)
    s ∈ (Program.ofTokens ((Expr.onesTokens 3 ++ [⟨.mark .semicolon, ";", 1⟩]) ++
      [⟨.mark .eof, "", 1⟩])).statements ∧ s.height = 4 ∧ s.chain = 3 ∧
      s.height ≤ 3578 * (s.chain + 1) := by
  intro s
  have hs : s ∈ (Program.ofTokens ((Expr.onesTokens 3 ++ [⟨.mark .semicolon, ";", 1⟩]) ++
      [⟨.mark .eof, "", 1⟩])).statements := by
    rw [ofTokens_ones]
    exact List.mem_singleton_self _
  refine ⟨hs, ?_, ?_, height_le_of_mem hs⟩
  · simp [s, Stmt.height, Expr.ones]
  · simp [s, Expr.ones]

/-- No number bounds the heights of all trees that are read. -/
theorem unbounded_height :
    ¬ ∃ bound, ∀ tokens, ∀ s ∈ (Program.ofTokens tokens).statements, s.height ≤ bound := by
  rintro ⟨bound, h⟩
  have hmem : Stmt.expression (Expr.ones bound) ∈
      (Program.ofTokens ((Expr.onesTokens bound ++ [⟨.mark .semicolon, ";", 1⟩]) ++
        [⟨.mark .eof, "", 1⟩])).statements := by
    rw [ofTokens_ones]
    exact List.mem_singleton_self _
  have hle := h _ _ hmem
  have hheight : (Stmt.expression (Expr.ones bound)).height = (Expr.ones bound).height + 1 := by
    simp [Stmt.height, Expr.height]
  rw [hheight, Expr.height_ones] at hle
  omega

end Scriptlet

import Scriptlet.Error
import Scriptlet.Tree.Basic

/-!
# The language

What the grammar says about trees, without a word about how they are read: how a tree is spelled
in tokens, which trees are derivable at which level of precedence, and how deeply and widely a tree
is nested.

    declaration → "function" IDENT "(" parameters? ")" block | "var" IDENT ("=" expression)? ";"
                | statement
    statement   → expression ";" | "print" expression ";" | "return" expression? ";" | block
                | "if" "(" expression ")" statement ("else" statement)?
                | "while" "(" expression ")" statement
                | "for" "(" (var | expression ";" | ";") expression? ";" expression? ")" statement
    expression  → IDENT "=" expression | or
-/

namespace Scriptlet

/-! ### Spelling -/

/-- A place in a spelling: a token that the tree keeps, or any token of a kind. -/
inductive Symbol
  | token (t : Token)
  | kind (k : Kind)

namespace Symbol

/-- Any token with the given mark. -/
abbrev mark (m : Mark) : Symbol := kind (.mark m)

/-- Whether a token may stand at a place. -/
def Spells : Symbol → Token → Prop
  | token u, t => t = u
  | kind k, t => t.kind = k

end Symbol

/-- The place of a literal. -/
def Literal.symbol : Literal → Symbol
  | number value => .kind (.number value)
  | string contents => .kind (.string contents)
  | boolean true => .mark .kwTrue
  | boolean false => .mark .kwFalse
  | null => .mark .kwNull

/-- Spellings with commas between them. -/
def separated : List (List Symbol) → List Symbol
  | [] => []
  | [x] => x
  | x :: xs => x ++ .mark .comma :: separated xs

/-- How an expression is spelled. -/
def Expr.yield : Expr → List Symbol
  | .literal value => [value.symbol]
  | .var name => [.token name]
  | .assign name value => .token name :: .mark .equal :: value.yield
  | .unary operator operand => .token operator :: operand.yield
  | .binary left operator right => left.yield ++ .token operator :: right.yield
  | .logical left operator right => left.yield ++ .token operator :: right.yield
  | .group inner => .mark .leftParen :: (inner.yield ++ [.mark .rightParen])
  | .call callee paren arguments =>
    callee.yield ++ .mark .leftParen ::
      (separated (arguments.map fun a => a.yield) ++ [.token paren])

/-- How an expression that may be missing is spelled. -/
def Expr.yieldOption (e : Option Expr) : List Symbol := (e.map Expr.yield).getD []

/-- How a statement or declaration is spelled. -/
def Stmt.yield : Stmt → List Symbol
  | .expression e => e.yield ++ [.mark .semicolon]
  | .print e => .mark .kwPrint :: (e.yield ++ [.mark .semicolon])
  | .var name none => [.mark .kwVar, .token name, .mark .semicolon]
  | .var name (some e) =>
    .mark .kwVar :: .token name :: .mark .equal :: (e.yield ++ [.mark .semicolon])
  | .block body => .mark .leftBrace :: (body.flatMap (fun s => s.yield) ++ [.mark .rightBrace])
  | .function name params body =>
    .mark .kwFunction :: .token name :: .mark .leftParen ::
      (separated (params.map fun p => [.token p]) ++ .mark .rightParen :: .mark .leftBrace ::
        (body.flatMap (fun s => s.yield) ++ [.mark .rightBrace]))
  | .ifElse condition thenBranch none =>
    .mark .kwIf :: .mark .leftParen :: (condition.yield ++ .mark .rightParen :: thenBranch.yield)
  | .ifElse condition thenBranch (some elseBranch) =>
    .mark .kwIf :: .mark .leftParen :: (condition.yield ++ .mark .rightParen ::
      (thenBranch.yield ++ .mark .kwElse :: elseBranch.yield))
  | .whileLoop condition body =>
    .mark .kwWhile :: .mark .leftParen :: (condition.yield ++ .mark .rightParen :: body.yield)
  | .forLoop none condition increment body =>
    .mark .kwFor :: .mark .leftParen :: .mark .semicolon ::
      (Expr.yieldOption condition ++ .mark .semicolon ::
        (Expr.yieldOption increment ++ .mark .rightParen :: body.yield))
  | .forLoop (some initializer) condition increment body =>
    .mark .kwFor :: .mark .leftParen :: (initializer.yield ++
      (Expr.yieldOption condition ++ .mark .semicolon ::
        (Expr.yieldOption increment ++ .mark .rightParen :: body.yield)))
  | .ret keyword value => .token keyword :: (Expr.yieldOption value ++ [.mark .semicolon])

theorem separated_concat (xs : List (List Symbol)) (x : List Symbol) :
    separated (xs ++ [x]) = xs.flatMap (· ++ [.mark .comma]) ++ x := by
  induction xs with
  | nil => rfl
  | cons y ys ih =>
    cases ys with
    | nil => simp [separated]
    | cons z zs =>
      change y ++ .mark .comma :: separated (z :: zs ++ [x]) = _
      rw [ih]
      simp

theorem exists_separated_cons (x : List Symbol) (xs : List (List Symbol)) :
    ∃ ys, separated (x :: xs) = x ++ ys := by
  cases xs with
  | nil => exact ⟨[], (List.append_nil x).symm⟩
  | cons y ys => exact ⟨_, rfl⟩

theorem Stmt.yield_forLoop (initializer : Option Stmt) (condition increment : Option Expr)
    (body : Stmt) : (Stmt.forLoop initializer condition increment body).yield =
      .mark .kwFor :: .mark .leftParen :: ((initializer.map Stmt.yield).getD [.mark .semicolon] ++
        (Expr.yieldOption condition ++ .mark .semicolon ::
          (Expr.yieldOption increment ++ .mark .rightParen :: body.yield))) := by
  cases initializer <;> simp [yield]

/-- A statement is spelled with at least one symbol. -/
theorem Stmt.yield_ne_nil (s : Stmt) : s.yield ≠ [] := by
  cases s with
  | var name initializer => cases initializer <;> simp [yield]
  | ifElse condition thenBranch elseBranch => cases elseBranch <;> simp [yield]
  | forLoop initializer condition increment body => cases initializer <;> simp [yield]
  | expression | print | block | function | whileLoop | ret => simp [yield]

/-! ### Levels of precedence -/

/-- The levels of binary operators, from the loosest to the tightest. -/
inductive Tier
  | or
  | and
  | equality
  | comparison
  | sum
  | product

/-- The levels of expressions, from the loosest to the tightest. -/
inductive Level
  | assignment
  | tier (t : Tier)
  | unary
  | call
  | primary

namespace Tier

/-- The operators of a level. -/
def marks : Tier → List Mark
  | or => [.kwOr]
  | and => [.kwAnd]
  | equality => [.bangEqual, .equalEqual]
  | comparison => [.greater, .greaterEqual, .less, .lessEqual]
  | sum => [.minus, .plus]
  | product => [.star, .slash]

/-- The node for an operator of a level. -/
def node : Tier → Expr → Token → Expr → Expr
  | or | and => .logical
  | equality | comparison | sum | product => .binary

/-- The level of the operands. -/
def operand : Tier → Level
  | or => .tier .and
  | and => .tier .equality
  | equality => .tier .comparison
  | comparison => .tier .sum
  | sum => .tier .product
  | product => .unary

@[simp] theorem yield_node (t : Tier) (left : Expr) (operator : Token) (right : Expr) :
    (t.node left operator right).yield = left.yield ++ .token operator :: right.yield := by
  cases t <;> simp [node, Expr.yield]

end Tier

/-! ### Derivations -/

/-- The expressions that the grammar has at a level: operators group to the left, assignments to the
right, and only a name can be assigned to. -/
inductive Expr.Derives : Level → Expr → Prop
  | assign {name : Token} {value : Expr} : name.kind = .mark .identifier →
      Derives .assignment value → Derives .assignment (.assign name value)
  | operators {e : Expr} : Derives (.tier .or) e → Derives .assignment e
  | join {t : Tier} {left right : Expr} {operator : Token} {m : Mark} : m ∈ t.marks →
      operator.kind = .mark m → Derives (.tier t) left → Derives t.operand right →
      Derives (.tier t) (t.node left operator right)
  | operand {t : Tier} {e : Expr} : Derives t.operand e → Derives (.tier t) e
  | unary {operator : Token} {operand : Expr} {m : Mark} : m ∈ [Mark.bang, .minus] →
      operator.kind = .mark m → Derives .unary operand → Derives .unary (.unary operator operand)
  | callee {e : Expr} : Derives .call e → Derives .unary e
  | call {callee : Expr} {paren : Token} {arguments : List Expr} : Derives .call callee →
      paren.kind = .mark .rightParen → (∀ a ∈ arguments, Derives .assignment a) →
      Derives .call (.call callee paren arguments)
  | primary {e : Expr} : Derives .primary e → Derives .call e
  | literal (value : Literal) : Derives .primary (.literal value)
  | var {name : Token} : name.kind = .mark .identifier → Derives .primary (.var name)
  | group {inner : Expr} : Derives .assignment inner → Derives .primary (.group inner)

/-- The name of a derivable variable is an identifier. -/
theorem Expr.Derives.kind_of_var {level : Level} {name : Token}
    (h : (Expr.var name).Derives level) : name.kind = .mark .identifier := by
  generalize he : Expr.var name = e at h
  induction h with
  | operators _ ih | operand _ ih | callee _ ih | primary _ ih => exact ih he
  | @join t => cases t <;> cases he
  | var hk =>
    cases he
    exact hk
  | assign | unary | call | literal | group => cases he

/-- Whether a statement ends in a conditional that an `else` behind it would belong to. -/
def Stmt.endsOpen : Stmt → Bool
  | .ifElse _ _ none => true
  | .ifElse _ _ (some s) => s.endsOpen
  | .whileLoop _ body => body.endsOpen
  | .forLoop _ _ _ body => body.endsOpen
  | _ => false

/-- Whether a statement may be the first clause of a loop header. -/
def Stmt.isClause : Stmt → Bool
  | .var _ _ | .expression _ => true
  | _ => false

/-- The categories of statements. -/
inductive Category
  | declaration
  | statement

/-- The statements that the grammar has in a category. An `else` belongs to the nearest conditional:
what stands before it does not end in a conditional without one. -/
inductive Stmt.Derives : Category → Stmt → Prop
  | statement {s : Stmt} : Derives .statement s → Derives .declaration s
  | var {name : Token} {initializer : Option Expr} : name.kind = .mark .identifier →
      (∀ e ∈ initializer, e.Derives .assignment) → Derives .declaration (.var name initializer)
  | function {name : Token} {params : List Token} {body : List Stmt} :
      name.kind = .mark .identifier → (∀ p ∈ params, p.kind = .mark .identifier) →
      (∀ s ∈ body, Derives .declaration s) → Derives .declaration (.function name params body)
  | expression {e : Expr} : e.Derives .assignment → Derives .statement (.expression e)
  | print {e : Expr} : e.Derives .assignment → Derives .statement (.print e)
  | block {body : List Stmt} : (∀ s ∈ body, Derives .declaration s) →
      Derives .statement (.block body)
  | ifElse {condition : Expr} {thenBranch : Stmt} {elseBranch : Option Stmt} :
      condition.Derives .assignment → Derives .statement thenBranch →
      (∀ s ∈ elseBranch, Derives .statement s) →
      (elseBranch.isSome = true → thenBranch.endsOpen = false) →
      Derives .statement (.ifElse condition thenBranch elseBranch)
  | whileLoop {condition : Expr} {body : Stmt} : condition.Derives .assignment →
      Derives .statement body → Derives .statement (.whileLoop condition body)
  | forLoop {initializer : Option Stmt} {condition increment : Option Expr} {body : Stmt} :
      (∀ s ∈ initializer, Derives .declaration s) → (∀ s ∈ initializer, s.isClause = true) →
      (∀ e ∈ condition, e.Derives .assignment) → (∀ e ∈ increment, e.Derives .assignment) →
      Derives .statement body → Derives .statement (.forLoop initializer condition increment body)
  | ret {keyword : Token} {value : Option Expr} : keyword.kind = .mark .kwReturn →
      (∀ e ∈ value, e.Derives .assignment) → Derives .statement (.ret keyword value)

namespace Stmt.Derives

/-- A variable has a name, and its initializer is an expression. -/
theorem of_var {category : Category} {name : Token} {initializer : Option Expr}
    (h : (Stmt.var name initializer).Derives category) :
    name.kind = .mark .identifier ∧ ∀ e ∈ initializer, e.Derives .assignment := by
  cases h with
  | statement h => cases h
  | var hname hinit => exact ⟨hname, hinit⟩

theorem of_expression {category : Category} {e : Expr}
    (h : (Stmt.expression e).Derives category) : e.Derives .assignment := by
  cases h with
  | statement h =>
    cases h
    assumption
  | expression he => exact he

end Stmt.Derives

/-! ### Depth and width -/

/-- The largest number of a list, or zero. -/
def largest (ns : List Nat) : Nat := ns.foldr max 0

/-- A bound on the largest is a bound on all. -/
theorem largest_le_iff {ns : List Nat} {n : Nat} : largest ns ≤ n ↔ ∀ k ∈ ns, k ≤ n := by
  induction ns with
  | nil => simp [largest]
  | cons k ns ih =>
    have hcons : largest (k :: ns) = max k (largest ns) := rfl
    rw [hcons, Nat.max_le, ih, List.forall_mem_cons]

namespace Expr

/-- How many levels of nesting are entered inside an expression: one for each expression and unary
operand that is entered on the way to its innermost part. -/
@[simp] def nesting : Expr → Nat
  | .literal _ | .var _ => 0
  | .assign _ value => value.nesting + 1
  | .unary _ operand => operand.nesting + 1
  | .binary left _ right => max left.nesting right.nesting
  | .logical left _ right => max left.nesting right.nesting
  | .group inner => inner.nesting + 1
  | .call callee _ arguments =>
    max callee.nesting (largest (arguments.map fun a => a.nesting + 1))

/-- The greatest number of arguments of a call inside an expression. -/
@[simp] def width : Expr → Nat
  | .literal _ | .var _ => 0
  | .assign _ value => value.width
  | .unary _ operand => operand.width
  | .binary left _ right => max left.width right.width
  | .logical left _ right => max left.width right.width
  | .group inner => inner.width
  | .call callee _ arguments =>
    max callee.width (max arguments.length (largest (arguments.map fun a => a.width)))

/-- Whether an expression is within the limits if it may be entered with the given number of levels
left. -/
def Fits (n : Nat) (e : Expr) : Prop := e.nesting < n ∧ e.width ≤ maxArity

variable {n : Nat}

theorem fits_literal (value : Literal) : (literal value).Fits (n + 1) := by
  simp [Fits, nesting, width]

theorem fits_var (name : Token) : (var name).Fits (n + 1) := by
  simp [Fits, nesting, width]

@[simp] theorem fits_assign {name : Token} {value : Expr} :
    (assign name value).Fits (n + 1) ↔ value.Fits n := by
  simp [Fits, nesting, width]

@[simp] theorem fits_unary {operator : Token} {operand : Expr} :
    (unary operator operand).Fits (n + 1) ↔ operand.Fits n := by
  simp [Fits, nesting, width]

/-- An operator between operands takes no level of nesting of its own. -/
@[simp] theorem fits_node {t : Tier} {left right : Expr} {operator : Token} :
    (t.node left operator right).Fits (n + 1) ↔ left.Fits (n + 1) ∧ right.Fits (n + 1) := by
  cases t <;> simp only [Tier.node, Fits, nesting, width] <;> omega

@[simp] theorem fits_group {inner : Expr} : (group inner).Fits (n + 1) ↔ inner.Fits n := by
  simp [Fits, nesting, width]

/-- The arguments of a call are entered one level deeper, its callee is not. -/
@[simp] theorem fits_call {callee : Expr} {paren : Token} {arguments : List Expr} :
    (call callee paren arguments).Fits (n + 1) ↔
      callee.Fits (n + 1) ∧ arguments.length ≤ maxArity ∧ ∀ a ∈ arguments, a.Fits n := by
  simp only [Fits, nesting, width, Nat.lt_succ_iff, Nat.max_le, largest_le_iff, List.forall_mem_map]
  grind

end Expr

namespace Stmt

/-- How many levels are entered on the way to a declaration: one for the declaration, and one more
for a statement. -/
def entry : Stmt → Nat
  | .var _ _ | .function _ _ _ => 1
  | _ => 2

/-- How many levels of nesting are entered inside a statement. -/
@[simp] def nesting : Stmt → Nat
  | .expression e => e.nesting + 1
  | .print e => e.nesting + 1
  | .var _ initializer => largest (initializer.toList.map fun e => e.nesting + 1)
  | .block body => largest (body.map fun s => s.nesting + s.entry)
  | .function _ _ body => largest (body.map fun s => s.nesting + s.entry)
  | .ifElse condition thenBranch none => max (condition.nesting + 1) (thenBranch.nesting + 1)
  | .ifElse condition thenBranch (some elseBranch) =>
    largest [condition.nesting + 1, thenBranch.nesting + 1, elseBranch.nesting + 1]
  | .whileLoop condition body => max (condition.nesting + 1) (body.nesting + 1)
  | .forLoop none condition increment body =>
    max (largest ((condition.toList ++ increment.toList).map fun e => e.nesting + 1))
      (body.nesting + 1)
  | .forLoop (some initializer) condition increment body =>
    largest [initializer.nesting,
      largest ((condition.toList ++ increment.toList).map fun e => e.nesting + 1),
      body.nesting + 1]
  | .ret _ value => largest (value.toList.map fun e => e.nesting + 1)

/-- The greatest number of parameters of a function and of arguments of a call inside a
statement. -/
@[simp] def width : Stmt → Nat
  | .expression e => e.width
  | .print e => e.width
  | .var _ initializer => largest (initializer.toList.map Expr.width)
  | .block body => largest (body.map fun s => s.width)
  | .function _ params body => max params.length (largest (body.map fun s => s.width))
  | .ifElse condition thenBranch none => max condition.width thenBranch.width
  | .ifElse condition thenBranch (some elseBranch) =>
    largest [condition.width, thenBranch.width, elseBranch.width]
  | .whileLoop condition body => max condition.width body.width
  | .forLoop none condition increment body =>
    max (largest ((condition.toList ++ increment.toList).map Expr.width)) body.width
  | .forLoop (some initializer) condition increment body =>
    largest [initializer.width,
      largest ((condition.toList ++ increment.toList).map Expr.width), body.width]
  | .ret _ value => largest (value.toList.map Expr.width)

/-- Whether a statement is within the limits if it may be entered with the given number of levels
left. -/
def Fits (n : Nat) (s : Stmt) : Prop := s.nesting < n ∧ s.width ≤ maxArity

/-- Whether a declaration is within the limits if it may be entered with the given number of levels
left. -/
def FitsDeclared (n : Nat) (s : Stmt) : Prop := s.nesting + s.entry ≤ n ∧ s.width ≤ maxArity

/-- A statement in the place of a declaration takes two levels. -/
theorem Derives.entry_eq_two {s : Stmt} (h : s.Derives .statement) : s.entry = 2 := by
  cases h <;> rfl

variable {n : Nat}

theorem fitsDeclared_of_entry_eq_one {s : Stmt} (h : s.entry = 1) :
    s.FitsDeclared (n + 1) ↔ s.Fits (n + 1) := by
  simp only [FitsDeclared, Fits, h]
  omega

theorem fitsDeclared_of_entry_eq_two {s : Stmt} (h : s.entry = 2) :
    s.FitsDeclared (n + 1) ↔ s.Fits n := by
  simp only [FitsDeclared, Fits, h]
  omega

@[simp] theorem fits_expression {e : Expr} : (expression e).Fits (n + 1) ↔ e.Fits n := by
  simp [Fits, Expr.Fits, nesting, width]

@[simp] theorem fits_print {e : Expr} : (print e).Fits (n + 1) ↔ e.Fits n := by
  simp [Fits, Expr.Fits, nesting, width]

@[simp] theorem fits_var {name : Token} {initializer : Option Expr} :
    (var name initializer).Fits (n + 1) ↔ ∀ e ∈ initializer, e.Fits n := by
  cases initializer <;> simp [Fits, Expr.Fits, nesting, width, largest]

@[simp] theorem fits_block {body : List Stmt} :
    (block body).Fits (n + 1) ↔ ∀ s ∈ body, s.FitsDeclared n := by
  simp only [Fits, FitsDeclared, nesting, width, Nat.lt_succ_iff, largest_le_iff,
    List.forall_mem_map]
  grind

@[simp] theorem fits_function {name : Token} {params : List Token} {body : List Stmt} :
    (function name params body).Fits (n + 1) ↔
      params.length ≤ maxArity ∧ ∀ s ∈ body, s.FitsDeclared n := by
  simp only [Fits, FitsDeclared, nesting, width, Nat.lt_succ_iff, Nat.max_le, largest_le_iff,
    List.forall_mem_map]
  grind

@[simp] theorem fits_ifElse {condition : Expr} {thenBranch : Stmt} {elseBranch : Option Stmt} :
    (ifElse condition thenBranch elseBranch).Fits (n + 1) ↔
      condition.Fits n ∧ thenBranch.Fits n ∧ ∀ s ∈ elseBranch, s.Fits n := by
  cases elseBranch with
  | none =>
    simp only [Fits, Expr.Fits, nesting, width, Nat.max_le, Nat.lt_succ_iff, Nat.add_one_le_iff]
    grind
  | some s =>
    simp only [Fits, Expr.Fits, nesting, width, largest_le_iff, List.forall_mem_cons,
      Nat.lt_succ_iff, Nat.add_one_le_iff]
    grind

@[simp] theorem fits_whileLoop {condition : Expr} {body : Stmt} :
    (whileLoop condition body).Fits (n + 1) ↔ condition.Fits n ∧ body.Fits n := by
  simp only [Fits, Expr.Fits, nesting, width]
  omega

@[simp] theorem fits_forLoop {initializer : Option Stmt} {condition increment : Option Expr}
    {body : Stmt} : (forLoop initializer condition increment body).Fits (n + 1) ↔
      (∀ s ∈ initializer, s.Fits (n + 1)) ∧ (∀ e ∈ condition, e.Fits n) ∧
        (∀ e ∈ increment, e.Fits n) ∧ body.Fits n := by
  cases initializer with
  | none =>
    simp only [Fits, Expr.Fits, nesting, width, Nat.max_le, largest_le_iff, List.forall_mem_map,
      List.forall_mem_append, Option.mem_toList, Option.mem_def, Nat.lt_succ_iff,
      Nat.add_one_le_iff]
    grind
  | some s =>
    simp only [Fits, Expr.Fits, nesting, width, largest_le_iff, List.forall_mem_cons,
      List.forall_mem_map, List.forall_mem_append, Option.mem_toList, Option.mem_def,
      Nat.lt_succ_iff, Nat.add_one_le_iff]
    grind

@[simp] theorem fits_ret {keyword : Token} {value : Option Expr} :
    (ret keyword value).Fits (n + 1) ↔ ∀ e ∈ value, e.Fits n := by
  cases value <;> simp [Fits, Expr.Fits, nesting, width, largest]

end Stmt

end Scriptlet

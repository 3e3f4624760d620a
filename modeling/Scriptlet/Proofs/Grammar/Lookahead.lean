import Mathlib.Data.List.Forall2
import Scriptlet.Proofs.Grammar.Reading

/-!
# One token ahead

What the next token tells. It binds to the expression before it more or less tightly, or not at all,
which decides where the expression ends; and as the first token of an expression or a statement, it
is of one of a few kinds. An end token is in no spelling.
-/

namespace Scriptlet

open Rule

/-- Tokens that spell one thing behind another. -/
theorem split_spelling {xs ys : List Symbol} {ts : List Token}
    (h : List.Forall₂ Symbol.Spells (xs ++ ys) ts) :
    ∃ us vs, List.Forall₂ Symbol.Spells xs us ∧ List.Forall₂ Symbol.Spells ys vs ∧
      ts = us ++ vs := by
  induction xs generalizing ts with
  | nil => exact ⟨[], ts, .nil, h, rfl⟩
  | cons x xs ih =>
    obtain ⟨t, ts, ht, hts, rfl⟩ := List.forall₂_cons_left_iff.1 h
    obtain ⟨us, vs, hus, hvs, rfl⟩ := ih hts
    exact ⟨t :: us, vs, .cons ht hus, hvs, rfl⟩

/-! ### How tightly a token binds -/

/-- How tightly a mark binds to an expression before it, from an assignment to a call; zero for a
mark with which no expression goes on. -/
def Mark.binding : Mark → Nat
  | equal => 1
  | kwOr => 2
  | kwAnd => 3
  | bangEqual | equalEqual => 4
  | greater | greaterEqual | less | lessEqual => 5
  | minus | plus => 6
  | star | slash => 7
  | leftParen => 8
  | _ => 0

/-- How tightly a token binds to an expression before it. -/
def Token.binding (t : Token) : Nat :=
  match t.kind with
  | .mark m => m.binding
  | _ => 0

theorem Token.binding_eq {t : Token} {m : Mark} (h : t.kind = .mark m) : t.binding = m.binding := by
  simp [binding, h]

/-- The next token binds less tightly than a bound. -/
def Looser (bound : Nat) (ts : List Token) : Prop := ∀ t ∈ ts.head?, t.binding < bound

theorem Looser.mono {bound bound' : Nat} {ts : List Token} (h : Looser bound ts)
    (hle : bound ≤ bound') : Looser bound' ts :=
  fun t ht => Nat.lt_of_lt_of_le (h t ht) hle

theorem looser_cons {bound : Nat} {t : Token} {ts : List Token} {m : Mark} (ht : t.kind = .mark m)
    (hm : m.binding < bound) : Looser bound (t :: ts) := by
  intro u hu
  cases hu
  rwa [Token.binding_eq ht]

/-- What binds looser is none of the marks that bind at least as tightly. -/
theorem Looser.notNext {bound : Nat} {ts : List Token} {marks : List Mark} (h : Looser bound ts)
    (hmarks : ∀ m ∈ marks, bound ≤ m.binding) : NotNext marks ts := by
  intro t ht m hm hk
  have hlt := h t ht
  rw [Token.binding_eq hk] at hlt
  exact absurd (hmarks m hm) (Nat.not_le.2 hlt)

namespace Level

/-- An expression of a level ends before a token that binds less tightly than this. -/
def rank : Level → Nat
  | assignment => 1
  | tier .or => 2
  | tier .and => 3
  | tier .equality => 4
  | tier .comparison => 5
  | tier .sum => 6
  | tier .product => 7
  | unary => 8
  | call => 8
  | primary => 9

/-- Before a token that binds less tightly than this, an expression of a level ends or goes on with
an operator of its own. -/
def limit : Level → Nat
  | tier t => t.operand.rank
  | call => 9
  | level => level.rank

theorem rank_le_limit (level : Level) : level.rank ≤ level.limit := by
  rcases level with _ | (_ | _ | _ | _ | _ | _) | _ | _ | _ <;> decide

end Level

namespace Tier

/-- The operands of a tier bind tighter than the tier. -/
theorem rank_lt_rank_operand (t : Tier) : (Level.tier t).rank < t.operand.rank := by
  cases t <;> decide

theorem operand_ne_assignment (t : Tier) : t.operand ≠ .assignment := by
  cases t <;> simp [operand]

/-- The marks of a tier bind as the tier does. -/
theorem binding_of_mem_marks {t : Tier} {m : Mark} (hm : m ∈ t.marks) :
    m.binding = (Level.tier t).rank := by
  cases t <;> simp [marks] at hm <;> rcases hm with rfl | rfl | rfl | rfl <;> rfl

end Tier

/-! ### How expressions and statements start -/

/-- There is a first token, and if it has a mark, then one of the given marks. -/
def Starts (marks : List Mark) (ts : List Token) : Prop :=
  ∃ t us, ts = t :: us ∧ ∀ m, t.kind = .mark m → m ∈ marks

namespace Starts

variable {marks : List Mark} {ts : List Token}

theorem append (h : Starts marks ts) (us : List Token) : Starts marks (ts ++ us) := by
  obtain ⟨t, ts, rfl, ht⟩ := h
  exact ⟨t, ts ++ us, rfl, ht⟩

theorem mono {marks' : List Mark} (h : Starts marks ts) (hsub : marks ⊆ marks') :
    Starts marks' ts := by
  obtain ⟨t, ts, rfl, ht⟩ := h
  exact ⟨t, ts, rfl, fun m hm => hsub (ht m hm)⟩

/-- What starts with one of some marks does not start with any other. -/
theorem notNext {others : List Mark} (h : Starts marks ts) (hothers : ∀ m ∈ others, m ∉ marks) :
    NotNext others ts := by
  obtain ⟨t, ts, rfl, ht⟩ := h
  intro u hu m hm hk
  cases hu
  exact hothers m hm (ht m hk)

theorem of_symbol {x : Symbol} {xs : List Symbol} {m : Mark}
    (hts : List.Forall₂ Symbol.Spells (x :: xs) ts) (hx : ∀ t, x.Spells t → t.kind = .mark m)
    (hm : m ∈ marks) : Starts marks ts := by
  obtain ⟨t, us, ht, -, rfl⟩ := List.forall₂_cons_left_iff.1 hts
  refine ⟨t, us, rfl, fun k hk => ?_⟩
  cases (hx t ht).symm.trans hk
  exact hm

end Starts

/-- The marks that an expression of a level may start with. -/
def Level.startMarks : Level → List Mark
  | call | primary => [.kwFalse, .kwTrue, .kwNull, .identifier, .leftParen]
  | _ => [.bang, .minus, .kwFalse, .kwTrue, .kwNull, .identifier, .leftParen]

namespace Expr.Derives

variable {level : Level} {e : Expr} {ts : List Token}

/-- A derived expression starts with a mark that its level may start with. -/
theorem starts (h : e.Derives level) (hts : List.Forall₂ Symbol.Spells e.yield ts) :
    Starts level.startMarks ts := by
  induction h generalizing ts with
  | assign hname _ _ =>
    rw [Expr.yield] at hts
    exact .of_symbol hts (fun t ht => ht ▸ hname) (by decide)
  | operators _ ih => exact ih hts
  | join _ _ _ _ ih _ =>
    rw [Tier.yield_node] at hts
    obtain ⟨us, vs, hus, -, rfl⟩ := split_spelling hts
    exact (ih hus).append vs
  | @operand t _ _ ih => cases t <;> exact ih hts
  | unary hm hop _ _ =>
    rw [Expr.yield] at hts
    refine .of_symbol hts (fun t ht => ht ▸ hop) ?_
    exact List.mem_append_left [Mark.kwFalse, .kwTrue, .kwNull, .identifier, .leftParen] hm
  | callee _ ih => exact (ih hts).mono (by decide)
  | call _ _ _ ih _ =>
    rw [Expr.yield] at hts
    obtain ⟨us, vs, hus, -, rfl⟩ := split_spelling hts
    exact (ih hus).append vs
  | primary _ ih => exact ih hts
  | literal value =>
    rw [Expr.yield] at hts
    obtain ⟨t, us, ht, -, rfl⟩ := List.forall₂_cons_left_iff.1 hts
    refine ⟨t, us, rfl, fun m hm => ?_⟩
    rcases value with x | x | (_ | _) | _ <;>
      cases (show t.kind = _ from ht).symm.trans hm <;> decide
  | var hname =>
    rw [Expr.yield] at hts
    exact .of_symbol hts (fun t ht => ht ▸ hname) (by decide)
  | group _ _ =>
    rw [Expr.yield] at hts
    exact .of_symbol hts (fun t ht => ht) (by decide)

/-- A primary expression is one of every tier. -/
theorem of_primary (h : e.Derives .primary) (t : Tier) : e.Derives (.tier t) := by
  have hproduct : e.Derives (.tier .product) := .operand (t := .product) (.callee (.primary h))
  have hsum : e.Derives (.tier .sum) := .operand (t := .sum) hproduct
  have hcomparison : e.Derives (.tier .comparison) := .operand (t := .comparison) hsum
  have hequality : e.Derives (.tier .equality) := .operand (t := .equality) hcomparison
  have hand : e.Derives (.tier .and) := .operand (t := .and) hequality
  cases t with
  | or => exact .operand (t := .or) hand
  | and | equality | comparison | sum | product => assumption

end Expr.Derives

/-- The marks that a statement may start with. -/
def Stmt.startMarks : List Mark :=
  [.kwFor, .kwIf, .kwPrint, .kwReturn, .kwWhile, .leftBrace] ++ Level.assignment.startMarks

/-- The marks that a statement of a category may start with. -/
def Category.startMarks : Category → List Mark
  | declaration => .kwFunction :: .kwVar :: Stmt.startMarks
  | statement => Stmt.startMarks

theorem Expr.Derives.starts_statement {e : Expr} {ts : List Token} (h : e.Derives .assignment)
    (hts : List.Forall₂ Symbol.Spells (Stmt.expression e).yield ts) :
    Starts Level.assignment.startMarks ts := by
  rw [Stmt.yield] at hts
  obtain ⟨us, vs, hus, -, rfl⟩ := split_spelling hts
  exact (h.starts hus).append vs

/-- A derived statement starts with a mark that its category may start with. -/
theorem Stmt.Derives.starts {category : Category} {s : Stmt} {ts : List Token}
    (h : s.Derives category) (hts : List.Forall₂ Symbol.Spells s.yield ts) :
    Starts category.startMarks ts := by
  induction h with
  | statement _ ih => exact (ih hts).mono (by decide)
  | @var name initializer _ _ =>
    cases initializer <;> rw [Stmt.yield] at hts <;>
      exact .of_symbol hts (fun t ht => ht) (by decide)
  | expression he => exact (he.starts_statement hts).mono (List.subset_append_right _ _)
  | @ifElse condition thenBranch elseBranch _ _ _ _ _ _ =>
    cases elseBranch <;> rw [Stmt.yield] at hts <;>
      exact .of_symbol hts (fun t ht => ht) (by decide)
  | @forLoop initializer _ _ _ _ _ _ _ _ _ _ =>
    cases initializer <;> rw [Stmt.yield] at hts <;>
      exact .of_symbol hts (fun t ht => ht) (by decide)
  | ret hk _ =>
    rw [Stmt.yield] at hts
    exact .of_symbol hts (fun t ht => ht ▸ hk) (by decide)
  | function | print | block | whileLoop =>
    rw [Stmt.yield] at hts
    exact .of_symbol hts (fun t ht => ht) (by decide)

/-! ### Spellings without an end token -/

/-- A place at which no end token stands. -/
def Symbol.IsText (x : Symbol) : Prop := ∀ t, x.Spells t → t.kind ≠ .mark .eof

namespace Symbol

@[simp] theorem isText_token {t : Token} : (token t).IsText ↔ t.kind ≠ .mark .eof := by
  constructor
  · exact fun h => h t rfl
  · rintro ht _ rfl
    exact ht

@[simp] theorem isText_kind {k : Kind} : (kind k).IsText ↔ k ≠ .mark .eof := by
  constructor
  · exact fun h => h ⟨k, "", 0⟩ rfl
  · rintro hk t rfl
    exact hk

theorem isText_separated {xs : List (List Symbol)} (h : ∀ ys ∈ xs, ∀ x ∈ ys, IsText x) :
    ∀ x ∈ separated xs, IsText x := by
  induction xs with
  | nil => exact List.forall_mem_nil _
  | cons ys xs ih =>
    obtain ⟨hys, hxs⟩ := List.forall_mem_cons.1 h
    cases xs with
    | nil => exact hys
    | cons zs xs =>
      refine List.forall_mem_append.2 ⟨hys, List.forall_mem_cons.2 ⟨?_, ih hxs⟩⟩
      simp

end Symbol

open Scriptlet.Symbol

@[simp] theorem Literal.isText_symbol (value : Literal) : value.symbol.IsText := by
  rcases value with x | x | (_ | _) | _ <;> simp [symbol]

theorem Tier.eof_notMem_marks (t : Tier) : .eof ∉ t.marks := by
  cases t <;> decide

/-- No token of a derived expression is the end of the text. -/
theorem Expr.Derives.isText {level : Level} {e : Expr} (h : e.Derives level) :
    ∀ x ∈ e.yield, x.IsText := by
  induction h with
  | assign hname _ ih => simpa [Expr.yield, hname] using ih
  | operators _ ih | operand _ ih | callee _ ih | primary _ ih => exact ih
  | @join t left right operator m hm hop _ _ ihleft ihright =>
    have hm' : m ≠ .eof := fun he => t.eof_notMem_marks (he ▸ hm)
    simp only [Tier.yield_node, List.forall_mem_append, List.forall_mem_cons]
    exact ⟨ihleft, by simpa [hop] using hm', ihright⟩
  | @unary operator operand m hm hop _ ih =>
    have hm' : m ≠ .eof := by
      rintro rfl
      revert hm
      decide
    simpa [Expr.yield, hop, hm'] using ih
  | call _ hparen _ ih ihargs =>
    simp only [Expr.yield, List.forall_mem_append, List.forall_mem_cons]
    refine ⟨ih, by simp, isText_separated ?_, by simp [hparen], List.forall_mem_nil _⟩
    simpa using ihargs
  | literal value => simp [Expr.yield]
  | var hname => simp [Expr.yield, hname]
  | group _ ih => simpa [Expr.yield, or_imp, forall_and] using ih

theorem Expr.isText_yieldOption {o : Option Expr} (h : ∀ e ∈ o, e.Derives .assignment) :
    ∀ x ∈ Expr.yieldOption o, x.IsText := by
  cases o with
  | none => exact List.forall_mem_nil _
  | some e => exact (h e rfl).isText

/-- No token of a derived statement is the end of the text. -/
theorem Stmt.Derives.isText {category : Category} {s : Stmt} (h : s.Derives category) :
    ∀ x ∈ s.yield, x.IsText := by
  induction h with
  | statement _ ih => exact ih
  | @var name initializer hname hinit =>
    cases initializer with
    | none => simp [Stmt.yield, hname]
    | some e => simpa [Stmt.yield, hname, or_imp, forall_and] using (hinit e rfl).isText
  | @function name params body hname hparams _ ih =>
    have hseparated : ∀ x ∈ separated (params.map fun p => [.token p]), x.IsText := by
      refine isText_separated fun ys hys => ?_
      obtain ⟨p, hp, rfl⟩ := List.mem_map.1 hys
      simp [hparams p hp]
    simp only [Stmt.yield, List.forall_mem_append, List.forall_mem_cons, List.forall_mem_flatMap]
    simpa [hname] using And.intro hseparated ih
  | expression he => simpa [Stmt.yield, or_imp, forall_and] using he.isText
  | print he => simpa [Stmt.yield, or_imp, forall_and] using he.isText
  | block _ ih =>
    simp only [Stmt.yield, List.forall_mem_append, List.forall_mem_cons, List.forall_mem_flatMap]
    simpa using ih
  | @ifElse condition thenBranch elseBranch hcond _ _ _ ihthen ihelse =>
    cases elseBranch with
    | none =>
      simp only [Stmt.yield, List.forall_mem_append, List.forall_mem_cons]
      simpa using And.intro hcond.isText ihthen
    | some s =>
      simp only [Stmt.yield, List.forall_mem_append, List.forall_mem_cons]
      simpa using And.intro hcond.isText (And.intro ihthen (ihelse s rfl))
  | whileLoop hcond _ ih =>
    simp only [Stmt.yield, List.forall_mem_append, List.forall_mem_cons]
    simpa using And.intro hcond.isText ih
  | @forLoop initializer condition increment body _ _ hcond hincr _ ihinit ih =>
    have hinit : ∀ x ∈ (initializer.map Stmt.yield).getD [.mark .semicolon], x.IsText := by
      cases initializer with
      | none => simp
      | some s => exact ihinit s rfl
    simp only [Stmt.yield_forLoop, List.forall_mem_append, List.forall_mem_cons]
    exact ⟨by simp, by simp, hinit, Expr.isText_yieldOption hcond, by simp,
      Expr.isText_yieldOption hincr, by simp, ih⟩
  | ret hk hvalue =>
    simp only [Stmt.yield, List.forall_mem_append, List.forall_mem_cons]
    exact ⟨by simp [hk], Expr.isText_yieldOption hvalue, by simp, List.forall_mem_nil _⟩

end Scriptlet

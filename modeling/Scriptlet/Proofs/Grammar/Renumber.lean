import Scriptlet.Program
import Scriptlet.Proofs.Grammar.Reading
import Scriptlet.Proofs.Tree.Renumber

/-!
# Reading and lines

No rule of the grammar looks at a line. Tokens on other lines are read as the same trees on other
lines, with the same complaints at the same tokens. This holds of every way in which rules are put
together, and hence of all rules.
-/

namespace Scriptlet

variable {α β γ δ σ τ : Type} {f : Nat → Nat}

/-- The same note at a token on another line. -/
def Note.renumber (f : Nat → Nat) (n : Note) : Note := ⟨n.site.map (Token.renumber f), n.complaint⟩

/-- The same step with all tokens on other lines; `g` renumbers results. -/
def Step.renumber (f : Nat → Nat) (g : α → β) (s : Step α) : Step β :=
  ⟨(s.result.map g).mapError (Note.renumber f), s.rest.map (Token.renumber f),
    s.notes.map (Note.renumber f), s.moved⟩

@[simp] theorem Step.renumber_ok (g : α → β) (a : α) (rest : List Token) (notes : List Note)
    (moved : Bool) : Step.renumber f g ⟨.ok a, rest, notes, moved⟩ =
      ⟨.ok (g a), rest.map (Token.renumber f), notes.map (Note.renumber f), moved⟩ :=
  rfl

@[simp] theorem Step.renumber_error (g : α → β) (e : Note) (rest : List Token) (notes : List Note)
    (moved : Bool) : Step.renumber f g ⟨.error e, rest, notes, moved⟩ =
      ⟨.error (e.renumber f), rest.map (Token.renumber f), notes.map (Note.renumber f), moved⟩ :=
  rfl

namespace Rule

section Rounds

variable {round : σ → Rule (σ × Bool)} {s s' : σ} {ts rest : List Token} {notes : List Note}
  {more moved : Bool}

/-- An iteration ends with the error of a round. -/
theorem iterateRun_of_error {e : Note} (h : (round s).run ts = ⟨.error e, rest, notes, moved⟩) :
    iterateRun round s ts = ⟨.error e, rest, notes, moved⟩ := by
  rw [iterateRun]
  split
  · rename_i heq
    cases h.symm.trans heq
    rfl
  · rename_i heq
    cases h.symm.trans heq

/-- An iteration goes on after a round that asks for more and has read a token. -/
theorem iterateRun_of_more (h : (round s).run ts = ⟨.ok (s', more), rest, notes, moved⟩)
    (hgo : more = true ∧ moved = true) :
    iterateRun round s ts = (iterateRun round s' rest).after notes moved := by
  rw [iterateRun]
  split
  · rename_i heq
    cases h.symm.trans heq
  · rename_i heq
    cases h.symm.trans heq
    rw [dif_pos hgo]

/-- An iteration ends with a round that asks for no more, or that has read nothing. -/
theorem iterateRun_of_last (h : (round s).run ts = ⟨.ok (s', more), rest, notes, moved⟩)
    (hgo : ¬(more = true ∧ moved = true)) :
    iterateRun round s ts = ⟨.ok s', rest, notes, moved⟩ := by
  rw [iterateRun]
  split
  · rename_i heq
    cases h.symm.trans heq
  · rename_i heq
    cases h.symm.trans heq
    rw [dif_neg hgo]

end Rounds

/-- The second of two rules does to tokens on other lines what the first does to the tokens
themselves. -/
def Follows (f : Nat → Nat) (g : α → β) (r : Rule α) (r' : Rule β) : Prop :=
  ∀ ts, r'.run (ts.map (Token.renumber f)) = (r.run ts).renumber f g

namespace Follows

variable {g : α → β} {g' : γ → δ} {r : Rule α} {r' : Rule β}

/-- A rule that reads nothing follows if its result does. -/
theorem pure {a : α} {b : β} (h : b = g a) :
    Follows f g (pure a : Rule α) (Pure.pure b : Rule β) := by
  intro ts
  subst h
  rfl

theorem fail (c : Complaint) : Follows f g (fail c : Rule α) (Rule.fail c : Rule β) := by
  intro ts
  simp [Rule.fail, Note.renumber]

theorem note {n : Note} : Follows f id (note n) (Rule.note (n.renumber f)) := fun _ => rfl

theorem noteHere (c : Complaint) : Follows f id (noteHere c) (Rule.noteHere c) := by
  intro ts
  simp [Rule.noteHere, Note.renumber]

theorem peek : Follows f (Option.map (Token.renumber f)) peek? peek? := by
  intro ts
  simp [peek?]

theorem nextIs (m : Mark) : Follows f id (nextIs m) (Rule.nextIs m) := by
  intro ts
  cases ts <;> rfl

theorem skip : Follows f id skip Rule.skip := by
  intro ts
  cases ts <;> rfl

/-- Which marks a token has is no matter of lines. -/
theorem acceptAny (marks : List Mark) :
    Follows f (Option.map (Token.renumber f)) (acceptAny marks) (Rule.acceptAny marks) := by
  intro ts
  cases ts with
  | nil => rfl
  | cons t ts =>
    rw [List.map_cons, run_acceptAny_cons, run_acceptAny_cons]
    have hsame : (marks.any fun m => (t.renumber f).is m) = marks.any fun m => t.is m := rfl
    by_cases hany : (marks.any fun m => t.is m) = true
    · rw [if_pos (hsame.trans hany), if_pos hany]
      rfl
    · rw [if_neg (hsame ▸ hany), if_neg hany]
      rfl

theorem accept (m : Mark) :
    Follows f (Option.map (Token.renumber f)) (accept m) (Rule.accept m) :=
  acceptAny [m]

/-- Rules that follow each other may be run one after another. -/
theorem bind {k : α → Rule γ} {k' : β → Rule δ} (h : Follows f g r r')
    (hk : ∀ a, Follows f g' (k a) (k' (g a))) : Follows f g' (r >>= k) (r' >>= k') := by
  intro ts
  rw [run_bind, run_bind, h ts]
  generalize r.run ts = step
  obtain ⟨e | a, rest, notes, moved⟩ := step
  · rfl
  · have hrest := hk a rest
    simp only [Step.renumber_ok]
    rw [hrest]
    simp [Step.after, Step.renumber]

theorem map {k : α → γ} {k' : β → δ} (h : Follows f g r r') (hk : ∀ a, k' (g a) = g' (k a)) :
    Follows f g' (k <$> r) (k' <$> r') :=
  bind h fun a => pure (hk a)

/-- A branch that does not depend on lines is the same branch on both sides. -/
theorem ite {c c' : Bool} (hc : c' = c) {k : Rule α} {k' : Rule β} (hr : Follows f g r r')
    (hk : Follows f g k k') :
    Follows f g (if c then r else k) (if c' then r' else k') := by
  subst hc
  cases c' with
  | true => exact hr
  | false => exact hk

/-- What is missing is noted at the same token, with its new line. -/
theorem expect (m : Mark) (what : Expectation) :
    Follows f (Token.renumber f) (expect m what) (Rule.expect m what) := by
  refine bind (accept m) fun o => ?_
  cases o with
  | none => exact fail _
  | some t => exact pure rfl

/-- An iteration follows if each round does, from any state. -/
theorem iterate {g : σ → τ} {round : σ → Rule (σ × Bool)} {round' : τ → Rule (τ × Bool)}
    (h : ∀ s, Follows f (Prod.map g id) (round s) (round' (g s))) (s : σ) :
    Follows f g (iterate round s) (Rule.iterate round' (g s)) := by
  intro ts
  have hm := (round s).moved_iff ts
  have hround := h s ts
  rw [run_iterate, run_iterate]
  generalize hstep : (round s).run ts = step at hm hround
  obtain ⟨e | ⟨s', more⟩, rest, notes, moved⟩ := step
  · rw [iterateRun_of_error hstep, iterateRun_of_error hround]
    rfl
  -- both loops go on or both stop, as whether a round moved does not depend on lines
  · by_cases hgo : more = true ∧ moved = true
    · have : rest.length < ts.length := hm.1 hgo.2
      have hrest := iterate h s' rest
      rw [run_iterate, run_iterate] at hrest
      rw [iterateRun_of_more hstep hgo, iterateRun_of_more hround hgo]
      refine (congrArg (Step.after _ moved) hrest).trans ?_
      simp [Step.after, Step.renumber]
    · rw [iterateRun_of_last hstep hgo, iterateRun_of_last hround hgo]
      rfl
termination_by ts => ts.length

end Follows

end Rule

/-- Items between commas follow if one item does, also where there are too many. -/
theorem Rule.Follows.commaList {excess : Complaint} {g : α → α} {item : Rule α}
    (h : item.Follows f g item) :
    (commaList excess item).Follows f (List.map g) (Rule.commaList excess item) := by
  refine iterate (fun items => ?_) []
  unfold commaRound
  rw [List.length_map]
  split
  · refine .bind (.noteHere excess) fun _ => .bind h fun x =>
      .bind (.accept _) fun comma => .pure ?_
    simp
  · refine .bind h fun x => .bind (.accept _) fun comma => .pure ?_
    simp

/-! ### Expressions -/

namespace ExprRules

open Rule

/-- The rules for expressions take no notice of lines. -/
structure IgnoreLines (f : Nat → Nat) (rules : ExprRules) : Prop where
  expression : rules.expression.Follows f (Expr.renumber f) rules.expression
  operand : rules.operand.Follows f (Expr.renumber f) rules.operand

/-- A chain of operators follows if its operand does and its nodes carry the new lines. -/
theorem chain_follows {marks : List Mark} {node : Expr → Token → Expr → Expr} {operand : Rule Expr}
    (hnode : ∀ left operator right,
      node (left.renumber f) (operator.renumber f) (right.renumber f) =
        (node left operator right).renumber f)
    (h : operand.Follows f (Expr.renumber f) operand) :
    (chain marks node operand).Follows f (Expr.renumber f) (chain marks node operand) := by
  refine .bind h fun first => .iterate (fun left => ?_) first
  refine .bind (.acceptAny marks) fun o => ?_
  cases o with
  | none => exact .pure rfl
  | some operator =>
    refine .bind h fun right => .pure ?_
    simp [hnode]

variable {deeper : ExprRules}

namespace IgnoreLines

theorem primary (h : IgnoreLines f deeper) :
    deeper.primary.Follows f (Expr.renumber f) deeper.primary := by
  refine .bind .peek fun o => ?_
  cases o with
  | none => exact .fail _
  | some t =>
    dsimp only [Option.map_some, Token.kind_renumber]
    split
    case h_7 =>
      refine .bind .skip fun _ => .bind h.expression fun inner =>
        .bind (.expect _ _) fun _ => .pure ?_
      rw [Expr.renumber]
    case h_8 => exact .fail _
    all_goals
      refine .bind .skip fun _ => .pure ?_
      rw [Expr.renumber]

theorem arguments (h : IgnoreLines f deeper) :
    deeper.arguments.Follows f (List.map (Expr.renumber f)) deeper.arguments := by
  rw [arguments_eq]
  refine .bind (.nextIs _) fun closes => ?_
  cases closes with
  | true => exact .pure rfl
  | false => exact .commaList h.expression

theorem call (h : IgnoreLines f deeper) :
    deeper.call.Follows f (Expr.renumber f) deeper.call := by
  refine .bind h.primary fun first => .iterate (fun callee => ?_) first
  refine .bind (.accept _) fun o => ?_
  cases o with
  | none => exact .pure rfl
  | some _ =>
    refine .bind h.arguments fun args => .bind (.expect _ _) fun paren => .pure ?_
    simp [Expr.renumber]

theorem unary (h : IgnoreLines f deeper) :
    deeper.unary.Follows f (Expr.renumber f) deeper.unary := by
  refine .bind (.acceptAny _) fun o => ?_
  cases o with
  | none => exact h.call
  | some operator =>
    refine .bind h.operand fun operand => .pure ?_
    rw [Expr.renumber]

theorem operators (h : IgnoreLines f deeper) :
    deeper.operators.Follows f (Expr.renumber f) deeper.operators := by
  have hbinary : ∀ left operator right,
      Expr.binary (left.renumber f) (operator.renumber f) (right.renumber f) =
        (Expr.binary left operator right).renumber f := fun _ _ _ => by rw [Expr.renumber]
  have hlogical : ∀ left operator right,
      Expr.logical (left.renumber f) (operator.renumber f) (right.renumber f) =
        (Expr.logical left operator right).renumber f := fun _ _ _ => by rw [Expr.renumber]
  exact chain_follows hlogical <| chain_follows hlogical <| chain_follows hbinary <|
    chain_follows hbinary <| chain_follows hbinary <| chain_follows hbinary h.unary

theorem assignment (h : IgnoreLines f deeper) :
    deeper.assignment.Follows f (Expr.renumber f) deeper.assignment := by
  refine .bind h.operators fun target => .bind (.accept _) fun o => ?_
  cases o with
  | none => exact .pure rfl
  | some equals =>
    refine .bind h.expression fun value => ?_
    cases target with
    | var name =>
      rw [Expr.renumber]
      refine .pure ?_
      rw [Expr.renumber]
    | literal | assign | unary | binary | logical | group | call =>
      rw [Expr.renumber]
      refine .bind .note fun _ => .pure ?_
      rw [Expr.renumber]

/-- One more level of expressions ignores lines if the level inside does. -/
theorem outer (h : IgnoreLines f deeper) : IgnoreLines f deeper.outer :=
  ⟨h.assignment, h.unary⟩

end IgnoreLines

end ExprRules

/-! ### Statements -/

namespace Grammar

open Rule

/-- Where reading settles after a fault does not depend on lines. -/
theorem settle_renumber (previous : Token) (ts : List Token) :
    settle (previous.renumber f) (ts.map (Token.renumber f)) =
      (settle previous ts).map (Token.renumber f) := by
  induction ts generalizing previous with
  | nil => rfl
  | cons t ts ih =>
    rw [List.map_cons, settle, settle]
    have hsame : ((previous.renumber f).is .semicolon ||
        statementMarks.any fun m => (t.renumber f).is m) =
        (previous.is .semicolon || statementMarks.any fun m => t.is m) := rfl
    by_cases hstop : (previous.is .semicolon || statementMarks.any fun m => t.is m) = true
    · rw [if_pos (hsame.trans hstop), if_pos hstop]
      rfl
    · rw [if_neg (hsame ▸ hstop), if_neg hstop]
      exact ih t

/-- Where reading is resumed does not depend on lines. -/
theorem resume_renumber (ts : List Token) :
    resume (ts.map (Token.renumber f)) = (resume ts).map (Token.renumber f) := by
  cases ts with
  | nil => rfl
  | cons t ts => exact settle_renumber t ts

/-- What is skipped after a fault is the same on both sides. -/
theorem recovering_follows {r : Rule Stmt} (h : r.Follows f (Stmt.renumber f) r) :
    (recovering r).Follows f (Option.map (Stmt.renumber f)) (recovering r) := by
  intro ts
  have hts := h ts
  unfold recovering
  dsimp only
  rw [hts]
  generalize r.run ts = step
  obtain ⟨e | s, rest, notes, moved⟩ := step
  · simp [resume_renumber]
  · rfl

/-- The rules take no notice of lines. -/
structure IgnoreLines (f : Nat → Nat) (rules : Grammar) : Prop
    extends rules.toExprRules.IgnoreLines f where
  declaration : rules.declaration.Follows f (Option.map (Stmt.renumber f)) rules.declaration
  statement : rules.statement.Follows f (Stmt.renumber f) rules.statement

variable {deeper : Grammar}

namespace IgnoreLines

/-- A list of declarations follows if what ends it does not depend on lines. -/
theorem declarations (h : IgnoreLines f deeper) {goesOn : Token → Bool}
    (hgoesOn : ∀ t : Token, goesOn (t.renumber f) = goesOn t) :
    (deeper.declarations goesOn).Follows f (List.map (Stmt.renumber f))
      (deeper.declarations goesOn) := by
  refine .map (.iterate (g := List.map (Stmt.renumber f)) (fun stmts => ?_) []) fun stmts =>
    (List.map_reverse).symm
  refine .bind .peek fun o => ?_
  cases o with
  | none => exact .pure rfl
  | some t =>
    dsimp only [Option.map_some]
    rw [hgoesOn]
    split
    · refine .bind h.declaration fun o => ?_
      cases o <;> exact .pure rfl
    · exact .pure rfl

theorem block (h : IgnoreLines f deeper) :
    deeper.block.Follows f (List.map (Stmt.renumber f)) deeper.block :=
  .bind (h.declarations fun _ => rfl) fun _ => .bind (.expect _ _) fun _ => .pure rfl

/-- Parameters are read alike, also where there are too many. -/
theorem parameters : parameters.Follows f (List.map (Token.renumber f)) parameters := by
  rw [parameters_eq]
  refine .bind (.nextIs _) fun closes => ?_
  cases closes with
  | true => exact .pure rfl
  | false => exact .commaList (.expect _ _)

theorem function (h : IgnoreLines f deeper) :
    deeper.function.Follows f (Stmt.renumber f) deeper.function := by
  refine .bind (.expect _ _) fun name => .bind (.expect _ _) fun _ => .bind parameters fun params =>
    .bind (.expect _ _) fun _ => .bind (.expect _ _) fun _ => .bind h.block fun body => .pure ?_
  rw [Stmt.renumber]

theorem optionally (h : IgnoreLines f deeper) :
    (some <$> deeper.expression).Follows f (Option.map (Expr.renumber f))
      (some <$> deeper.expression) :=
  .map h.expression fun _ => rfl

theorem variableDeclaration (h : IgnoreLines f deeper) :
    deeper.variableDeclaration.Follows f (Stmt.renumber f) deeper.variableDeclaration := by
  refine .bind (.expect _ _) fun name => .bind (.accept _) fun o => ?_
  have hrest : ∀ initializer : Option Expr, Stmt.var (name.renumber f)
      (initializer.map (Expr.renumber f)) = (Stmt.var name initializer).renumber f := by
    intro initializer
    rw [Stmt.renumber]
  cases o with
  | none =>
    exact .bind (.pure (g := Option.map (Expr.renumber f)) rfl) fun initializer =>
      .bind (.expect _ _) fun _ => .pure (hrest initializer)
  | some _ =>
    exact .bind h.optionally fun initializer =>
      .bind (.expect _ _) fun _ => .pure (hrest initializer)

theorem expressionStatement (h : IgnoreLines f deeper) :
    deeper.expressionStatement.Follows f (Stmt.renumber f) deeper.expressionStatement := by
  refine .bind h.expression fun e => .bind (.expect _ _) fun _ => .pure ?_
  rw [Stmt.renumber]

theorem optionalExpression (h : IgnoreLines f deeper) (stop : Mark) :
    (deeper.optionalExpression stop).Follows f (Option.map (Expr.renumber f))
      (deeper.optionalExpression stop) := by
  refine .bind (.nextIs _) fun stops => ?_
  cases stops with
  | true => exact .pure rfl
  | false => exact h.optionally

theorem forInitializer (h : IgnoreLines f deeper) :
    deeper.forInitializer.Follows f (Option.map (Stmt.renumber f)) deeper.forInitializer := by
  refine .bind (.acceptAny _) fun o => ?_
  cases o with
  | none => exact .map h.expressionStatement fun _ => rfl
  | some t =>
    exact .ite (Token.is_renumber f .semicolon t) (.pure rfl)
      (.map h.variableDeclaration fun _ => rfl)

theorem forStatement (h : IgnoreLines f deeper) :
    deeper.forStatement.Follows f (Stmt.renumber f) deeper.forStatement := by
  refine .bind (.expect _ _) fun _ => .bind h.forInitializer fun initializer =>
    .bind (h.optionalExpression _) fun condition => .bind (.expect _ _) fun _ =>
    .bind (h.optionalExpression _) fun increment => .bind (.expect _ _) fun _ =>
    .bind h.statement fun body => .pure ?_
  rw [Stmt.renumber_forLoop]

theorem ifStatement (h : IgnoreLines f deeper) :
    deeper.ifStatement.Follows f (Stmt.renumber f) deeper.ifStatement := by
  refine .bind (.expect _ _) fun _ => .bind h.expression fun condition =>
    .bind (.expect _ _) fun _ => .bind h.statement fun thenBranch => .bind (.accept _) fun o => ?_
  cases o with
  | none =>
    refine .pure ?_
    rw [Stmt.renumber_ifElse]
    rfl
  | some _ =>
    refine .bind h.statement fun elseBranch => .pure ?_
    rw [Stmt.renumber_ifElse]
    rfl

theorem printStatement (h : IgnoreLines f deeper) :
    deeper.printStatement.Follows f (Stmt.renumber f) deeper.printStatement := by
  refine .bind h.expression fun e => .bind (.expect _ _) fun _ => .pure ?_
  rw [Stmt.renumber]

theorem returnStatement (h : IgnoreLines f deeper) (keyword : Token) :
    (deeper.returnStatement keyword).Follows f (Stmt.renumber f)
      (deeper.returnStatement (keyword.renumber f)) := by
  refine .bind (h.optionalExpression _) fun value => .bind (.expect _ _) fun _ => .pure ?_
  rw [Stmt.renumber]

theorem whileStatement (h : IgnoreLines f deeper) :
    deeper.whileStatement.Follows f (Stmt.renumber f) deeper.whileStatement := by
  refine .bind (.expect _ _) fun _ => .bind h.expression fun condition =>
    .bind (.expect _ _) fun _ => .bind h.statement fun body => .pure ?_
  rw [Stmt.renumber]

theorem plainStatement (h : IgnoreLines f deeper) :
    deeper.plainStatement.Follows f (Stmt.renumber f) deeper.plainStatement := by
  refine .bind (.acceptAny _) fun o => ?_
  cases o with
  | none => exact h.expressionStatement
  | some t =>
    dsimp only [Option.map_some, Token.kind_renumber]
    split
    · exact h.forStatement
    · exact h.ifStatement
    · exact h.printStatement
    · exact h.returnStatement t
    · exact h.whileStatement
    · refine .map h.block fun body => ?_
      rw [Stmt.renumber]

theorem anyDeclaration (h : IgnoreLines f deeper) :
    deeper.anyDeclaration.Follows f (Stmt.renumber f) deeper.anyDeclaration := by
  refine .bind (.acceptAny _) fun o => ?_
  cases o with
  | none => exact h.statement
  | some t => exact .ite (Token.is_renumber f .kwFunction t) h.function h.variableDeclaration

theorem outer (h : IgnoreLines f deeper) : IgnoreLines f deeper.outer where
  toIgnoreLines := h.toIgnoreLines.outer
  declaration := recovering_follows h.anyDeclaration
  statement := h.plainStatement

end IgnoreLines

/-- At no depth does a grammar depend on lines. -/
theorem ignoreLines_ofDepth (f : Nat → Nat) (n : Nat) : IgnoreLines f (ofDepth n) := by
  induction n with
  | zero =>
    exact { expression := .fail _, operand := .fail _, statement := .fail _,
            declaration := recovering_follows (.fail _) }
  | succ n ih => exact ih.outer

end Grammar

/-! ### Programs -/

namespace Program

/-- The same program with its tokens on other lines. -/
def renumber (f : Nat → Nat) (p : Program) : Program :=
  ⟨p.statements.map (Stmt.renumber f), p.errors.map (Error.renumber f)⟩

variable (f : Nat → Nat)

@[simp] theorem renumber_renumber (g : Nat → Nat) (p : Program) :
    (p.renumber f).renumber g = p.renumber (g ∘ f) := by
  simp [renumber, Function.comp_def]

@[simp] theorem renumber_id (p : Program) : p.renumber id = p := by
  simp [renumber]

/-- The tokens before the end of the input are those with the new lines. -/
theorem body_renumber (ts : List Token) :
    body (ts.map (Token.renumber f)) = (body ts).map (Token.renumber f) := by
  simp only [body, List.takeWhile_map]
  rfl

/-- The line of the end of the input is renumbered like every other. -/
theorem endLine_renumber {ts : List Token} (hts : ts ≠ []) :
    endLine (ts.map (Token.renumber f)) = f (endLine ts) := by
  have hfind : (ts.map (Token.renumber f)).find? (fun t => t.is .eof) =
      (ts.find? fun t => t.is .eof).map (Token.renumber f) := List.find?_map
  simp only [endLine, hfind, List.getLast?_map]
  cases ts.find? fun t => t.is .eof with
  | some t => rfl
  | none =>
    rw [List.getLast?_eq_some_getLast hts]
    rfl

/-- A note becomes an error of the renumbered token or of the renumbered last line. -/
theorem toError_renumber (last : Nat) (n : Note) :
    (n.renumber f).toError (f last) = (n.toError last).renumber f := by
  obtain ⟨site, complaint⟩ := n
  cases site <;> rfl

/-- **Lines do not matter to reading.** Tokens on other lines are read as the same program on other
lines. -/
theorem ofTokens_renumber {ts : List Token} (hts : ts ≠ []) :
    ofTokens (ts.map (Token.renumber f)) = (ofTokens ts).renumber f := by
  have hrule : rule.Follows f (List.map (Stmt.renumber f)) rule :=
    (Grammar.ignoreLines_ofDepth f maxNesting).declarations fun _ => rfl
  have hrun := hrule (body ts)
  rw [← body_renumber] at hrun
  unfold ofTokens renumber
  simp only [hrun, endLine_renumber f hts]
  generalize rule.run (body ts) = step
  obtain ⟨result, rest, notes, moved⟩ := step
  simp only [Step.renumber, List.map_map]
  congr 1
  · cases result <;> rfl
  · exact List.map_congr_left fun n _ => toError_renumber f _ n

end Program

end Scriptlet

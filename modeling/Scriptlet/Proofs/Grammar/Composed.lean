import Scriptlet.Proofs.Grammar.Renumber
import Scriptlet.Proofs.Grammar.Soundness

/-!
# What rules are made of

All rules of the grammar are put together from a few that look at one token at most, in three ways:
one rule after another, a rule again and again, and a rule with recovery. Only an assignment does
more: it may complain about a token that it has read before. `Rule.Composed` says so once, and what
the parts have and these ways keep then holds of every rule. Two such properties are proved here. A
rule that fails does so at the first token it leaves. And a rule that leaves a token has not seen
what is behind its input: it does the same in front of any other tokens.
-/

namespace Scriptlet

/-- A rule that is put together from the simple ones. -/
inductive Rule.Composed : {α : Type} → Rule α → Prop
  | pure {α : Type} (a : α) : Composed (pure a)
  | fail {α : Type} (c : Complaint) : Composed (Rule.fail c : Rule α)
  | noteHere (c : Complaint) : Composed (Rule.noteHere c)
  | peek : Composed Rule.peek?
  | nextIs (m : Mark) : Composed (Rule.nextIs m)
  | skip : Composed Rule.skip
  | acceptAny (marks : List Mark) : Composed (Rule.acceptAny marks)
  | bind {α β : Type} {r : Rule α} {f : α → Rule β} : Composed r → (∀ a, Composed (f a)) →
      Composed (r >>= f)
  | iterate {σ : Type} {round : σ → Rule (σ × Bool)} : (∀ s, Composed (round s)) → (s : σ) →
      Composed (Rule.iterate round s)
  | recovering {r : Rule Stmt} : Composed r → Composed (Grammar.recovering r)
  | assignment {deeper : ExprRules} : Composed deeper.operators → Composed deeper.expression →
      Composed deeper.assignment

namespace Rule.Composed

variable {α β : Type}

theorem map {r : Rule α} (f : α → β) (h : r.Composed) : (f <$> r).Composed :=
  .bind h fun a => .pure (f a)

theorem accept (m : Mark) : (Rule.accept m).Composed := .acceptAny [m]

theorem expect (m : Mark) (what : Expectation) : (Rule.expect m what).Composed := by
  refine .bind (accept m) fun o => ?_
  cases o with
  | none => exact .fail _
  | some t => exact .pure t

theorem commaList (excess : Complaint) {item : Rule α} (h : item.Composed) :
    (Rule.commaList excess item).Composed := by
  refine .iterate (fun items => ?_) []
  unfold commaRound
  have hrest : (item >>= fun x => Rule.accept .comma >>= fun comma =>
      Pure.pure (items ++ [x], comma.isSome)).Composed :=
    .bind h fun _ => .bind (accept _) fun _ => .pure _
  split
  · exact .bind (.noteHere excess) fun _ => hrest
  · exact hrest

end Rule.Composed

/-! ### Expressions -/

namespace ExprRules

open Rule

/-- Rules for expressions that are put together from the simple ones. -/
structure Composed (rules : ExprRules) : Prop where
  expression : rules.expression.Composed
  operand : rules.operand.Composed

/-- A chain of operators is composed if its operand is. -/
theorem chain_composed (marks : List Mark) (node : Expr → Token → Expr → Expr)
    {operand : Rule Expr} (h : operand.Composed) : (chain marks node operand).Composed := by
  refine .bind h fun first => .iterate (fun left => .bind (.acceptAny marks) fun o => ?_) first
  cases o with
  | none => exact .pure _
  | some operator => exact .bind h fun right => .pure _

/-- An assignment has what its parts have, if one rule after another keeps it. -/
theorem assignment_of_parts {P : {α : Type} → Rule α → Prop} {deeper : ExprRules}
    (hpure : ∀ e : Expr, P (pure e)) (hnote : ∀ n, P (note n)) (haccept : P (accept .equal))
    (hbind : ∀ {α β : Type} {r : Rule α} {f : α → Rule β}, P r → (∀ a, P (f a)) → P (r >>= f))
    (htarget : P deeper.operators) (hvalue : P deeper.expression) : P deeper.assignment := by
  refine hbind htarget fun target => hbind haccept fun o => ?_
  cases o with
  | none => exact hpure _
  | some equals =>
    refine hbind hvalue fun value => ?_
    cases target with
    | var name => exact hpure _
    | literal | assign | unary | binary | logical | group | call =>
      exact hbind (hnote _) fun _ => hpure _

namespace Composed

variable {deeper : ExprRules}

theorem primary (h : Composed deeper) : deeper.primary.Composed := by
  refine .bind .peek fun o => ?_
  cases o with
  | none => exact .fail _
  | some t =>
    dsimp only
    split
    case h_7 =>
      exact .bind .skip fun _ => .bind h.expression fun _ => .bind (.expect _ _) fun _ => .pure _
    case h_8 => exact .fail _
    all_goals exact .bind .skip fun _ => .pure _

theorem arguments (h : Composed deeper) : deeper.arguments.Composed := by
  rw [arguments_eq]
  refine .bind (.nextIs _) fun closes => ?_
  cases closes with
  | true => exact .pure []
  | false => exact .commaList _ h.expression

theorem call (h : Composed deeper) : deeper.call.Composed := by
  refine .bind h.primary fun first => .iterate (fun callee => .bind (.accept _) fun o => ?_) first
  cases o with
  | none => exact .pure _
  | some _ => exact .bind h.arguments fun _ => .bind (.expect _ _) fun _ => .pure _

theorem unary (h : Composed deeper) : deeper.unary.Composed := by
  refine .bind (.acceptAny _) fun o => ?_
  cases o with
  | none => exact h.call
  | some operator => exact .bind h.operand fun _ => .pure _

theorem operators (h : Composed deeper) : deeper.operators.Composed :=
  chain_composed _ _ <| chain_composed _ _ <| chain_composed _ _ <| chain_composed _ _ <|
    chain_composed _ _ <| chain_composed _ _ h.unary

theorem assignment (h : Composed deeper) : deeper.assignment.Composed :=
  .assignment h.operators h.expression

theorem outer (h : Composed deeper) : Composed deeper.outer := ⟨h.assignment, h.unary⟩

end Composed

end ExprRules

/-! ### Statements -/

namespace Grammar

open Rule

/-- Rules that are put together from the simple ones. -/
structure Composed (rules : Grammar) : Prop extends rules.toExprRules.Composed where
  declaration : rules.declaration.Composed
  statement : rules.statement.Composed

variable {deeper : Grammar}

namespace Composed

/-- Declarations are composed, though each recovers from its faults. -/
theorem declarations (h : Composed deeper) (goesOn : Token → Bool) :
    (deeper.declarations goesOn).Composed := by
  refine .map _ (.iterate (fun stmts => .bind .peek fun o => ?_) [])
  cases o with
  | none => exact .pure _
  | some t =>
    dsimp only
    split
    · refine .bind h.declaration fun o => ?_
      cases o <;> exact .pure _
    · exact .pure _

theorem block (h : Composed deeper) : deeper.block.Composed :=
  .bind (h.declarations _) fun _ => .bind (.expect _ _) fun _ => .pure _

theorem parameters : parameters.Composed := by
  rw [parameters_eq]
  refine .bind (.nextIs _) fun closes => ?_
  cases closes with
  | true => exact .pure []
  | false => exact .commaList _ (.expect _ _)

theorem function (h : Composed deeper) : deeper.function.Composed :=
  .bind (.expect _ _) fun _ => .bind (.expect _ _) fun _ => .bind parameters fun _ =>
    .bind (.expect _ _) fun _ => .bind (.expect _ _) fun _ => .bind h.block fun _ => .pure _

theorem variableDeclaration (h : Composed deeper) : deeper.variableDeclaration.Composed := by
  refine .bind (.expect _ _) fun name => .bind (.accept _) fun o => ?_
  cases o with
  | none => exact .bind (.pure _) fun _ => .bind (.expect _ _) fun _ => .pure _
  | some _ => exact .bind (.map _ h.expression) fun _ => .bind (.expect _ _) fun _ => .pure _

theorem expressionStatement (h : Composed deeper) : deeper.expressionStatement.Composed :=
  .bind h.expression fun _ => .bind (.expect _ _) fun _ => .pure _

theorem optionalExpression (h : Composed deeper) (stop : Mark) :
    (deeper.optionalExpression stop).Composed := by
  refine .bind (.nextIs _) fun stops => ?_
  cases stops with
  | true => exact .pure none
  | false => exact .map _ h.expression

theorem forInitializer (h : Composed deeper) : deeper.forInitializer.Composed := by
  refine .bind (.acceptAny _) fun o => ?_
  cases o with
  | none => exact .map _ h.expressionStatement
  | some t =>
    dsimp only
    split
    · exact .pure _
    · exact .map _ h.variableDeclaration

theorem forStatement (h : Composed deeper) : deeper.forStatement.Composed :=
  .bind (.expect _ _) fun _ => .bind h.forInitializer fun _ =>
    .bind (h.optionalExpression _) fun _ => .bind (.expect _ _) fun _ =>
    .bind (h.optionalExpression _) fun _ => .bind (.expect _ _) fun _ =>
    .bind h.statement fun _ => .pure _

theorem ifStatement (h : Composed deeper) : deeper.ifStatement.Composed := by
  refine .bind (.expect _ _) fun _ => .bind h.expression fun _ => .bind (.expect _ _) fun _ =>
    .bind h.statement fun _ => .bind (.accept _) fun o => ?_
  cases o with
  | none => exact .pure _
  | some _ => exact .bind h.statement fun _ => .pure _

theorem printStatement (h : Composed deeper) : deeper.printStatement.Composed :=
  .bind h.expression fun _ => .bind (.expect _ _) fun _ => .pure _

theorem returnStatement (h : Composed deeper) (keyword : Token) :
    (deeper.returnStatement keyword).Composed :=
  .bind (h.optionalExpression _) fun _ => .bind (.expect _ _) fun _ => .pure _

theorem whileStatement (h : Composed deeper) : deeper.whileStatement.Composed :=
  .bind (.expect _ _) fun _ => .bind h.expression fun _ => .bind (.expect _ _) fun _ =>
    .bind h.statement fun _ => .pure _

theorem plainStatement (h : Composed deeper) : deeper.plainStatement.Composed := by
  refine .bind (.acceptAny _) fun o => ?_
  cases o with
  | none => exact h.expressionStatement
  | some t =>
    dsimp only
    split
    · exact h.forStatement
    · exact h.ifStatement
    · exact h.printStatement
    · exact h.returnStatement t
    · exact h.whileStatement
    · exact .map _ h.block

theorem anyDeclaration (h : Composed deeper) : deeper.anyDeclaration.Composed := by
  refine .bind (.acceptAny _) fun o => ?_
  cases o with
  | none => exact h.statement
  | some t =>
    dsimp only
    split
    · exact h.function
    · exact h.variableDeclaration

theorem outer (h : Composed deeper) : Composed deeper.outer where
  toComposed := h.toComposed.outer
  declaration := .recovering h.anyDeclaration
  statement := h.plainStatement

end Composed

/-- All rules of the grammar are put together from the simple ones. -/
theorem composed_ofDepth (n : Nat) : Composed (ofDepth n) := by
  induction n with
  | zero =>
    exact { expression := .fail _, operand := .fail _, statement := .fail _,
            declaration := .recovering (.fail _) }
  | succ n ih => exact ih.outer

end Grammar

/-! ### Where rules fail -/

namespace Rule

variable {α : Type}

/-- A rule that fails does so at the first token it leaves. -/
def FailsAhead (r : Rule α) : Prop :=
  ∀ ts e, (r.run ts).result = .error e → e.site = (r.run ts).rest.head?

theorem FailsAhead.of_succeeds {r : Rule α} (h : r.Succeeds) : r.FailsAhead := by
  intro ts e he
  obtain ⟨a, ha⟩ := h ts
  cases ha.symm.trans he

/-- An iteration fails ahead if every round does. -/
theorem FailsAhead.iterate {σ : Type} {round : σ → Rule (σ × Bool)}
    (h : ∀ s, (round s).FailsAhead) (s : σ) : (Rule.iterate round s).FailsAhead := by
  intro ts e
  have hround := h s ts
  have hm := (round s).moved_iff ts
  rw [run_iterate]
  generalize hstep : (round s).run ts = step at hround hm
  obtain ⟨_ | ⟨s', more⟩, rest, notes, moved⟩ := step
  · rw [iterateRun_of_error hstep]
    intro he
    cases he
    exact hround e rfl
  · by_cases hgo : more = true ∧ moved = true
    · have : rest.length < ts.length := hm.1 hgo.2
      rw [iterateRun_of_more hstep hgo]
      exact FailsAhead.iterate h s' rest e
    · rw [iterateRun_of_last hstep hgo]
      intro he
      cases he
termination_by ts => ts.length

/-- To accept a mark is not to fail. -/
theorem FailsAhead.acceptAny (marks : List Mark) : (Rule.acceptAny marks).FailsAhead := by
  refine .of_succeeds fun ts => ?_
  cases ts with
  | nil => exact ⟨none, rfl⟩
  | cons t ts =>
    rw [run_acceptAny_cons]
    split
    · exact ⟨some t, rfl⟩
    · exact ⟨none, rfl⟩

theorem FailsAhead.bind {β : Type} {r : Rule α} {f : α → Rule β} (hr : r.FailsAhead)
    (hf : ∀ a, (f a).FailsAhead) : (r >>= f).FailsAhead := by
  intro ts e
  have hrun := hr ts
  rw [run_bind]
  generalize r.run ts = step at hrun
  obtain ⟨_ | a, rest, notes, moved⟩ := step
  · intro he
    cases he
    exact hrun e rfl
  · exact hf a rest e

/-- A composed rule fails where it has come to. -/
theorem Composed.failsAhead {r : Rule α} (h : r.Composed) : r.FailsAhead := by
  induction h with
  | pure a => exact .of_succeeds fun ts => ⟨a, rfl⟩
  | fail c =>
    intro ts e he
    cases he
    rfl
  | noteHere c => exact .of_succeeds fun ts => ⟨(), rfl⟩
  | peek => exact .of_succeeds fun ts => ⟨ts.head?, rfl⟩
  | nextIs m => exact .of_succeeds fun ts => ⟨_, rfl⟩
  | skip => exact .of_succeeds fun ts => ⟨(), rfl⟩
  | acceptAny marks => exact .acceptAny marks
  | bind _ _ ih ihf => exact .bind ih ihf
  | iterate _ s ih => exact .iterate ih s
  | @recovering r _ _ => exact .of_succeeds (Grammar.recovering_succeeds r)
  | assignment _ _ ihTarget ihValue =>
    exact ExprRules.assignment_of_parts (fun e => .of_succeeds fun ts => ⟨e, rfl⟩)
      (fun n => .of_succeeds fun ts => ⟨(), rfl⟩) (.acceptAny _) .bind ihTarget ihValue

end Rule

/-! ### What rules do not see -/

/-- The same step in front of more tokens. -/
def Step.inFrontOf {α : Type} (more : List Token) (s : Step α) : Step α :=
  { s with rest := s.rest ++ more }

namespace Grammar

/-- To settle after a fault does not look at what follows the place where it settles. -/
theorem settle_append {previous : Token} {ts : List Token} (h : settle previous ts ≠ [])
    (more : List Token) : settle previous (ts ++ more) = settle previous ts ++ more := by
  induction ts generalizing previous with
  | nil => exact absurd rfl h
  | cons t ts ih =>
    rw [settle] at h
    rw [List.cons_append, settle, settle]
    split
    · rfl
    · rename_i hgo
      rw [if_neg hgo] at h
      exact ih h

/-- To resume does not look at what follows the place where it resumes. -/
theorem resume_append {ts : List Token} (h : resume ts ≠ []) (more : List Token) :
    resume (ts ++ more) = resume ts ++ more := by
  cases ts with
  | nil => exact absurd rfl h
  | cons t ts => exact settle_append h more

end Grammar

namespace Rule

variable {α β σ : Type}

/-- A rule that does the same in front of any other tokens, if it leaves one of its own. -/
def Local (r : Rule α) : Prop :=
  ∀ ts more, (r.run ts).rest ≠ [] → r.run (ts ++ more) = (r.run ts).inFrontOf more

namespace Local

/-- Rules that do not look beyond what they read may be run one after another. -/
theorem bind {r : Rule α} {f : α → Rule β} (hr : r.Local) (hf : ∀ a, (f a).Local) :
    (r >>= f).Local := by
  intro ts more
  have hrun := hr ts more
  rw [run_bind, run_bind]
  generalize r.run ts = step at hrun
  obtain ⟨e | a, rest, notes, moved⟩ := step
  · intro hne
    rw [hrun hne]
    rfl
  · intro hne
    -- if the second rule leaves a token, so does the first
    have hrest : rest ≠ [] := by
      rintro rfl
      exact hne (List.suffix_nil.1 ((f a).suffix []))
    rw [hrun hrest]
    change ((f a).run (rest ++ more)).after notes moved = _
    rw [hf a rest more hne]
    rfl

theorem acceptAny (marks : List Mark) : (Rule.acceptAny marks).Local := by
  intro ts more hne
  cases ts with
  | nil => exact absurd rfl hne
  | cons t ts =>
    rw [List.cons_append, run_acceptAny_cons, run_acceptAny_cons]
    split
    · rfl
    · rfl

/-- An iteration does not look beyond what it reads if no round does. -/
theorem iterate {round : σ → Rule (σ × Bool)} (h : ∀ s, (round s).Local) (s : σ) :
    (Rule.iterate round s).Local := by
  intro ts more
  have hround := h s ts more
  have hm := (round s).moved_iff ts
  rw [run_iterate, run_iterate]
  generalize hstep : (round s).run ts = step at hround hm
  obtain ⟨e | ⟨s', goesOn⟩, rest, notes, moved⟩ := step
  · rw [iterateRun_of_error hstep]
    intro hne
    rw [iterateRun_of_error (hround hne)]
    rfl
  · by_cases hgo : goesOn = true ∧ moved = true
    · have : rest.length < ts.length := hm.1 hgo.2
      rw [iterateRun_of_more hstep hgo]
      intro hne
      have hrest : rest ≠ [] := by
        rintro rfl
        exact hne (List.suffix_nil.1 (iterateRun_suffix round s' []))
      have hloop := iterate h s' rest more hne
      rw [run_iterate, run_iterate] at hloop
      rw [iterateRun_of_more (hround hrest) hgo]
      change (iterateRun round s' (rest ++ more)).after notes moved = _
      rw [hloop]
      rfl
    · rw [iterateRun_of_last hstep hgo]
      intro hne
      rw [iterateRun_of_last (hround hne) hgo]
      rfl
termination_by ts => ts.length

/-- To recover does not look beyond the place where reading is resumed. -/
theorem recovering {r : Rule Stmt} (hr : r.Local) : (Grammar.recovering r).Local := by
  intro ts more
  have hrun := hr ts more
  unfold Grammar.recovering
  dsimp only
  generalize r.run ts = step at hrun
  obtain ⟨e | s, rest, notes, moved⟩ := step
  · intro hne
    change Grammar.resume rest ≠ [] at hne
    cases rest with
    | nil => exact absurd rfl hne
    | cons t rest =>
      rw [hrun (List.cons_ne_nil t rest)]
      simp only [Step.inFrontOf, Grammar.resume_append hne]
      rfl
  · intro hne
    rw [hrun hne]
    rfl

end Local

/-- A rule looks one token ahead at most. -/
theorem Composed.isLocal {r : Rule α} (h : r.Composed) : r.Local := by
  induction h with
  | pure a => exact fun _ _ _ => rfl
  | fail c | noteHere c | peek | nextIs m | skip =>
    intro ts more hne
    cases ts with
    | nil => exact absurd rfl hne
    | cons t ts => rfl
  | acceptAny marks => exact .acceptAny marks
  | bind _ _ ih ihf => exact .bind ih ihf
  | iterate _ s ih => exact .iterate ih s
  | recovering _ ih => exact .recovering ih
  | assignment _ _ ihTarget ihValue =>
    exact ExprRules.assignment_of_parts (fun _ _ _ _ => rfl) (fun _ _ _ _ => rfl) (.acceptAny _)
      .bind ihTarget ihValue

end Rule

end Scriptlet

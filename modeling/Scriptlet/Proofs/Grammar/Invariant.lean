import Scriptlet.Proofs.Grammar.Soundness

/-!
# What holds of all trees that are read

Whatever a token list holds, and whatever the rules complain of on the way, the trees they give are
built from the tokens of the list, node by node. So a property holds of all of them if it holds of
every node that a rule builds from parts that have it (`TreeInvariant.of_mem`). The property may
also tell how much of the nesting allowance is left and at which level of precedence an expression
stands (`GradedInvariant.of_mem`).
-/

namespace Scriptlet

/-! ### What rules give -/

namespace Rule

variable {α β σ : Type} {T : Token → Prop} {P : α → Prop} {Q : β → Prop}

/-- On tokens with a property, a rule gives nothing but results with another one, whatever it
complains of. -/
def GivesOn (T : Token → Prop) (r : Rule α) (P : α → Prop) : Prop :=
  ∀ ts : List Token, (∀ t ∈ ts, T t) → ∀ a, (r.run ts).result = .ok a → P a

namespace GivesOn

theorem any (r : Rule α) : r.GivesOn T fun _ => True := fun _ _ _ _ => trivial

theorem imp {P' : α → Prop} {r : Rule α} (h : r.GivesOn T P) (himp : ∀ a, P a → P' a) :
    r.GivesOn T P' := fun ts hts a ha => himp a (h ts hts a ha)

theorem pure {a : α} (h : P a) : (pure a : Rule α).GivesOn T P := by
  intro ts hts b hb
  cases hb
  exact h

theorem fail (c : Complaint) : (fail c : Rule α).GivesOn T P := fun _ _ _ h => nomatch h

/-- What the first rule gives may be used for the second. -/
theorem bind {r : Rule α} {f : α → Rule β} (hr : r.GivesOn T P)
    (hf : ∀ a, P a → (f a).GivesOn T Q) : (r >>= f).GivesOn T Q := by
  intro ts hts b hb
  have hsuffix := r.suffix ts
  have ha := hr ts hts
  rw [run_bind] at hb
  generalize r.run ts = step at hsuffix ha hb
  obtain ⟨e | a, rest, notes, moved⟩ := step
  · cases hb
  · exact hf a (ha a rfl) rest (fun t ht => hts t (hsuffix.subset ht)) b hb

/-- What a rule gives may not matter to what follows. -/
theorem after (r : Rule α) {f : α → Rule β} (hf : ∀ a, (f a).GivesOn T Q) :
    (r >>= f).GivesOn T Q :=
  (any r).bind fun a _ => hf a

theorem map {r : Rule α} {f : α → β} (hr : r.GivesOn T fun a => Q (f a)) :
    (f <$> r).GivesOn T Q :=
  hr.bind fun _ ha => .pure ha

theorem some {r : Rule α} (hr : r.GivesOn T P) :
    (some <$> r).GivesOn T fun o => ∀ a ∈ o, P a :=
  .map (hr.imp fun a ha => by simpa using ha)

/-- What every round keeps holds after the iteration. -/
theorem iterate {round : σ → Rule (σ × Bool)} {P : σ → Prop}
    (hround : ∀ s, P s → (round s).GivesOn T fun p => P p.1) {s : σ} (hs : P s) :
    (iterate round s).GivesOn T P := by
  intro ts hts
  rw [run_iterate]
  fun_induction iterateRun round s ts with
  | case1 => exact fun _ h => nomatch h
  | case2 s ts s' more rest notes moved h hm hlt ih =>
    have hsuffix := (round s).suffix ts
    have hs' := hround s hs ts hts (s', more)
    rw [h] at hsuffix hs'
    exact ih (hs' rfl) fun t ht => hts t (hsuffix.subset ht)
  | case3 s ts s' more rest notes moved h hm =>
    have hs' := hround s hs ts hts (s', more)
    rw [h] at hs'
    intro a ha
    cases ha
    exact hs' rfl

/-- The token ahead is one of the tokens. -/
theorem peek : peek?.GivesOn T fun o => ∀ t ∈ o, T t := by
  intro ts hts o ho
  cases ho
  exact fun t ht => hts t (List.mem_of_mem_head? ht)

/-- A token accepted is one of the tokens, and has one of the marks. -/
theorem acceptAny (marks : List Mark) : (acceptAny marks).GivesOn T fun o =>
    ∀ t ∈ o, T t ∧ ∃ m ∈ marks, t.kind = .mark m := by
  intro ts hts
  cases ts with
  | nil =>
    intro o ho
    cases ho
    simp
  | cons t ts =>
    rw [run_acceptAny_cons]
    split
    · rename_i hany
      intro o ho
      cases ho
      obtain ⟨m, hm, ht⟩ := List.any_eq_true.1 hany
      rintro t ⟨⟩
      exact ⟨hts _ List.mem_cons_self, m, hm, Token.is_eq_true_iff.1 ht⟩
    · intro o ho
      cases ho
      simp

theorem expect (m : Mark) (what : Expectation) :
    (expect m what).GivesOn T fun t => T t ∧ t.kind = .mark m := by
  refine (acceptAny [m]).bind fun o ho => ?_
  cases o with
  | none => exact .fail _
  | some t =>
    obtain ⟨ht, m', hm', hk⟩ := ho t rfl
    cases List.mem_singleton.1 hm'
    exact .pure ⟨ht, hk⟩

end GivesOn

/-- What holds of an item holds of each item between commas. -/
theorem commaList_givesOn {item : Rule α} (excess : Complaint) (hitem : item.GivesOn T P) :
    (commaList excess item).GivesOn T fun xs => ∀ x ∈ xs, P x := by
  refine .iterate (fun xs hxs => ?_) (List.forall_mem_nil P)
  have hmore : (do
      let x ← item
      let comma ← accept .comma
      pure (xs ++ [x], comma.isSome) : Rule (List α × Bool)).GivesOn T fun p =>
        ∀ x ∈ p.1, P x := by
    refine hitem.bind fun x hx => .after _ fun comma => .pure fun y hy => ?_
    rcases List.mem_append.1 hy with hy | hy
    · exact hxs y hy
    · exact List.mem_singleton.1 hy ▸ hx
  unfold commaRound
  split
  · exact .after _ fun _ => hmore
  · exact hmore

end Rule

/-! ### Invariants -/

/-- Properties of expressions and statements, by the levels of nesting that are left and by the
level of precedence, that every node has if its tokens and its parts do. What is entered with a
number of levels left enters its own parts with one less. -/
structure GradedInvariant (T : Token → Prop) (L : Nat → Level → Expr → Prop)
    (S : Nat → Stmt → Prop) : Prop where
  operators {n : Nat} {e : Expr} : L n (.tier .or) e → L n .assignment e
  operand {n : Nat} {t : Tier} {e : Expr} : L n t.operand e → L n (.tier t) e
  callee {n : Nat} {e : Expr} : L n .call e → L n .unary e
  primary {n : Nat} {e : Expr} : L n .primary e → L n .call e
  literal {n : Nat} {t : Token} {value : Literal} : T t → value.symbol.Spells t →
    L (n + 1) .primary (.literal value)
  name {n : Nat} {name : Token} : T name → name.kind = .mark .identifier →
    L (n + 1) .primary (.var name)
  assign {n : Nat} {name : Token} {value : Expr} : L (n + 1) (.tier .or) (.var name) →
    L n .assignment value → L (n + 1) .assignment (.assign name value)
  unary {n : Nat} {operator : Token} {operand : Expr} {m : Mark} : m ∈ [Mark.bang, .minus] →
    T operator → operator.kind = .mark m → L n .unary operand →
    L (n + 1) .unary (.unary operator operand)
  node {n : Nat} {t : Tier} {left right : Expr} {operator : Token} {m : Mark} : m ∈ t.marks →
    T operator → operator.kind = .mark m → L n (.tier t) left → L n t.operand right →
    L n (.tier t) (t.node left operator right)
  group {n : Nat} {inner : Expr} : L n .assignment inner → L (n + 1) .primary (.group inner)
  call {n : Nat} {callee : Expr} {paren : Token} {arguments : List Expr} : L (n + 1) .call callee →
    T paren → paren.kind = .mark .rightParen → (∀ a ∈ arguments, L n .assignment a) →
    L (n + 1) .call (.call callee paren arguments)
  weaken {n : Nat} {s : Stmt} : S n s → S (n + 1) s
  expression {n : Nat} {e : Expr} : L n .assignment e → S (n + 1) (.expression e)
  print {n : Nat} {e : Expr} : L n .assignment e → S (n + 1) (.print e)
  var {n : Nat} {name : Token} {initializer : Option Expr} : T name →
    name.kind = .mark .identifier → (∀ e ∈ initializer, L n .assignment e) →
    S (n + 1) (.var name initializer)
  block {n : Nat} {body : List Stmt} : (∀ s ∈ body, S n s) → S (n + 1) (.block body)
  function {n : Nat} {name : Token} {params : List Token} {body : List Stmt} : T name →
    name.kind = .mark .identifier → (∀ p ∈ params, T p ∧ p.kind = .mark .identifier) →
    (∀ s ∈ body, S n s) → S (n + 1) (.function name params body)
  ifElse {n : Nat} {condition : Expr} {thenBranch : Stmt} {elseBranch : Option Stmt} :
    L n .assignment condition → S n thenBranch → (∀ s ∈ elseBranch, S n s) →
    S (n + 1) (.ifElse condition thenBranch elseBranch)
  whileLoop {n : Nat} {condition : Expr} {body : Stmt} : L n .assignment condition → S n body →
    S (n + 1) (.whileLoop condition body)
  forLoop {n : Nat} {initializer : Option Stmt} {condition increment : Option Expr} {body : Stmt} :
    (∀ s ∈ initializer, S (n + 1) s ∧ s.isClause = true) → (∀ e ∈ condition, L n .assignment e) →
    (∀ e ∈ increment, L n .assignment e) → S n body →
    S (n + 1) (.forLoop initializer condition increment body)
  ret {n : Nat} {keyword : Token} {value : Option Expr} : T keyword →
    keyword.kind = .mark .kwReturn → (∀ e ∈ value, L n .assignment e) →
    S (n + 1) (.ret keyword value)

/-- Properties of expressions and statements that every node has if its tokens and its parts do. -/
structure TreeInvariant (T : Token → Prop) (E : Expr → Prop) (S : Stmt → Prop) : Prop where
  literal {t : Token} {value : Literal} : T t → value.symbol.Spells t → E (.literal value)
  name {name : Token} : T name → name.kind = .mark .identifier → E (.var name)
  assign {name : Token} {value : Expr} : E (.var name) → E value → E (.assign name value)
  unary {operator : Token} {operand : Expr} {m : Mark} : m ∈ [Mark.bang, .minus] → T operator →
    operator.kind = .mark m → E operand → E (.unary operator operand)
  node {t : Tier} {left right : Expr} {operator : Token} {m : Mark} : m ∈ t.marks → T operator →
    operator.kind = .mark m → E left → E right → E (t.node left operator right)
  group {inner : Expr} : E inner → E (.group inner)
  call {callee : Expr} {paren : Token} {arguments : List Expr} : E callee → T paren →
    paren.kind = .mark .rightParen → (∀ a ∈ arguments, E a) → E (.call callee paren arguments)
  expression {e : Expr} : E e → S (.expression e)
  print {e : Expr} : E e → S (.print e)
  var {name : Token} {initializer : Option Expr} : T name → name.kind = .mark .identifier →
    (∀ e ∈ initializer, E e) → S (.var name initializer)
  block {body : List Stmt} : (∀ s ∈ body, S s) → S (.block body)
  function {name : Token} {params : List Token} {body : List Stmt} : T name →
    name.kind = .mark .identifier → (∀ p ∈ params, T p ∧ p.kind = .mark .identifier) →
    (∀ s ∈ body, S s) → S (.function name params body)
  ifElse {condition : Expr} {thenBranch : Stmt} {elseBranch : Option Stmt} : E condition →
    S thenBranch → (∀ s ∈ elseBranch, S s) → S (.ifElse condition thenBranch elseBranch)
  whileLoop {condition : Expr} {body : Stmt} : E condition → S body →
    S (.whileLoop condition body)
  forLoop {initializer : Option Stmt} {condition increment : Option Expr} {body : Stmt} :
    (∀ s ∈ initializer, S s ∧ s.isClause = true) → (∀ e ∈ condition, E e) →
    (∀ e ∈ increment, E e) → S body → S (.forLoop initializer condition increment body)
  ret {keyword : Token} {value : Option Expr} : T keyword → keyword.kind = .mark .kwReturn →
    (∀ e ∈ value, E e) → S (.ret keyword value)

variable {T : Token → Prop} {L : Nat → Level → Expr → Prop} {S : Nat → Stmt → Prop} {n : Nat}

/-! ### Expressions -/

namespace ExprRules

open Rule

/-- Rules that give expressions with a property, entered with a number of levels left. -/
structure GivesOn (T : Token → Prop) (L : Nat → Level → Expr → Prop) (n : Nat) (g : ExprRules) :
    Prop where
  expression : g.expression.GivesOn T (L n .assignment)
  operand : g.operand.GivesOn T (L n .unary)

variable (inv : GradedInvariant T L S)

include inv

/-- A chain of operators gives trees of its tier. -/
theorem chain_givesOn {operand : Rule Expr} (t : Tier) (h : operand.GivesOn T (L n t.operand)) :
    (chain t.marks t.node operand).GivesOn T (L n (.tier t)) := by
  refine h.bind fun first hfirst => .iterate (fun left hleft => ?_) (inv.operand hfirst)
  refine (Rule.GivesOn.acceptAny t.marks).bind fun o ho => ?_
  cases o with
  | none => exact .pure hleft
  | some operator =>
    obtain ⟨hop, m, hm, hk⟩ := ho operator rfl
    exact h.bind fun right hright => .pure (inv.node hm hop hk hleft hright)

namespace GivesOn

variable {deeper : ExprRules} (h : deeper.GivesOn T L n)

include h

theorem primary : (primary deeper).GivesOn T (L (n + 1) .primary) := by
  refine Rule.GivesOn.peek.bind fun o ho => ?_
  cases o with
  | none => exact .fail _
  | some t =>
    have hatom {value : Literal} (hk : value.symbol.Spells t) :
        (do skip; pure (.literal value) : Rule Expr).GivesOn T (L (n + 1) .primary) :=
      .after _ fun _ => .pure (inv.literal (ho t rfl) hk)
    dsimp only
    split
    · exact hatom ‹_›
    · exact hatom ‹_›
    · exact hatom ‹_›
    · exact hatom ‹_›
    · exact hatom ‹_›
    · exact .after _ fun _ => .pure (inv.name (ho t rfl) ‹_›)
    · exact .after _ fun _ => h.expression.bind fun inner hinner => .after _ fun _ =>
        .pure (inv.group hinner)
    · exact .fail _

omit inv in
theorem arguments :
    (arguments deeper).GivesOn T fun args => ∀ a ∈ args, L n .assignment a := by
  rw [arguments_eq]
  refine .after _ fun closed => ?_
  cases closed with
  | true => exact .pure (List.forall_mem_nil _)
  | false => exact commaList_givesOn _ h.expression

theorem call : (call deeper).GivesOn T (L (n + 1) .call) := by
  refine (h.primary inv).bind fun first hfirst =>
    .iterate (fun callee hcallee => ?_) (inv.primary hfirst)
  refine .after _ fun o => ?_
  cases o with
  | none => exact .pure hcallee
  | some _ =>
    refine h.arguments.bind fun args hargs => ?_
    exact (Rule.GivesOn.expect _ _).bind fun paren hparen =>
      .pure (inv.call hcallee hparen.1 hparen.2 hargs)

theorem unary : (unary deeper).GivesOn T (L (n + 1) .unary) := by
  refine (Rule.GivesOn.acceptAny _).bind fun o ho => ?_
  cases o with
  | none => exact (h.call inv).imp fun _ => inv.callee
  | some operator =>
    obtain ⟨hop, m, hm, hk⟩ := ho operator rfl
    exact h.operand.bind fun operand hoperand => .pure (inv.unary hm hop hk hoperand)

theorem operators : (operators deeper).GivesOn T (L (n + 1) (.tier .or)) :=
  have hproduct := chain_givesOn inv .product (h.unary inv)
  have hsum := chain_givesOn inv .sum hproduct
  have hcomparison := chain_givesOn inv .comparison hsum
  have hequality := chain_givesOn inv .equality hcomparison
  chain_givesOn inv .or (chain_givesOn inv .and hequality)

theorem assignment : (assignment deeper).GivesOn T (L (n + 1) .assignment) := by
  refine (h.operators inv).bind fun target htarget => .after _ fun o => ?_
  cases o with
  | none => exact .pure (inv.operators htarget)
  | some equals =>
    refine h.expression.bind fun value hvalue => ?_
    cases target with
    | var => exact .pure (inv.assign htarget hvalue)
    | literal | assign | unary | binary | logical | group | call =>
      exact .after _ fun _ => .pure (inv.operators htarget)

theorem outer : deeper.outer.GivesOn T L (n + 1) := ⟨h.assignment inv, h.unary inv⟩

end GivesOn

end ExprRules

/-! ### Statements -/

namespace Grammar

open Rule

/-- Rules that give expressions and statements with properties, entered with a number of levels
left. -/
structure GivesOn (T : Token → Prop) (L : Nat → Level → Expr → Prop) (S : Nat → Stmt → Prop)
    (n : Nat) (g : Grammar) : Prop where
  exprs : g.toExprRules.GivesOn T L n
  statement : g.statement.GivesOn T (S n)
  declaration : g.declaration.GivesOn T fun o => ∀ s ∈ o, S n s

/-- What is recovered from gives no statement, and otherwise what the rule gives. -/
theorem recovering_givesOn {P : Stmt → Prop} {r : Rule Stmt} (h : r.GivesOn T P) :
    (recovering r).GivesOn T fun o => ∀ s ∈ o, P s := by
  intro ts hts o ho
  have hr := h ts hts
  rw [run_recovering] at ho
  generalize r.run ts = step at hr ho
  obtain ⟨e | s, rest, notes, moved⟩ := step
  · cases ho
    simp
  · cases ho
    rintro s ⟨⟩
    exact hr _ rfl

/-- Parameters are names among the tokens. -/
theorem parameters_givesOn :
    parameters.GivesOn T fun params => ∀ p ∈ params, T p ∧ p.kind = .mark .identifier := by
  rw [parameters_eq]
  refine .after _ fun closed => ?_
  cases closed with
  | true => exact .pure (List.forall_mem_nil _)
  | false => exact commaList_givesOn _ (.expect _ _)

namespace GivesOn

section Lists

variable {deeper : Grammar} (h : deeper.GivesOn T L S n)

include h

/-- What holds of a declaration holds of each in a list. -/
theorem declarations (goesOn : Token → Bool) :
    (declarations deeper goesOn).GivesOn T fun body => ∀ s ∈ body, S n s := by
  refine .map (.iterate (P := fun stmts : List Stmt => ∀ s ∈ stmts.reverse, S n s) ?_ (by simp))
  intro stmts hstmts
  refine .after _ fun t => ?_
  cases t with
  | none => exact .pure hstmts
  | some t =>
    dsimp only
    split
    · refine h.declaration.bind fun o ho => ?_
      cases o with
      | none => exact .pure hstmts
      | some s =>
        refine .pure fun s' hs' => ?_
        rw [List.mem_reverse] at hs'
        rcases List.mem_cons.1 hs' with rfl | hs'
        · exact ho _ rfl
        · exact hstmts _ (List.mem_reverse.2 hs')
    · exact .pure hstmts

theorem block : (block deeper).GivesOn T fun body => ∀ s ∈ body, S n s :=
  (h.declarations _).bind fun _ hbody => .after _ fun _ => .pure hbody

theorem optionalExpression (stop : Mark) :
    (optionalExpression deeper stop).GivesOn T fun o => ∀ e ∈ o, L n .assignment e := by
  refine .after _ fun missing => ?_
  cases missing with
  | true => exact .pure (by simp)
  | false => exact h.exprs.expression.some

end Lists

variable {deeper : Grammar} (inv : GradedInvariant T L S) (h : deeper.GivesOn T L S n)

include inv h

theorem function : (function deeper).GivesOn T (S (n + 1)) := by
  refine (Rule.GivesOn.expect _ _).bind fun name hname => .after _ fun _ => ?_
  refine parameters_givesOn.bind fun params hparams => .after _ fun _ => .after _ fun _ => ?_
  exact h.block.bind fun body hbody => .pure (inv.function hname.1 hname.2 hparams hbody)

theorem variableDeclaration :
    (variableDeclaration deeper).GivesOn T fun s => S (n + 1) s ∧ s.isClause = true := by
  refine (Rule.GivesOn.expect _ _).bind fun name hname => .after _ fun equal => ?_
  have hinit {r : Rule (Option Expr)} (hr : r.GivesOn T fun o => ∀ e ∈ o, L n .assignment e) :
      (do
        let initializer ← r
        let _ ← expect .semicolon .semicolonAfterVariable
        pure (.var name initializer) : Rule Stmt).GivesOn T fun s =>
          S (n + 1) s ∧ s.isClause = true :=
    hr.bind fun o ho => .after _ fun _ => .pure ⟨inv.var hname.1 hname.2 ho, rfl⟩
  cases equal with
  | none => exact hinit (.pure (by simp))
  | some _ => exact hinit h.exprs.expression.some

theorem expressionStatement :
    (expressionStatement deeper).GivesOn T fun s => S (n + 1) s ∧ s.isClause = true :=
  h.exprs.expression.bind fun _ he => .after _ fun _ => .pure ⟨inv.expression he, rfl⟩

theorem forInitializer :
    (forInitializer deeper).GivesOn T fun o => ∀ s ∈ o, S (n + 1) s ∧ s.isClause = true := by
  refine .after _ fun t => ?_
  cases t with
  | some t =>
    dsimp only
    split
    · exact .pure (by simp)
    · exact (h.variableDeclaration inv).some
  | none => exact (h.expressionStatement inv).some

theorem forStatement : (forStatement deeper).GivesOn T (S (n + 1)) := by
  refine .after _ fun _ => (h.forInitializer inv).bind fun initializer hinit => ?_
  refine (h.optionalExpression _).bind fun condition hcond => .after _ fun _ => ?_
  refine (h.optionalExpression _).bind fun increment hincr => .after _ fun _ => ?_
  exact h.statement.bind fun body hbody => .pure (inv.forLoop hinit hcond hincr hbody)

theorem ifStatement : (ifStatement deeper).GivesOn T (S (n + 1)) := by
  refine .after _ fun _ => h.exprs.expression.bind fun condition hcond => .after _ fun _ => ?_
  refine h.statement.bind fun thenBranch hthen => .after _ fun keyword => ?_
  cases keyword with
  | some _ =>
    refine h.statement.bind fun elseBranch helse => .pure (inv.ifElse hcond hthen ?_)
    simpa using helse
  | none => exact .pure (inv.ifElse hcond hthen (by simp))

theorem whileStatement : (whileStatement deeper).GivesOn T (S (n + 1)) := by
  refine .after _ fun _ => h.exprs.expression.bind fun condition hcond => .after _ fun _ => ?_
  exact h.statement.bind fun body hbody => .pure (inv.whileLoop hcond hbody)

theorem plainStatement : (plainStatement deeper).GivesOn T (S (n + 1)) := by
  refine (Rule.GivesOn.acceptAny _).bind fun o ho => ?_
  cases o with
  | some t =>
    dsimp only
    split
    · exact h.forStatement inv
    · exact h.ifStatement inv
    · exact h.exprs.expression.bind fun e he => .after _ fun _ => .pure (inv.print he)
    · exact (h.optionalExpression _).bind fun value hvalue => .after _ fun _ =>
        .pure (inv.ret (ho t rfl).1 ‹_› hvalue)
    · exact h.whileStatement inv
    · exact .map (h.block.imp fun _ => inv.block)
  | none => exact (h.expressionStatement inv).imp fun _ hs => hs.1

theorem anyDeclaration : (anyDeclaration deeper).GivesOn T (S (n + 1)) := by
  refine .after _ fun t => ?_
  cases t with
  | some t =>
    dsimp only
    split
    · exact h.function inv
    · exact (h.variableDeclaration inv).imp fun _ hs => hs.1
  | none => exact h.statement.imp fun _ => inv.weaken

theorem outer : deeper.outer.GivesOn T L S (n + 1) :=
  ⟨h.exprs.outer inv, h.plainStatement inv, recovering_givesOn (h.anyDeclaration inv)⟩

end GivesOn

/-- What holds of the nodes holds of the trees read at every depth. -/
theorem givesOn_ofDepth (inv : GradedInvariant T L S) (n : Nat) :
    (ofDepth n).GivesOn T L S n := by
  induction n with
  | zero => exact ⟨⟨.fail _, .fail _⟩, .fail _, recovering_givesOn (.fail _)⟩
  | succ n ih => exact ih.outer inv

end Grammar

/-- An invariant holds of all statements that are read, whatever the tokens are. -/
theorem GradedInvariant.of_mem (inv : GradedInvariant T L S) {tokens : List Token}
    (hT : ∀ t ∈ Program.body tokens, T t) {s : Stmt}
    (hs : s ∈ (Program.ofTokens tokens).statements) : S maxNesting s := by
  change s ∈ (Program.rule.run (Program.body tokens)).result.toOption.getD [] at hs
  cases hresult : (Program.rule.run (Program.body tokens)).result with
  | error e =>
    rw [hresult] at hs
    cases hs
  | ok stmts =>
    rw [hresult] at hs
    exact (Grammar.givesOn_ofDepth inv maxNesting).declarations _ _ hT stmts hresult s hs

namespace TreeInvariant

variable {E : Expr → Prop} {S : Stmt → Prop}

/-- The levels need not matter. -/
theorem graded (inv : TreeInvariant T E S) : GradedInvariant T (fun _ _ => E) fun _ => S where
  operators h := h
  operand h := h
  callee h := h
  primary h := h
  literal := inv.literal
  name := inv.name
  assign := inv.assign
  unary := inv.unary
  node := inv.node
  group := inv.group
  call := inv.call
  weaken h := h
  expression := inv.expression
  print := inv.print
  var := inv.var
  block := inv.block
  function := inv.function
  ifElse := inv.ifElse
  whileLoop := inv.whileLoop
  forLoop := inv.forLoop
  ret := inv.ret

/-- What holds of the nodes holds of every statement of a program. -/
theorem of_mem (inv : TreeInvariant T E S) {tokens : List Token}
    (hT : ∀ t ∈ Program.body tokens, T t) {s : Stmt}
    (hs : s ∈ (Program.ofTokens tokens).statements) : S s :=
  inv.graded.of_mem hT hs

end TreeInvariant

end Scriptlet

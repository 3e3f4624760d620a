import Scriptlet.Program
import Scriptlet.Proofs.Grammar.Levels

/-!
# What is in the language is read

Tokens that spell derivable statements within the limits are read as those statements, without a
complaint. A statement is told from the others by its first token, and an `else` that follows one
belongs to a conditional inside it exactly if the statement ends in a conditional without one.
-/

namespace Scriptlet

open Rule

/-! ### Statements -/

namespace Grammar

/-- One more declaration in front of those collected in reverse, as long as the list goes on. -/
def declarationRound (deeper : Grammar) (goesOn : Token → Bool) (stmts : List Stmt) :
    Rule (List Stmt × Bool) := do
  match ← peek? with
  | some t =>
    if goesOn t then
      match ← deeper.declaration with
      | some s => pure (s :: stmts, true)
      | none => pure (stmts, true)
    else
      pure (stmts, false)
  | none => pure (stmts, false)

/-- What is read behind the first token of a statement that is no expression. -/
def keywordStatement (deeper : Grammar) (t : Token) : Rule Stmt :=
  match t.kind with
  | .mark .kwFor => forStatement deeper
  | .mark .kwIf => ifStatement deeper
  | .mark .kwPrint => printStatement deeper
  | .mark .kwReturn => returnStatement deeper t
  | .mark .kwWhile => whileStatement deeper
  | _ => .block <$> block deeper

theorem declarations_eq (deeper : Grammar) (goesOn : Token → Bool) :
    declarations deeper goesOn = List.reverse <$> iterate (declarationRound deeper goesOn) [] := rfl

section Round

variable {deeper : Grammar} {goesOn : Token → Bool} {stmts : List Stmt} {ts rest : List Token}

theorem declarationRound_reads_more {t : Token} {s : Stmt} (ht : goesOn t = true)
    (hread : deeper.declaration.Reads (t :: ts) (some s) rest) :
    (declarationRound deeper goesOn stmts).Reads (t :: ts) (s :: stmts, true) rest := by
  refine Reads.peek.bind ?_
  dsimp only [List.head?_cons]
  rw [if_pos ht]
  exact hread.bind (.pure _)

theorem declarationRound_reads_last (hstop : ∀ t ∈ rest.head?, goesOn t = false)
    (stmts : List Stmt) :
    (declarationRound deeper goesOn stmts).Reads rest (stmts, false) rest := by
  refine Reads.peek.bind ?_
  cases rest with
  | nil => exact .pure _
  | cons t rest =>
    dsimp only [List.head?_cons]
    rw [if_neg (by simp [hstop t rfl])]
    exact .pure _

end Round

theorem parameters_reads {params ts rest : List Token} {paren : Token}
    (hparen : paren.kind = .mark .rightParen) (hparams : ∀ p ∈ params, p.kind = .mark .identifier)
    (hlength : params.length ≤ maxArity)
    (hts : List.Forall₂ Symbol.Spells (separated (params.map fun p => [.token p])) ts) :
    parameters.Reads (ts ++ paren :: rest) params (paren :: rest) := by
  rw [parameters_eq]
  cases params with
  | nil =>
    cases hts
    exact (Reads.nextIs_true hparen).bind (.pure [])
  | cons p params =>
    have hopen : NotNext [.rightParen] (ts ++ paren :: rest) := by
      obtain ⟨ys, hys⟩ := exists_separated_cons [.token p] (params.map fun p => [.token p])
      rw [List.map_cons, hys] at hts
      obtain ⟨_, us, rfl, -, rfl⟩ := List.forall₂_cons_left_iff.1 hts
      exact notNext_cons (hparams _ List.mem_cons_self) (by decide)
    refine (Reads.nextIs_false hopen).bind (commaList_reads (List.cons_ne_nil p params) hlength
      hparen (fun q hq us rest hus _ => ?_) hts)
    obtain ⟨q, _, rfl, hnil, rfl⟩ := List.forall₂_cons_left_iff.1 hus
    cases hnil
    exact .expect (hparams q hq)

/-- Rules that read back what the grammar has, with a number of levels left. -/
structure Complete (g : Grammar) (n : Nat) : Prop where
  expression : g.expression.ReadsBack .assignment n
  operand : g.operand.ReadsBack .unary n
  statement : ∀ {s : Stmt} {ts rest : List Token}, s.Derives .statement → s.Fits n →
    List.Forall₂ Symbol.Spells s.yield ts → (s.endsOpen = true → NotNext [.kwElse] rest) →
      g.statement.Reads (ts ++ rest) s rest
  declaration : ∀ {s : Stmt} {ts rest : List Token}, s.Derives .declaration → s.FitsDeclared n →
    List.Forall₂ Symbol.Spells s.yield ts → (s.endsOpen = true → NotNext [.kwElse] rest) →
      g.declaration.Reads (ts ++ rest) (some s) rest

namespace Complete

variable {deeper : Grammar} {n : Nat} (h : Complete deeper n) {ts rest : List Token}

include h

theorem declarations_reads {goesOn : Token → Bool} {body : List Stmt}
    (hbody : ∀ s ∈ body, s.Derives .declaration ∧ s.FitsDeclared n)
    (hts : List.Forall₂ Symbol.Spells (body.flatMap Stmt.yield) ts)
    (hgo : ∀ t : Token, (∀ m, t.kind = .mark m → m ∈ Category.declaration.startMarks) →
      goesOn t = true)
    (hstop : ∀ t ∈ rest.head?, goesOn t = false) (helse : NotNext [.kwElse] rest) :
    (declarations deeper goesOn).Reads (ts ++ rest) body rest := by
  rw [declarations_eq]
  -- the loop behind the statements that have been collected
  have hloop (acc : List Stmt) : (iterate (declarationRound deeper goesOn) acc).Reads (ts ++ rest)
      (body.reverse ++ acc) rest := by
    induction body generalizing ts acc with
    | nil =>
      cases hts
      exact .iterate_last (declarationRound_reads_last hstop acc)
    | cons s body ih =>
      rw [List.flatMap_cons] at hts
      obtain ⟨us, vs, hus, hvs, rfl⟩ := split_spelling hts
      obtain ⟨hs, hfits⟩ := hbody s List.mem_cons_self
      obtain ⟨t, us, rfl, ht⟩ := hs.starts hus
      have hrest := ih (fun d hd => hbody d (List.mem_cons_of_mem s hd)) hvs (s :: acc)
      -- what follows a declaration is a declaration or the end
      have hnext : NotNext [.kwElse] (vs ++ rest) := by
        cases body with
        | nil =>
          cases hvs
          exact helse
        | cons d body =>
          rw [List.flatMap_cons] at hvs
          obtain ⟨ws, xs, hws, -, rfl⟩ := split_spelling hvs
          have hd := (hbody d (List.mem_cons_of_mem s List.mem_cons_self)).1
          exact (((hd.starts hws).append xs).append rest).notNext (by decide)
      have hread := h.declaration hs hfits hus fun _ => hnext
      rw [List.append_assoc, List.reverse_cons, List.append_assoc]
      refine .iterate_more (declarationRound_reads_more (hgo t ht) hread) ?_ hrest
      simp only [List.length_append, List.length_cons]
      omega
  simpa using (hloop []).map List.reverse

theorem block_reads {body : List Stmt} {brace : Token}
    (hbody : ∀ s ∈ body, s.Derives .declaration ∧ s.FitsDeclared n)
    (hts : List.Forall₂ Symbol.Spells (body.flatMap Stmt.yield) ts)
    (hbrace : brace.kind = .mark .rightBrace) :
    (block deeper).Reads (ts ++ brace :: rest) body rest := by
  have hread : (declarations deeper fun t => !t.is .rightBrace).Reads (ts ++ brace :: rest) body
      (brace :: rest) := by
    refine h.declarations_reads hbody hts (fun t ht => ?_) ?_ ?_
    · have hm : t.is .rightBrace = false := Bool.eq_false_iff.2 fun hm =>
        absurd (ht _ (Token.is_eq_true_iff.1 hm)) (by decide)
      simp [hm]
    · intro t ht
      cases ht
      simp [hbrace]
    · exact notNext_cons hbrace (by decide)
  exact hread.bind ((Reads.expect hbrace).bind (.pure body))

theorem optionalExpression_reads {o : Option Expr} {stop : Mark} {t : Token}
    (ht : t.kind = .mark stop) (hstop : stop ∉ Level.assignment.startMarks)
    (hbinding : stop.binding = 0) (ho : ∀ e ∈ o, e.Derives .assignment)
    (hfits : ∀ e ∈ o, e.Fits n) (hts : List.Forall₂ Symbol.Spells (Expr.yieldOption o) ts) :
    (optionalExpression deeper stop).Reads (ts ++ t :: rest) o (t :: rest) := by
  cases o with
  | none =>
    cases hts
    exact (Reads.nextIs_true ht).bind (.pure none)
  | some e =>
    have he := ho e rfl
    have hnext : NotNext [stop] (ts ++ t :: rest) := by
      refine ((he.starts hts).append _).notNext fun m hm => ?_
      cases List.mem_singleton.1 hm
      exact hstop
    have hread : deeper.expression.Reads (ts ++ t :: rest) e (t :: rest) :=
      h.expression he (hfits e rfl) hts (looser_cons ht (by rw [hbinding]; decide))
    exact (Reads.nextIs_false hnext).bind (hread.map some)

theorem expressionStatement_reads {e : Expr} (he : e.Derives .assignment) (hfits : e.Fits n)
    (hts : List.Forall₂ Symbol.Spells (Stmt.expression e).yield ts) :
    (expressionStatement deeper).Reads (ts ++ rest) (.expression e) rest := by
  rw [Stmt.yield] at hts
  obtain ⟨us, vs, hus, hvs, rfl⟩ := split_spelling hts
  obtain ⟨semicolon, _, hsemicolon, hnil, rfl⟩ := List.forall₂_cons_left_iff.1 hvs
  cases hnil
  have hread : deeper.expression.Reads (us ++ semicolon :: rest) e (semicolon :: rest) :=
    h.expression he hfits hus (looser_cons hsemicolon (by decide))
  rw [List.append_assoc]
  exact hread.bind ((Reads.expect hsemicolon).bind (.pure _))

/-- A variable declaration is read behind its keyword. -/
theorem variableDeclaration_reads {name : Token} {initializer : Option Expr}
    (hname : name.kind = .mark .identifier) (hinit : ∀ e ∈ initializer, e.Derives .assignment)
    (hfits : ∀ e ∈ initializer, e.Fits n)
    (hts : List.Forall₂ Symbol.Spells (Stmt.var name initializer).yield ts) :
    ∃ keyword us, ts = keyword :: us ∧ keyword.kind = .mark .kwVar ∧ ∀ rest,
      (variableDeclaration deeper).Reads (us ++ rest) (.var name initializer) rest := by
  cases initializer with
  | none =>
    rw [Stmt.yield] at hts
    obtain ⟨keyword, us, hk, hus, rfl⟩ := List.forall₂_cons_left_iff.1 hts
    obtain ⟨name, vs, rfl, hvs, rfl⟩ := List.forall₂_cons_left_iff.1 hus
    obtain ⟨semicolon, _, hsemicolon, hnil, rfl⟩ := List.forall₂_cons_left_iff.1 hvs
    cases hnil
    refine ⟨keyword, _, rfl, hk, fun rest => ?_⟩
    have hnone : NotNext [.equal] (semicolon :: rest) := notNext_cons hsemicolon (by decide)
    exact (Reads.expect hname).bind ((Reads.accept_none hnone).bind
      ((Reads.pure none).bind ((Reads.expect hsemicolon).bind (.pure _))))
  | some e =>
    rw [Stmt.yield] at hts
    obtain ⟨keyword, us, hk, hus, rfl⟩ := List.forall₂_cons_left_iff.1 hts
    obtain ⟨name, vs, rfl, hvs, rfl⟩ := List.forall₂_cons_left_iff.1 hus
    obtain ⟨equals, ws, hequals, hws, rfl⟩ := List.forall₂_cons_left_iff.1 hvs
    obtain ⟨es, xs, hes, hxs, rfl⟩ := split_spelling hws
    obtain ⟨semicolon, _, hsemicolon, hnil, rfl⟩ := List.forall₂_cons_left_iff.1 hxs
    cases hnil
    refine ⟨keyword, _, rfl, hk, fun rest => ?_⟩
    have hread : deeper.expression.Reads (es ++ semicolon :: rest) e (semicolon :: rest) :=
      h.expression (hinit e rfl) (hfits e rfl) hes (looser_cons hsemicolon (by decide))
    simp only [List.append_assoc, List.cons_append, List.nil_append]
    exact (Reads.expect hname).bind ((Reads.accept_some hequals).bind
      ((hread.map some).bind ((Reads.expect hsemicolon).bind (.pure _))))

/-- The rest of a function declaration is read behind its keyword. -/
theorem function_reads {name : Token} {params : List Token} {body : List Stmt}
    (hname : name.kind = .mark .identifier) (hparams : ∀ p ∈ params, p.kind = .mark .identifier)
    (hlength : params.length ≤ maxArity)
    (hbody : ∀ s ∈ body, s.Derives .declaration ∧ s.FitsDeclared n)
    (hts : List.Forall₂ Symbol.Spells (Stmt.function name params body).yield ts) :
    ∃ keyword us, ts = keyword :: us ∧ keyword.kind = .mark .kwFunction ∧ ∀ rest,
      (function deeper).Reads (us ++ rest) (.function name params body) rest := by
  rw [Stmt.yield] at hts
  obtain ⟨keyword, us, hk, hus, rfl⟩ := List.forall₂_cons_left_iff.1 hts
  obtain ⟨name, vs, rfl, hvs, rfl⟩ := List.forall₂_cons_left_iff.1 hus
  obtain ⟨left, ws, hleft, hws, rfl⟩ := List.forall₂_cons_left_iff.1 hvs
  obtain ⟨ps, xs, hps, hxs, rfl⟩ := split_spelling hws
  obtain ⟨right, ys, hright, hys, rfl⟩ := List.forall₂_cons_left_iff.1 hxs
  obtain ⟨brace, zs, hbrace, hzs, rfl⟩ := List.forall₂_cons_left_iff.1 hys
  obtain ⟨bs, cs, hbs, hcs, rfl⟩ := split_spelling hzs
  obtain ⟨close, _, hclose, hnil, rfl⟩ := List.forall₂_cons_left_iff.1 hcs
  cases hnil
  refine ⟨keyword, _, rfl, hk, fun rest => ?_⟩
  simp only [List.append_assoc, List.cons_append, List.nil_append]
  exact (Reads.expect hname).bind ((Reads.expect hleft).bind
    ((parameters_reads hright hparams hlength hps).bind ((Reads.expect hright).bind
      ((Reads.expect hbrace).bind ((h.block_reads hbody hbs hclose).bind (.pure _))))))

theorem forInitializer_reads {initializer : Option Stmt}
    (hderives : ∀ s ∈ initializer, s.Derives .declaration)
    (hclause : ∀ s ∈ initializer, s.isClause = true) (hfits : ∀ s ∈ initializer, s.Fits (n + 1))
    (hts : List.Forall₂ Symbol.Spells ((initializer.map Stmt.yield).getD [.mark .semicolon]) ts) :
    (forInitializer deeper).Reads (ts ++ rest) initializer rest := by
  cases initializer with
  | none =>
    obtain ⟨semicolon, _, hsemicolon, hnil, rfl⟩ := List.forall₂_cons_left_iff.1 hts
    cases hnil
    refine (Reads.acceptAny_some (m := .semicolon) (by decide) hsemicolon).bind ?_
    dsimp only
    rw [if_pos (Token.is_eq_true_iff.2 hsemicolon)]
    exact .pure none
  | some s =>
    have hd := hderives s rfl
    cases s with
    | var name initializer =>
      obtain ⟨hname, hinit⟩ := hd.of_var
      obtain ⟨keyword, us, rfl, hk, hread⟩ :=
        h.variableDeclaration_reads hname hinit (Stmt.fits_var.1 (hfits _ rfl)) hts
      refine (Reads.acceptAny_some (m := .kwVar) (by decide) hk).bind ?_
      dsimp only
      rw [if_neg (by simp [hk])]
      exact (hread rest).map some
    | expression e =>
      have he := hd.of_expression
      have hnone : NotNext [.semicolon, .kwVar] (ts ++ rest) :=
        ((he.starts_statement hts).append rest).notNext (by decide)
      exact (Reads.acceptAny_none hnone).bind
        ((h.expressionStatement_reads he (Stmt.fits_expression.1 (hfits _ rfl)) hts).map some)
    | print | block | function | ifElse | whileLoop | forLoop | ret =>
      exact absurd (hclause _ rfl) (by simp [Stmt.isClause])

/-- A loop is read behind its keyword. -/
theorem forStatement_reads {initializer : Option Stmt} {condition increment : Option Expr}
    {body : Stmt} (hinit : ∀ s ∈ initializer, s.Derives .declaration)
    (hclause : ∀ s ∈ initializer, s.isClause = true)
    (hcond : ∀ e ∈ condition, e.Derives .assignment)
    (hincr : ∀ e ∈ increment, e.Derives .assignment) (hbody : body.Derives .statement)
    (hfits : (Stmt.forLoop initializer condition increment body).Fits (n + 1))
    (hts : List.Forall₂ Symbol.Spells (Stmt.forLoop initializer condition increment body).yield ts)
    (helse : body.endsOpen = true → NotNext [.kwElse] rest) :
    ∃ keyword us, ts = keyword :: us ∧ keyword.kind = .mark .kwFor ∧
      (forStatement deeper).Reads (us ++ rest) (.forLoop initializer condition increment body)
        rest := by
  rw [Stmt.yield_forLoop] at hts
  obtain ⟨hfinit, hfcond, hfincr, hfbody⟩ := Stmt.fits_forLoop.1 hfits
  obtain ⟨keyword, us, hk, hus, rfl⟩ := List.forall₂_cons_left_iff.1 hts
  obtain ⟨left, vs, hleft, hvs, rfl⟩ := List.forall₂_cons_left_iff.1 hus
  obtain ⟨is, ws, his, hws, rfl⟩ := split_spelling hvs
  obtain ⟨cs, xs, hcs, hxs, rfl⟩ := split_spelling hws
  obtain ⟨semicolon, ys, hsemicolon, hys, rfl⟩ := List.forall₂_cons_left_iff.1 hxs
  obtain ⟨ks, zs, hks, hzs, rfl⟩ := split_spelling hys
  obtain ⟨right, bs, hright, hbs, rfl⟩ := List.forall₂_cons_left_iff.1 hzs
  refine ⟨keyword, _, rfl, hk, ?_⟩
  simp only [List.append_assoc, List.cons_append]
  exact (Reads.expect hleft).bind ((h.forInitializer_reads hinit hclause hfinit his).bind
    ((h.optionalExpression_reads hsemicolon (by decide) rfl hcond hfcond hcs).bind
      ((Reads.expect hsemicolon).bind
        ((h.optionalExpression_reads hright (by decide) rfl hincr hfincr hks).bind
          ((Reads.expect hright).bind ((h.statement hbody hfbody hbs helse).bind (.pure _)))))))

/-- A conditional is read behind its keyword. -/
theorem ifStatement_reads {condition : Expr} {thenBranch : Stmt} {elseBranch : Option Stmt}
    (hcond : condition.Derives .assignment) (hthen : thenBranch.Derives .statement)
    (hbranch : ∀ s ∈ elseBranch, s.Derives .statement)
    (hclosed : elseBranch.isSome = true → thenBranch.endsOpen = false)
    (hfits : (Stmt.ifElse condition thenBranch elseBranch).Fits (n + 1))
    (hts : List.Forall₂ Symbol.Spells (Stmt.ifElse condition thenBranch elseBranch).yield ts)
    (helse : (Stmt.ifElse condition thenBranch elseBranch).endsOpen = true →
      NotNext [.kwElse] rest) :
    ∃ keyword us, ts = keyword :: us ∧ keyword.kind = .mark .kwIf ∧
      (ifStatement deeper).Reads (us ++ rest) (.ifElse condition thenBranch elseBranch) rest := by
  obtain ⟨hfcond, hfthen, hfbranch⟩ := Stmt.fits_ifElse.1 hfits
  cases elseBranch with
  | none =>
    rw [Stmt.yield] at hts
    obtain ⟨keyword, us, hk, hus, rfl⟩ := List.forall₂_cons_left_iff.1 hts
    obtain ⟨left, vs, hleft, hvs, rfl⟩ := List.forall₂_cons_left_iff.1 hus
    obtain ⟨cs, ws, hcs, hws, rfl⟩ := split_spelling hvs
    obtain ⟨right, bs, hright, hbs, rfl⟩ := List.forall₂_cons_left_iff.1 hws
    have hnone : NotNext [.kwElse] rest := helse rfl
    refine ⟨keyword, _, rfl, hk, ?_⟩
    simp only [List.append_assoc, List.cons_append]
    exact (Reads.expect hleft).bind
      ((h.expression hcond hfcond hcs (looser_cons hright (by decide))).bind
        ((Reads.expect hright).bind ((h.statement hthen hfthen hbs fun _ => hnone).bind
          ((Reads.accept_none hnone).bind (.pure _)))))
  | some s =>
    rw [Stmt.yield] at hts
    obtain ⟨keyword, us, hk, hus, rfl⟩ := List.forall₂_cons_left_iff.1 hts
    obtain ⟨left, vs, hleft, hvs, rfl⟩ := List.forall₂_cons_left_iff.1 hus
    obtain ⟨cs, ws, hcs, hws, rfl⟩ := split_spelling hvs
    obtain ⟨right, xs, hright, hxs, rfl⟩ := List.forall₂_cons_left_iff.1 hws
    obtain ⟨bs, ys, hbs, hys, rfl⟩ := split_spelling hxs
    obtain ⟨elseToken, es, helseToken, hes, rfl⟩ := List.forall₂_cons_left_iff.1 hys
    -- the branch before the `else` cannot take it
    have hopen : thenBranch.endsOpen = true → NotNext [.kwElse] (elseToken :: (es ++ rest)) :=
      fun hopen => absurd hopen (by simp [hclosed rfl])
    refine ⟨keyword, _, rfl, hk, ?_⟩
    simp only [List.append_assoc, List.cons_append]
    exact (Reads.expect hleft).bind
      ((h.expression hcond hfcond hcs (looser_cons hright (by decide))).bind
        ((Reads.expect hright).bind ((h.statement hthen hfthen hbs hopen).bind
          ((Reads.accept_some helseToken).bind
            ((h.statement (hbranch s rfl) (hfbranch s rfl) hes helse).bind (.pure _))))))

theorem plainStatement_reads {s : Stmt} (hs : s.Derives .statement) (hfits : s.Fits (n + 1))
    (hts : List.Forall₂ Symbol.Spells s.yield ts)
    (helse : s.endsOpen = true → NotNext [.kwElse] rest) :
    (plainStatement deeper).Reads (ts ++ rest) s rest := by
  -- a statement with a keyword is read behind it
  have hkeyword {m : Mark} {keyword : Token} {us : List Token}
      (hm : m ∈ [Mark.kwFor, .kwIf, .kwPrint, .kwReturn, .kwWhile, .leftBrace])
      (hk : keyword.kind = .mark m)
      (hread : (keywordStatement deeper keyword).Reads (us ++ rest) s rest) :
      (plainStatement deeper).Reads (keyword :: us ++ rest) s rest :=
    (Reads.acceptAny_some hm hk).bind hread
  cases hs with
  | expression he =>
    have hnone : NotNext [.kwFor, .kwIf, .kwPrint, .kwReturn, .kwWhile, .leftBrace] (ts ++ rest) :=
      ((he.starts_statement hts).append rest).notNext (by decide)
    exact (Reads.acceptAny_none hnone).bind
      (h.expressionStatement_reads he (Stmt.fits_expression.1 hfits) hts)
  | print he =>
    rw [Stmt.yield] at hts
    obtain ⟨keyword, us, hk, hus, rfl⟩ := List.forall₂_cons_left_iff.1 hts
    obtain ⟨es, vs, hes, hvs, rfl⟩ := split_spelling hus
    obtain ⟨semicolon, _, hsemicolon, hnil, rfl⟩ := List.forall₂_cons_left_iff.1 hvs
    cases hnil
    refine hkeyword (by decide) hk ?_
    rw [keywordStatement, hk, List.append_assoc]
    exact (h.expression he (Stmt.fits_print.1 hfits) hes (looser_cons hsemicolon (by decide))).bind
      ((Reads.expect hsemicolon).bind (.pure _))
  | block hbody =>
    rw [Stmt.yield] at hts
    obtain ⟨brace, us, hk, hus, rfl⟩ := List.forall₂_cons_left_iff.1 hts
    obtain ⟨bs, vs, hbs, hvs, rfl⟩ := split_spelling hus
    obtain ⟨close, _, hclose, hnil, rfl⟩ := List.forall₂_cons_left_iff.1 hvs
    cases hnil
    refine hkeyword (by decide) hk ?_
    rw [keywordStatement, hk, List.append_assoc]
    exact (h.block_reads (fun d hd => ⟨hbody d hd, Stmt.fits_block.1 hfits d hd⟩) hbs hclose).map _
  | ifElse hcond hthen hbranch hclosed =>
    obtain ⟨keyword, us, rfl, hk, hread⟩ :=
      h.ifStatement_reads hcond hthen hbranch hclosed hfits hts helse
    refine hkeyword (by decide) hk ?_
    rw [keywordStatement, hk]
    exact hread
  | whileLoop hcond hbody =>
    rw [Stmt.yield] at hts
    obtain ⟨hfcond, hfbody⟩ := Stmt.fits_whileLoop.1 hfits
    obtain ⟨keyword, us, hk, hus, rfl⟩ := List.forall₂_cons_left_iff.1 hts
    obtain ⟨left, vs, hleft, hvs, rfl⟩ := List.forall₂_cons_left_iff.1 hus
    obtain ⟨cs, ws, hcs, hws, rfl⟩ := split_spelling hvs
    obtain ⟨right, bs, hright, hbs, rfl⟩ := List.forall₂_cons_left_iff.1 hws
    refine hkeyword (by decide) hk ?_
    rw [keywordStatement, hk]
    simp only [List.append_assoc, List.cons_append]
    exact (Reads.expect hleft).bind
      ((h.expression hcond hfcond hcs (looser_cons hright (by decide))).bind
        ((Reads.expect hright).bind ((h.statement hbody hfbody hbs helse).bind (.pure _))))
  | forLoop hinit hclause hcond hincr hbody =>
    obtain ⟨keyword, us, rfl, hk, hread⟩ :=
      h.forStatement_reads hinit hclause hcond hincr hbody hfits hts helse
    refine hkeyword (by decide) hk ?_
    rw [keywordStatement, hk]
    exact hread
  | @ret keyword value hk hvalue =>
    rw [Stmt.yield] at hts
    obtain ⟨keyword, us, rfl, hus, rfl⟩ := List.forall₂_cons_left_iff.1 hts
    obtain ⟨es, vs, hes, hvs, rfl⟩ := split_spelling hus
    obtain ⟨semicolon, _, hsemicolon, hnil, rfl⟩ := List.forall₂_cons_left_iff.1 hvs
    cases hnil
    refine hkeyword (by decide) hk ?_
    rw [keywordStatement, hk, List.append_assoc]
    exact (h.optionalExpression_reads hsemicolon (by decide) rfl hvalue (Stmt.fits_ret.1 hfits)
      hes).bind ((Reads.expect hsemicolon).bind (.pure _))

theorem anyDeclaration_reads {s : Stmt} (hs : s.Derives .declaration)
    (hfits : s.FitsDeclared (n + 1)) (hts : List.Forall₂ Symbol.Spells s.yield ts)
    (helse : s.endsOpen = true → NotNext [.kwElse] rest) :
    (anyDeclaration deeper).Reads (ts ++ rest) s rest := by
  cases hs with
  | var hname hinit =>
    have hfits := (Stmt.fitsDeclared_of_entry_eq_one rfl).1 hfits
    obtain ⟨keyword, us, rfl, hk, hread⟩ :=
      h.variableDeclaration_reads hname hinit (Stmt.fits_var.1 hfits) hts
    refine (Reads.acceptAny_some (m := .kwVar) (by decide) hk).bind ?_
    dsimp only
    rw [if_neg (by simp [hk])]
    exact hread rest
  | function hname hparams hbody =>
    have hfits := Stmt.fits_function.1 ((Stmt.fitsDeclared_of_entry_eq_one rfl).1 hfits)
    obtain ⟨keyword, us, rfl, hk, hread⟩ := h.function_reads hname hparams hfits.1
      (fun d hd => ⟨hbody d hd, hfits.2 d hd⟩) hts
    refine (Reads.acceptAny_some (m := .kwFunction) (by decide) hk).bind ?_
    dsimp only
    rw [if_pos (Token.is_eq_true_iff.2 hk)]
    exact hread rest
  | statement hs =>
    have hfits := (Stmt.fitsDeclared_of_entry_eq_two hs.entry_eq_two).1 hfits
    have hnone : NotNext [.kwFunction, .kwVar] (ts ++ rest) :=
      ((hs.starts hts).append rest).notNext (by decide)
    exact (Reads.acceptAny_none hnone).bind (h.statement hs hfits hts helse)

end Complete

theorem recovering_reads {r : Rule Stmt} {s : Stmt} {ts rest : List Token}
    (hr : r.Reads ts s rest) : (recovering r).Reads ts (some s) rest := by
  obtain ⟨moved, hr⟩ := hr
  refine ⟨moved, ?_⟩
  simp [recovering, hr]

variable {deeper : Grammar} {n : Nat}

theorem complete_exhausted : Complete exhausted 0 where
  expression _ hfits := absurd hfits.1 (Nat.not_lt_zero _)
  operand _ hfits := absurd hfits.1 (Nat.not_lt_zero _)
  statement _ hfits := absurd hfits.1 (Nat.not_lt_zero _)
  declaration {s ts rest} _ hfits := by
    have hpos : 0 < s.entry := by cases s <;> simp [Stmt.entry]
    exact absurd hfits.1 (by omega)

theorem Complete.outer (h : Complete deeper n) : Complete deeper.outer (n + 1) where
  expression := ExprRules.assignment_readsBack h.expression h.operand
  operand := ExprRules.ofLevel_readsBack h.expression h.operand (nofun : Level.unary ≠ .assignment)
  statement := h.plainStatement_reads
  declaration hs hfits hts helse := recovering_reads (h.anyDeclaration_reads hs hfits hts helse)

theorem complete_ofDepth (n : Nat) : Complete (ofDepth n) n := by
  induction n with
  | zero => exact complete_exhausted
  | succ n ih => exact ih.outer

end Grammar

/-! ### Programs -/

/-- The tokens before the end are those that spell text. -/
theorem Program.body_append {xs : List Symbol} {ts : List Token} {last : Token}
    (hxs : ∀ x ∈ xs, x.IsText) (hts : List.Forall₂ Symbol.Spells xs ts)
    (hlast : last.kind = .mark .eof) : Program.body (ts ++ [last]) = ts := by
  unfold Program.body
  induction hts with
  | nil => simp [hlast]
  | @cons x t xs ts ht _ ih =>
    obtain ⟨hx, hxs⟩ := List.forall_mem_cons.1 hxs
    have htext : t.is .eof = false :=
      Bool.eq_false_iff.2 fun heof => hx t ht (Token.is_eq_true_iff.1 heof)
    rw [List.cons_append, List.takeWhile_cons, htext]
    exact congrArg (t :: ·) (ih hxs)

/-- Derivable statements within the limits are read off the tokens that spell them. -/
theorem Program.rule_reads {stmts : List Stmt}
    (hstmts : ∀ s ∈ stmts, s.Derives .declaration ∧ s.FitsDeclared maxNesting) {ts : List Token}
    (hts : List.Forall₂ Symbol.Spells (stmts.flatMap Stmt.yield) ts) :
    Program.rule.Reads ts stmts [] := by
  have hread : Program.rule.Reads (ts ++ []) stmts [] :=
    (Grammar.complete_ofDepth maxNesting).declarations_reads hstmts hts (fun _ _ => rfl) (by simp)
      (by simp [NotNext])
  rwa [List.append_nil] at hread

/-- In front of an end token a program is what its rule reads. -/
theorem Program.ofTokens_of_reads {stmts : List Stmt} {ts : List Token} {last : Token}
    (hbody : Program.body (ts ++ [last]) = ts) (hread : Program.rule.Reads ts stmts []) :
    Program.ofTokens (ts ++ [last]) = ⟨stmts, []⟩ := by
  obtain ⟨moved, hread⟩ := hread
  unfold Program.ofTokens
  rw [hbody, hread]
  rfl

/-- **What is in the language is read.** Whichever tokens spell derivable statements, with at most
255 arguments and parameters and at most 512 levels of nesting, in front of an end token they are
read as exactly those statements, without an error. -/
theorem program_complete {stmts : List Stmt} (hderives : ∀ s ∈ stmts, s.Derives .declaration)
    (hwidth : ∀ s ∈ stmts, s.width ≤ 255) (hnesting : ∀ s ∈ stmts, s.nesting + s.entry ≤ 512)
    {ts : List Token} (hts : List.Forall₂ Symbol.Spells (stmts.flatMap Stmt.yield) ts)
    {last : Token} (hlast : last.kind = .mark .eof) :
    Program.ofTokens (ts ++ [last]) = ⟨stmts, []⟩ := by
  have hbody : Program.body (ts ++ [last]) = ts :=
    Program.body_append (List.forall_mem_flatMap.2 fun s hs => (hderives s hs).isText) hts hlast
  exact Program.ofTokens_of_reads hbody
    (Program.rule_reads (fun s hs => ⟨hderives s hs, hnesting s hs, hwidth s hs⟩) hts)

/-- The tokens of `x = a or b;` are read as an assignment. -/
theorem program_complete_assignment :
    Program.ofTokens ([⟨.mark .identifier, "x", 1⟩, ⟨.mark .equal, "=", 1⟩,
      ⟨.mark .identifier, "a", 1⟩, ⟨.mark .kwOr, "or", 1⟩, ⟨.mark .identifier, "b", 1⟩,
      ⟨.mark .semicolon, ";", 1⟩] ++ [⟨.mark .eof, "", 1⟩]) =
    ⟨[.expression (.assign ⟨.mark .identifier, "x", 1⟩ (.logical
      (.var ⟨.mark .identifier, "a", 1⟩) ⟨.mark .kwOr, "or", 1⟩
      (.var ⟨.mark .identifier, "b", 1⟩)))], []⟩ := by
  refine program_complete (List.forall_mem_singleton.2 ?_) (List.forall_mem_singleton.2 ?_)
    (List.forall_mem_singleton.2 ?_) ?_ rfl
  · have hright := Expr.Derives.of_primary (.var (rfl : Token.kind ⟨.mark .identifier, "b", 1⟩ = _))
      .and
    exact .statement (.expression (.assign rfl (.operators
      (.join (t := .or) (List.mem_singleton_self _) rfl (.of_primary (.var rfl) .or) hright))))
  · simp [Stmt.width, Expr.width]
  · simp [Stmt.nesting, Stmt.entry, Expr.nesting]
  · simp [Stmt.yield, Expr.yield, Symbol.Spells]

end Scriptlet

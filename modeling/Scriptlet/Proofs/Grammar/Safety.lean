import Scriptlet.Proofs.Grammar.Tracking

/-!
# Reading is safe and has no memory

The machine with the full nesting allowance tracks the grammar, on every token list and with fuel
that is bounded by the length of the list. So nothing goes wrong on its way, and whenever another
declaration of a program is about to be read, nothing but the tokens left decides what is to come.
-/

namespace Scriptlet

open Cursor (Event End)

namespace Reading

variable {T : Tape} {R : Nat → List Stmt → List Error → Prop} {room fuel : Nat}

/-! ### Expressions -/

theorem Tracks.chain {marks : List Mark} {node : Expr → Token → Expr → Expr}
    {operand : Reading Expr} {operand' : Rule Expr} (hoperand : Tracks T R room operand operand')
    (hfuel : T.text.length < fuel) :
    Tracks T R room (Rules.chain fuel marks node operand)
      (ExprRules.chain marks node operand') := by
  refine .asRule (hoperand.bind fun first => .loop (fun left => ?_) (fun left ts => ?_) hfuel first)
  · exact .acceptAny (fun operator => .previous (hoperand.bind fun right => .pure _)) (.pure _)
  · refine .bind (.acceptAny (fun t rest _ _ _ _ => ?_) fun _ => .pure (by simp))
    exact (Rule.Ensures.any _ rest).imp fun _ _ _ _ _ => by simp

/-- The rules of the machine track those of a grammar. -/
structure Rules.Track (T : Tape) (R : Nat → List Stmt → List Error → Prop) (room : Nat)
    (rules : Rules) (grammar : Grammar) : Prop where
  expression : Tracks T R room rules.expression grammar.expression
  operand : Tracks T R room rules.operand grammar.operand
  declaration : Tracks T R room rules.declaration grammar.declaration
  statement : Tracks T R room rules.statement grammar.statement
  /-- A declaration takes a token. -/
  takes : ∀ ts, ts ≠ [] → (grammar.declaration.run ts).rest.length < ts.length

namespace Rules.Track

variable {deeper : Rules} {grammar : Grammar}

section Primary

variable {c : Cursor} {t : Token} {ts : List Token} {s : Step Expr}

theorem notNext_of_kind_ne {m : Mark} (h : t.kind ≠ .mark m) : Rule.NotNext [m] (t :: ts) := by
  intro u hu m' hm
  cases hu
  cases List.mem_singleton.1 hm
  exact h

/-- A primary expression that starts with no keyword. -/
theorem primary_of_plain (hstands : T.Stands c (t :: ts)) (hfalse : t.kind ≠ .mark .kwFalse)
    (htrue : t.kind ≠ .mark .kwTrue) (hnull : t.kind ≠ .mark .kwNull)
    (h : Matches T R (plainPrimary deeper) c s) : Matches T R (primary deeper) c s :=
  .accept_false hstands (notNext_of_kind_ne hfalse) <|
    .accept_false hstands (notNext_of_kind_ne htrue) <|
    .accept_false hstands (notNext_of_kind_ne hnull) h

end Primary

theorem primary (h : Track T R room deeper grammar) :
    Tracks T R room (primary deeper) grammar.primary := by
  intro c ts hstands hroom
  have hle : c.depth ≤ maxNesting := by omega
  unfold ExprRules.primary
  rw [Rule.run_bind]
  cases ts with
  | nil =>
    have hnot : ∀ m, Rule.NotNext [m] [] := fun m t ht => by cases ht
    refine .accept_false hstands (hnot _) (.accept_false hstands (hnot _)
      (.accept_false hstands (hnot _) (.behind (.peek hstands) rfl rfl ?_)))
    rw [List.head?_nil, Option.getD_none, T.ends]
    exact .accept_false hstands (hnot _) (.accept_false hstands (hnot _)
      (.failHere hstands (.expected .expression)))
  | cons t ts =>
    have hpure : ∀ e : Expr, Matches T R (pure e) c.next
        (Step.after [] false ((Rule.skip >>= fun _ => pure e).run (t :: ts))) :=
      fun e => .pure hstands.next e
    have hadvance : ∀ e : Expr, Matches T R (advance >>= fun _ => pure e) c
        (Step.after [] false ((Rule.skip >>= fun _ => pure e).run (t :: ts))) :=
      fun e => .behind (.advance hstands hle) rfl rfl (hpure e)
    dsimp only [Rule.peek?, List.head?_cons]
    split
    case h_1 x hk =>
      refine primary_of_plain hstands (by simp [hk]) (by simp [hk]) (by simp [hk]) ?_
      refine .behind (.peek hstands) rfl rfl ?_
      rw [List.head?_cons, Option.getD_some, hk]
      exact hadvance (.literal (.number x))
    case h_2 contents hk =>
      refine primary_of_plain hstands (by simp [hk]) (by simp [hk]) (by simp [hk]) ?_
      refine .behind (.peek hstands) rfl rfl ?_
      rw [List.head?_cons, Option.getD_some, hk]
      exact hadvance (.literal (.string contents))
    case h_3 hk => exact .accept_true hstands hle hk (hpure _)
    case h_4 hk =>
      refine .accept_false hstands (notNext_of_kind_ne (by simp [hk])) ?_
      exact .accept_true hstands hle hk (hpure _)
    case h_5 hk =>
      refine .accept_false hstands (notNext_of_kind_ne (by simp [hk])) ?_
      refine .accept_false hstands (notNext_of_kind_ne (by simp [hk])) ?_
      exact .accept_true hstands hle hk (hpure _)
    case h_6 hk =>
      refine primary_of_plain hstands (by simp [hk]) (by simp [hk]) (by simp [hk]) ?_
      refine .behind (.peek hstands) rfl rfl ?_
      rw [List.head?_cons, Option.getD_some, hk]
      refine .accept_true hstands hle hk ?_
      exact .behind (.previous hstands.next hstands.behind) rfl rfl (hpure _)
    case h_7 hk =>
      refine primary_of_plain hstands (by simp [hk]) (by simp [hk]) (by simp [hk]) ?_
      refine .behind (.peek hstands) rfl rfl ?_
      rw [List.head?_cons, Option.getD_some, hk]
      refine .accept_false hstands (notNext_of_kind_ne (by simp [hk])) ?_
      refine .accept_true hstands hle hk ?_
      refine Tracks.bind h.expression (fun inner => ?_) c.next ts hstands.next hroom
      exact (Tracks.consume _ _).bind fun _ => .pure _
    case h_8 m hfalse htrue hnull hidentifier hparen hk =>
      refine primary_of_plain hstands (by simpa [hk]) (by simpa [hk]) (by simpa [hk]) ?_
      refine .behind (.peek hstands) rfl rfl ?_
      rw [List.head?_cons, Option.getD_some, hk]
      refine .accept_false hstands (notNext_of_kind_ne (by simpa [hk])) ?_
      refine .accept_false hstands (notNext_of_kind_ne (by simpa [hk])) ?_
      exact .failHere hstands (.expected .expression)

theorem arguments (h : Track T R room deeper grammar) (hfuel : T.text.length < fuel) :
    Tracks T R room (arguments fuel deeper) grammar.arguments := by
  refine .check _ fun closes => ?_
  cases closes with
  | true => exact .pure []
  | false => exact .commaList _ h.expression hfuel

theorem finishCall (h : Track T R room deeper grammar) (hfuel : T.text.length < fuel)
    (callee : Expr) : Tracks T R room (finishCall fuel deeper callee) (do
      let args ← grammar.arguments
      let paren ← Rule.expect .rightParen .parenAfterArguments
      pure (.call callee paren args)) :=
  .asRule ((h.arguments hfuel).bind fun _ => (Tracks.consume _ _).bind fun _ => .pure _)

theorem call (h : Track T R room deeper grammar) (hfuel : T.text.length < fuel) :
    Tracks T R room (call fuel deeper) grammar.call := by
  refine .asRule (h.primary.asRule.bind fun first =>
    .loop (fun callee => ?_) (fun callee ts => ?_) hfuel first)
  · refine .accept (fun t _ => Tracks.behind ?_ t) (.pure _)
    have hcall := (h.finishCall hfuel callee).bind fun e => .pure (e, true)
    simp only [Rule.bind_bind] at hcall
    exact hcall
  · refine .bind (.accept (fun t rest _ _ => ?_) fun _ => .pure (by simp))
    exact (Rule.Ensures.any _ rest).imp fun _ _ _ _ _ => by simp

theorem unary (h : Track T R room deeper grammar) (hfuel : T.text.length < fuel) :
    Tracks T R room (unary fuel deeper) grammar.unary :=
  .asRule (.acceptAny (fun _ => .previous (h.operand.bind fun _ => .pure _))
    (h.call hfuel))

theorem operators (h : Track T R room deeper grammar) (hfuel : T.text.length < fuel) :
    Tracks T R room (operators fuel deeper) grammar.operators :=
  .chain (.chain (.chain (.chain (.chain (.chain (h.unary hfuel) hfuel) hfuel) hfuel) hfuel) hfuel)
    hfuel

theorem assignment (h : Track T R room deeper grammar) (hfuel : T.text.length < fuel) :
    Tracks T R room (assignment fuel deeper) grammar.assignment := by
  refine .asRule ((h.operators hfuel).bind fun target => .accept (fun equals heq => ?_) (.pure _))
  refine .previous (h.expression.bind fun value => ?_)
  have hrecord : Tracks T R room
      (record (Complaint.invalidTarget.atToken equals) >>= fun _ => pure target)
      (Rule.note ⟨some equals, .invalidTarget⟩ >>= fun _ => pure target) := by
    refine .bind (.record (n := ⟨some equals, .invalidTarget⟩) rfl ?_) fun _ => .pure _
    simp [Token.is, heq, Kind.isMark]
  cases target with
  | var name => exact .pure _
  | literal | assign | unary | binary | logical | group | call => exact hrecord

/-! ### Statements -/

theorem blockRound (h : Track T R room deeper grammar) (stmts : List Stmt) :
    Tracks T R room (blockRound deeper stmts)
      (grammar.declarationRound (fun t => !t.is .rightBrace) stmts) := by
  intro c ts hstands hroom
  cases ts with
  | nil =>
    exact .behind (.check hstands _) rfl rfl (.behind (.isAtEnd hstands) rfl rfl (.pure hstands _))
  | cons t ts =>
    have hcheck := Ends.check (R := R) hstands .rightBrace
    unfold Grammar.declarationRound
    rw [Rule.run_bind]
    rw [List.head?_cons, Option.any_some] at hcheck
    dsimp only [Rule.peek?, List.head?_cons]
    by_cases hbrace : t.is .rightBrace = true
    · rw [hbrace] at hcheck
      rw [if_neg (by simp [hbrace])]
      exact .behind hcheck rfl rfl (.pure hstands _)
    · rw [Bool.eq_false_iff.2 hbrace] at hcheck
      rw [if_pos (by simp [hbrace])]
      refine .behind hcheck rfl rfl (.behind (.isAtEnd hstands) rfl rfl ?_)
      refine Tracks.bind h.declaration (fun o => ?_) c (t :: ts) hstands hroom
      cases o with
      | none => exact .pure _
      | some s => exact .pure _

theorem block (h : Track T R room deeper grammar) (hfuel : T.text.length < fuel) :
    Tracks T R room (block fuel deeper) grammar.block := by
  refine .asRule (.bind (.map _ (.loop h.blockRound (fun stmts ts => ?_) hfuel []))
    fun _ => (Tracks.consume _ _).bind fun _ => .pure _)
  refine .bind (.peek ?_)
  cases ts with
  | nil => exact .pure (by simp)
  | cons t ts =>
    dsimp only [List.head?_cons]
    split
    · have htakes := Rule.Ensures.of_length_lt (h.takes (t :: ts) (List.cons_ne_nil t ts))
      refine .bind (htakes.imp fun front _ _ o hne => ?_)
      cases o with
      | none => exact .pure (by simpa using hne)
      | some s => exact .pure (by simpa using hne)
    · exact .pure (by simp)

theorem parameters (hfuel : T.text.length < fuel) :
    Tracks T R room (parameters fuel) Grammar.parameters := by
  refine .check _ fun closes => ?_
  cases closes with
  | true => exact .pure []
  | false => exact .commaList _ (.consume _ _) hfuel

theorem function (h : Track T R room deeper grammar) (hfuel : T.text.length < fuel) :
    Tracks T R room (function fuel deeper) grammar.function :=
  .asRule <| (Tracks.consume _ _).bind fun _ => (Tracks.consume _ _).bind fun _ =>
    (parameters hfuel).bind fun _ => (Tracks.consume _ _).bind fun _ =>
    (Tracks.consume _ _).bind fun _ => (h.block hfuel).bind fun _ => .pure _

theorem variableDeclaration (h : Track T R room deeper grammar) :
    Tracks T R room (variableDeclaration deeper) grammar.variableDeclaration := by
  refine .asRule ((Tracks.consume _ _).bind fun name => ?_)
  have hend : ∀ initializer, Tracks T R room
      (consume .semicolon .semicolonAfterVariable >>= fun _ =>
        pure (Stmt.var name initializer))
      (Rule.expect .semicolon .semicolonAfterVariable >>= fun _ =>
        pure (Stmt.var name initializer)) :=
    fun _ => (Tracks.consume _ _).bind fun _ => .pure _
  exact .accept (fun t _ => (h.expression.map some |>.bind hend).behind t) (hend none)

theorem expressionStatement (h : Track T R room deeper grammar) :
    Tracks T R room (expressionStatement deeper) grammar.expressionStatement :=
  .asRule (h.expression.bind fun _ => (Tracks.consume _ _).bind fun _ => .pure _)

theorem optionalExpression (h : Track T R room deeper grammar) (stop : Mark) :
    Tracks T R room (optionalExpression deeper stop) (grammar.optionalExpression stop) := by
  refine .check _ fun stops => ?_
  cases stops with
  | true => exact .pure none
  | false => exact h.expression.map some

theorem forInitializer (h : Track T R room deeper grammar) :
    Tracks T R room (forInitializer deeper) grammar.forInitializer := by
  refine .accept_cons (fun t ht => ?_) (.accept_cons (fun t ht => ?_) (.accept_nil ?_))
  · have his : t.is .semicolon = true := Token.is_eq_true_iff.2 ht
    dsimp only
    rw [if_pos his]
    exact (Tracks.pure none).behind t
  · have his : ¬t.is .semicolon = true := by simp [Token.is, ht, Kind.isMark]
    dsimp only
    rw [if_neg his]
    exact (h.variableDeclaration.map some).behind t
  · exact h.expressionStatement.map some

theorem forStatement (h : Track T R room deeper grammar) :
    Tracks T R room (forStatement deeper) grammar.forStatement :=
  .asRule <| (Tracks.consume _ _).bind fun _ => h.forInitializer.bind fun _ =>
    (h.optionalExpression _).bind fun _ => (Tracks.consume _ _).bind fun _ =>
    (h.optionalExpression _).bind fun _ => (Tracks.consume _ _).bind fun _ =>
    h.statement.bind fun _ => .pure _

theorem ifStatement (h : Track T R room deeper grammar) :
    Tracks T R room (ifStatement deeper) grammar.ifStatement :=
  .asRule <| (Tracks.consume _ _).bind fun _ => h.expression.bind fun _ =>
    (Tracks.consume _ _).bind fun _ => h.statement.bind fun _ =>
    .accept (fun t _ => Tracks.behind (h.statement.bind fun _ => .pure _) t) (.pure _)

theorem printStatement (h : Track T R room deeper grammar) :
    Tracks T R room (printStatement deeper) grammar.printStatement :=
  .asRule (h.expression.bind fun _ => (Tracks.consume _ _).bind fun _ => .pure _)

theorem returnStatement (h : Track T R room deeper grammar) (keyword : Token) :
    TracksBehind T R room keyword (returnStatement deeper) (grammar.returnStatement keyword) :=
  .asRule <| .previous <| (h.optionalExpression _).bind fun _ =>
    (Tracks.consume _ _).bind fun _ => .pure _

theorem whileStatement (h : Track T R room deeper grammar) :
    Tracks T R room (whileStatement deeper) grammar.whileStatement :=
  .asRule <| (Tracks.consume _ _).bind fun _ => h.expression.bind fun _ =>
    (Tracks.consume _ _).bind fun _ => h.statement.bind fun _ => .pure _

theorem plainStatement (h : Track T R room deeper grammar) (hfuel : T.text.length < fuel) :
    Tracks T R room (plainStatement fuel deeper) grammar.plainStatement := by
  refine .accept_cons (fun t ht => ?_) <| .accept_cons (fun t ht => ?_) <|
    .accept_cons (fun t ht => ?_) <| .accept_cons (fun t ht => ?_) <|
    .accept_cons (fun t ht => ?_) <| .accept_cons (fun t ht => ?_) <| .accept_nil ?_
  · dsimp only
    rw [ht]
    exact h.forStatement.behind t
  · dsimp only
    rw [ht]
    exact h.ifStatement.behind t
  · dsimp only
    rw [ht]
    exact h.printStatement.behind t
  · dsimp only
    rw [ht]
    exact h.returnStatement t
  · dsimp only
    rw [ht]
    exact h.whileStatement.behind t
  · dsimp only
    rw [ht]
    exact ((h.block hfuel).map _).behind t
  · exact h.expressionStatement

theorem anyDeclaration (h : Track T R room deeper grammar) (hfuel : T.text.length < fuel) :
    Tracks T R room (anyDeclaration fuel deeper) grammar.anyDeclaration := by
  refine .accept_cons (fun t ht => ?_) <| .accept_cons (fun t ht => ?_) <| .accept_nil h.statement
  · have his : t.is .kwFunction = true := Token.is_eq_true_iff.2 ht
    dsimp only
    rw [if_pos his]
    exact (h.function hfuel).behind t
  · have his : ¬t.is .kwFunction = true := by simp [Token.is, ht, Kind.isMark]
    dsimp only
    rw [if_neg his]
    exact h.variableDeclaration.behind t

/-! ### Levels -/

theorem ofFuel (room : Nat) {n : Nat} (h : room + T.text.length + 2 ≤ n) :
    Track T R room (ofFuel n) (Grammar.ofDepth room) := by
  induction room generalizing n with
  | zero =>
    cases n with
    | zero => exact absurd h (by omega)
    | succ n =>
      have hfuel : T.text.length < n := by omega
      exact {
        expression := .asRule (.nested_full _)
        operand := .asRule (.nested_full _)
        declaration := .asDeclaration (.asRule (.recovering (.nested_full _) hfuel))
          fun _ => Grammar.declaration_takes 0
        statement := .asRule (.nested_full _)
        takes := fun _ => Grammar.declaration_takes 0 }
  | succ room ih =>
    cases n with
    | zero => exact absurd h (by omega)
    | succ n =>
      have hfuel : T.text.length < n := by omega
      have hdeeper := ih (n := n) (by omega)
      exact {
        expression := .asRule (.nested (hdeeper.assignment hfuel))
        operand := .asRule (.nested (hdeeper.unary hfuel))
        declaration := .asDeclaration
          (.asRule (.recovering (.nested (hdeeper.anyDeclaration hfuel)) hfuel))
          fun _ => Grammar.declaration_takes (room + 1)
        statement := .asRule (.nested (hdeeper.plainStatement hfuel))
        takes := fun _ => Grammar.declaration_takes (room + 1) }

end Rules.Track

end Reading

/-! ### Programs -/

namespace Program

/-- A token list is all text, or has a first end token. -/
theorem text_or_split (tokens : List Token) : (∀ t ∈ tokens, t.kind ≠ .mark .eof) ∨
    ∃ front last more, tokens = front ++ last :: more ∧ (∀ t ∈ front, t.kind ≠ .mark .eof) ∧
      last.kind = .mark .eof := by
  induction tokens with
  | nil => exact .inl fun t ht => by cases ht
  | cons t ts ih =>
    by_cases ht : t.kind = .mark .eof
    · exact .inr ⟨[], t, ts, rfl, by simp, ht⟩
    · rcases ih with htext | ⟨front, last, more, rfl, hfront, hlast⟩
      · exact .inl (List.forall_mem_cons.2 ⟨ht, htext⟩)
      · exact .inr ⟨t :: front, last, more, rfl, List.forall_mem_cons.2 ⟨ht, hfront⟩, hlast⟩

section Split

variable {front : List Token} {last : Token} (hfront : ∀ t ∈ front, t.kind ≠ .mark .eof)
  (hlast : last.kind = .mark .eof) (more : List Token)

include hfront hlast

theorem body_of_split : body (front ++ last :: more) = front := by
  have hnil : body (last :: more) = [] := by
    simp [body, Token.is, hlast]
  rw [body_append_of_text hfront, hnil, List.append_nil]

theorem endLine_of_split : endLine (front ++ last :: more) = last.line := by
  rw [endLine_append_of_text hfront (List.cons_ne_nil last more)]
  simp [endLine, Token.is, hlast]

end Split

end Program

namespace Tape

variable (T : Tape)

/-- The statements and errors so far, and those of the text from an index on, are those of the whole
text. -/
def Resumes (current : Nat) (stmts : List Stmt) (errors : List Error) : Prop :=
  current < T.text.length ∧
    (Program.read T.text).1 = stmts.reverse ++ (Program.read (T.text.drop current)).1 ∧
    (Program.read T.text).2.map (·.toError T.last.line) =
      errors ++ (Program.read (T.text.drop current)).2.map (·.toError T.last.line)

end Tape

namespace Cursor

open Reading

variable {T : Tape} {declaration : Reading (Option Stmt)}

/-! ### Where the text ends -/

theorem exists_closed_eq (tokens : List Token) : ∃ extra, closed tokens = tokens ++ extra := by
  unfold closed
  cases hlast : tokens.getLast? with
  | none =>
    rw [List.getLast?_eq_none_iff.1 hlast]
    exact ⟨[.endOfText 1], rfl⟩
  | some t =>
    dsimp only
    split
    · exact ⟨[], (List.append_nil _).symm⟩
    · exact ⟨[.endOfText t.line], rfl⟩

theorem closed_of_text {tokens : List Token} (h : ∀ t ∈ tokens, t.kind ≠ .mark .eof) :
    closed tokens = tokens ++ [.endOfText (Program.endLine tokens)] := by
  have hfind : tokens.find? (fun t => t.is .eof) = none :=
    List.find?_eq_none.2 fun t ht heof => h t ht (Token.is_eq_true_iff.1 heof)
  unfold closed Program.endLine
  rw [hfind]
  cases hlast : tokens.getLast? with
  | none =>
    rw [List.getLast?_eq_none_iff.1 hlast]
    rfl
  | some t =>
    have ht : ¬t.is .eof = true := fun heof =>
      h t (List.mem_of_getLast? hlast) (Token.is_eq_true_iff.1 heof)
    dsimp only
    rw [if_neg ht]
    rfl

/-- The loop over the declarations of a program ends with all of them, if those so far and those
still to come are all. -/
theorem parseLoop_ends
    (hdecl : Tracks T T.Resumes maxNesting declaration Program.grammar.declaration) {fuel : Nat}
    {c : Cursor} {ts : List Token} {stmts : List Stmt} (h : T.Stands c ts) (hdepth : c.depth = 0)
    (hstmts : (Program.read T.text).1 = stmts.reverse ++ (Program.read ts).1)
    (herrors : (Program.read T.text).2.map (·.toError T.last.line) =
      c.errors ++ (Program.read ts).2.map (·.toError T.last.line))
    (hfuel : ts.length < fuel) :
    ∃ c', Ends T T.Resumes (loop (parseRound declaration) fuel stmts) c
        (.done (Program.read T.text).1.reverse) c' ∧
      c'.errors = (Program.read T.text).2.map (·.toError T.last.line) := by
  induction fuel generalizing c ts stmts with
  | zero => exact absurd hfuel (Nat.not_lt_zero _)
  | succ fuel ih =>
    cases ts with
    | nil =>
      rw [Program.read_nil, List.append_nil] at hstmts
      rw [Program.read_nil, List.map_nil, List.append_nil] at herrors
      refine ⟨c, ?_, herrors.symm⟩
      rw [hstmts, List.reverse_reverse]
      exact .bind (.bind (.isAtEnd h) (.pure _ c)) (.pure _ c)
    | cons t ts =>
      obtain ⟨o, rest, notes, moved, hrun⟩ := Program.exists_declaration_run (t :: ts)
      have hread := Program.read_of_ne_nil (List.cons_ne_nil t ts) hrun
      have htakes := Program.length_rest_lt (List.cons_ne_nil t ts) hrun
      have hmatches := hdecl c (t :: ts) h (by rw [hdepth, Nat.zero_add])
      rw [hrun] at hmatches
      obtain ⟨c', hends, hstands, hdepth', herrors'⟩ := hmatches
      rw [hread] at hstmts herrors
      have hresumes : T.Resumes c.current stmts c.errors := by
        refine ⟨?_, ?_, ?_⟩
        · have := h.current_eq
          rw [List.length_cons] at this
          omega
        · rw [h.drop_eq, hread, hstmts]
        · rw [h.drop_eq, hread, herrors]
      have hround : Ends T T.Resumes (parseRound declaration stmts) c
          (.done (o.toList ++ stmts, true)) c' := by
        refine .bind (.isAtEnd h) (.bind (.registers c) (.bind (.emit_round hresumes c)
          (.bind hends ?_)))
        cases o with
        | none => exact .pure _ c'
        | some s => exact .pure _ c'
      have hstmts' : (Program.read T.text).1 =
          (o.toList ++ stmts).reverse ++ (Program.read rest).1 := by
        rw [hstmts, List.reverse_append, Program.reverse_toList, List.append_assoc]
      have herrors'' : (Program.read T.text).2.map (·.toError T.last.line) =
          c'.errors ++ (Program.read rest).2.map (·.toError T.last.line) := by
        rw [herrors, herrors', List.map_append, List.append_assoc]
      have hfuel' : rest.length < fuel := Nat.lt_of_lt_of_le htakes (Nat.le_of_lt_succ hfuel)
      obtain ⟨c'', hloop, hfinal⟩ :=
        ih hstands (hdepth'.trans hdepth) hstmts' herrors'' hfuel'
      exact ⟨c'', hround.bind hloop, hfinal⟩

/-- Every token list is read from a tape. -/
theorem exists_tape (tokens : List Token) : ∃ T : Tape, T.tokens = closed tokens ∧
    T.text = Program.body tokens ∧ T.last.line = Program.endLine tokens := by
  rcases Program.text_or_split tokens with htext | ⟨front, last, more, rfl, hfront, hlast⟩
  · refine ⟨⟨tokens, .endOfText (Program.endLine tokens), [], htext, rfl⟩, ?_, ?_, rfl⟩
    · exact (closed_of_text htext).symm
    · exact (Program.body_of_text htext).symm
  · obtain ⟨extra, hextra⟩ := exists_closed_eq (front ++ last :: more)
    refine ⟨⟨front, last, more ++ extra, hfront, hlast⟩, ?_, ?_, ?_⟩
    · rw [hextra, List.append_assoc]
      rfl
    · exact (Program.body_of_split hfront hlast more).symm
    · exact (Program.endLine_of_split hfront hlast more).symm

/-- The machine reads what the grammar reads, on a trail. -/
theorem parse_ends {T : Tape} {tokens : List Token} (hclosed : T.tokens = closed tokens)
    (htext : T.text = Program.body tokens) (hline : T.last.line = Program.endLine tokens)
    {fuel : Nat} (hfuel : maxNesting + T.text.length + 2 ≤ fuel) :
    ∃ trace c, parse fuel tokens = ⟨trace, .done (Program.ofTokens tokens), c⟩ ∧
      T.Trail T.Resumes 0 c.current trace := by
  have hdecl : Tracks T T.Resumes maxNesting (Rules.ofFuel fuel).declaration
      Program.grammar.declaration := (Rules.Track.ofFuel maxNesting hfuel).declaration
  have hstands : T.Stands (start tokens) T.text := ⟨hclosed.symm, [], rfl, rfl⟩
  have hlt : T.text.length < fuel := by omega
  have hstmts : (Program.read T.text).1 = ([] : List Stmt).reverse ++ (Program.read T.text).1 := rfl
  obtain ⟨c, hloop, herrors⟩ := parseLoop_ends hdecl hstands rfl hstmts rfl hlt
  have hparse : Ends T T.Resumes (parseAll fuel) (start tokens)
      (.done ⟨(Program.read T.text).1.reverse.reverse, c.errors⟩) c :=
    hloop.bind (.bind (.registers c) (.pure _ c))
  rw [List.reverse_reverse, herrors, htext, hline, ← Program.ofTokens_eq] at hparse
  obtain ⟨trace, hrun, htrail⟩ := hparse
  exact ⟨trace, c, hrun, htrail⟩

end Cursor

/-! ### Safety -/

namespace Cursor

/-- What may not go wrong in the course of reading a token list. -/
structure Safe (tokens : List Token) (trace : List Event) : Prop where
  /-- Tokens are looked at in range. -/
  inRange : ∀ index, .look index ∈ trace → index < (closed tokens).length
  /-- The index of the next token never decreases. -/
  onward : (trace.filterMap Event.current?).Pairwise (· ≤ ·)
  /-- It never passes the first end token. -/
  inText : ∀ current depth, .set current depth ∈ trace →
    ∀ t ∈ (closed tokens).take current, t.kind ≠ .mark .eof
  /-- The nesting never exceeds its limit. -/
  nesting : ∀ current depth, .set current depth ∈ trace → depth ≤ maxNesting
  /-- Every rule is left at the depth it was entered at. -/
  balanced : ∀ entered left, .rule entered left ∈ trace → left = entered
  /-- Every declaration takes a token, unless it starts at an end token. -/
  progress : ∀ entered left, .declaration entered left ∈ trace →
    (∀ t ∈ (closed tokens)[entered]?, t.kind ≠ .mark .eof) → entered < left

end Cursor

theorem Tape.Trail.safe {T : Tape} {R : Nat → List Stmt → List Error → Prop} {i j : Nat}
    {trace : List Event} {tokens : List Token} (hclosed : T.tokens = Cursor.closed tokens)
    (h : T.Trail R i j trace) : Cursor.Safe tokens trace := by
  refine ⟨?_, h.pairwise_le, ?_, ?_, ?_, ?_⟩
  · intro index hmem
    rw [← hclosed]
    exact Nat.lt_of_le_of_lt (h.fine _ hmem) T.length_text_lt
  · intro current depth hmem t ht
    rw [← hclosed, Tape.tokens, List.take_append_of_le_length (h.fine _ hmem).1] at ht
    exact T.isText t (List.mem_of_mem_take ht)
  · intro current depth hmem
    exact (h.fine _ hmem).2
  · intro entered left hmem
    exact h.fine _ hmem
  · intro entered left hmem htext
    refine h.fine _ hmem fun heq => htext T.last ?_ T.ends
    rw [heq, ← hclosed, Tape.tokens, List.getElem?_append_right (Nat.le_refl _), Nat.sub_self]
    rfl

/-- The trail on which a token list is read. -/
theorem Cursor.exists_trail (tokens : List Token) {fuel : Nat}
    (hfuel : maxNesting + tokens.length + 2 ≤ fuel) :
    ∃ (T : Tape) (trace : List Event) (c : Cursor), T.tokens = closed tokens ∧
      T.text = Program.body tokens ∧ T.last.line = Program.endLine tokens ∧
      parse fuel tokens = ⟨trace, .done (Program.ofTokens tokens), c⟩ ∧
      T.Trail T.Resumes 0 c.current trace := by
  obtain ⟨T, hclosed, htext, hline⟩ := exists_tape tokens
  have hlength : T.text.length ≤ tokens.length := by
    rw [htext]
    exact (List.takeWhile_sublist _).length_le
  have hbound : maxNesting + T.text.length + 2 ≤ fuel := by omega
  obtain ⟨trace, c, hparse, htrail⟩ := parse_ends hclosed htext hline hbound
  exact ⟨T, trace, c, hclosed, htext, hline, hparse, htrail⟩

/-- **Reading is safe and ends,** on every token list: the fuel it takes is bounded by the number of
tokens, it comes to the program of the list, and nothing goes wrong on the way. -/
theorem reading_safe (tokens : List Token) {fuel : Nat}
    (hfuel : maxNesting + tokens.length + 2 ≤ fuel) :
    (Cursor.parse fuel tokens).ending = .done (Program.ofTokens tokens) ∧
      Cursor.Safe tokens (Cursor.parse fuel tokens).trace := by
  obtain ⟨T, trace, c, hclosed, -, -, hparse, htrail⟩ := Cursor.exists_trail tokens hfuel
  rw [hparse]
  exact ⟨rfl, htrail.safe hclosed⟩

/-- A closing brace in front of an end token, and another one behind it: the first is dropped, and
reading ends there. -/
theorem reading_safe_stray_brace :
    let tokens : List Token :=
      [⟨.mark .rightBrace, "\x7d", 1⟩, .endOfText 1, ⟨.mark .rightBrace, "\x7d", 1⟩]
    (Cursor.parse 517 tokens).trace.filterMap Event.current? = [0, 0, 0, 0, 0, 0, 1] ∧
      (Cursor.parse 517 tokens).ending = .done (Program.ofTokens tokens) ∧
      Cursor.Safe tokens (Cursor.parse 517 tokens).trace :=
  ⟨by decide +kernel, reading_safe _ (by decide)⟩

/-! ### No memory -/

namespace Program

/-- From an index in the text on, the program is that of the text from there on. -/
theorem ofTokens_drop {tokens : List Token} {i : Nat} (h : i < (body tokens).length) :
    ofTokens (tokens.drop i) = ⟨(read ((body tokens).drop i)).1,
      (read ((body tokens).drop i)).2.map (·.toError (endLine tokens))⟩ := by
  have hsublist : (body tokens).length ≤ tokens.length := (List.takeWhile_sublist _).length_le
  have hlength : (tokens.take i).length = i := List.length_take_of_le (by omega)
  have htext : ∀ t ∈ tokens.take i, t.kind ≠ .mark .eof := by
    intro t ht
    rcases text_or_split tokens with htext | ⟨front, last, more, rfl, hfront, hlast⟩
    · exact htext t (List.mem_of_mem_take ht)
    · rw [body_of_split hfront hlast] at h
      rw [List.take_append_of_le_length (Nat.le_of_lt h)] at ht
      exact hfront t (List.mem_of_mem_take ht)
  have hne : tokens.drop i ≠ [] := by
    rw [ne_eq, List.drop_eq_nil_iff]
    omega
  have hbody := body_append_of_text htext (tokens.drop i)
  have hline := endLine_append_of_text htext hne
  rw [List.take_append_drop] at hbody hline
  have hdrop : (body tokens).drop i = body (tokens.drop i) := by
    rw [hbody, List.drop_left' hlength]
  rw [ofTokens_eq, hdrop, hline]

theorem ofTokens_of_split {front : List Token} {last : Token}
    (hfront : ∀ t ∈ front, t.kind ≠ .mark .eof) (hlast : last.kind = .mark .eof)
    (more : List Token) : ofTokens (front ++ last :: more) =
      ⟨(read front).1, (read front).2.map (·.toError last.line)⟩ := by
  rw [ofTokens_eq, body_of_split hfront hlast, endLine_of_split hfront hlast]

/-- What follows an end token does not count. -/
theorem ofTokens_append_end {last : Token} (hlast : last.kind = .mark .eof)
    (front more more' : List Token) :
    ofTokens (front ++ last :: more) = ofTokens (front ++ last :: more') := by
  rcases text_or_split front with hfront | ⟨front, first, between, rfl, hfront, hfirst⟩
  · rw [ofTokens_of_split hfront hlast, ofTokens_of_split hfront hlast]
  · simp only [List.append_assoc, List.cons_append]
    rw [ofTokens_of_split hfront hfirst, ofTokens_of_split hfront hfirst]

/-- A missing end token is as good as one on the line of the last token. -/
theorem ofTokens_closed (tokens : List Token) :
    ofTokens (Cursor.closed tokens) = ofTokens tokens := by
  rcases text_or_split tokens with htext | ⟨front, last, more, rfl, hfront, hlast⟩
  · rw [Cursor.closed_of_text htext, ofTokens_of_split htext rfl, ofTokens_eq, body_of_text htext]
    rfl
  · obtain ⟨extra, hextra⟩ := Cursor.exists_closed_eq (front ++ last :: more)
    rw [hextra, List.append_assoc, List.cons_append, ofTokens_of_split hfront hlast,
      ofTokens_of_split hfront hlast]

end Program

/-- **Reading has no memory.** Wherever another declaration of a program is about to be read, the
statements and errors still to come are those of the tokens from there on. Only the tokens up to the
first end token count, and a missing one stands on the line of the last token. -/
theorem reading_has_no_memory (tokens : List Token) :
    (∀ fuel, maxNesting + tokens.length + 2 ≤ fuel →
      (Cursor.parse fuel tokens).ending = .done (Program.ofTokens tokens) ∧
      ∀ current stmts errors, .round current stmts errors ∈ (Cursor.parse fuel tokens).trace →
        Program.ofTokens tokens =
          ⟨stmts.reverse ++ (Program.ofTokens (tokens.drop current)).statements,
            errors ++ (Program.ofTokens (tokens.drop current)).errors⟩) ∧
    (∀ front last more more', tokens = front ++ last :: more → last.kind = .mark .eof →
      Program.ofTokens tokens = Program.ofTokens (front ++ last :: more')) ∧
    Program.ofTokens (Cursor.closed tokens) = Program.ofTokens tokens := by
  refine ⟨?_, ?_, Program.ofTokens_closed tokens⟩
  · intro fuel hfuel
    obtain ⟨T, trace, c, -, htext, hline, hparse, htrail⟩ := Cursor.exists_trail tokens hfuel
    rw [hparse]
    refine ⟨rfl, fun current stmts errors hmem => ?_⟩
    obtain ⟨hlt, hstmts, herrors⟩ := htrail.fine _ hmem
    rw [htext] at hlt hstmts herrors
    rw [hline] at herrors
    rw [Program.ofTokens_drop hlt, Program.ofTokens_eq, hstmts, herrors]
  · rintro front last more more' rfl hlast
    exact Program.ofTokens_append_end hlast front more more'

/-- Behind a stray brace reading goes on at the next statement. -/
theorem reading_has_no_memory_behind_brace :
    let tokens : List Token := [⟨.mark .rightBrace, "\x7d", 1⟩, ⟨.mark .semicolon, ";", 1⟩,
      ⟨.mark .identifier, "x", 2⟩, ⟨.mark .semicolon, ";", 2⟩]
    ∃ stmts errors, .round 2 stmts errors ∈ (Cursor.parse 518 tokens).trace ∧
      Program.ofTokens tokens =
        ⟨stmts.reverse ++ (Program.ofTokens (tokens.drop 2)).statements,
          errors ++ (Program.ofTokens (tokens.drop 2)).errors⟩ := by
  intro tokens
  have hstarts : (Cursor.parse 518 tokens).trace.filterMap Event.start? = [0, 2] := by
    decide +kernel
  obtain ⟨e, hmem, he⟩ : ∃ e ∈ (Cursor.parse 518 tokens).trace, e.start? = some 2 := by
    rw [← List.mem_filterMap, hstarts]
    decide
  cases e with
  | round current stmts errors =>
    cases he
    exact ⟨stmts, errors, hmem,
      ((reading_has_no_memory tokens).1 518 (by decide)).2 2 stmts errors hmem⟩
  | look | set | rule | declaration => cases he

end Scriptlet

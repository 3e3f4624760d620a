import Mathlib.Data.List.Forall2
import Scriptlet.Program
import Scriptlet.Proofs.Grammar.Reading

/-!
# What is read is in the language

Whatever a token list holds, the spelling of the statements read from it is a subsequence of it: no
token is invented, used twice or moved. And if there is no complaint, nothing is left out either,
and every statement is derivable and within the limits. Both are one property of each rule, which
says how the tokens read spell the result and, if the rule had no complaint, what the result is.
-/

namespace Scriptlet

/-! ### Spelling with omissions -/

/-- Tokens that spell symbols in order, possibly with other tokens between them, which are excluded
if there was no complaint. -/
def Spelled (clean : Bool) (symbols : List Symbol) (ts : List Token) : Prop :=
  ∃ kept, List.Forall₂ Symbol.Spells symbols kept ∧ kept.Sublist ts ∧ (clean = true → kept = ts)

namespace Spelled

variable {clean clean' : Bool} {xs ys : List Symbol} {ts us : List Token}

theorem nil : Spelled clean [] [] := ⟨[], .nil, List.Sublist.refl _, fun _ => rfl⟩

/-- What is spelled piece by piece is spelled as a whole, and is clean if both pieces are. -/
theorem append (hx : Spelled clean xs ts) (hy : Spelled clean' ys us) :
    Spelled (clean && clean') (xs ++ ys) (ts ++ us) := by
  obtain ⟨kept, hk, hs, hc⟩ := hx
  obtain ⟨kept', hk', hs', hc'⟩ := hy
  refine ⟨kept ++ kept', List.rel_append hk hk', hs.append hs', fun h => ?_⟩
  obtain ⟨h, h'⟩ := Bool.and_eq_true_iff.1 h
  rw [hc h, hc' h']

theorem single {x : Symbol} {t : Token} (h : x.Spells t) : Spelled true [x] [t] :=
  ⟨[t], .cons h .nil, List.Sublist.refl _, fun _ => rfl⟩

theorem token (t : Token) : Spelled true [.token t] [t] := single rfl

theorem mark {m : Mark} {t : Token} (h : t.kind = .mark m) : Spelled true [.mark m] [t] := single h

/-- After a complaint, tokens may have been read for nothing. -/
theorem wasting (hx : Spelled clean xs ts) (us : List Token) : Spelled false xs (ts ++ us) := by
  obtain ⟨kept, hk, hs, -⟩ := hx
  exact ⟨kept, hk, hs.trans (List.sublist_append_left ts us), by simp⟩

end Spelled

/-! ### Lists with commas -/

section CommaList

open Rule

variable {α : Type} {item : Rule α} {spell : α → List Symbol} {P : α → Prop} {ts : List Token}

/-- One round behind a comma after every item so far, of which there are not too many yet unless
there was a complaint. -/
theorem commaList_round
    (hitem : ∀ ts, item.Ensures ts fun front _ clean x =>
      Spelled clean (spell x) front ∧ (clean = true → P x))
    {front : List Token} {clean : Bool} {xs : List α}
    (hspell : Spelled clean (xs.flatMap fun x => spell x ++ [.mark .comma]) front)
    (hgood : clean = true → xs.length < maxArity ∧ ∀ x ∈ xs, P x) :
    (do
      let x ← item
      let comma ← accept .comma
      pure (xs ++ [x], comma.isSome) : Rule (List α × Bool)).Ensures ts fun front' _ clean' p =>
        Spelled (clean && clean') (if p.2 = true ∧ front' ≠ [] then
            p.1.flatMap fun x => spell x ++ [.mark .comma]
          else
            separated (p.1.map spell)) (front ++ front') ∧
          ((clean && clean') = true → p.1.length ≤ maxArity ∧ ∀ x ∈ p.1, P x) := by
  refine .bind ((hitem ts).imp fun front' rest clean' x hx => ?_)
  have hmore (c : Bool) (h : (clean && (clean' && (true && c))) = true) :
      (xs ++ [x]).length ≤ maxArity ∧ ∀ y ∈ xs ++ [x], P y := by
    simp only [Bool.and_eq_true] at h
    obtain ⟨hlength, hall⟩ := hgood h.1
    refine ⟨by simpa using Nat.succ_le_of_lt hlength, fun y hy => ?_⟩
    rcases List.mem_append.1 hy with hy | hy
    · exact hall y hy
    · exact List.mem_singleton.1 hy ▸ hx.2 h.2.1
  refine .bind (.accept (fun comma rest _ hcomma => .pure ⟨?_, hmore _⟩) fun _ =>
    .pure ⟨?_, hmore _⟩)
  · rw [if_pos ⟨rfl, by simp⟩]
    simpa using hspell.append (hx.1.append (.mark hcomma))
  · rw [if_neg (by simp), List.map_append, List.map_singleton, separated_concat]
    simpa [List.flatMap_map] using hspell.append hx.1

/-- Items between commas spell the list of them, and there are not too many if nothing was noted. -/
theorem commaList_ensures {excess : Complaint}
    (hitem : ∀ ts, item.Ensures ts fun front _ clean x =>
      Spelled clean (spell x) front ∧ (clean = true → P x)) :
    (commaList excess item).Ensures ts fun front _ clean xs =>
      Spelled clean (separated (xs.map spell)) front ∧
        (clean = true → xs.length ≤ maxArity ∧ ∀ x ∈ xs, P x) := by
  refine .iterate (fun front clean xs =>
    Spelled clean (xs.flatMap fun x => spell x ++ [.mark .comma]) front ∧
      (clean = true → xs.length ≤ maxArity ∧ ∀ x ∈ xs, P x)) ⟨.nil, by simp⟩ ?_
  rintro ts front clean xs ⟨hspell, hgood⟩
  unfold commaRound
  dsimp only
  split
  · have hspell' := hspell.wasting []
    rw [List.append_nil] at hspell'
    refine .bind (.noteHere ((commaList_round hitem hspell' (by simp)).imp ?_))
    intro front' rest clean' p hp
    split at hp <;> simp_all
  · rename_i hlt
    have hgood' (hc : clean = true) := And.intro (Nat.lt_of_not_le hlt) (hgood hc).2
    refine (commaList_round hitem hspell hgood').imp fun front' rest clean' p hp => ?_
    split at hp <;> simp_all

end CommaList

/-! ### Expressions -/

/-- An expression that was read off tokens: they spell it and, if there was no complaint, it is
derivable at a level and may be entered with a number of levels left. -/
structure Expr.Read (level : Level) (n : Nat) (ts : List Token) (clean : Bool) (e : Expr) :
    Prop where
  spelled : Spelled clean e.yield ts
  derives : clean = true → e.Derives level
  fits : clean = true → e.Fits n

/-- A rule that reads expressions. -/
def Rule.ReadsExpr (r : Rule Expr) (level : Level) (n : Nat) : Prop :=
  ∀ ts, r.Ensures ts fun front _ clean e => e.Read level n front clean

/-- A tree read at one level is read at every level whose trees it may be. -/
theorem Expr.Read.of_derives {level level' : Level} {n : Nat} {ts : List Token} {clean : Bool}
    {e : Expr} (h : e.Read level n ts clean) (himp : e.Derives level → e.Derives level') :
    e.Read level' n ts clean :=
  ⟨h.spelled, fun hc => himp (h.derives hc), h.fits⟩

namespace ExprRules

open Rule

variable {deeper : ExprRules} {n : Nat}

/-- A chain of operators of one tier reads trees of that tier. -/
theorem chain_readsExpr {t : Tier} {operand : Rule Expr}
    (h : operand.ReadsExpr t.operand (n + 1)) :
    (chain t.marks t.node operand).ReadsExpr (.tier t) (n + 1) := by
  refine fun ts => .bind ((h ts).imp fun front rest clean first hfirst => ?_)
  refine .iterate (fun front' clean' left =>
    left.Read (.tier t) (n + 1) (front ++ front') (clean && clean')) ?_ ?_
  · simpa using hfirst.of_derives .operand
  · intro ts front' clean' left hleft
    refine .bind (.acceptAny (fun operator rest _ m hm hop => ?_) fun _ => .pure ?_)
    · refine .bind ((h rest).imp fun front rest clean right hright => .pure ?_)
      rw [if_pos ⟨rfl, by simp⟩]
      refine ⟨?_, fun hc => ?_, fun hc => ?_⟩
      · simpa [Bool.and_assoc] using
          hleft.spelled.append ((Spelled.token operator).append hright.spelled)
      · simp only [Bool.true_and, Bool.and_true, Bool.and_eq_true] at hc
        exact .join hm hop (hleft.derives (by simp [hc])) (hright.derives hc.2.2)
      · simp only [Bool.true_and, Bool.and_true, Bool.and_eq_true] at hc
        exact Expr.fits_node.2 ⟨hleft.fits (by simp [hc]), hright.fits hc.2.2⟩
    · rw [if_neg (by simp)]
      simpa using hleft

/-- A token that is an expression of its own. -/
theorem atom_ensures {t : Token} {ts : List Token} {e : Expr} {x : Symbol} (hx : e.yield = [x])
    (ht : x.Spells t) (hd : e.Derives .primary) (hf : e.Fits (n + 1)) :
    (do skip; pure e : Rule Expr).Ensures (t :: ts) fun front _ clean e =>
      e.Read .primary (n + 1) ([] ++ front) (true && clean) :=
  .bind (.skip (.pure ⟨hx ▸ .single ht, fun _ => hd, fun _ => hf⟩))

theorem primary_readsExpr (hexpr : deeper.expression.ReadsExpr .assignment n) :
    (primary deeper).ReadsExpr .primary (n + 1) := by
  refine fun ts => .bind (.peek ?_)
  cases ts with
  | nil => exact .fail
  | cons t ts =>
    dsimp only [List.head?_cons]
    split
    · exact atom_ensures (Expr.yield.eq_1 _) ‹_› (.literal _) (Expr.fits_literal _)
    · exact atom_ensures (Expr.yield.eq_1 _) ‹_› (.literal _) (Expr.fits_literal _)
    · exact atom_ensures (Expr.yield.eq_1 _) ‹_› (.literal _) (Expr.fits_literal _)
    · exact atom_ensures (Expr.yield.eq_1 _) ‹_› (.literal _) (Expr.fits_literal _)
    · exact atom_ensures (Expr.yield.eq_1 _) ‹_› (.literal _) (Expr.fits_literal _)
    · exact atom_ensures (Expr.yield.eq_2 _) rfl (.var ‹_›) (Expr.fits_var _)
    · rename_i hk
      refine .bind (.skip (.bind ((hexpr ts).imp fun front rest clean inner hinner => ?_)))
      refine .bind (.expect fun paren rest hparen => .pure ⟨?_, fun hc => ?_, fun hc => ?_⟩)
      · simpa [Expr.yield] using (Spelled.mark hk).append (hinner.spelled.append (.mark hparen))
      · exact .group (hinner.derives (by simpa using hc))
      · exact Expr.fits_group.2 (hinner.fits (by simpa using hc))
    · exact .fail

/-- Arguments spell a list of expressions, no longer than a call may have. -/
theorem arguments_ensures (hexpr : deeper.expression.ReadsExpr .assignment n) (ts : List Token) :
    (arguments deeper).Ensures ts fun front _ clean args =>
      Spelled clean (separated (args.map Expr.yield)) front ∧
        (clean = true → args.length ≤ maxArity ∧ ∀ a ∈ args, a.Derives .assignment ∧ a.Fits n) := by
  rw [arguments_eq]
  refine .bind (.nextIs fun closed => ?_)
  cases closed with
  | true => exact .pure ⟨.nil, by simp⟩
  | false =>
    exact commaList_ensures fun ts => (hexpr ts).imp fun front rest clean e he =>
      ⟨he.spelled, fun hc => ⟨he.derives hc, he.fits hc⟩⟩

theorem call_readsExpr (hexpr : deeper.expression.ReadsExpr .assignment n) :
    (call deeper).ReadsExpr .call (n + 1) := by
  refine fun ts => .bind ((primary_readsExpr hexpr ts).imp fun front rest clean first hfirst => ?_)
  refine .iterate (fun front' clean' callee =>
    callee.Read .call (n + 1) (front ++ front') (clean && clean')) ?_ ?_
  · simpa using hfirst.of_derives .primary
  · intro ts front' clean' callee hcallee
    refine .bind (.accept (fun left rest _ hleft => ?_) fun _ => .pure ?_)
    · refine .bind ((arguments_ensures hexpr rest).imp fun front rest clean args hargs => ?_)
      refine .bind (.expect fun paren rest hparen => .pure ?_)
      rw [if_pos ⟨rfl, by simp⟩]
      refine ⟨?_, fun hc => ?_, fun hc => ?_⟩
      · simpa [Expr.yield, Bool.and_assoc] using hcallee.spelled.append
          ((Spelled.mark hleft).append (hargs.1.append (.token paren)))
      · simp only [Bool.true_and, Bool.and_true, Bool.and_eq_true] at hc
        obtain ⟨-, hall⟩ := hargs.2 hc.2.2
        exact .call (hcallee.derives (by simp [hc])) hparen fun a ha => (hall a ha).1
      · simp only [Bool.true_and, Bool.and_true, Bool.and_eq_true] at hc
        obtain ⟨hlength, hall⟩ := hargs.2 hc.2.2
        exact Expr.fits_call.2
          ⟨hcallee.fits (by simp [hc]), hlength, fun a ha => (hall a ha).2⟩
    · rw [if_neg (by simp)]
      simpa using hcallee

/-- A prefix operator takes one level of nesting. -/
theorem unary_readsExpr (hexpr : deeper.expression.ReadsExpr .assignment n)
    (hoperand : deeper.operand.ReadsExpr .unary n) : (unary deeper).ReadsExpr .unary (n + 1) := by
  refine fun ts => .bind (.acceptAny (fun operator rest _ m hm hop => ?_) fun _ => ?_)
  · refine .bind ((hoperand rest).imp fun front rest clean operand h => .pure ?_)
    refine ⟨?_, fun hc => ?_, fun hc => ?_⟩
    · simpa [Expr.yield] using (Spelled.token operator).append h.spelled
    · exact .unary hm hop (h.derives (by simpa using hc))
    · exact Expr.fits_unary.2 (h.fits (by simpa using hc))
  · refine (call_readsExpr hexpr ts).imp fun front rest clean e he => ?_
    simpa using he.of_derives .callee

theorem operators_readsExpr (hexpr : deeper.expression.ReadsExpr .assignment n)
    (hoperand : deeper.operand.ReadsExpr .unary n) :
    (operators deeper).ReadsExpr (.tier .or) (n + 1) :=
  have hproduct := chain_readsExpr (t := .product) (unary_readsExpr hexpr hoperand)
  have hsum := chain_readsExpr (t := .sum) hproduct
  have hcomparison := chain_readsExpr (t := .comparison) hsum
  have hequality := chain_readsExpr (t := .equality) hcomparison
  chain_readsExpr (t := .or) (chain_readsExpr (t := .and) hequality)

/-- An assignment reads its target and its value, and is clean only if the target may be assigned
to. -/
theorem assignment_readsExpr (hexpr : deeper.expression.ReadsExpr .assignment n)
    (hoperand : deeper.operand.ReadsExpr .unary n) :
    (assignment deeper).ReadsExpr .assignment (n + 1) := by
  refine fun ts => .bind ((operators_readsExpr hexpr hoperand ts).imp
    fun front rest clean target htarget => ?_)
  refine .bind (.accept (fun equals rest _ hequals => ?_) fun _ => .pure ?_)
  · refine .bind ((hexpr rest).imp fun front' rest clean' value hvalue => ?_)
    -- only a name can be assigned to
    have hother : (do note ⟨some equals, .invalidTarget⟩; pure target : Rule Expr).Ensures rest
        fun front'' _ clean'' e => e.Read .assignment (n + 1)
          (front ++ ([equals] ++ (front' ++ front'')))
          (clean && (true && (clean' && clean''))) := by
      refine .bind (.note (.pure ⟨?_, ?_, ?_⟩))
      · simpa using htarget.spelled.wasting (equals :: front')
      · simp
      · simp
    cases target with
    | var name =>
      refine .pure ⟨?_, fun hc => ?_, fun hc => ?_⟩
      · simpa [Expr.yield] using
          htarget.spelled.append ((Spelled.mark hequals).append hvalue.spelled)
      · simp only [Bool.true_and, Bool.and_true, Bool.and_eq_true] at hc
        exact .assign (htarget.derives hc.1).kind_of_var (hvalue.derives hc.2)
      · simp only [Bool.true_and, Bool.and_true, Bool.and_eq_true] at hc
        exact Expr.fits_assign.2 (hvalue.fits hc.2)
    | literal | assign | unary | binary | logical | group | call => exact hother
  · simpa using htarget.of_derives .operators

end ExprRules

/-! ### Statements -/

/-- A statement that was read off tokens: they spell it and, if there was no complaint, it is
derivable and within the limits, and no `else` is left behind that would belong to it. -/
structure Stmt.Read (category : Category) (n : Nat) (ts rest : List Token) (clean : Bool)
    (s : Stmt) : Prop where
  spelled : Spelled clean s.yield ts
  derives : clean = true → s.Derives category
  fits : clean = true → s.Fits n
  closed : clean = true → s.endsOpen = true → Rule.NotNext [.kwElse] rest

/-- A statement that no `else` can belong to. -/
theorem Stmt.Read.of_shut {category : Category} {n : Nat} {ts rest : List Token} {clean : Bool}
    {s : Stmt} (hshut : s.endsOpen = false) (hspelled : Spelled clean s.yield ts)
    (hderives : clean = true → s.Derives category) (hfits : clean = true → s.Fits n) :
    s.Read category n ts rest clean :=
  ⟨hspelled, hderives, hfits, fun _ hopen => absurd hopen (Bool.eq_false_iff.1 hshut)⟩

/-- What is read as a declaration: there is one unless there was a complaint. -/
structure Stmt.ReadDeclared (n : Nat) (ts : List Token) (clean : Bool) (s : Option Stmt) :
    Prop where
  spelled : Spelled clean (s.toList.flatMap Stmt.yield) ts
  derives : clean = true → ∃ d, s = some d ∧ d.Derives .declaration ∧ d.FitsDeclared n

/-- A declaration takes at least one token. -/
theorem Stmt.ReadDeclared.ne_nil {n : Nat} {ts : List Token} {s : Option Stmt}
    (h : ReadDeclared n ts true s) : ts ≠ [] := by
  rintro rfl
  obtain ⟨d, rfl, -⟩ := h.derives rfl
  obtain ⟨kept, hkept, hsub, -⟩ := h.spelled
  rw [List.sublist_nil.1 hsub] at hkept
  exact absurd (List.forall₂_nil_right_iff.1 hkept) (by simp [d.yield_ne_nil])

namespace Grammar

open Rule

/-- Rules that read what the grammar has, with a number of levels left. -/
structure Sound (g : Grammar) (n : Nat) : Prop where
  expression : g.expression.ReadsExpr .assignment n
  operand : g.operand.ReadsExpr .unary n
  statement : ∀ ts, g.statement.Ensures ts fun front rest clean s =>
    s.Read .statement n front rest clean
  declaration : ∀ ts, g.declaration.Ensures ts fun front _ clean s =>
    Stmt.ReadDeclared n front clean s

/-- What a declaration adds to the statements collected in reverse. -/
theorem collect_ensures {o : Option Stmt} {stmts : List Stmt} {ts : List Token}
    {Q : List Token → List Token → Bool → List Stmt × Bool → Prop} :
    Q [] ts true (o.toList ++ stmts, true) →
      (match o with
        | some s => pure (s :: stmts, true)
        | none => pure (stmts, true) : Rule (List Stmt × Bool)).Ensures ts Q := by
  intro h
  cases o <;> exact .pure h

variable {deeper : Grammar} {n : Nat}

namespace Sound

variable (h : Sound deeper n) (ts : List Token)

include h

/-- Declarations spell the statements that are kept, and stop where they are told to. -/
theorem declarations_ensures (goesOn : Token → Bool) :
    (declarations deeper goesOn).Ensures ts fun front rest clean body =>
      Spelled clean (body.flatMap Stmt.yield) front ∧
        (clean = true → (∀ s ∈ body, s.Derives .declaration ∧ s.FitsDeclared n) ∧
          ∀ t ∈ rest.head?, goesOn t = false) := by
  refine .map (.iterate (fun front clean stmts =>
    Spelled clean (stmts.reverse.flatMap Stmt.yield) front ∧
      (clean = true → ∀ s ∈ stmts, s.Derives .declaration ∧ s.FitsDeclared n)) ⟨.nil, by simp⟩ ?_)
  rintro ts front clean stmts ⟨hspell, hgood⟩
  refine .bind (.peek ?_)
  cases ts with
  | nil =>
    refine .pure ?_
    rw [if_neg (by simp)]
    simpa using ⟨hspell, hgood⟩
  | cons t ts =>
    dsimp only [List.head?_cons]
    split
    · refine .bind ((h.declaration _).imp fun front' rest clean' o ho => ?_)
      refine collect_ensures ?_
      have hspell' : Spelled (clean && clean') ((o.toList ++ stmts).reverse.flatMap Stmt.yield)
          (front ++ front') := by
        cases o <;> simpa using hspell.append ho.spelled
      have hgood' (hc : (clean && clean') = true) (s : Stmt) (hs : s ∈ o.toList ++ stmts) :
          s.Derives .declaration ∧ s.FitsDeclared n := by
        obtain ⟨hc, hc'⟩ := Bool.and_eq_true_iff.1 hc
        obtain ⟨d, rfl, hd⟩ := ho.derives hc'
        rcases List.mem_cons.1 hs with rfl | hs
        · exact hd
        · exact hgood hc s hs
      simp only [Bool.and_true, Bool.true_and, List.nil_append, List.append_nil]
      split
      · exact ⟨hspell', hgood'⟩
      · rename_i hread
        refine ⟨hspell', fun hc => ⟨fun s hs => hgood' hc s (List.mem_reverse.1 hs), ?_⟩⟩
        -- a declaration without complaint has read something
        obtain ⟨-, rfl⟩ := Bool.and_eq_true_iff.1 hc
        exact absurd ⟨trivial, ho.ne_nil⟩ hread
    · refine .pure ?_
      rw [if_neg (by simp)]
      rename_i hstop
      simpa [hstop] using ⟨hspell, hgood⟩

/-- A block spells its declarations and the brace that closes it. -/
theorem block_ensures : (block deeper).Ensures ts fun front _ clean body =>
    Spelled clean (body.flatMap Stmt.yield ++ [.mark .rightBrace]) front ∧
      (clean = true → ∀ s ∈ body, s.Derives .declaration ∧ s.FitsDeclared n) := by
  refine .bind ((h.declarations_ensures ts _).imp fun front rest clean body hbody => ?_)
  refine .bind (.expect fun brace rest hbrace => .pure ⟨?_, fun hc => ?_⟩)
  · simpa using hbody.1.append (.mark hbrace)
  · exact (hbody.2 (by simpa using hc)).1

omit h in
/-- Parameters spell a list of names, no longer than a function may have. -/
theorem parameters_ensures : parameters.Ensures ts fun front _ clean params =>
    Spelled clean (separated (params.map fun p => [.token p])) front ∧
      (clean = true → params.length ≤ maxArity ∧ ∀ p ∈ params, p.kind = .mark .identifier) := by
  rw [parameters_eq]
  refine .bind (.nextIs fun closed => ?_)
  cases closed with
  | true => exact .pure ⟨.nil, by simp⟩
  | false => exact commaList_ensures fun ts => .expect fun p rest hp => ⟨.token p, fun _ => hp⟩

/-- A function takes the tokens of a declaration and enters one level. -/
theorem function_ensures {keyword : Token} (hk : keyword.kind = .mark .kwFunction) :
    (function deeper).Ensures ts fun front rest clean s =>
      s.Read .declaration (n + 1) ([keyword] ++ front) rest clean ∧ s.entry = 1 := by
  refine .bind (.expect fun name rest hname => .bind (.expect fun left rest hleft => ?_))
  refine .bind ((parameters_ensures rest).imp fun front rest clean params hparams => ?_)
  refine .bind (.expect fun right rest hright => .bind (.expect fun brace rest hbrace => ?_))
  refine .bind ((h.block_ensures rest).imp fun front' rest clean' body hbody => .pure ?_)
  have hclean : (true && (true && (clean && (true && (true && (clean' && true)))))) = true →
      clean = true ∧ clean' = true := by simp
  refine ⟨.of_shut rfl ?_ (fun hc => ?_) fun hc => ?_, rfl⟩
  · simpa [Stmt.yield] using (Spelled.mark hk).append ((Spelled.token name).append
      ((Spelled.mark hleft).append (hparams.1.append ((Spelled.mark hright).append
        ((Spelled.mark hbrace).append hbody.1)))))
  · obtain ⟨hc, hc'⟩ := hclean hc
    exact .function hname (hparams.2 hc).2 fun s hs => (hbody.2 hc' s hs).1
  · obtain ⟨hc, hc'⟩ := hclean hc
    exact Stmt.fits_function.2 ⟨(hparams.2 hc).1, fun s hs => (hbody.2 hc' s hs).2⟩

theorem variableDeclaration_ensures {keyword : Token} (hk : keyword.kind = .mark .kwVar) :
    (variableDeclaration deeper).Ensures ts fun front rest clean s =>
      s.Read .declaration (n + 1) ([keyword] ++ front) rest clean ∧ s.entry = 1 ∧
        s.isClause = true := by
  refine .bind (.expect fun name rest hname => ?_)
  refine .bind (.accept (fun equals rest _ hequals => ?_) fun _ => .bind (.pure ?_))
  · refine .bind (.map ((h.expression rest).imp fun front rest clean e he => ?_))
    refine .bind (.expect fun semicolon rest hsemicolon => .pure ⟨.of_shut rfl ?_
      (fun hc => ?_) fun hc => ?_, rfl, rfl⟩)
    · simpa [Stmt.yield] using (Spelled.mark hk).append ((Spelled.token name).append
        ((Spelled.mark hequals).append (he.spelled.append (.mark hsemicolon))))
    · exact .var hname fun _ hi => Option.some.inj hi ▸ he.derives (by simpa using hc)
    · exact Stmt.fits_var.2 fun _ hi => Option.some.inj hi ▸ he.fits (by simpa using hc)
  · refine .bind (.expect fun semicolon rest hsemicolon => .pure ⟨.of_shut rfl ?_
      (fun hc => ?_) fun hc => ?_, rfl, rfl⟩)
    · simpa [Stmt.yield] using (Spelled.mark hk).append ((Spelled.token name).append
        (.mark hsemicolon))
    · exact .var hname (by simp)
    · exact Stmt.fits_var.2 (by simp)

theorem expressionStatement_ensures :
    (expressionStatement deeper).Ensures ts fun front rest clean s =>
      s.Read .statement (n + 1) front rest clean ∧ s.isClause = true := by
  refine .bind ((h.expression ts).imp fun front rest clean e he => ?_)
  refine .bind (.expect fun semicolon rest hsemicolon => .pure ⟨.of_shut rfl ?_
    (fun hc => ?_) fun hc => ?_, rfl⟩)
  · simpa [Stmt.yield] using he.spelled.append (.mark hsemicolon)
  · exact .expression (he.derives (by simpa using hc))
  · exact Stmt.fits_expression.2 (he.fits (by simpa using hc))

theorem optionalExpression_ensures (stop : Mark) :
    (optionalExpression deeper stop).Ensures ts fun front _ clean o =>
      Spelled clean (Expr.yieldOption o) front ∧
        (clean = true → ∀ e ∈ o, e.Derives .assignment ∧ e.Fits n) := by
  refine .bind (.nextIs fun missing => ?_)
  cases missing with
  | true => exact .pure ⟨.nil, by simp⟩
  | false =>
    refine .map ((h.expression ts).imp fun front rest clean e he => ?_)
    exact ⟨he.spelled, fun hc _ ho => Option.some.inj ho ▸ ⟨he.derives hc, he.fits hc⟩⟩

/-- The first clause of a loop spells a declaration, an expression statement or nothing. -/
theorem forInitializer_ensures : (forInitializer deeper).Ensures ts fun front _ clean o =>
    Spelled clean ((o.map Stmt.yield).getD [.mark .semicolon]) front ∧ (clean = true →
      ∀ s ∈ o, (s.Derives .declaration ∧ s.isClause = true) ∧ s.Fits (n + 1)) := by
  refine .bind (.acceptAny (fun t rest _ m hm ht => ?_) fun _ => ?_)
  · have hm' : m = .semicolon ∨ m = .kwVar := by simpa using hm
    dsimp only
    rcases hm' with rfl | rfl
    · rw [if_pos (by simp [ht])]
      exact .pure ⟨.mark ht, by simp⟩
    · rw [if_neg (by simp [ht])]
      refine .map ((h.variableDeclaration_ensures rest ht).imp fun front rest clean s hs => ?_)
      obtain ⟨hread, -, hclause⟩ := hs
      refine ⟨by simpa using hread.spelled, fun hc _ ho => ?_⟩
      have hc : clean = true := by simpa using hc
      exact Option.some.inj ho ▸ ⟨⟨hread.derives hc, hclause⟩, hread.fits hc⟩
  · refine .map ((h.expressionStatement_ensures ts).imp fun front rest clean s hs => ?_)
    obtain ⟨hread, hclause⟩ := hs
    refine ⟨by simpa using hread.spelled, fun hc _ ho => ?_⟩
    have hc : clean = true := by simpa using hc
    exact Option.some.inj ho ▸ ⟨⟨.statement (hread.derives hc), hclause⟩, hread.fits hc⟩

theorem forStatement_ensures {keyword : Token} (hk : keyword.kind = .mark .kwFor) :
    (forStatement deeper).Ensures ts fun front rest clean s =>
      s.Read .statement (n + 1) ([keyword] ++ front) rest clean := by
  refine .bind (.expect fun left rest hleft => ?_)
  refine .bind ((h.forInitializer_ensures rest).imp fun front rest c₁ initializer hinit => ?_)
  refine .bind ((h.optionalExpression_ensures rest _).imp fun front rest c₂ condition hcond => ?_)
  refine .bind (.expect fun semicolon rest hsemicolon => ?_)
  refine .bind ((h.optionalExpression_ensures rest _).imp fun front rest c₃ increment hincr => ?_)
  refine .bind (.expect fun right rest hright => ?_)
  refine .bind ((h.statement rest).imp fun front rest c₄ body hbody => .pure ?_)
  have hclean : (true && (c₁ && (c₂ && (true && (c₃ && (true && (c₄ && true))))))) = true →
      c₁ = true ∧ c₂ = true ∧ c₃ = true ∧ c₄ = true := by simp
  refine ⟨?_, fun hc => ?_, fun hc => ?_, fun hc hopen => ?_⟩
  · rw [Stmt.yield_forLoop]
    simpa using (Spelled.mark hk).append ((Spelled.mark hleft).append (hinit.1.append
      (hcond.1.append ((Spelled.mark hsemicolon).append (hincr.1.append
        ((Spelled.mark hright).append hbody.spelled))))))
  · obtain ⟨h₁, h₂, h₃, h₄⟩ := hclean hc
    exact .forLoop (fun s hs => (hinit.2 h₁ s hs).1.1) (fun s hs => (hinit.2 h₁ s hs).1.2)
      (fun e he => (hcond.2 h₂ e he).1) (fun e he => (hincr.2 h₃ e he).1) (hbody.derives h₄)
  · obtain ⟨h₁, h₂, h₃, h₄⟩ := hclean hc
    exact Stmt.fits_forLoop.2 ⟨fun s hs => (hinit.2 h₁ s hs).2, fun e he => (hcond.2 h₂ e he).2,
      fun e he => (hincr.2 h₃ e he).2, hbody.fits h₄⟩
  · exact hbody.closed (hclean hc).2.2.2 hopen

theorem ifStatement_ensures {keyword : Token} (hk : keyword.kind = .mark .kwIf) :
    (ifStatement deeper).Ensures ts fun front rest clean s =>
      s.Read .statement (n + 1) ([keyword] ++ front) rest clean := by
  refine .bind (.expect fun left rest hleft => ?_)
  refine .bind ((h.expression rest).imp fun front rest c₁ condition hcond => ?_)
  refine .bind (.expect fun right rest hright => ?_)
  refine .bind ((h.statement rest).imp fun front behind c₂ thenBranch hthen => ?_)
  refine .bind (.accept (fun elseToken rest' hrest helse => ?_) fun hnone => .pure ?_)
  · refine .bind ((h.statement rest').imp fun front rest c₃ elseBranch hbranch => .pure ?_)
    have hclean : (true && (c₁ && (true && (c₂ && (true && (c₃ && true)))))) = true →
        c₁ = true ∧ c₂ = true ∧ c₃ = true := by simp
    refine ⟨?_, fun hc => ?_, fun hc => ?_, fun hc => hbranch.closed (hclean hc).2.2⟩
    · simpa [Stmt.yield] using (Spelled.mark hk).append ((Spelled.mark hleft).append
        (hcond.spelled.append ((Spelled.mark hright).append (hthen.spelled.append
          ((Spelled.mark helse).append hbranch.spelled)))))
    · obtain ⟨h₁, h₂, h₃⟩ := hclean hc
      refine .ifElse (hcond.derives h₁) (hthen.derives h₂) ?_ fun _ => ?_
      · exact fun _ hs => Option.some.inj hs ▸ hbranch.derives h₃
      · -- an open branch would have taken the `else`
        refine Bool.eq_false_iff.2 fun hopen => ?_
        have hhead : elseToken ∈ behind.head? := by
          rw [hrest]
          rfl
        exact hthen.closed h₂ hopen elseToken hhead _ (List.mem_singleton_self _) helse
    · obtain ⟨h₁, h₂, h₃⟩ := hclean hc
      exact Stmt.fits_ifElse.2 ⟨hcond.fits h₁, hthen.fits h₂,
        fun _ hs => Option.some.inj hs ▸ hbranch.fits h₃⟩
  · have hclean : (true && (c₁ && (true && (c₂ && (true && true))))) = true →
        c₁ = true ∧ c₂ = true := by simp
    refine ⟨?_, fun hc => ?_, fun hc => ?_, fun _ _ => hnone⟩
    · simpa [Stmt.yield] using (Spelled.mark hk).append ((Spelled.mark hleft).append
        (hcond.spelled.append ((Spelled.mark hright).append hthen.spelled)))
    · obtain ⟨h₁, h₂⟩ := hclean hc
      exact .ifElse (hcond.derives h₁) (hthen.derives h₂) (by simp) (by simp)
    · obtain ⟨h₁, h₂⟩ := hclean hc
      exact Stmt.fits_ifElse.2 ⟨hcond.fits h₁, hthen.fits h₂, by simp⟩

theorem printStatement_ensures {keyword : Token} (hk : keyword.kind = .mark .kwPrint) :
    (printStatement deeper).Ensures ts fun front rest clean s =>
      s.Read .statement (n + 1) ([keyword] ++ front) rest clean := by
  refine .bind ((h.expression ts).imp fun front rest clean e he => ?_)
  refine .bind (.expect fun semicolon rest hsemicolon => .pure (.of_shut rfl ?_
    (fun hc => ?_) fun hc => ?_))
  · simpa [Stmt.yield] using (Spelled.mark hk).append (he.spelled.append (.mark hsemicolon))
  · exact .print (he.derives (by simpa using hc))
  · exact Stmt.fits_print.2 (he.fits (by simpa using hc))

theorem returnStatement_ensures {keyword : Token} (hk : keyword.kind = .mark .kwReturn) :
    (returnStatement deeper keyword).Ensures ts fun front rest clean s =>
      s.Read .statement (n + 1) ([keyword] ++ front) rest clean := by
  refine .bind ((h.optionalExpression_ensures ts _).imp fun front rest clean value hvalue => ?_)
  refine .bind (.expect fun semicolon rest hsemicolon => .pure (.of_shut rfl ?_
    (fun hc => ?_) fun hc => ?_))
  · simpa [Stmt.yield] using (Spelled.token keyword).append (hvalue.1.append (.mark hsemicolon))
  · exact .ret hk fun e he => (hvalue.2 (by simpa using hc) e he).1
  · exact Stmt.fits_ret.2 fun e he => (hvalue.2 (by simpa using hc) e he).2

theorem whileStatement_ensures {keyword : Token} (hk : keyword.kind = .mark .kwWhile) :
    (whileStatement deeper).Ensures ts fun front rest clean s =>
      s.Read .statement (n + 1) ([keyword] ++ front) rest clean := by
  refine .bind (.expect fun left rest hleft => ?_)
  refine .bind ((h.expression rest).imp fun front rest c₁ condition hcond => ?_)
  refine .bind (.expect fun right rest hright => ?_)
  refine .bind ((h.statement rest).imp fun front rest c₂ body hbody => .pure ?_)
  have hclean : (true && (c₁ && (true && (c₂ && true)))) = true → c₁ = true ∧ c₂ = true := by simp
  refine ⟨?_, fun hc => ?_, fun hc => ?_, fun hc hopen => ?_⟩
  · simpa [Stmt.yield] using (Spelled.mark hk).append ((Spelled.mark hleft).append
      (hcond.spelled.append ((Spelled.mark hright).append hbody.spelled)))
  · obtain ⟨h₁, h₂⟩ := hclean hc
    exact .whileLoop (hcond.derives h₁) (hbody.derives h₂)
  · obtain ⟨h₁, h₂⟩ := hclean hc
    exact Stmt.fits_whileLoop.2 ⟨hcond.fits h₁, hbody.fits h₂⟩
  · exact hbody.closed (hclean hc).2 hopen

theorem plainStatement_ensures : (plainStatement deeper).Ensures ts fun front rest clean s =>
    s.Read .statement (n + 1) front rest clean := by
  refine .bind (.acceptAny (fun t rest _ m hm ht => ?_) fun _ => ?_)
  · have hm' : m = .kwFor ∨ m = .kwIf ∨ m = .kwPrint ∨ m = .kwReturn ∨ m = .kwWhile ∨
        m = .leftBrace := by simpa using hm
    dsimp only
    rcases hm' with rfl | rfl | rfl | rfl | rfl | rfl <;> rw [ht]
    · exact h.forStatement_ensures rest ht
    · exact h.ifStatement_ensures rest ht
    · exact h.printStatement_ensures rest ht
    · exact h.returnStatement_ensures rest ht
    · exact h.whileStatement_ensures rest ht
    · refine .map ((h.block_ensures rest).imp fun front rest clean body hbody => ?_)
      refine .of_shut rfl ?_ (fun hc => ?_) fun hc => ?_
      · simpa [Stmt.yield] using (Spelled.mark ht).append hbody.1
      · exact .block fun s hs => (hbody.2 hc s hs).1
      · exact Stmt.fits_block.2 fun s hs => (hbody.2 hc s hs).2
  · exact (h.expressionStatement_ensures ts).imp fun front rest clean s hs => hs.1

/-- A declaration in a block is entered one level deeper. -/
theorem anyDeclaration_ensures : (anyDeclaration deeper).Ensures ts fun front _ clean s =>
    Spelled clean s.yield front ∧
      (clean = true → s.Derives .declaration ∧ s.FitsDeclared (n + 1)) := by
  refine .bind (.acceptAny (fun t rest _ m hm ht => ?_) fun _ => ?_)
  · have hm' : m = .kwFunction ∨ m = .kwVar := by simpa using hm
    dsimp only
    rcases hm' with rfl | rfl
    · rw [if_pos (by simp [ht])]
      refine (h.function_ensures rest ht).imp fun front rest clean s hs => ?_
      obtain ⟨hread, hentry⟩ := hs
      exact ⟨hread.spelled, fun hc =>
        ⟨hread.derives hc, (Stmt.fitsDeclared_of_entry_eq_one hentry).2 (hread.fits hc)⟩⟩
    · rw [if_neg (by simp [ht])]
      refine (h.variableDeclaration_ensures rest ht).imp fun front rest clean s hs => ?_
      obtain ⟨hread, hentry, -⟩ := hs
      exact ⟨hread.spelled, fun hc =>
        ⟨hread.derives hc, (Stmt.fitsDeclared_of_entry_eq_one hentry).2 (hread.fits hc)⟩⟩
  · refine (h.statement ts).imp fun front rest clean s hs => ⟨hs.spelled, fun hc => ?_⟩
    have hderives := hs.derives hc
    exact ⟨.statement hderives,
      (Stmt.fitsDeclared_of_entry_eq_two hderives.entry_eq_two).2 (hs.fits hc)⟩

end Sound

/-- A declaration that fails is noted and skipped. -/
theorem run_recovering (r : Rule Stmt) (ts : List Token) :
    (recovering r).run ts = match r.run ts with
      | ⟨.ok s, rest, notes, moved⟩ => ⟨.ok (some s), rest, notes, moved⟩
      | ⟨.error e, rest, notes, moved⟩ =>
        ⟨.ok none, resume rest, notes ++ [e], moved || !rest.isEmpty⟩ := rfl

/-- Behind a complaint, all tokens up to where reading goes on are left out. -/
theorem recovering_ensures {r : Rule Stmt} {ts : List Token}
    (hr : r.Ensures ts fun front _ clean s => Spelled clean s.yield front ∧
      (clean = true → s.Derives .declaration ∧ s.FitsDeclared n)) :
    (recovering r).Ensures ts fun front _ clean s => Stmt.ReadDeclared n front clean s := by
  have hsuffix := (recovering r).suffix ts
  unfold Ensures at hr ⊢
  rw [run_recovering] at hsuffix ⊢
  generalize r.run ts = step at hr hsuffix ⊢
  obtain ⟨e | s, rest, notes, moved⟩ := step
  · intro o ho
    cases ho
    obtain ⟨front, hfront⟩ := hsuffix
    refine ⟨front, hfront.symm, ?_, ?_⟩
    · have hnil : Spelled true [] [] := .nil
      simpa [isEmpty_append] using hnil.wasting front
    · simp
  · intro o ho
    cases ho
    obtain ⟨front, hts, hspell, hgood⟩ := hr s rfl
    exact ⟨front, hts, by simpa using hspell, fun hc => ⟨s, rfl, hgood hc⟩⟩

/-- With no depth left, whatever is read is sound since nothing is. -/
theorem sound_exhausted : Sound exhausted 0 where
  expression _ := .fail
  operand _ := .fail
  statement _ := .fail
  declaration _ := recovering_ensures .fail

/-- One more level of nesting is sound if the level inside is. -/
theorem Sound.outer (h : Sound deeper n) : Sound deeper.outer (n + 1) where
  expression := ExprRules.assignment_readsExpr h.expression h.operand
  operand := ExprRules.unary_readsExpr h.expression h.operand
  statement := h.plainStatement_ensures
  declaration ts := recovering_ensures (h.anyDeclaration_ensures ts)

/-- The grammar of every depth is sound for that depth. -/
theorem sound_ofDepth (n : Nat) : Sound (ofDepth n) n := by
  induction n with
  | zero => exact sound_exhausted
  | succ n ih => exact ih.outer

end Grammar

/-! ### Programs -/

namespace Rule

/-- A rule that never fails. -/
def Succeeds {α : Type} (r : Rule α) : Prop := ∀ ts, ∃ a, (r.run ts).result = .ok a

namespace Succeeds

variable {α β σ : Type}

theorem pure (a : α) : (pure a : Rule α).Succeeds := fun _ => ⟨a, rfl⟩

theorem bind {r : Rule α} {f : α → Rule β} (hr : r.Succeeds) (hf : ∀ a, (f a).Succeeds) :
    (r >>= f).Succeeds := by
  intro ts
  have hts := hr ts
  rw [run_bind]
  generalize r.run ts = step at hts ⊢
  obtain ⟨e | a, rest, notes, moved⟩ := step
  · obtain ⟨a, ha⟩ := hts
    cases ha
  · exact hf a rest

/-- An iteration succeeds if every round does. -/
theorem iterate {round : σ → Rule (σ × Bool)} (hround : ∀ s, (round s).Succeeds) (s : σ) :
    (iterate round s).Succeeds := by
  intro ts
  obtain ⟨p, hp⟩ := hround s ts
  have hm := (round s).moved_iff ts
  rw [run_iterate, iterateRun]
  split
  · rename_i heq
    rw [heq] at hp
    cases hp
  · rename_i s' more rest notes moved heq
    rw [heq] at hm
    split
    · rename_i hgo
      have : rest.length < ts.length := hm.1 hgo.2
      exact iterate hround s' rest
    · exact ⟨s', rfl⟩
termination_by ts => ts.length

end Succeeds

end Rule

namespace Grammar

open Rule

theorem recovering_succeeds (r : Rule Stmt) : (recovering r).Succeeds := by
  intro ts
  unfold recovering
  dsimp only
  split
  · exact ⟨_, rfl⟩
  · exact ⟨_, rfl⟩

/-- A declaration never fails, as it recovers from what fails in it. -/
theorem ofDepth_declaration_succeeds (n : Nat) : (ofDepth n).declaration.Succeeds := by
  cases n with
  | zero => exact recovering_succeeds (.fail .tooDeep)
  | succ n => exact recovering_succeeds (anyDeclaration (ofDepth n))

theorem declarations_succeeds (g : Grammar) (hg : g.declaration.Succeeds)
    (goesOn : Token → Bool) : (declarations g goesOn).Succeeds := by
  refine .bind (.iterate (fun stmts => .bind (fun ts => ⟨_, rfl⟩) fun o => ?_) []) fun _ => .pure _
  cases o with
  | none => exact .pure _
  | some t =>
    dsimp only
    split
    · refine .bind hg fun o => ?_
      cases o <;> exact .pure _
    · exact .pure _

end Grammar

/-- **What is read is in the language.** The spellings of the statements read from any tokens, one
after another, are a subsequence of the tokens before the end. If there is no error, they are those
tokens exactly, and every statement is derivable, with at most 255 arguments and parameters, and
enters at most 512 levels of nesting. -/
theorem program_sound (tokens : List Token) :
    (∃ kept, kept.Sublist (Program.body tokens) ∧ List.Forall₂ Symbol.Spells
      ((Program.ofTokens tokens).statements.flatMap Stmt.yield) kept) ∧
    ((Program.ofTokens tokens).errors = [] →
      List.Forall₂ Symbol.Spells ((Program.ofTokens tokens).statements.flatMap Stmt.yield)
        (Program.body tokens) ∧
      ∀ s ∈ (Program.ofTokens tokens).statements,
        s.Derives .declaration ∧ s.width ≤ 255 ∧ s.nesting + s.entry ≤ 512) := by
  obtain ⟨stmts, hstmts⟩ := Grammar.declarations_succeeds Program.grammar
    (Grammar.ofDepth_declaration_succeeds _) (fun _ => true) (Program.body tokens)
  obtain ⟨front, hbody, ⟨kept, hkept, hsub, hall⟩, hgood⟩ :=
    (Grammar.sound_ofDepth maxNesting).declarations_ensures (Program.body tokens) _ stmts hstmts
  have hstatements : (Program.ofTokens tokens).statements = stmts :=
    congrArg (·.toOption.getD []) hstmts
  rw [hstatements]
  refine ⟨⟨kept, ?_, hkept⟩, fun herrors => ?_⟩
  · rw [hbody]
    exact hsub.trans (List.sublist_append_left front _)
  · have hclean := List.isEmpty_iff.2 (List.map_eq_nil_iff.1 herrors)
    obtain ⟨hderives, hrest⟩ := hgood hclean
    refine ⟨?_, fun s hs => ?_⟩
    · have hnil : (Program.rule.run (Program.body tokens)).rest = [] := by
        refine List.eq_nil_iff_forall_not_mem.2 fun t ht => ?_
        obtain ⟨u, hu⟩ := Option.isSome_iff_exists.1 (List.isSome_head?.2 (List.ne_nil_of_mem ht))
        exact absurd (hrest u hu) (by simp)
      rw [hall hclean] at hkept
      rw [hbody]
      change List.Forall₂ _ _ (front ++ (Program.rule.run (Program.body tokens)).rest)
      rwa [hnil, List.append_nil]
    · obtain ⟨hd, hnesting, hwidth⟩ := hderives s hs
      exact ⟨hd, hwidth, hnesting⟩

/-- The tokens of `a = -b();` are read without an error. -/
theorem program_sound_assignment :
    (Program.ofTokens [⟨.mark .identifier, "a", 1⟩, ⟨.mark .equal, "=", 1⟩, ⟨.mark .minus, "-", 1⟩,
      ⟨.mark .identifier, "b", 1⟩, ⟨.mark .leftParen, "(", 1⟩, ⟨.mark .rightParen, ")", 1⟩,
      ⟨.mark .semicolon, ";", 1⟩, ⟨.mark .eof, "", 1⟩]).errors = [] ∧
    ∀ s ∈ (Program.ofTokens [⟨.mark .identifier, "a", 1⟩, ⟨.mark .equal, "=", 1⟩,
      ⟨.mark .minus, "-", 1⟩, ⟨.mark .identifier, "b", 1⟩, ⟨.mark .leftParen, "(", 1⟩,
      ⟨.mark .rightParen, ")", 1⟩, ⟨.mark .semicolon, ";", 1⟩, ⟨.mark .eof, "", 1⟩]).statements,
      s.Derives .declaration ∧ s.width ≤ 255 ∧ s.nesting + s.entry ≤ 512 :=
  ⟨by decide +kernel, ((program_sound _).2 (by decide +kernel)).2⟩

end Scriptlet

import Scriptlet.Proofs.Grammar.Lookahead

/-!
# Expressions are read back

Tokens that spell a derivable expression within the limits are read as that expression if the token
behind them binds less tightly. Operators group to the left, so what is shown of a level is what it
reads in front of the operators that its own loop takes next.
-/

namespace Scriptlet

open Rule

/-! ### The rules of the levels -/

namespace ExprRules

/-- The operators of a level behind a left operand. -/
def chainLoop (t : Tier) (operand : Rule Expr) (e : Expr) : Rule Expr :=
  iterate (fun left => do
    match ← acceptAny t.marks with
    | some operator => do
      let right ← operand
      pure (t.node left operator right, true)
    | none => pure (left, false)) e

/-- The calls behind a callee. -/
def callLoop (deeper : ExprRules) (e : Expr) : Rule Expr :=
  iterate (fun callee => do
    match ← accept .leftParen with
    | some _ => do
      let args ← arguments deeper
      let paren ← expect .rightParen .parenAfterArguments
      pure (.call callee paren args, true)
    | none => pure (callee, false)) e

theorem call_eq (deeper : ExprRules) : call deeper = primary deeper >>= callLoop deeper := rfl

variable (deeper : ExprRules)

/-- The rule for products. -/
def products : Rule Expr := chain Tier.product.marks Tier.product.node (unary deeper)

/-- The rule for sums. -/
def sums : Rule Expr := chain Tier.sum.marks Tier.sum.node (products deeper)

/-- The rule for comparisons. -/
def comparisons : Rule Expr := chain Tier.comparison.marks Tier.comparison.node (sums deeper)

/-- The rule for tests of equality. -/
def equalities : Rule Expr := chain Tier.equality.marks Tier.equality.node (comparisons deeper)

/-- The rule for conjunctions. -/
def conjunctions : Rule Expr := chain Tier.and.marks Tier.and.node (equalities deeper)

/-- The rule for the expressions of a level. -/
def ofLevel : Level → Rule Expr
  | .assignment => assignment deeper
  | .tier .or => operators deeper
  | .tier .and => conjunctions deeper
  | .tier .equality => equalities deeper
  | .tier .comparison => comparisons deeper
  | .tier .sum => sums deeper
  | .tier .product => products deeper
  | .unary => unary deeper
  | .call => call deeper
  | .primary => primary deeper

/-- What is left to do at a level behind an expression of it. -/
def loopOf : Level → Expr → Rule Expr
  | .tier t => chainLoop t (ofLevel deeper t.operand)
  | .call => callLoop deeper
  | _ => pure

theorem ofLevel_tier (t : Tier) :
    ofLevel deeper (.tier t) = ofLevel deeper t.operand >>= loopOf deeper (.tier t) := by
  cases t <;> rfl

end ExprRules

/-! ### Lists with commas -/

section CommaList

variable {α : Type} {item : Rule α} {spell : α → List Symbol} {excess : Complaint}

/-- The round of a list that is not full yet. -/
theorem commaRound_reads {acc : List α} {x : α} {ts middle rest : List Token}
    {comma : Option Token} (hacc : acc.length < maxArity) (hx : item.Reads ts x middle)
    (hcomma : (accept .comma).Reads middle comma rest) :
    (commaRound excess item acc).Reads ts (acc ++ [x], comma.isSome) rest := by
  unfold commaRound
  dsimp only
  rw [if_neg (Nat.not_le.2 hacc)]
  exact hx.bind (hcomma.bind (.pure _))

theorem commaList_reads {xs : List α} {ts rest : List Token} {paren : Token} (hne : xs ≠ [])
    (hlength : xs.length ≤ maxArity) (hparen : paren.kind = .mark .rightParen)
    (hitem : ∀ x ∈ xs, ∀ ts rest, List.Forall₂ Symbol.Spells (spell x) ts → Looser 1 rest →
      item.Reads (ts ++ rest) x rest)
    (hts : List.Forall₂ Symbol.Spells (separated (xs.map spell)) ts) :
    (commaList excess item).Reads (ts ++ paren :: rest) xs (paren :: rest) := by
  -- the loop behind the items that have been read
  suffices hloop : ∀ acc : List α, acc.length + xs.length ≤ maxArity →
      (iterate (commaRound excess item) acc).Reads (ts ++ paren :: rest) (acc ++ xs)
        (paren :: rest) from hloop [] (by simpa using hlength)
  induction xs generalizing ts with
  | nil => exact absurd rfl hne
  | cons x xs ih =>
    intro acc hacc
    have hacc' : acc.length < maxArity := by
      rw [List.length_cons] at hacc
      omega
    have hx := hitem x List.mem_cons_self
    cases xs with
    | nil =>
      have hclosed : Looser 1 (paren :: rest) := looser_cons hparen (by decide)
      have hnone : NotNext [.comma] (paren :: rest) := notNext_cons hparen (by decide)
      exact .iterate_last
        (commaRound_reads hacc' (hx ts _ hts hclosed) (.accept_none hnone))
    | cons y ys =>
      obtain ⟨us, vs, hus, hvs, rfl⟩ := split_spelling hts
      obtain ⟨comma, ws, hcomma, hws, rfl⟩ := List.forall₂_cons_left_iff.1 hvs
      have hclosed : Looser 1 (comma :: (ws ++ paren :: rest)) := looser_cons hcomma (by decide)
      have hroom : (acc ++ [x]).length + (y :: ys).length ≤ maxArity := by
        simp only [List.length_append, List.length_cons, List.length_nil] at hacc ⊢
        omega
      have hrest := ih (List.cons_ne_nil y ys) (Nat.le_of_succ_le hlength)
        (fun z hz => hitem z (List.mem_cons_of_mem x hz)) hws (acc ++ [x]) hroom
      have hround : (commaRound excess item acc).Reads (us ++ comma :: (ws ++ paren :: rest))
          (acc ++ [x], true) (ws ++ paren :: rest) :=
        commaRound_reads hacc' (hx us _ hus hclosed) (.accept_some hcomma)
      simp only [List.append_assoc, List.cons_append, List.nil_append] at hrest ⊢
      refine .iterate_more hround ?_ hrest
      simp only [List.length_append, List.length_cons]
      omega

end CommaList

/-! ### Expressions -/

/-- A rule reads every expression of a level off the tokens that spell it, in front of a token that
binds less tightly. -/
def Rule.ReadsBack (r : Rule Expr) (level : Level) (n : Nat) : Prop :=
  ∀ {e : Expr} {ts : List Token}, e.Derives level → e.Fits n →
    List.Forall₂ Symbol.Spells e.yield ts → ∀ {rest : List Token}, Looser level.rank rest →
      r.Reads (ts ++ rest) e rest

namespace ExprRules

variable {deeper : ExprRules} {n : Nat} {rest : List Token}

theorem loopOf_reads (level : Level) (e : Expr) (h : Looser level.rank rest) :
    (loopOf deeper level e).Reads rest e rest := by
  cases level with
  | assignment | unary | primary => exact .pure e
  | tier t =>
    have hnone : NotNext t.marks rest :=
      h.notNext fun m hm => Nat.le_of_eq (Tier.binding_of_mem_marks hm).symm
    exact .iterate_last ((Reads.acceptAny_none hnone).bind (.pure (e, false)))
  | call =>
    have hnone : NotNext [.leftParen] rest := h.notNext (by decide)
    exact .iterate_last ((Reads.accept_none hnone).bind (.pure (e, false)))

theorem arguments_reads (hexpr : deeper.expression.ReadsBack .assignment n) {args : List Expr}
    {ts : List Token} {paren : Token} (hparen : paren.kind = .mark .rightParen)
    (hargs : ∀ a ∈ args, a.Derives .assignment) (hlength : args.length ≤ maxArity)
    (hfits : ∀ a ∈ args, a.Fits n)
    (hts : List.Forall₂ Symbol.Spells (separated (args.map Expr.yield)) ts) :
    (arguments deeper).Reads (ts ++ paren :: rest) args (paren :: rest) := by
  rw [arguments_eq]
  cases args with
  | nil =>
    cases hts
    exact (Reads.nextIs_true hparen).bind (.pure [])
  | cons a args =>
    have hopen : NotNext [.rightParen] (ts ++ paren :: rest) := by
      obtain ⟨ys, hys⟩ := exists_separated_cons a.yield (args.map Expr.yield)
      rw [List.map_cons, hys] at hts
      obtain ⟨us, vs, hus, -, rfl⟩ := split_spelling hts
      rw [List.append_assoc]
      exact (((hargs a List.mem_cons_self).starts hus).append _).notNext (by decide)
    refine (Reads.nextIs_false hopen).bind ?_
    refine commaList_reads (List.cons_ne_nil a args) hlength hparen
      (fun x hx us rest hus hrest => ?_) hts
    exact hexpr (hargs x hx) (hfits x hx) hus hrest

theorem literal_reads (value : Literal) {t : Token} (ht : value.symbol.Spells t) :
    (primary deeper).Reads (t :: rest) (.literal value) rest := by
  refine Reads.peek.bind ?_
  dsimp only [List.head?_cons]
  rcases value with x | contents | (_ | _) | _
  all_goals
    rw [show t.kind = _ from ht]
    exact Reads.skip.bind (.pure _)

theorem var_reads {name : Token} (hname : name.kind = .mark .identifier) :
    (primary deeper).Reads (name :: rest) (.var name) rest := by
  refine Reads.peek.bind ?_
  dsimp only [List.head?_cons]
  rw [hname]
  exact Reads.skip.bind (.pure _)

theorem group_reads (hexpr : deeper.expression.ReadsBack .assignment n) {inner : Expr}
    (hinner : inner.Derives .assignment) (hfits : inner.Fits n) {ts : List Token}
    {left right : Token} (hleft : left.kind = .mark .leftParen)
    (hright : right.kind = .mark .rightParen) (hts : List.Forall₂ Symbol.Spells inner.yield ts) :
    (primary deeper).Reads (left :: (ts ++ right :: rest)) (.group inner) rest := by
  refine Reads.peek.bind ?_
  dsimp only [List.head?_cons]
  rw [hleft]
  have hread : deeper.expression.Reads (ts ++ right :: rest) inner (right :: rest) :=
    hexpr hinner hfits hts (looser_cons hright (by decide))
  exact Reads.skip.bind (hread.bind ((Reads.expect hright).bind (.pure _)))

theorem call_reads_more (hexpr : deeper.expression.ReadsBack .assignment n) {callee : Expr}
    {args : List Expr} {left paren : Token} {ts : List Token} {x : Expr} {rest' : List Token}
    (hleft : left.kind = .mark .leftParen) (hparen : paren.kind = .mark .rightParen)
    (hargs : ∀ a ∈ args, a.Derives .assignment) (hlength : args.length ≤ maxArity)
    (hfits : ∀ a ∈ args, a.Fits n)
    (hts : List.Forall₂ Symbol.Spells (separated (args.map Expr.yield)) ts)
    (hloop : (callLoop deeper (.call callee paren args)).Reads rest x rest') :
    (callLoop deeper callee).Reads (left :: (ts ++ paren :: rest)) x rest' := by
  have hread : (arguments deeper).Reads (ts ++ paren :: rest) args (paren :: rest) :=
    arguments_reads hexpr hparen hargs hlength hfits hts
  refine .iterate_more ((Reads.accept_some hleft).bind (hread.bind
    ((Reads.expect hparen).bind (.pure _)))) ?_ hloop
  simp only [List.length_cons, List.length_append]
  omega

/-- What a level reads off the tokens that spell an expression of it, in front of tokens that only
its own loop may take: the expression, and then what the loop makes of it. -/
theorem ofLevel_reads (hexpr : deeper.expression.ReadsBack .assignment n)
    (hoperand : deeper.operand.ReadsBack .unary n) {level : Level} {e x : Expr}
    (h : e.Derives level) (hlevel : level ≠ .assignment) (hfits : e.Fits (n + 1))
    {ts rest' : List Token} (hts : List.Forall₂ Symbol.Spells e.yield ts)
    (hrest : Looser level.limit rest) (hloop : (loopOf deeper level e).Reads rest x rest') :
    (ofLevel deeper level).Reads (ts ++ rest) x rest' := by
  induction h generalizing ts rest x rest' with
  | assign | operators => exact absurd rfl hlevel
  | @join t left right operator m hm hop hleft hright ihleft ihright =>
    rw [Tier.yield_node] at hts
    rw [Expr.fits_node] at hfits
    obtain ⟨us, vs, hus, hvs, rfl⟩ := split_spelling hts
    obtain ⟨operator, ws, rfl, hws, rfl⟩ := List.forall₂_cons_left_iff.1 hvs
    have hnext : Looser (Level.tier t).limit (operator :: (ws ++ rest)) :=
      looser_cons hop (Tier.binding_of_mem_marks hm ▸ t.rank_lt_rank_operand)
    have hread : (ofLevel deeper t.operand).Reads (ws ++ rest) right rest :=
      ihright t.operand_ne_assignment hfits.2 hws (hrest.mono (Level.rank_le_limit _))
        (loopOf_reads _ _ hrest)
    -- one round of the loop takes the operator and the right operand
    have hround : (loopOf deeper (.tier t) left).Reads (operator :: (ws ++ rest)) x rest' := by
      refine .iterate_more ((Reads.acceptAny_some hm hop).bind (hread.bind (.pure _))) ?_ hloop
      simp only [List.length_cons, List.length_append]
      omega
    rw [List.append_assoc]
    exact ihleft hlevel hfits.1 hus hnext hround
  | @operand t e he ih =>
    rw [ofLevel_tier]
    exact (ih t.operand_ne_assignment hfits hts (hrest.mono (Level.rank_le_limit _))
      (loopOf_reads _ _ hrest)).bind hloop
  | @unary operator operand m hm hop hd _ =>
    rw [Expr.yield] at hts
    rw [Expr.fits_unary] at hfits
    obtain ⟨_, us, rfl, hus, rfl⟩ := List.forall₂_cons_left_iff.1 hts
    obtain ⟨rfl, rfl⟩ := hloop.eq_of_pure
    exact (Reads.acceptAny_some hm hop).bind ((hoperand hd hfits hus hrest).bind (.pure _))
  | @callee e he ih =>
    obtain ⟨rfl, rfl⟩ := hloop.eq_of_pure
    have hread : (call deeper).Reads (ts ++ rest') x rest' :=
      ih (by simp) hfits hts (hrest.mono (by decide)) (loopOf_reads .call x hrest)
    exact (Reads.acceptAny_none (((he.starts hts).append _).notNext (by decide))).bind hread
  | @call callee paren args hcallee hparen hargs ih _ =>
    rw [Expr.yield] at hts
    rw [Expr.fits_call] at hfits
    obtain ⟨us, vs, hus, hvs, rfl⟩ := split_spelling hts
    obtain ⟨left, ws, hleft, hws, rfl⟩ := List.forall₂_cons_left_iff.1 hvs
    obtain ⟨as, ps, has, hps, rfl⟩ := split_spelling hws
    obtain ⟨_, _, rfl, hnil, rfl⟩ := List.forall₂_cons_left_iff.1 hps
    cases hnil
    simp only [List.append_assoc, List.cons_append, List.nil_append]
    exact ih (by simp) hfits.1 hus (looser_cons hleft (by decide))
      (call_reads_more hexpr hleft hparen hargs hfits.2.1 hfits.2.2 has hloop)
  | @primary e he ih =>
    rw [ofLevel, call_eq]
    exact (ih (by simp) hfits hts hrest (.pure e)).bind hloop
  | literal value =>
    rw [Expr.yield] at hts
    obtain ⟨t, _, ht, hnil, rfl⟩ := List.forall₂_cons_left_iff.1 hts
    cases hnil
    obtain ⟨rfl, rfl⟩ := hloop.eq_of_pure
    exact literal_reads value ht
  | var hname =>
    rw [Expr.yield] at hts
    obtain ⟨_, _, rfl, hnil, rfl⟩ := List.forall₂_cons_left_iff.1 hts
    cases hnil
    obtain ⟨rfl, rfl⟩ := hloop.eq_of_pure
    exact var_reads hname
  | group hinner _ =>
    rw [Expr.yield] at hts
    rw [Expr.fits_group] at hfits
    obtain ⟨left, us, hleft, hus, rfl⟩ := List.forall₂_cons_left_iff.1 hts
    obtain ⟨is, ps, his, hps, rfl⟩ := split_spelling hus
    obtain ⟨right, _, hright, hnil, rfl⟩ := List.forall₂_cons_left_iff.1 hps
    cases hnil
    obtain ⟨rfl, rfl⟩ := hloop.eq_of_pure
    simp only [List.append_assoc, List.cons_append, List.nil_append]
    exact group_reads hexpr hinner hfits hleft hright his

/-- An expression that is no assignment, in front of a token that binds less tightly. -/
theorem ofLevel_readsBack (hexpr : deeper.expression.ReadsBack .assignment n)
    (hoperand : deeper.operand.ReadsBack .unary n) {level : Level} (hlevel : level ≠ .assignment) :
    (ofLevel deeper level).ReadsBack level (n + 1) := by
  intro e ts he hfits hts rest hrest
  exact ofLevel_reads hexpr hoperand he hlevel hfits hts (hrest.mono level.rank_le_limit)
    (loopOf_reads level e hrest)

theorem assignment_readsBack (hexpr : deeper.expression.ReadsBack .assignment n)
    (hoperand : deeper.operand.ReadsBack .unary n) :
    (assignment deeper).ReadsBack .assignment (n + 1) := by
  have hoperators : (operators deeper).ReadsBack (.tier .or) (n + 1) :=
    ofLevel_readsBack hexpr hoperand (by simp)
  intro e ts he hfits hts rest hrest
  cases he with
  | @assign name value hname hvalue =>
    rw [Expr.yield] at hts
    rw [Expr.fits_assign] at hfits
    obtain ⟨name, us, rfl, hus, rfl⟩ := List.forall₂_cons_left_iff.1 hts
    obtain ⟨equals, vs, hequals, hvs, rfl⟩ := List.forall₂_cons_left_iff.1 hus
    -- the name alone is read before the equals sign
    have hyield : List.Forall₂ Symbol.Spells (Expr.var name).yield [name] := by
      rw [Expr.yield]
      exact .cons rfl .nil
    have htarget : (operators deeper).Reads (name :: equals :: (vs ++ rest)) (.var name)
        (equals :: (vs ++ rest)) :=
      hoperators (.of_primary (.var hname) .or) (Expr.fits_var name) hyield
        (looser_cons hequals (by decide))
    exact htarget.bind ((Reads.accept_some hequals).bind
      ((hexpr hvalue hfits hvs hrest).bind (.pure _)))
  | operators he =>
    have hnone : NotNext [.equal] rest := hrest.notNext (by decide)
    exact (hoperators he hfits hts (hrest.mono (by decide))).bind
      ((Reads.accept_none hnone).bind (.pure e))

end ExprRules

end Scriptlet

import Scriptlet.Proofs.Eval.Layout
import Scriptlet.Proofs.Grammar.Safety

/-!
# The order of complaints

Complaints come in the order of their tokens, with one exception: that a target cannot be assigned
to is said after the assigned value has been read, and so right after all that is wrong inside the
value (`Arranged`). A rule keeps this order because its complaints are about tokens that it was
given, and none of them is behind what it leaves (`InOrder`). The lines of a script never decrease,
so that the order of its tokens is also the order of their lines.
-/

namespace Scriptlet

open Rule

variable {α β σ : Type}

/-! ### Arranged lists -/

/-- What comes before an element is not behind it, except right before a late one: there may stand
some that are behind it. -/
def Arranged (le : α → α → Prop) (late : α → Prop) (xs : List α) : Prop :=
  ∀ front x back, xs = front ++ x :: back → ∃ before inside, front = before ++ inside ∧
    (∀ a ∈ before, le a x) ∧ (∀ a ∈ inside, le x a) ∧ (inside = [] ∨ late x)

namespace Arranged

variable {le : α → α → Prop} {late : α → Prop} {xs ys : List α}

theorem nil : Arranged le late [] := by
  intro front x back heq
  simp at heq

theorem append (hxs : Arranged le late xs) (hys : Arranged le late ys)
    (hle : ∀ a ∈ xs, ∀ b ∈ ys, le a b) : Arranged le late (xs ++ ys) := by
  intro front x back heq
  rcases List.append_eq_append_iff.1 heq with ⟨front', rfl, hback⟩ | ⟨back', hfront, hback⟩
  · obtain ⟨before, inside, rfl, hbefore, hinside⟩ := hys front' x back hback
    refine ⟨xs ++ before, inside, (List.append_assoc ..).symm, ?_, hinside⟩
    have hx : x ∈ ys := by simp [hback]
    exact List.forall_mem_append.2 ⟨fun a ha => hle a ha x hx, hbefore⟩
  · cases back' with
    | nil =>
      obtain rfl : x :: back = ys := hback
      obtain rfl : xs = front := by rw [hfront, List.append_nil]
      refine ⟨xs, [], (List.append_nil xs).symm, fun a ha => ?_, by simp, .inl rfl⟩
      exact hle a ha x List.mem_cons_self
    | cons y back' =>
      obtain ⟨rfl, -⟩ := List.cons.inj hback
      exact hxs front x back' hfront

/-- A late element right behind those that are behind it. -/
theorem concat {x : α} (hxs : Arranged le late xs) (hle : ∀ a ∈ xs, le x a)
    (hx : xs = [] ∨ late x) : Arranged le late (xs ++ [x]) := by
  intro front y back heq
  rcases List.eq_nil_or_concat back with rfl | ⟨back', z, rfl⟩
  · obtain ⟨rfl, hxy⟩ := List.append_inj' heq rfl
    cases hxy
    exact ⟨[], xs, rfl, by simp, hle, hx⟩
  · rw [List.concat_eq_append, ← List.cons_append, ← List.append_assoc] at heq
    exact hxs front y back' (List.append_inj' heq rfl).1

theorem singleton (x : α) : Arranged le late [x] := nil.concat (by simp) (.inl rfl)

theorem map {le' : β → β → Prop} {late' : β → Prop} {f : α → β} (hxs : Arranged le late xs)
    (hle : ∀ a b, le a b → le' (f a) (f b)) (hlate : ∀ a, late a → late' (f a)) :
    Arranged le' late' (xs.map f) := by
  intro front' x' back' heq
  obtain ⟨front, rest, hsplit, rfl, hrest⟩ := List.map_eq_append_iff.1 heq
  obtain ⟨x, back, rfl, rfl, rfl⟩ := List.map_eq_cons_iff.1 hrest
  obtain ⟨before, inside, rfl, hbefore, hinside, hx⟩ := hxs front x back hsplit
  refine ⟨before.map f, inside.map f, List.map_append, ?_, ?_, ?_⟩
  · exact List.forall_mem_map.2 fun a ha => hle a x (hbefore a ha)
  · exact List.forall_mem_map.2 fun a ha => hle x a (hinside a ha)
  · exact hx.imp (fun hnil => by rw [hnil, List.map_nil]) (hlate x)

end Arranged

/-! ### Complaints and the tokens they are about -/

/-- The line of a note; the end of the tokens has the given one. -/
def Note.line (last : Nat) (n : Note) : Nat := (n.site.map Token.line).getD last

/-- Notes in the order of their tokens, those about targets right behind what is wrong inside the
assigned values. -/
def Note.Arranged (last : Nat) : List Note → Prop :=
  Scriptlet.Arranged (fun a b => a.line last ≤ b.line last) (·.complaint = .invalidTarget)

/-- Tokens on lines that never decrease and do not go beyond the given one. -/
structure Ascending (last : Nat) (all : List Token) : Prop where
  pairwise : all.Pairwise fun t u => t.line ≤ u.line
  bounded : ∀ t ∈ all, t.line ≤ last

/-- The complaints of a rule that was given some tokens and left some of those. -/
structure InOrder (last : Nat) (ts : List Token) (notes : List Note) (rest : List Token) :
    Prop where
  arranged : Note.Arranged last notes
  /-- Every complaint is about a token that was given. -/
  ahead : ∀ n ∈ notes, ∀ t ∈ n.site, t ∈ ts
  /-- No complaint is behind what is left. -/
  behind : ∀ n ∈ notes, ∀ t ∈ rest, n.line last ≤ t.line

section Rules

variable {last : Nat} {all : List Token} (hall : Ascending last all)

theorem Ascending.head_le (hall : Ascending last all) {t u : Token} {ts : List Token}
    (hts : t :: ts <:+ all) (hu : u ∈ t :: ts) : t.line ≤ u.line := by
  rcases List.mem_cons.1 hu with rfl | hu
  · exact Nat.le_refl _
  · exact (List.pairwise_cons.1 (hall.pairwise.sublist hts.sublist)).1 u hu

namespace InOrder

variable {ts us mid rest rest' : List Token} {notes notes' : List Note}

theorem nil (ts rest : List Token) : InOrder last ts [] rest := ⟨.nil, by simp, by simp⟩

theorem mono_rest (h : InOrder last ts notes rest) (hrest : rest' ⊆ rest) :
    InOrder last ts notes rest' :=
  ⟨h.arranged, h.ahead, fun n hn t ht => h.behind n hn t (hrest ht)⟩

theorem mono_given (h : InOrder last us notes rest) (hts : us ⊆ ts) : InOrder last ts notes rest :=
  ⟨h.arranged, fun n hn t ht => hts (h.ahead n hn t ht), h.behind⟩

include hall in
/-- A complaint at the next token. -/
theorem here (hts : ts <:+ all) (c : Complaint) : InOrder last ts [⟨ts.head?, c⟩] ts where
  arranged := .singleton _
  ahead := by
    simp only [List.mem_singleton, forall_eq]
    exact fun t ht => List.mem_of_mem_head? ht
  behind := by
    simp only [List.mem_singleton, forall_eq]
    intro u hu
    cases ts with
    | nil => cases hu
    | cons t ts => exact hall.head_le hts hu

include hall in
theorem line_le (h : InOrder last ts notes rest) (hts : ts <:+ all) {n : Note} (hn : n ∈ notes) :
    n.line last ≤ last := by
  have hknown := h.ahead n hn
  obtain ⟨site, c⟩ := n
  cases site with
  | none => exact Nat.le_refl last
  | some t => exact hall.bounded t (hts.subset (hknown t rfl))

include hall in
/-- The complaints of one rule and of another that goes on behind it. -/
theorem append (hts : ts <:+ all) (h : InOrder last ts notes mid)
    (h' : InOrder last mid notes' rest) (hmid : mid <:+ ts) (hrest : rest <:+ mid) :
    InOrder last ts (notes ++ notes') rest where
  arranged := by
    refine Arranged.append h.arranged h'.arranged fun a ha b hb => ?_
    have hahead := h'.ahead b hb
    obtain ⟨site, c⟩ := b
    cases site with
    | none => exact h.line_le hall hts ha
    | some t => exact h.behind a ha t (hahead t rfl)
  ahead := List.forall_mem_append.2
    ⟨h.ahead, fun n hn t ht => hmid.subset (h'.ahead n hn t ht)⟩
  behind := List.forall_mem_append.2
    ⟨fun n hn t ht => h.behind n hn t (hrest.subset ht), h'.behind⟩

include hall in
/-- The complaint about a target, after those about the value behind its `=`. -/
theorem target {equals : Token} (hts : equals :: us <:+ all) (h : InOrder last us notes rest)
    (hrest : rest <:+ us) :
    InOrder last (equals :: us) (notes ++ [⟨some equals, .invalidTarget⟩]) rest where
  arranged := by
    refine Arranged.concat h.arranged (fun n hn => ?_) (.inr rfl)
    have hahead := h.ahead n hn
    obtain ⟨site, c⟩ := n
    cases site with
    | none => exact hall.bounded equals (hts.subset List.mem_cons_self)
    | some t => exact hall.head_le hts (List.mem_cons_of_mem _ (hahead t rfl))
  ahead := by
    refine List.forall_mem_append.2
      ⟨fun n hn t ht => List.mem_cons_of_mem _ (h.ahead n hn t ht), ?_⟩
    simp
  behind := by
    refine List.forall_mem_append.2 ⟨h.behind, ?_⟩
    simp only [List.mem_singleton, forall_eq]
    exact fun t ht => hall.head_le hts (List.mem_cons_of_mem _ (hrest.subset ht))

end InOrder

/-! ### Rules that keep the order -/

/-- A rule keeps the order on the given tokens. -/
def Rule.OrderedOn (last : Nat) (r : Rule α) (ts : List Token) : Prop :=
  InOrder last ts (r.run ts).notes (r.run ts).rest

namespace Rule.OrderedOn

variable {ts : List Token}

theorem of_silent {r : Rule α} (h : (r.run ts).notes = []) : r.OrderedOn last ts := by
  rw [OrderedOn, h]
  exact .nil ts _

theorem acceptAny (marks : List Mark) (ts : List Token) :
    (Rule.acceptAny marks).OrderedOn last ts := by
  refine of_silent ?_
  cases ts with
  | nil => rfl
  | cons t ts =>
    rw [run_acceptAny_cons]
    split <;> rfl

include hall in
theorem bind {r : Rule α} {f : α → Rule β} (hts : ts <:+ all) (hr : r.OrderedOn last ts)
    (hf : ∀ a, (f a).OrderedOn last (r.run ts).rest) : (r >>= f).OrderedOn last ts := by
  have hsuffix := r.suffix ts
  unfold OrderedOn at hr hf ⊢
  rw [run_bind]
  generalize r.run ts = step at hr hf hsuffix
  obtain ⟨e | a, rest, notes, moved⟩ := step
  · exact hr
  · exact hr.append hall hts (hf a) hsuffix ((f a).suffix rest)

include hall in
theorem iterate {round : σ → Rule (σ × Bool)}
    (h : ∀ s ts, ts <:+ all → (round s).OrderedOn last ts) (s : σ) (ts : List Token)
    (hts : ts <:+ all) : (Rule.iterate round s).OrderedOn last ts := by
  have hround := h s ts hts
  have hsuffix := (round s).suffix ts
  have hm := (round s).moved_iff ts
  unfold OrderedOn at hround ⊢
  rw [run_iterate]
  generalize hstep : (round s).run ts = step at hround hm hsuffix
  obtain ⟨e | ⟨s', more⟩, rest, notes, moved⟩ := step
  · rw [iterateRun_of_error hstep]
    exact hround
  · by_cases hgo : more = true ∧ moved = true
    · have : rest.length < ts.length := hm.1 hgo.2
      rw [iterateRun_of_more hstep hgo]
      have hrest := iterate h s' rest (hsuffix.trans hts)
      exact hround.append hall hts hrest hsuffix (iterateRun_suffix round s' rest)
    · rw [iterateRun_of_last hstep hgo]
      exact hround
termination_by ts.length

include hall in
/-- A fatal complaint is about the first token left, and so comes after the others. -/
theorem recovering {r : Rule Stmt} (hts : ts <:+ all) (hr : r.OrderedOn last ts)
    (hfails : r.FailsAhead) : (Grammar.recovering r).OrderedOn last ts := by
  have hsuffix := r.suffix ts
  have hsite := hfails ts
  unfold OrderedOn at hr ⊢
  rw [Grammar.run_recovering]
  generalize r.run ts = step at hr hsuffix hsite
  obtain ⟨⟨site, c⟩ | s, rest, notes, moved⟩ := step
  · obtain rfl : site = rest.head? := hsite _ rfl
    have hlast := InOrder.here hall (hsuffix.trans hts) c
    have horder := hr.append hall hts hlast hsuffix List.suffix_rfl
    exact horder.mono_rest (Grammar.resume_suffix rest).subset
  · exact hr

include hall in
/-- A value, and the complaint about the target before it. -/
theorem assigned {value : Rule Expr} {equals : Token} {us : List Token} (target : Expr)
    (hts : equals :: us <:+ all) (hvalue : value.OrderedOn last us) :
    let r := value >>= fun _ => note ⟨some equals, .invalidTarget⟩ >>= fun _ => pure target
    InOrder last (equals :: us) (r.run us).notes (r.run us).rest := by
  intro r
  have hsuffix := value.suffix us
  unfold OrderedOn at hvalue
  unfold r
  rw [run_bind]
  generalize value.run us = step at hvalue hsuffix
  obtain ⟨e | v, rest, notes, moved⟩ := step
  · exact hvalue.mono_given (List.subset_cons_self equals us)
  · exact hvalue.target hall hts hsuffix

include hall in
theorem assignment {deeper : ExprRules} (hts : ts <:+ all)
    (htarget : deeper.operators.OrderedOn last ts)
    (hvalue : ∀ us, us <:+ all → deeper.expression.OrderedOn last us) :
    deeper.assignment.OrderedOn last ts := by
  refine .bind hall hts htarget fun target => ?_
  have hmid := (deeper.operators.suffix ts).trans hts
  generalize (deeper.operators.run ts).rest = mid at hmid
  cases mid with
  | nil => exact of_silent rfl
  | cons equals us =>
    have hus := (List.suffix_cons equals us).trans hmid
    unfold OrderedOn
    rw [run_bind, accept, run_acceptAny_cons]
    by_cases hequal : ([.equal] : List Mark).any (fun m => equals.is m) = true
    · rw [if_pos hequal]
      cases target with
      | var name =>
        have hassign := bind hall hus (hvalue us hus) fun value =>
          of_silent (r := pure (Expr.assign name value)) rfl
        exact hassign.mono_given (List.subset_cons_self equals us)
      | literal | assign | unary | binary | logical | group | call =>
        exact assigned hall _ hmid (hvalue us hus)
    · rw [if_neg hequal]
      exact .nil _ _

end Rule.OrderedOn

include hall in
theorem Rule.Composed.orderedOn {r : Rule α} (h : r.Composed) :
    ∀ ts, ts <:+ all → r.OrderedOn last ts := by
  induction h with
  | pure | fail | peek | nextIs | skip => exact fun _ _ => .of_silent rfl
  | noteHere c => exact fun _ hts => .here hall hts c
  | acceptAny marks => exact fun ts _ => .acceptAny marks ts
  | @bind _ _ r f _ _ ih ihf =>
    exact fun ts hts => .bind hall hts (ih ts hts) fun a => ihf a _ ((r.suffix ts).trans hts)
  | iterate _ s ih => exact .iterate hall ih s
  | recovering h ih => exact fun ts hts => .recovering hall hts (ih ts hts) h.failsAhead
  | assignment _ _ ihTarget ihValue =>
    exact fun ts hts => .assignment hall hts (ihTarget ts hts) ihValue

end Rules

/-! ### Programs -/

namespace Error

/-- An error on the line of another or before it. -/
def NotBehind (a b : Error) : Prop := ∃ x y, a.line? = some x ∧ b.line? = some y ∧ x ≤ y

/-- The error of assigning to what is no name. -/
def IsTarget (e : Error) : Prop := ∃ site line, e = .parse site .invalidTarget line

end Error

theorem Note.line?_toError (last : Nat) (n : Note) :
    (n.toError last).line? = some (n.line last) := by
  obtain ⟨site, c⟩ := n
  cases site <;> rfl

theorem Note.isTarget_toError {last : Nat} {n : Note} (h : n.complaint = .invalidTarget) :
    (n.toError last).IsTarget := by
  obtain ⟨site, c⟩ := n
  cases h
  cases site <;> exact ⟨_, _, rfl⟩

namespace Program

variable {tokens : List Token}

theorem endLine_singleton (t : Token) : endLine [t] = t.line := by
  unfold endLine
  cases h : t.is .eof <;> simp [List.find?, h]

theorem line_le_endLine (h : tokens.Pairwise fun t u => t.line ≤ u.line) {t : Token}
    (ht : t ∈ body tokens) : t.line ≤ endLine tokens := by
  rcases text_or_split tokens with htext | ⟨front, last, more, rfl, hfront, hlast⟩
  · rw [body_of_text htext] at ht
    obtain ⟨front, last, rfl⟩ : ∃ front last, tokens = front ++ [last] :=
      ⟨_, _, (List.dropLast_append_getLast (List.ne_nil_of_mem ht)).symm⟩
    rw [endLine_append_of_text (fun t ht => htext t (List.mem_append_left _ ht)) (by simp),
      endLine_singleton]
    rcases List.mem_append.1 ht with ht | ht
    · exact (List.pairwise_append.1 h).2.2 t ht last List.mem_cons_self
    · exact Nat.le_of_eq (congrArg Token.line (List.mem_singleton.1 ht))
  · rw [body_of_split hfront hlast] at ht
    rw [endLine_of_split hfront hlast]
    exact (List.pairwise_append.1 h).2.2 t ht last List.mem_cons_self

theorem ascending_body (h : tokens.Pairwise fun t u => t.line ≤ u.line) :
    Ascending (endLine tokens) (body tokens) where
  pairwise := h.sublist (List.takeWhile_sublist _)
  bounded _ := line_le_endLine h

theorem inOrder_read {last : Nat} {ts : List Token} (h : Ascending last ts) :
    InOrder last ts (read ts).2 (rule.run ts).rest :=
  ((Grammar.composed_ofDepth maxNesting).declarations fun _ => true).orderedOn h ts List.suffix_rfl

/-- On lines that never decrease, errors come in the order of their lines, those about targets right
behind what is wrong inside the assigned values. -/
theorem arranged_errors (h : tokens.Pairwise fun t u => t.line ≤ u.line) :
    Arranged Error.NotBehind Error.IsTarget (ofTokens tokens).errors := by
  have horder := (inOrder_read (ascending_body h)).arranged
  rw [ofTokens_eq]
  refine Arranged.map horder (fun a b hab => ?_) fun n => Note.isTarget_toError
  exact ⟨_, _, a.line?_toError _, b.line?_toError _, hab⟩

/-- The errors of tokens are those of the numbered tokens, with the lines of the tokens for their
numbers. -/
theorem errors_eq_map_numbered (tokens : List Token) : (ofTokens tokens).errors =
    (ofTokens (numbered tokens)).errors.map
      (Error.renumber fun i => (tokens[i]?.map Token.line).getD 0) := by
  by_cases htokens : tokens = []
  · subst htokens
    rw [show numbered [] = [] from rfl, ofTokens_nil]
    rfl
  · have hsame : List.Forall₂ Token.SameButLine tokens tokens :=
      List.forall₂_same.2 fun _ _ => ⟨rfl, rfl⟩
    have hback := numbered_renumber (f := fun i => (tokens[i]?.map Token.line).getD 0) hsame
      fun i t ht => by rw [ht]; rfl
    have hrenumber := ofTokens_renumber (fun i => (tokens[i]?.map Token.line).getD 0)
      (numbered_ne_nil htokens)
    rw [hback] at hrenumber
    rw [hrenumber]
    rfl

theorem pairwise_line_numbered (tokens : List Token) :
    (numbered tokens).Pairwise fun t u => t.line ≤ u.line := by
  refine List.pairwise_iff_getElem.2 fun i j hi hj hij => ?_
  simp only [numbered, List.getElem_mapIdx]
  exact Nat.le_of_lt hij

/-- The number of an error is the place of its token. -/
theorem exists_getElem?_of_mem_errors {lexeme : String} {c : Complaint} {i : Nat}
    (he : .parse (some lexeme) c i ∈ (ofTokens (numbered tokens)).errors) :
    ∃ t, tokens[i]? = some t ∧ t.lexeme = lexeme := by
  have hahead := (inOrder_read (ascending_body (pairwise_line_numbered tokens))).ahead
  rw [ofTokens_eq] at he
  obtain ⟨⟨site, c'⟩, hn, heq⟩ := List.mem_map.1 he
  cases site with
  | none => cases heq
  | some t =>
    cases heq
    have ht : t ∈ numbered tokens := (List.takeWhile_sublist _).subset (hahead _ hn t rfl)
    obtain ⟨i, hi, rfl⟩ := List.mem_iff_getElem.1 ht
    simp only [numbered, List.length_mapIdx] at hi
    simp only [numbered, List.getElem_mapIdx]
    exact ⟨tokens[i], List.getElem?_eq_getElem hi, rfl⟩

end Program

open Program

/-- **Errors come in the order of their tokens, except for targets.** Number the tokens of a program
from the first: its errors are those of the numbered tokens, and the number of an error is the place
of its token. Each error comes after those at earlier places. The only errors at later places that
may come before it stand right before it, and only if it is about the target of an assignment, whose
value is behind it. If the tokens are those of a script, the same holds of the lines. -/
theorem errors_in_order_but_targets (tokens : List Token) :
    (ofTokens tokens).errors = (ofTokens (numbered tokens)).errors.map
      (Error.renumber fun i => (tokens[i]?.map Token.line).getD 0) ∧
    (∀ lexeme c i, .parse (some lexeme) c i ∈ (ofTokens (numbered tokens)).errors →
      ∃ t, tokens[i]? = some t ∧ t.lexeme = lexeme) ∧
    (∀ c i, .parse none c i ∈ (ofTokens (numbered tokens)).errors →
      i = endLine (numbered tokens)) ∧
    Arranged Error.NotBehind Error.IsTarget (ofTokens (numbered tokens)).errors ∧
    ∀ source, scan source = .ok tokens →
      Arranged Error.NotBehind Error.IsTarget (ofTokens tokens).errors := by
  refine ⟨errors_eq_map_numbered tokens, fun _ _ _ => exists_getElem?_of_mem_errors,
    fun c i he => ?_, arranged_errors (pairwise_line_numbered tokens),
    fun source hscan => arranged_errors (pairwise_line_of_scan hscan)⟩
  rw [ofTokens_eq] at he
  obtain ⟨⟨site, c'⟩, -, heq⟩ := List.mem_map.1 he
  cases site with
  | none =>
    cases heq
    rfl
  | some t => cases heq

/-- An assignment inside an assignment, and a declaration behind them. -/
theorem errors_in_order_but_targets_nested : ∃ tokens, scan "1 =\n(2 = 3);\nvar;" = .ok tokens ∧
    (ofTokens tokens).errors = [.parse (some "=") .invalidTarget 2,
      .parse (some "=") .invalidTarget 1, .parse (some ";") (.expected .variableName) 3] ∧
    Arranged Error.NotBehind Error.IsTarget (ofTokens tokens).errors := by
  have hany : (scan "1 =\n(2 = 3);\nvar;").toOption.any (fun tokens =>
      (ofTokens tokens).errors = [.parse (some "=") .invalidTarget 2,
        .parse (some "=") .invalidTarget 1, .parse (some ";") (.expected .variableName) 3]) =
      true := by
    decide +kernel
  cases hscan : scan "1 =\n(2 = 3);\nvar;" with
  | error e =>
    rw [hscan] at hany
    cases hany
  | ok tokens =>
    rw [hscan] at hany
    have herrors := of_decide_eq_true hany
    obtain ⟨-, -, -, -, hlines⟩ := errors_in_order_but_targets tokens
    exact ⟨tokens, rfl, herrors, hlines _ hscan⟩

/-- The target on the first line is complained about after the one on the second. -/
theorem target_behind_value : ∃ tokens, scan "1 =\n(2 = 3);" = .ok tokens ∧
    (ofTokens tokens).errors = [.parse (some "=") .invalidTarget 2,
      .parse (some "=") .invalidTarget 1] ∧
    ¬ (ofTokens tokens).errors.Pairwise Error.NotBehind := by
  have hany : (scan "1 =\n(2 = 3);").toOption.any (fun tokens =>
      (ofTokens tokens).errors = [.parse (some "=") .invalidTarget 2,
        .parse (some "=") .invalidTarget 1]) = true := by
    decide +kernel
  cases hscan : scan "1 =\n(2 = 3);" with
  | error e =>
    rw [hscan] at hany
    cases hany
  | ok tokens =>
    rw [hscan] at hany
    have herrors := of_decide_eq_true hany
    refine ⟨tokens, rfl, herrors, fun hordered => ?_⟩
    rw [herrors] at hordered
    obtain ⟨x, y, hx, hy, hle⟩ := (List.pairwise_cons.1 hordered).1 _ List.mem_cons_self
    cases hx
    cases hy
    omega

end Scriptlet

import Scriptlet.Proofs.Grammar.Completeness
import Scriptlet.Proofs.Grammar.Composed

/-!
# Programs, declaration by declaration

A program is read one declaration at a time. Each takes at least one token, also one that fails at
once, and nothing but the tokens left decides how reading goes on: `Program.read_of_ne_nil`.
-/

namespace Scriptlet

open Rule

/-! ### Every declaration takes a token -/

namespace Rule.Ensures

variable {α : Type} {r : Rule α} {ts : List Token}

theorem any (r : Rule α) (ts : List Token) : r.Ensures ts fun _ _ _ _ => True := by
  intro a _
  obtain ⟨front, hfront⟩ := r.suffix ts
  exact ⟨front, hfront.symm, trivial⟩

theorem of_length_lt (h : (r.run ts).rest.length < ts.length) :
    r.Ensures ts fun front _ _ _ => front ≠ [] := by
  intro a _
  obtain ⟨front, hfront⟩ := r.suffix ts
  refine ⟨front, hfront.symm, ?_⟩
  rintro rfl
  rw [List.nil_append] at hfront
  exact absurd h (by rw [hfront]; exact Nat.lt_irrefl _)

end Rule.Ensures

namespace Grammar

theorem expressionStatement_takes (deeper : Grammar) (ts : List Token) :
    deeper.expressionStatement.Ensures ts fun front _ _ _ => front ≠ [] := by
  refine .bind ((Ensures.any _ ts).imp fun front rest clean e _ => .bind (.expect ?_))
  intro t rest ht
  refine .pure ?_
  simp

theorem plainStatement_takes (deeper : Grammar) (ts : List Token) :
    deeper.plainStatement.Ensures ts fun front _ _ _ => front ≠ [] := by
  refine .bind (.acceptAny (fun t rest _ _ _ _ => ?_) fun _ => ?_)
  · refine (Ensures.any _ rest).imp fun front _ _ _ _ => ?_
    simp
  · exact expressionStatement_takes deeper ts

theorem statement_takes (n : Nat) (ts : List Token) :
    (ofDepth n).statement.Ensures ts fun front _ _ _ => front ≠ [] := by
  cases n with
  | zero => exact .fail
  | succ n => exact plainStatement_takes (ofDepth n) ts

theorem anyDeclaration_takes (n : Nat) (ts : List Token) :
    (ofDepth n).anyDeclaration.Ensures ts fun front _ _ _ => front ≠ [] := by
  refine .bind (.acceptAny (fun t rest _ _ _ _ => ?_) fun _ => ?_)
  · refine (Ensures.any _ rest).imp fun front _ _ _ _ => ?_
    simp
  · exact statement_takes n ts

theorem recovering_takes {r : Rule Stmt} {ts : List Token} (hts : ts ≠ [])
    (hr : r.Ensures ts fun front _ _ _ => front ≠ []) :
    ((recovering r).run ts).rest.length < ts.length := by
  have hsuffix := r.suffix ts
  unfold Ensures at hr
  unfold recovering
  dsimp only
  generalize r.run ts = step at hr hsuffix
  obtain ⟨e | s, rest, notes, moved⟩ := step
  · -- behind a failure at least the offending token is dropped, unless all are read
    dsimp only at hsuffix ⊢
    cases rest with
    | nil => exact List.length_pos_iff.2 hts
    | cons t rest =>
      exact Nat.lt_of_lt_of_le (resume_length_lt (List.cons_ne_nil t rest)) hsuffix.length_le
  · obtain ⟨front, hfront, hne⟩ := hr s rfl
    dsimp only at hfront ⊢
    have := List.length_pos_iff.2 hne
    rw [hfront, List.length_append]
    omega

/-- **A declaration takes a token,** whether it can be read or not. -/
theorem declaration_takes (n : Nat) {ts : List Token} (hts : ts ≠ []) :
    ((ofDepth n).declaration.run ts).rest.length < ts.length := by
  cases n with
  | zero => exact recovering_takes hts .fail
  | succ n => exact recovering_takes hts (anyDeclaration_takes n ts)

end Grammar

/-! ### Programs -/

namespace Program

section Text

variable {xs : List Token} (hxs : ∀ t ∈ xs, t.kind ≠ .mark .eof) (ts : List Token)

include hxs

theorem body_append_of_text : body (xs ++ ts) = xs ++ body ts := by
  unfold body
  refine List.takeWhile_append_of_pos fun t ht => ?_
  simpa [Token.is, ← Kind.isMark_eq_true_iff] using hxs t ht

omit ts in
theorem body_of_text : body xs = xs := by
  have hbody := body_append_of_text hxs []
  rwa [List.append_nil, show body [] = [] from rfl, List.append_nil] at hbody

theorem endLine_append_of_text {ts : List Token} (hts : ts ≠ []) :
    endLine (xs ++ ts) = endLine ts := by
  have hfind : xs.find? (fun t => t.is .eof) = none :=
    List.find?_eq_none.2 fun t ht heof => hxs t ht (Token.is_eq_true_iff.1 heof)
  have hlast : (xs ++ ts).getLast? = ts.getLast? := by
    rw [List.getLast?_append, List.getLast?_eq_some_getLast hts]
    rfl
  simp only [endLine, List.find?_append, hfind, Option.none_or, hlast]

end Text

/-- The statements read from tokens, and the complaints. -/
def read (ts : List Token) : List Stmt × List Note :=
  ((rule.run ts).result.toOption.getD [], (rule.run ts).notes)

theorem ofTokens_eq (tokens : List Token) : ofTokens tokens =
    ⟨(read (body tokens)).1, (read (body tokens)).2.map (·.toError (endLine tokens))⟩ := rfl

/-- One more declaration in front of those collected in reverse. -/
def round (stmts : List Stmt) : Rule (List Stmt × Bool) :=
  grammar.declarationRound (fun _ => true) stmts

theorem read_eq_of_iterateRun {ts rest : List Token} {stmts : List Stmt} {notes : List Note}
    {moved : Bool} (h : iterateRun round [] ts = ⟨.ok stmts, rest, notes, moved⟩) :
    read ts = (stmts.reverse, notes) := by
  have hrule : rule = iterate round [] >>= fun stmts => Pure.pure stmts.reverse := rfl
  unfold read
  rw [hrule, run_bind, run_iterate, h]
  simp [Step.after, Pure.pure, Rule.pure, Except.toOption]

section Round

variable {ts rest : List Token} {o : Option Stmt} {notes : List Note} {moved : Bool}

theorem length_rest_lt (hts : ts ≠ [])
    (h : grammar.declaration.run ts = ⟨.ok o, rest, notes, moved⟩) : rest.length < ts.length := by
  have htakes := Grammar.declaration_takes maxNesting hts
  change (grammar.declaration.run ts).rest.length < ts.length at htakes
  rwa [h] at htakes

theorem round_run (hts : ts ≠ []) (h : grammar.declaration.run ts = ⟨.ok o, rest, notes, moved⟩)
    (stmts : List Stmt) :
    (round stmts).run ts = ⟨.ok (o.toList ++ stmts, true), rest, notes, true⟩ := by
  have hmoved : moved = true := by
    have hm := grammar.declaration.moved_iff ts
    rw [h] at hm
    exact hm.2 (length_rest_lt hts h)
  subst hmoved
  cases ts with
  | nil => exact absurd rfl hts
  | cons t ts =>
    unfold round Grammar.declarationRound
    rw [run_bind]
    change Step.after [] false ((grammar.declaration >>= _).run (t :: ts)) = _
    rw [run_bind, h]
    cases o with
    | none => simp [Step.after, Pure.pure, Rule.pure]
    | some s => simp [Step.after, Pure.pure, Rule.pure]

theorem iterateRun_round (hts : ts ≠ [])
    (h : grammar.declaration.run ts = ⟨.ok o, rest, notes, moved⟩) (stmts : List Stmt) :
    iterateRun round stmts ts = (iterateRun round (o.toList ++ stmts) rest).after notes true :=
  iterateRun_of_more (round_run hts h stmts) ⟨rfl, rfl⟩

end Round

theorem iterateRun_round_nil (stmts : List Stmt) :
    iterateRun round stmts [] = ⟨.ok stmts, [], [], false⟩ := by
  have hrun : (round stmts).run [] = ⟨.ok (stmts, false), [], [], false⟩ := rfl
  exact iterateRun_of_last hrun (by simp)

/-- A declaration never fails. -/
theorem exists_declaration_run (ts : List Token) : ∃ o rest notes moved,
    grammar.declaration.run ts = ⟨.ok o, rest, notes, moved⟩ := by
  obtain ⟨o, ho⟩ := Grammar.ofDepth_declaration_succeeds maxNesting ts
  change (grammar.declaration.run ts).result = .ok o at ho
  generalize grammar.declaration.run ts = step at ho ⊢
  obtain ⟨result, rest, notes, moved⟩ := step
  cases ho
  exact ⟨o, rest, notes, moved, rfl⟩

/-- What was collected before stays behind what is collected. -/
theorem iterateRun_round_append (stmts : List Stmt) (ts : List Token) :
    ∃ read rest notes moved, iterateRun round [] ts = ⟨.ok read, rest, notes, moved⟩ ∧
      iterateRun round stmts ts = ⟨.ok (read ++ stmts), rest, notes, moved⟩ := by
  by_cases hts : ts = []
  · subst hts
    exact ⟨[], [], [], false, iterateRun_round_nil [], iterateRun_round_nil stmts⟩
  · obtain ⟨o, rest, notes, moved, h⟩ := exists_declaration_run ts
    have : rest.length < ts.length := length_rest_lt hts h
    obtain ⟨read, rest', notes', moved', hnil, happend⟩ :=
      iterateRun_round_append (o.toList ++ stmts) rest
    obtain ⟨read', _, _, _, hnil', happend'⟩ := iterateRun_round_append o.toList rest
    cases hnil.symm.trans hnil'
    refine ⟨read ++ o.toList, rest', notes ++ notes', true, ?_, ?_⟩
    · rw [iterateRun_round hts h, List.append_nil, happend']
      rfl
    · rw [iterateRun_round hts h, happend, List.append_assoc]
      rfl
termination_by ts.length

@[simp] theorem read_nil : read [] = ([], []) := read_eq_of_iterateRun (iterateRun_round_nil [])

theorem ofTokens_nil : ofTokens [] = ⟨[], []⟩ := by
  rw [ofTokens_eq, show body [] = [] from rfl, read_nil]
  rfl

theorem reverse_toList (o : Option Stmt) : o.toList.reverse = o.toList := by
  cases o <;> rfl

/-- **Reading goes on behind a declaration** as it would start there. -/
theorem read_of_ne_nil {ts rest : List Token} {o : Option Stmt} {notes : List Note} {moved : Bool}
    (hts : ts ≠ []) (h : grammar.declaration.run ts = ⟨.ok o, rest, notes, moved⟩) :
    read ts = (o.toList ++ (read rest).1, notes ++ (read rest).2) := by
  obtain ⟨stmts, rest', notes', moved', hnil, happend⟩ := iterateRun_round_append o.toList rest
  have hloop : iterateRun round [] ts =
      ⟨.ok (stmts ++ o.toList), rest', notes ++ notes', true⟩ := by
    rw [iterateRun_round hts h, List.append_nil, happend]
    rfl
  rw [read_eq_of_iterateRun hloop, read_eq_of_iterateRun hnil, List.reverse_append, reverse_toList]

end Program

end Scriptlet

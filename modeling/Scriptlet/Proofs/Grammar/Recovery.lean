import Scriptlet.Proofs.Grammar.Declarations
import Scriptlet.Proofs.Grammar.Joining

/-!
# Recovery

A malformed statement takes nothing with it. If it ends in its only semicolon and no other statement
seems to start inside, then reading goes on right behind the semicolon, wherever in the statement
the complaint was, and what stands before and behind is read as if it stood alone.
-/

namespace Scriptlet

open Rule

/-! ### Where reading goes on -/

namespace Grammar

theorem settle_cons {t u : Token} {us : List Token} (ht : t.kind ≠ .mark .semicolon)
    (hu : ∀ m ∈ statementMarks, u.kind ≠ .mark m) : settle t (u :: us) = resume (u :: us) := by
  have hgo : ¬ (t.is .semicolon || statementMarks.any fun m => u.is m) = true := by
    rw [Bool.or_eq_true, Token.is_eq_true_iff, List.any_eq_true]
    rintro (h | ⟨m, hm, h⟩)
    · exact ht h
    · exact hu m hm (Token.is_eq_true_iff.1 h)
  rw [settle, if_neg hgo]
  rfl

/-- Where no statement seems to start, reading goes on behind the first semicolon. -/
theorem resume_eq {front behind : List Token} {semicolon : Token}
    (hsemicolon : semicolon.kind = .mark .semicolon)
    (hfront : ∀ t ∈ front, t.kind ≠ .mark .semicolon)
    (hstart : ∀ t ∈ (front ++ [semicolon]).tail, ∀ m ∈ statementMarks, t.kind ≠ .mark m) :
    resume (front ++ [semicolon] ++ behind) = behind := by
  induction front with
  | nil =>
    cases behind with
    | nil => rfl
    | cons t ts => simp [resume, settle, hsemicolon]
  | cons t front ih =>
    obtain ⟨ht, hfront⟩ := List.forall_mem_cons.1 hfront
    have htail : ∀ u ∈ front ++ [semicolon], ∀ m ∈ statementMarks, u.kind ≠ .mark m := hstart
    obtain ⟨u, us, hus⟩ := List.exists_cons_of_ne_nil (List.concat_ne_nil semicolon front)
    have hrest := ih hfront fun v hv => htail v (List.mem_of_mem_tail hv)
    rw [hus] at htail hrest
    calc resume (t :: front ++ [semicolon] ++ behind)
        = settle t (front ++ [semicolon] ++ behind) := rfl
      _ = settle t (u :: (us ++ behind)) := by rw [hus]; rfl
      _ = resume (u :: us ++ behind) := settle_cons ht (htail u List.mem_cons_self)
      _ = behind := hrest

end Grammar

namespace Program

/-! ### Malformed statements -/

/-- A statement that cannot be read and ends in its only semicolon. No other statement seems to
start inside it, and there is no complaint at its end. -/
structure Malformed (ts : List Token) : Prop where
  text : ∀ t ∈ ts, t.kind ≠ .mark .eof
  closed : ∃ front semicolon, ts = front ++ [semicolon] ∧ semicolon.kind = .mark .semicolon ∧
    ∀ t ∈ front, t.kind ≠ .mark .semicolon
  noStart : ∀ t ∈ ts.tail, ∀ m ∈ Grammar.statementMarks, t.kind ≠ .mark m
  noElse : NotNext [.kwElse] ts
  unread : (ofTokens ts).statements = []
  inside : ∀ e ∈ (ofTokens ts).errors, ∃ t ∈ ts, ∃ complaint,
    e = .parse (some t.lexeme) complaint t.line

/-- The rules one level inside a program. -/
def inner : Grammar := .ofDepth (maxNesting - 1)

theorem grammar_declaration : grammar.declaration = Grammar.recovering inner.anyDeclaration := rfl

theorem inner_composed : inner.Composed := Grammar.composed_ofDepth _

namespace Malformed

variable {ts : List Token}

theorem ne_nil (h : Malformed ts) : ts ≠ [] := by
  obtain ⟨front, semicolon, rfl, -⟩ := h.closed
  simp

/-- Behind a complaint inside the statement, reading goes on behind its semicolon. -/
theorem resume (h : Malformed ts) {rest : List Token} (hrest : rest <:+ ts) (hne : rest ≠ [])
    (behind : List Token) : Grammar.resume (rest ++ behind) = behind := by
  obtain ⟨front, semicolon, rfl, hsemicolon, hfront⟩ := h.closed
  obtain ⟨front', last, rfl⟩ : ∃ front' last, rest = front' ++ [last] :=
    ⟨_, _, (List.dropLast_append_getLast hne).symm⟩
  obtain ⟨dropped, hdropped⟩ := hrest
  rw [← List.append_assoc] at hdropped
  obtain ⟨rfl, hlast⟩ := List.append_inj' hdropped rfl
  cases hlast
  refine Grammar.resume_eq hsemicolon (fun t ht => hfront t (List.mem_append_right _ ht)) ?_
  intro t ht
  refine h.noStart t ?_
  rw [List.append_assoc]
  cases dropped with
  | nil => exact ht
  | cons d dropped =>
    exact List.mem_append_right dropped (List.mem_of_mem_tail ht)

/-- A complaint at a token of the statement does not depend on the line of the end. -/
theorem site_ne_none (h : Malformed ts) {n : Note} (hn : n ∈ (read ts).2) : n.site ≠ none := by
  intro hsite
  have he : n.toError (endLine ts) ∈ (ofTokens ts).errors := by
    rw [ofTokens_eq, body_of_text h.text]
    exact List.mem_map_of_mem hn
  obtain ⟨t, -, complaint, heq⟩ := h.inside _ he
  obtain ⟨site, c⟩ := n
  cases hsite
  cases heq

/-- The one declaration that is tried fails at a token of the statement. -/
theorem exists_failure (h : Malformed ts) : ∃ e rest notes moved,
    inner.anyDeclaration.run ts = ⟨.error e, rest, notes, moved⟩ ∧ rest ≠ [] := by
  have hunread : (read ts).1 = [] := by
    have := h.unread
    rwa [ofTokens_eq, body_of_text h.text] at this
  have hfails := inner_composed.anyDeclaration.failsAhead ts
  have hrun := congrArg (·.run ts) grammar_declaration
  unfold Grammar.recovering at hrun
  dsimp only at hrun
  generalize hstep : inner.anyDeclaration.run ts = step at hfails hrun
  obtain ⟨e | s, rest, notes, moved⟩ := step
  · refine ⟨e, rest, notes, moved, rfl, ?_⟩
    have he : e ∈ (read ts).2 := by
      rw [read_of_ne_nil h.ne_nil hrun]
      simp
    have hsite := h.site_ne_none he
    rw [hfails e rfl] at hsite
    rintro rfl
    exact hsite rfl
  · rw [read_of_ne_nil h.ne_nil hrun] at hunread
    cases hunread

/-- **Reading goes on right behind a malformed statement.** -/
theorem read_append (h : Malformed ts) (behind : List Token) :
    read (ts ++ behind) = ((read behind).1, (read ts).2 ++ (read behind).2) := by
  obtain ⟨e, rest, notes, moved, hrun, hne⟩ := h.exists_failure
  have hsuffix : rest <:+ ts := by
    have hs := inner.anyDeclaration.suffix ts
    rwa [hrun] at hs
  -- the complaint is the same, whatever stands behind the statement
  have hdeclaration (more : List Token) : ∃ moved', grammar.declaration.run (ts ++ more) =
      ⟨.ok none, more, notes ++ [e], moved'⟩ := by
    have hlocal := inner_composed.anyDeclaration.isLocal ts more
      (by rw [hrun]; exact hne)
    rw [hrun] at hlocal
    refine ⟨moved || !(rest ++ more).isEmpty, ?_⟩
    rw [grammar_declaration]
    unfold Grammar.recovering
    dsimp only
    rw [hlocal]
    simp only [Step.inFrontOf, h.resume hsuffix hne more]
  have hread (more : List Token) :
      read (ts ++ more) = ((read more).1, notes ++ [e] ++ (read more).2) := by
    obtain ⟨moved', hmore⟩ := hdeclaration more
    exact read_of_ne_nil (by simp [h.ne_nil]) hmore
  have halone : read ts = ([], notes ++ [e]) := by
    have hnil := hread []
    rwa [List.append_nil, read_nil, List.append_nil] at hnil
  rw [hread, halone]

end Malformed

/-! ### What stands before -/

/-- Derivable statements are read off the front, if no `else` follows. -/
theorem read_of_spells {stmts : List Stmt} {ts rest : List Token}
    (hstmts : ∀ s ∈ stmts, s.Derives .declaration ∧ s.FitsDeclared maxNesting)
    (hts : List.Forall₂ Symbol.Spells (stmts.flatMap Stmt.yield) ts)
    (helse : NotNext [.kwElse] rest) :
    read (ts ++ rest) = (stmts ++ (read rest).1, (read rest).2) := by
  induction stmts generalizing ts with
  | nil =>
    cases hts
    rfl
  | cons s stmts ih =>
    rw [List.flatMap_cons] at hts
    obtain ⟨us, vs, hus, hvs, rfl⟩ := split_spelling hts
    obtain ⟨⟨hs, hfits⟩, hstmts⟩ := List.forall_mem_cons.1 hstmts
    -- what follows a declaration is a declaration or the rest
    have hnext : NotNext [.kwElse] (vs ++ rest) := by
      cases stmts with
      | nil =>
        cases hvs
        exact helse
      | cons d stmts =>
        rw [List.flatMap_cons] at hvs
        obtain ⟨ws, xs, hws, -, rfl⟩ := split_spelling hvs
        have hd := (hstmts d List.mem_cons_self).1
        exact (((hd.starts hws).append xs).append rest).notNext (by decide)
    obtain ⟨moved, hread⟩ : grammar.declaration.Reads (us ++ (vs ++ rest)) (some s) (vs ++ rest) :=
      (Grammar.complete_ofDepth maxNesting).declaration hs hfits hus fun _ => hnext
    obtain ⟨t, us, rfl, -⟩ := hs.starts hus
    rw [List.append_assoc, read_of_ne_nil (by simp) hread, ih hstmts hvs]
    simp

theorem toError_of_site {n : Note} (hn : n.site ≠ none) (line line' : Nat) :
    n.toError line = n.toError line' := by
  obtain ⟨site, complaint⟩ := n
  cases site with
  | none => exact absurd rfl hn
  | some t => rfl

theorem map_toError_append {xs ts : List Token} (hxs : ∀ t ∈ xs, t.kind ≠ .mark .eof) :
    (read (body ts)).2.map (·.toError (endLine (xs ++ ts))) = (ofTokens ts).errors := by
  by_cases hts : ts = []
  · subst hts
    rw [ofTokens_nil, show body [] = [] from rfl, read_nil]
    rfl
  · rw [endLine_append_of_text hxs hts]
    rfl

end Program

open Program

/-- **Recovery isolates a malformed statement.** Behind tokens that are read without an error and in
front of any others, a malformed statement that ends in its only semicolon yields its own errors and
nothing else: the statements before and behind, and the errors behind, are those of each part read
alone. Without a malformed statement between them, two parts are read one after the other unless the
second starts with an `else`. -/
theorem malformed_isolated {before malformed behind : List Token}
    (htext : ∀ t ∈ before, t.kind ≠ .mark .eof) (hclean : (ofTokens before).errors = [])
    (hmalformed : malformed = [] ∧ NotNext [.kwElse] behind ∨ Malformed malformed) :
    ofTokens (before ++ malformed ++ behind) =
      ⟨(ofTokens before).statements ++ (ofTokens behind).statements,
        (ofTokens malformed).errors ++ (ofTokens behind).errors⟩ := by
  obtain ⟨hspells, hstmts⟩ := spells_of_clean hclean
  rw [body_of_text htext] at hspells
  rcases hmalformed with ⟨rfl, helse⟩ | hmalformed
  · have hbody : NotNext [.kwElse] (body behind) := by
      intro t ht
      refine helse t ?_
      cases behind with
      | nil => exact ht
      | cons u us =>
        unfold body at ht
        rw [List.takeWhile_cons] at ht
        split at ht
        · exact ht
        · cases ht
    rw [List.append_nil, ofTokens_eq, body_append_of_text htext,
      read_of_spells hstmts hspells hbody, map_toError_append htext, ofTokens_nil]
    rfl
  · have hmiddle : ∀ t ∈ before ++ malformed, t.kind ≠ .mark .eof :=
      List.forall_mem_append.2 ⟨htext, hmalformed.text⟩
    have helse : NotNext [.kwElse] (malformed ++ body behind) := by
      obtain ⟨t, ts, hts⟩ := List.exists_cons_of_ne_nil hmalformed.ne_nil
      have h := hmalformed.noElse
      rw [hts] at h ⊢
      exact h
    have hown : (read malformed).2.map (·.toError (endLine (before ++ malformed ++ behind))) =
        (ofTokens malformed).errors := by
      rw [ofTokens_eq, body_of_text hmalformed.text]
      exact List.map_congr_left fun n hn => toError_of_site (hmalformed.site_ne_none hn) _ _
    rw [ofTokens_eq, body_append_of_text hmiddle, List.append_assoc,
      read_of_spells hstmts hspells helse, hmalformed.read_append]
    simp only [List.map_append, hown, map_toError_append hmiddle]
    rfl

/-- Between two print statements, `var = 1;` yields its one error. -/
theorem malformed_isolated_variable :
    Malformed [⟨.mark .kwVar, "var", 2⟩, ⟨.mark .equal, "=", 2⟩, ⟨.number 1, "1", 2⟩,
      ⟨.mark .semicolon, ";", 2⟩] ∧
    ofTokens ([⟨.mark .kwPrint, "print", 1⟩, ⟨.mark .identifier, "a", 1⟩,
        ⟨.mark .semicolon, ";", 1⟩] ++ [⟨.mark .kwVar, "var", 2⟩, ⟨.mark .equal, "=", 2⟩,
          ⟨.number 1, "1", 2⟩, ⟨.mark .semicolon, ";", 2⟩] ++
        [⟨.mark .kwPrint, "print", 3⟩, ⟨.mark .eof, "", 3⟩]) =
      ⟨(ofTokens [⟨.mark .kwPrint, "print", 1⟩, ⟨.mark .identifier, "a", 1⟩,
          ⟨.mark .semicolon, ";", 1⟩]).statements ++
          (ofTokens [⟨.mark .kwPrint, "print", 3⟩, ⟨.mark .eof, "", 3⟩]).statements,
        (ofTokens [⟨.mark .kwVar, "var", 2⟩, ⟨.mark .equal, "=", 2⟩, ⟨.number 1, "1", 2⟩,
          ⟨.mark .semicolon, ";", 2⟩]).errors ++
          (ofTokens [⟨.mark .kwPrint, "print", 3⟩, ⟨.mark .eof, "", 3⟩]).errors⟩ := by
  have herrors : (ofTokens [⟨.mark .kwVar, "var", 2⟩, ⟨.mark .equal, "=", 2⟩, ⟨.number 1, "1", 2⟩,
      ⟨.mark .semicolon, ";", 2⟩]).errors = [.parse (some "=") (.expected .variableName) 2] := by
    decide +kernel
  have hmalformed : Malformed [⟨.mark .kwVar, "var", 2⟩, ⟨.mark .equal, "=", 2⟩,
      ⟨.number 1, "1", 2⟩, ⟨.mark .semicolon, ";", 2⟩] := by
    refine ⟨by simp, ⟨[_, _, _], _, rfl, rfl, by simp⟩, by simp [Grammar.statementMarks],
      by simp [NotNext], List.isEmpty_iff.1 (by decide +kernel), ?_⟩
    rw [herrors]
    simp
  exact ⟨hmalformed, malformed_isolated (by simp) (by decide +kernel) (.inr hmalformed)⟩

end Scriptlet

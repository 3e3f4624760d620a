import Scriptlet.Proofs.Grammar.Completeness
import Scriptlet.Proofs.Grammar.Soundness

/-!
# Programs one after another

Two token lists that are each read without an error are read in one as the statements of the first
and then those of the second. What was read spells its tokens, so the spellings one after another
are those of a list of derivable statements.
-/

namespace Scriptlet

namespace Program

/-- What is read without an error is derivable, within the limits, and spells all the tokens. -/
theorem spells_of_clean {tokens : List Token} (hclean : (ofTokens tokens).errors = []) :
    List.Forall₂ Symbol.Spells ((ofTokens tokens).statements.flatMap Stmt.yield) (body tokens) ∧
      ∀ s ∈ (ofTokens tokens).statements, s.Derives .declaration ∧ s.FitsDeclared maxNesting := by
  obtain ⟨stmts, hstmts⟩ := Grammar.declarations_succeeds grammar
    (Grammar.ofDepth_declaration_succeeds _) (fun _ => true) (body tokens)
  obtain ⟨front, hbody, ⟨kept, hkept, -, hall⟩, hgood⟩ :=
    (Grammar.sound_ofDepth maxNesting).declarations_ensures (body tokens) _ stmts hstmts
  have hstatements : (ofTokens tokens).statements = stmts := congrArg (·.toOption.getD []) hstmts
  have hnotes := List.isEmpty_iff.2 (List.map_eq_nil_iff.1 hclean)
  obtain ⟨hderives, hrest⟩ := hgood hnotes
  rw [hstatements]
  refine ⟨?_, hderives⟩
  rw [hall hnotes] at hkept
  -- a list of declarations goes on as long as there are tokens
  cases hleft : (rule.run (body tokens)).rest with
  | nil =>
    change body tokens = front ++ (rule.run (body tokens)).rest at hbody
    rw [hbody, hleft, List.append_nil]
    exact hkept
  | cons t ts =>
    have hstop := hrest t (by
      change t ∈ (rule.run (body tokens)).rest.head?
      rw [hleft]
      rfl)
    cases hstop

/-- Derivable statements within the limits are read back from their tokens. -/
theorem ofTokens_of_spells {stmts : List Stmt} {ts : List Token}
    (hstmts : ∀ s ∈ stmts, s.Derives .declaration ∧ s.FitsDeclared maxNesting)
    (hts : List.Forall₂ Symbol.Spells (stmts.flatMap Stmt.yield) ts) {last : Token}
    (hlast : last.kind = .mark .eof) : ofTokens (ts ++ [last]) = ⟨stmts, []⟩ := by
  have hbody : body (ts ++ [last]) = ts :=
    body_append (List.forall_mem_flatMap.2 fun s hs => (hstmts s hs).1.isText) hts hlast
  obtain ⟨moved, hread⟩ : rule.Reads (ts ++ []) stmts [] :=
    (Grammar.complete_ofDepth maxNesting).declarations_reads hstmts hts (fun _ _ => rfl) (by simp)
      (by simp [Rule.NotNext])
  rw [List.append_nil] at hread
  unfold ofTokens
  rw [hbody, hread]
  rfl

/-- **One program after another.** -/
theorem ofTokens_append {ts us : List Token} (hts : (ofTokens ts).errors = [])
    (hus : (ofTokens us).errors = []) {last : Token} (hlast : last.kind = .mark .eof) :
    ofTokens (body ts ++ body us ++ [last]) =
      ⟨(ofTokens ts).statements ++ (ofTokens us).statements, []⟩ := by
  obtain ⟨hspells, hstmts⟩ := spells_of_clean hts
  obtain ⟨hspells', hstmts'⟩ := spells_of_clean hus
  refine ofTokens_of_spells (fun s hs => ?_) ?_ hlast
  · rcases List.mem_append.1 hs with hs | hs
    · exact hstmts s hs
    · exact hstmts' s hs
  · rw [List.flatMap_append]
    exact List.rel_append hspells hspells'

end Program

end Scriptlet

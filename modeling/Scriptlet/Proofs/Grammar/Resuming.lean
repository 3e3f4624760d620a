import Scriptlet.Proofs.Grammar.Recovery
import Scriptlet.Proofs.Grammar.Safety

/-!
# Where reading resumes

Behind a declaration that fails, reading resumes at the next place where a statement may start: at a
token that starts one, or behind a semicolon (`Boundary`). The offending token does not count. It is
dropped even if it starts a statement itself, as in `print 1 print 2;`, of which nothing is read;
any other token that starts a statement is kept.
-/

namespace Scriptlet

open Rule

namespace Program

variable {ts : List Token} {s e : Nat}

/-! ### Where declarations start -/

/-- The index at which reading goes on behind a declaration that starts at the given one. -/
def nextStart (ts : List Token) (s : Nat) : Nat :=
  ts.length - (grammar.declaration.run (ts.drop s)).rest.length

/-- The indices at which the declarations of a program start, and the one behind the last. -/
inductive StartsAt (ts : List Token) : Nat → Prop
  | front : StartsAt ts 0
  | next {s : Nat} : StartsAt ts s → s < ts.length → StartsAt ts (nextStart ts s)

theorem nextStart_le (ts : List Token) (s : Nat) : nextStart ts s ≤ ts.length := Nat.sub_le _ _

theorem drop_nextStart (ts : List Token) (s : Nat) :
    ts.drop (nextStart ts s) = (grammar.declaration.run (ts.drop s)).rest := by
  have hsuffix := (grammar.declaration.suffix (ts.drop s)).trans (List.drop_suffix s ts)
  exact (List.suffix_iff_eq_drop.1 hsuffix).symm

theorem drop_ne_nil (hs : s < ts.length) : ts.drop s ≠ [] := by
  rw [ne_eq, List.drop_eq_nil_iff]
  omega

/-- From the start of a declaration on, reading goes on as if it started there. -/
theorem StartsAt.read_eq (h : StartsAt ts s) : ∃ stmts notes,
    read ts = (stmts ++ (read (ts.drop s)).1, notes ++ (read (ts.drop s)).2) := by
  induction h with
  | front => exact ⟨[], [], rfl⟩
  | @next s _ hlt ih =>
    obtain ⟨stmts, notes, hread⟩ := ih
    obtain ⟨o, rest, notes', moved, hrun⟩ := exists_declaration_run (ts.drop s)
    have hrest : ts.drop (nextStart ts s) = rest := by rw [drop_nextStart, hrun]
    rw [hread, read_of_ne_nil (drop_ne_nil hlt) hrun, hrest, ← List.append_assoc,
      ← List.append_assoc]
    exact ⟨_, _, rfl⟩

/-! ### Boundaries -/

/-- A statement may start at an index: a token that starts one stands there, or a semicolon stands
right before it. -/
def Boundary (ts : List Token) (i : Nat) : Prop :=
  (∃ t ∈ ts[i]?, ∃ m ∈ Grammar.statementMarks, t.kind = .mark m) ∨
    ∃ t ∈ ts[i - 1]?, t.kind = .mark .semicolon

theorem boundary_one {previous t : Token} : Boundary (previous :: t :: ts) 1 ↔
    (previous.is .semicolon || Grammar.statementMarks.any fun m => t.is m) = true := by
  simp [Boundary, Token.is_eq_true_iff, or_comm]

theorem boundary_drop (ts : List Token) (n i : Nat) :
    Boundary (ts.drop n) (i + 1) ↔ Boundary ts (n + (i + 1)) := by
  simp only [Boundary, List.getElem?_drop, Nat.add_sub_cancel, ← Nat.add_assoc]

/-- What is settled on is the first boundary, or the end. -/
theorem settle_eq_drop (previous : Token) (ts : List Token) :
    ∃ k ≤ ts.length, Grammar.settle previous ts = ts.drop k ∧
      (k < ts.length → Boundary (previous :: ts) (k + 1)) ∧
      ∀ i < k, ¬ Boundary (previous :: ts) (i + 1) := by
  induction ts generalizing previous with
  | nil => exact ⟨0, Nat.le_refl 0, rfl, by simp, by simp⟩
  | cons t ts ih =>
    have hshift (i : Nat) : Boundary (t :: ts) (i + 1) ↔ Boundary (previous :: t :: ts) (i + 2) :=
      Iff.rfl
    rw [Grammar.settle]
    split
    · rename_i hstop
      exact ⟨0, Nat.zero_le _, rfl, fun _ => boundary_one.2 hstop, by simp⟩
    · rename_i hgo
      obtain ⟨k, hk, hsettle, hfound, hnone⟩ := ih t
      refine ⟨k + 1, Nat.succ_le_succ hk, hsettle, fun hlt => ?_, fun i hi => ?_⟩
      · exact (hshift k).1 (hfound (Nat.lt_of_succ_lt_succ hlt))
      · cases i with
        | zero => exact fun h => hgo (boundary_one.1 h)
        | succ i => exact fun h => hnone i (Nat.lt_of_succ_lt_succ hi) ((hshift i).2 h)

/-- Reading resumes at the first boundary behind the offending token, or at the end. -/
theorem resume_drop (he : e < ts.length) : ∃ r, e < r ∧ r ≤ ts.length ∧
    Grammar.resume (ts.drop e) = ts.drop r ∧ (r < ts.length → Boundary ts r) ∧
    ∀ i, e < i → i < r → ¬ Boundary ts i := by
  obtain ⟨k, hk, hsettle, hfound, hnone⟩ := settle_eq_drop ts[e] (ts.drop (e + 1))
  have hdrop : ts.drop e = ts[e] :: ts.drop (e + 1) := List.drop_eq_getElem_cons he
  rw [List.length_drop] at hk hfound
  rw [← hdrop] at hfound hnone
  refine ⟨e + (k + 1), by omega, by omega, ?_, fun hlt => ?_, fun i hei hir => ?_⟩
  · rw [hdrop, Grammar.resume, hsettle, List.drop_drop, Nat.add_right_comm, Nat.add_assoc]
  · exact (boundary_drop ts e k).1 (hfound (by omega))
  · obtain ⟨j, rfl⟩ : ∃ j, i = e + (j + 1) := ⟨i - e - 1, by omega⟩
    exact fun h => hnone j (by omega) ((boundary_drop ts e j).2 h)

/-! ### Declarations that fail -/

/-- A declaration that starts at one index fails at another with a complaint. -/
def FailsAt (ts : List Token) (s e : Nat) (n : Note) : Prop :=
  s < ts.length ∧ e ≤ ts.length ∧ ∃ notes moved,
    inner.anyDeclaration.run (ts.drop s) = ⟨.error n, ts.drop e, notes, moved⟩

variable {n : Note}

/-- A declaration that gives no statement fails at the first token that it leaves. -/
theorem exists_failsAt (hs : s < ts.length)
    (hfails : (inner.anyDeclaration.run (ts.drop s)).result.isOk = false) :
    ∃ n, FailsAt ts s (ts.length - (inner.anyDeclaration.run (ts.drop s)).rest.length) n := by
  have hsuffix := (inner.anyDeclaration.suffix (ts.drop s)).trans (List.drop_suffix s ts)
  have hdrop := List.suffix_iff_eq_drop.1 hsuffix
  generalize hrun : inner.anyDeclaration.run (ts.drop s) = step at hfails hdrop
  obtain ⟨n | stmt, rest, notes, moved⟩ := step
  · refine ⟨n, hs, Nat.sub_le _ _, notes, moved, ?_⟩
    rw [hrun, ← hdrop]
  · cases hfails

theorem FailsAt.site_eq (h : FailsAt ts s e n) : n.site = ts[e]? := by
  obtain ⟨-, -, notes, moved, hrun⟩ := h
  have hfails := inner_composed.anyDeclaration.failsAhead (ts.drop s) n (by rw [hrun])
  rw [hfails, hrun, List.head?_drop]

theorem FailsAt.declaration_run (h : FailsAt ts s e n) : ∃ notes moved,
    grammar.declaration.run (ts.drop s) =
      ⟨.ok none, Grammar.resume (ts.drop e), notes ++ [n], moved⟩ := by
  obtain ⟨-, -, notes, moved, hrun⟩ := h
  refine ⟨notes, moved || !(ts.drop e).isEmpty, ?_⟩
  rw [grammar_declaration, Grammar.run_recovering, hrun]

/-- What is not read of a declaration that fails is the offending token and what comes before the
next boundary. -/
theorem FailsAt.nextStart_spec (h : FailsAt ts s e n) :
    (e < ts.length → e < nextStart ts s) ∧
    (nextStart ts s < ts.length → Boundary ts (nextStart ts s)) ∧
    ∀ i, e < i → i < nextStart ts s → ¬ Boundary ts i := by
  obtain ⟨notes, moved, hrun⟩ := h.declaration_run
  rcases Nat.lt_or_ge e ts.length with he | he
  · obtain ⟨r, her, hr, hresume, hfound, hnone⟩ := resume_drop he
    have hnext : nextStart ts s = r := by
      rw [nextStart, hrun]
      dsimp only
      rw [hresume, List.length_drop]
      omega
    rw [hnext]
    exact ⟨fun _ => her, hfound, hnone⟩
  · have hnext : nextStart ts s = ts.length := by
      rw [nextStart, hrun, List.drop_eq_nil_iff.2 he]
      rfl
    rw [hnext]
    refine ⟨fun hlt => absurd hlt (by omega), fun hlt => absurd hlt (by omega), ?_⟩
    intro i hei hi
    omega

theorem FailsAt.mem_read (h : FailsAt ts s e n) (hs : StartsAt ts s) : n ∈ (read ts).2 := by
  obtain ⟨notes, moved, hrun⟩ := h.declaration_run
  obtain ⟨stmts, notes', hread⟩ := hs.read_eq
  rw [hread, read_of_ne_nil (drop_ne_nil h.1) hrun]
  simp

/-- A well-formed statement is read where reading goes on. -/
theorem StartsAt.mem_read (h : StartsAt ts s) {stmt : Stmt} {us rest : List Token}
    (hsplit : ts.drop s = us ++ rest) (hstmt : stmt.Derives .declaration)
    (hfits : stmt.FitsDeclared maxNesting) (hus : List.Forall₂ Symbol.Spells stmt.yield us)
    (helse : NotNext [.kwElse] rest) : stmt ∈ (read ts).1 := by
  obtain ⟨stmts, notes, hread⟩ := h.read_eq
  have hstmts : ∀ s ∈ [stmt], s.Derives .declaration ∧ s.FitsDeclared maxNesting := by
    simpa using ⟨hstmt, hfits⟩
  rw [hread, hsplit, read_of_spells hstmts (by simpa using hus) helse]
  simp

/-- Behind the last token there is nothing to read. -/
theorem ofTokens_drop_length (tokens : List Token) :
    ofTokens (tokens.drop (body tokens).length) = ⟨[], []⟩ := by
  rcases text_or_split tokens with htext | ⟨front, last, more, rfl, hfront, hlast⟩
  · rw [body_of_text htext, List.drop_length, ofTokens_nil]
  · rw [body_of_split hfront hlast, List.drop_left]
    have hnone : ∀ t ∈ ([] : List Token), t.kind ≠ .mark .eof := by simp
    have hnil := ofTokens_of_split hnone hlast more
    rw [List.nil_append] at hnil
    rw [hnil, read_nil]
    rfl

/-- From the start of a declaration on, the statements and errors are those of the tokens from
there. -/
theorem StartsAt.ofTokens_eq {tokens : List Token} (h : StartsAt (body tokens) s)
    (hs : s ≤ (body tokens).length) : ∃ stmts errors, ofTokens tokens =
      ⟨stmts ++ (ofTokens (tokens.drop s)).statements,
        errors ++ (ofTokens (tokens.drop s)).errors⟩ := by
  obtain ⟨stmts, notes, hread⟩ := h.read_eq
  rcases Nat.lt_or_eq_of_le hs with hlt | rfl
  · refine ⟨stmts, notes.map (·.toError (endLine tokens)), ?_⟩
    rw [Program.ofTokens_eq, hread, ofTokens_drop hlt, List.map_append]
  · refine ⟨(ofTokens tokens).statements, (ofTokens tokens).errors, ?_⟩
    rw [ofTokens_drop_length, List.append_nil, List.append_nil]

end Program

open Program

/-- **Recovery throws away no start of a statement but an offending one.** If a declaration of a
program fails, its complaint is about the token at which it fails, and that token is dropped,
whatever it is. Reading then resumes with another declaration at the first place behind it where a
statement may start, or at the end if there is none. From there on the program is read as if it
started there; in particular a well-formed statement that stands there is read. -/
theorem resumes_at_next_boundary {tokens : List Token} {s e : Nat} {n : Note}
    (hs : StartsAt (body tokens) s) (hfails : FailsAt (body tokens) s e n) :
    let ts := body tokens
    let r := nextStart ts s
    n.site = ts[e]? ∧ n.toError (endLine tokens) ∈ (ofTokens tokens).errors ∧
    StartsAt ts r ∧ r ≤ ts.length ∧ (e < ts.length → e < r) ∧
    (r < ts.length → Boundary ts r) ∧ (∀ i, e < i → i < r → ¬ Boundary ts i) ∧
    (∃ stmts errors, ofTokens tokens =
      ⟨stmts ++ (ofTokens (tokens.drop r)).statements,
        errors ++ (ofTokens (tokens.drop r)).errors⟩) ∧
    ∀ stmt us rest, ts.drop r = us ++ rest → stmt.Derives .declaration →
      stmt.FitsDeclared maxNesting → List.Forall₂ Symbol.Spells stmt.yield us →
      NotNext [.kwElse] rest → stmt ∈ (ofTokens tokens).statements := by
  intro ts r
  have hr : StartsAt ts r := hs.next hfails.1
  have hle : r ≤ ts.length := nextStart_le ts s
  obtain ⟨hlt, hfound, hnone⟩ := hfails.nextStart_spec
  refine ⟨hfails.site_eq, List.mem_map_of_mem (hfails.mem_read hs), hr, hle, hlt, hfound, hnone,
    hr.ofTokens_eq hle, ?_⟩
  intro stmt us rest hsplit hstmt hfits hus helse
  exact hr.mem_read hsplit hstmt hfits hus helse

/-- Of `print 1 print 2; print 3;` the last statement is read. -/
theorem resumes_at_next_boundary_behind_keyword :
    let print : Token := ⟨.mark .kwPrint, "print", 1⟩
    let semicolon : Token := ⟨.mark .semicolon, ";", 1⟩
    let tokens : List Token := [print, ⟨.number 1, "1", 1⟩, print, ⟨.number 2, "2", 1⟩, semicolon,
      print, ⟨.number 3, "3", 1⟩, semicolon, ⟨.mark .eof, "", 1⟩]
    (∃ n, FailsAt (body tokens) 0 2 n) ∧ Boundary (body tokens) 5 ∧
      (∀ i, 2 < i → i < 5 → ¬ Boundary (body tokens) i) ∧
      Stmt.print (.literal (.number 3)) ∈ (ofTokens tokens).statements := by
  intro print semicolon tokens
  have hlt : 0 < (body tokens).length := by decide
  have hindex : (body tokens).length -
      (inner.anyDeclaration.run ((body tokens).drop 0)).rest.length = 2 := by
    decide +kernel
  have hnext : nextStart (body tokens) 0 = 5 := by decide +kernel
  obtain ⟨n, hfails⟩ := exists_failsAt hlt (by decide +kernel)
  rw [hindex] at hfails
  obtain ⟨-, -, -, -, -, hfound, hnone, -, hread⟩ := resumes_at_next_boundary .front hfails
  rw [hnext] at hfound hnone hread
  refine ⟨⟨n, hfails⟩, hfound (by decide), hnone, ?_⟩
  refine hread _ [print, ⟨.number 3, "3", 1⟩, semicolon] [] rfl ?_ ?_ ?_ (by simp [NotNext])
  · exact .statement (.print (.operators (.of_primary (.literal _) .or)))
  · simp [Stmt.FitsDeclared, Stmt.entry, maxNesting]
  · simp [print, semicolon, Stmt.yield, Expr.yield, Symbol.Spells, Literal.symbol]

/-- Reading does not resume at a token that starts a statement if it is the offending one: nothing
is read of `print 1 print 2;`, though `print 2;` is well-formed. -/
theorem offending_start_dropped :
    let print : Token := ⟨.mark .kwPrint, "print", 1⟩
    let tokens : List Token := [print, ⟨.number 1, "1", 1⟩, print, ⟨.number 2, "2", 1⟩,
      ⟨.mark .semicolon, ";", 1⟩, ⟨.mark .eof, "", 1⟩]
    StartsAt (body tokens) 0 ∧ (∃ n, FailsAt (body tokens) 0 2 n) ∧
      (∃ t ∈ (body tokens)[2]?, ∃ m ∈ Grammar.statementMarks, t.kind = .mark m) ∧
      nextStart (body tokens) 0 ≠ 2 ∧ ¬ StartsAt (body tokens) 2 ∧
      (ofTokens tokens).statements = [] ∧ (ofTokens (tokens.drop 2)).statements.length = 1 ∧
      (ofTokens (tokens.drop 2)).errors = [] := by
  intro print tokens
  have hlt : 0 < (body tokens).length := by decide
  have hindex : (body tokens).length -
      (inner.anyDeclaration.run ((body tokens).drop 0)).rest.length = 2 := by
    decide +kernel
  have hnext : nextStart (body tokens) 0 = 5 := by decide +kernel
  have hstarts : ∀ i, StartsAt (body tokens) i → i = 0 ∨ i = 5 := by
    intro i hi
    induction hi with
    | front => exact .inl rfl
    | next _ hlt ih =>
      rcases ih with rfl | rfl
      · exact .inr hnext
      · exact absurd hlt (by decide)
  obtain ⟨n, hfails⟩ := exists_failsAt hlt (by decide +kernel)
  rw [hindex] at hfails
  refine ⟨.front, ⟨n, hfails⟩, ⟨print, rfl, .kwPrint, by decide, rfl⟩, by omega, fun h => ?_,
    List.isEmpty_iff.1 (by decide +kernel), by decide +kernel, by decide +kernel⟩
  rcases hstarts 2 h with h | h <;> omega

end Scriptlet

import Scriptlet.Proofs.Eval.Pieces
import Scriptlet.Proofs.Tree.Lines

/-!
# Layout

Two scripts whose tokens differ in their lines only do the same, but for the lines in their errors.
Both are one marked run, read in two ways: the tokens of the script stand on odd lines, numbered
from the first, and those of functions declared before on even lines. That no mark comes from
nowhere is seen by moving it: a run in which nothing stands on a line is the same wherever that line
is moved.
-/

namespace Scriptlet

open Line

variable {f : Nat → Nat}

theorem scan_ne_nil {source : String} {ts : List Token} (h : scan source = .ok ts) : ts ≠ [] := by
  obtain ⟨front, last, rfl, -⟩ := scan_eq_append h
  exact List.append_ne_nil_of_right_ne_nil front (List.cons_ne_nil last [])

/-! ### The lines a machine mentions -/

theorem Frame.renumber_eq_self_iff {fr : Frame} :
    fr.renumber f = fr ↔ ∀ v ∈ fr.values, AgreeOn f id v.yield := by
  obtain ⟨bindings, parent⟩ := fr
  simp only [renumber, values, Frame.mk.injEq, and_true, List.mem_map, forall_exists_index, and_imp,
    forall_apply_eq_imp_iff₂, ← Value.renumber_eq_iff, Value.renumber_id, id_eq]
  induction bindings with
  | nil => simp
  | cons b bs ih =>
    obtain ⟨x, v⟩ := b
    simp [ih]

namespace Machine

variable {setting : Setting} {m m' : Machine} {line : Nat}

/-- A function that can be reached mentions a line in its declaration. -/
def Mentions (m : Machine) (line : Nat) : Prop :=
  ∃ id fr, m.heap.Reaches (m.forget.roots []) id ∧ m.heap.get? id = some fr ∧
    ∃ v ∈ fr.values, ∃ t, .token t ∈ v.yield ∧ t.line = line

/-- Renumbering changes nothing that can be reached if and only if it keeps the lines mentioned. -/
theorem agree_renumber_iff : Agree (m.forget.roots []) m.forget (m.forget.renumber f .null) ↔
    ∀ line, m.Mentions line → f line = line := by
  constructor
  · rintro ha line ⟨id, fr, hid, hfr, v, hv, t, ht, rfl⟩
    have hget := ha.heap.get? id hid
    change m.heap.get? id = (m.heap.renumber f).get? id at hget
    rw [Heap.get?_renumber, hfr, Option.map_some, Option.some_inj] at hget
    exact Frame.renumber_eq_self_iff.1 hget.symm v hv t ht
  · intro hf
    refine .intro (m := m.forget) ⟨?_, rfl, fun id hid => ?_⟩
    · exact (Heap.size_renumber f m.heap).symm
    · show m.heap.get? id = (m.heap.renumber f).get? id
      rw [Heap.get?_renumber]
      cases hfr : m.heap.get? id with
      | none => rfl
      | some fr =>
        refine congrArg some (Frame.renumber_eq_self_iff.2 fun v hv t ht => ?_).symm
        exact hf t.line ⟨id, fr, hid, hfr, v, hv, t, ht, rfl⟩

@[simp] theorem renumber_id (m : Machine) : m.renumber id .null = m := by
  simp [renumber]

/-- **A run on marked lines stands for every run whose lines it marks.** The marks of the lines that
the machine mentions have to be read as these lines; all other marks may be read in any way. -/
theorem runProgram_of_marked (hkeeps : setting.host.KeepsToArguments)
    (hlines : setting.host.IgnoresLines) (fuel : Nat) {program : Program}
    (hes : ∀ e ∈ program.errors, ∀ fault line, e ≠ .lex fault line) {mark : Nat → Nat}
    (hf : ∀ line, m.Mentions line → f (mark line) = line) :
    AgreeAfter (m.forget.runProgram setting fuel (program.renumber f))
      (((m.forget.renumber mark .null).runProgram setting fuel program).map
        (Prod.map (Report.renumber f .null) (renumber f .null))) := by
  have hread : Agree (m.forget.roots []) m.forget
      ((m.forget.renumber mark .null).renumber f .null) := by
    rw [renumber_renumber]
    exact agree_renumber_iff.2 hf
  have hrun : AgreeAfter (m.forget.runProgram setting fuel (program.renumber f))
      (((m.forget.renumber mark .null).renumber f .null).runProgram setting fuel
        (program.renumber f)) := hread.runProgram hkeeps fuel _
  exact hrun.trans (runProgram_agrees hkeeps hlines fuel hes (m.forget.renumber mark .null) f .null)

/-- A line that is mentioned after a script has run was mentioned before, or is a line of the
script. -/
theorem Runs.mentions (hkeeps : setting.host.KeepsToArguments)
    (hlines : setting.host.IgnoresLines) {source : String} {r : Report}
    (hrun : m.Runs setting source r m') (hline : m'.Mentions line) :
    m.Mentions line ∨ ∃ ts, scan source = .ok ts ∧ ∃ t ∈ ts, t.line = line := by
  obtain ⟨fuel, hrun⟩ := hrun
  unfold runScript at hrun
  cases hscan : scan source with
  | error e =>
    rw [hscan] at hrun
    cases hrun
    exact .inl hline
  | ok ts =>
    rw [hscan] at hrun
    dsimp only at hrun
    by_contra hnot
    -- the line stands nowhere, so moving it changes neither the machine nor the script
    let f := Function.update id line (line + 1)
    have hf : ∀ l, m.Mentions l → f (id l) = l := by
      intro l hl
      refine Function.update_of_ne ?_ _ _
      rintro rfl
      exact hnot (.inl hl)
    have hts : ts.map (Token.renumber f) = ts := by
      refine (List.map_congr_left fun t ht => ?_).trans (List.map_id ts)
      have hne : t.line ≠ line := fun heq => hnot (.inr ⟨ts, rfl, t, ht, heq⟩)
      exact congrArg (Token.mk t.kind t.lexeme) (Function.update_of_ne hne _ _)
    have hprogram : (Program.ofTokens ts).renumber f = .ofTokens ts := by
      rw [← Program.ofTokens_renumber f (scan_ne_nil hscan), hts]
    have hafter := runProgram_of_marked hkeeps hlines fuel (Program.errors_ne_lex ts) hf
    rw [hprogram, renumber_id, hrun] at hafter
    obtain ⟨⟨-, hagree⟩⟩ := hafter
    have hmoved := agree_renumber_iff.1 hagree.forget line hline
    simp [f] at hmoved

theorem not_mentions_start (sink : Sink) : ¬(start sink).Mentions line := by
  rintro ⟨id, fr, -, hfr, v, hv, -⟩
  change (Heap.empty.push ⟨[], none⟩).get? id = some fr at hfr
  rw [Heap.get?_push] at hfr
  split at hfr
  · cases hfr
    cases hv
  · cases hfr

/-- A function of the host mentions no line. -/
theorem mentions_of_defineHost {name : String} {arity : Nat} {key : String}
    (h : (m.defineHost name arity key).Mentions line) : m.Mentions line := by
  obtain ⟨id, fr, hid, hfr, v, hv, t, ht, rfl⟩ := h
  let made := m.heap.makeFunction (.host name arity key)
  have hget : ∀ i, made.2.get? i = m.heap.get? i := Heap.get?_makeFunction m.heap _
  have hid' : m.heap.Reaches (m.forget.roots []) id := by
    have hmade : made.2.Reaches (m.forget.roots []) id := hid.of_define fun i hi => by cases hi
    exact hmade.of_get?_eq fun i _ => hget i
  change (made.2.define globals name made.1).get? id = some fr at hfr
  rw [Heap.define, Heap.get?_modify, hget] at hfr
  split at hfr
  · obtain ⟨fr', hfr', rfl⟩ := Option.map_eq_some_iff.1 hfr
    rcases Frame.mem_values_bind hv with rfl | hv
    · cases ht
    · exact ⟨id, fr', hid', hfr', v, hv, t, ht, rfl⟩
  · exact ⟨id, fr, hid', hfr, v, hv, t, ht, rfl⟩

/-- After a session, only lines of its scripts are mentioned that were not mentioned before. -/
theorem session_mentions (hkeeps : setting.host.KeepsToArguments)
    (hlines : setting.host.IgnoresLines) {fuel : Nat} {calls : List HostCall}
    {reports : List Report} (h : m.session setting fuel calls = some (reports, m'))
    (hline : m'.Mentions line) :
    m.Mentions line ∨ ∃ source, .run source ∈ calls ∧ ∃ ts, scan source = .ok ts ∧
      ∃ t ∈ ts, t.line = line := by
  induction calls generalizing m reports with
  | nil =>
    cases h
    exact .inl hline
  | cons call calls ih =>
    cases call with
    | run source =>
      rw [session] at h
      obtain ⟨⟨r, k⟩, hrun, h⟩ := Option.bind_eq_some_iff.1 h
      obtain ⟨⟨reports, k'⟩, hsession, h⟩ := Option.map_eq_some_iff.1 h
      cases h
      rcases ih hsession with hmentions | ⟨source', hmem, htokens⟩
      · rcases Runs.mentions hkeeps hlines ⟨fuel, hrun⟩ hmentions with hmentions | htokens
        · exact .inl hmentions
        · exact .inr ⟨source, List.mem_cons_self, htokens⟩
      · exact .inr ⟨source', List.mem_cons_of_mem _ hmem, htokens⟩
    | defineHost name arity key =>
      rcases ih h with hmentions | ⟨source, hmem, htokens⟩
      · exact .inl (mentions_of_defineHost hmentions)
      · exact .inr ⟨source, List.mem_cons_of_mem _ hmem, htokens⟩

end Machine

/-! ### Marked tokens -/

/-- The tokens numbered from the first, with their numbers as lines. -/
def numbered (ts : List Token) : List Token := ts.mapIdx fun i t => { t with line := i }

/-- The line behind a mark, if the script that runs has the given tokens. -/
def Line.inTokens (ts : List Token) (mark : Nat) : Nat :=
  if mark % 2 = 0 then mark / 2 else (ts[mark / 2 % ts.length]?.map (·.line)).getD 0

section Marks

variable {ts us : List Token}

theorem inTokens_earlier (ts : List Token) (line : Nat) : inTokens ts (earlier line) = line := by
  unfold inTokens earlier
  rw [if_pos (by omega)]
  omega

theorem inTokens_of_odd {mark : Nat} {t : Token} (hodd : mark % 2 ≠ 0)
    (ht : ts[mark / 2 % ts.length]? = some t) : inTokens ts mark = t.line := by
  unfold inTokens
  rw [if_neg hodd, ht]
  rfl

theorem inTokens_own {i : Nat} {t : Token} (ht : ts[i]? = some t) :
    inTokens ts (own i) = t.line := by
  obtain ⟨hi, -⟩ := List.getElem?_eq_some_iff.1 ht
  have hhalf : own i / 2 = i := by
    unfold own
    omega
  refine inTokens_of_odd ?_ ?_
  · unfold own
    omega
  · rwa [hhalf, Nat.mod_eq_of_lt hi]

/-- With the lines of the one or the other script for numbers, the numbered tokens are both. -/
theorem numbered_renumber (h : List.Forall₂ Token.SameButLine ts us)
    (hf : ∀ i u, us[i]? = some u → f i = u.line) : (numbered ts).map (Token.renumber f) = us := by
  refine List.ext_getElem? fun i => ?_
  rw [List.getElem?_map, numbered, List.getElem?_mapIdx, Option.map_map]
  by_cases hi : i < ts.length
  · have hi' : i < us.length := h.length_eq ▸ hi
    obtain ⟨hkind, hlexeme⟩ := h.get hi hi'
    have hline := hf i us[i] (List.getElem?_eq_getElem hi')
    rw [List.getElem?_eq_getElem hi, List.getElem?_eq_getElem hi', Option.map_some]
    refine congrArg some ?_
    show Token.mk ts[i].kind ts[i].lexeme (f i) = us[i]
    rw [hline]
    exact congrArg₂ (Token.mk · · us[i].line) hkind hlexeme
  · have hi' : ¬i < us.length := h.length_eq ▸ hi
    rw [List.getElem?_eq_none (Nat.not_lt.1 hi), List.getElem?_eq_none (Nat.not_lt.1 hi')]
    rfl

theorem numbered_ne_nil (hts : ts ≠ []) : numbered ts ≠ [] := by
  rw [ne_eq, numbered, List.mapIdx_eq_nil_iff]
  exact hts

end Marks

/-! ### Errors -/

/-- Two errors of scripts with the given tokens, run on the given machine, that differ at most in
their lines. -/
structure Error.Corresponds (m : Machine) (ts us : List Token) (e e' : Error) : Prop where
  /-- They are of the same kind, with the same particulars. -/
  kind : e.renumber (fun _ => 0) = e'.renumber fun _ => 0
  message : e.message = e'.message
  /-- The lines are those of corresponding tokens, or one line of a function declared before. -/
  line : (e.line? = none ∧ e'.line? = none) ∨
    (∃ (i : Nat) (t u : Token), ts[i]? = some t ∧ us[i]? = some u ∧
      e.line? = some t.line ∧ e'.line? = some u.line) ∨
    ∃ line, m.Mentions line ∧ e.line? = some line ∧ e'.line? = some line

theorem Error.line?_renumber (e : Error) : (e.renumber f).line? = e.line?.map f := by
  cases e <;> rfl

/-- A marked error, read with the lines of the one and the other script. -/
theorem Error.Corresponds.of_marked {m : Machine} {ts us : List Token} {e : Error}
    (hlength : ts.length = us.length) (hts : ts ≠ [])
    (hlex : ∀ fault line, e ≠ .lex fault line)
    (hearlier : ∀ line, e.line? = some (earlier line) → m.Mentions line) :
    Corresponds m ts us (e.renumber (inTokens ts)) (e.renumber (inTokens us)) := by
  refine ⟨?_, ?_, ?_⟩
  · rw [renumber_renumber, renumber_renumber]
    rfl
  · rw [message_renumber _ hlex, message_renumber _ hlex]
  · rw [line?_renumber, line?_renumber]
    cases hline : e.line? with
    | none => exact .inl ⟨rfl, rfl⟩
    | some mark =>
      refine .inr ?_
      by_cases heven : mark % 2 = 0
      · have hmark : mark = earlier (mark / 2) := by
          unfold earlier
          omega
        refine .inr ⟨mark / 2, hearlier _ (hmark ▸ hline), ?_, ?_⟩
        · rw [Option.map_some, hmark, inTokens_earlier, ← hmark]
        · rw [Option.map_some, hmark, inTokens_earlier, ← hmark]
      · have hi : mark / 2 % ts.length < ts.length := Nat.mod_lt _ (List.length_pos_iff.2 hts)
        have hi' : mark / 2 % us.length < us.length := by rwa [← hlength]
        refine .inl ⟨mark / 2 % ts.length, ts[mark / 2 % ts.length], us[mark / 2 % us.length],
          List.getElem?_eq_getElem hi, ?_, ?_, ?_⟩
        · rw [hlength]
          exact List.getElem?_eq_getElem hi'
        · exact congrArg some (inTokens_of_odd heven (List.getElem?_eq_getElem hi))
        · exact congrArg some (inTokens_of_odd heven (List.getElem?_eq_getElem hi'))

namespace Machine

variable {setting : Setting} {m m' : Machine}

/-- No error of a program that runs was found in the text of a script. -/
theorem runProgram_errors_ne_lex (hkeeps : setting.host.KeepsToArguments)
    (hlines : setting.host.IgnoresLines) {fuel : Nat} {program : Program} {r : Report}
    (hes : ∀ e ∈ program.errors, ∀ fault line, e ≠ .lex fault line)
    (h : m.runProgram setting fuel program = some (r, m')) :
    ∀ e ∈ r.errors, ∀ fault line, e ≠ .lex fault line := by
  let off : Setting := { setting with releases := false }
  have hlines' : off.host.IgnoresLines := hlines
  have hoff : AgreeAfter (m.runProgram setting fuel program) (m.runProgram off fuel program) :=
    (Agree.refl _ m).runProgram hkeeps fuel program
  have hrun := (renumbers hlines' rfl id .null fuel).executeAll [] [] program.statements
    (program.errors.foldl report m)
  rw [h, runProgram] at hoff
  generalize executeAll off fuel [] program.statements _ = o,
    executeAll off fuel [] (program.statements.map (Stmt.renumber id)) _ = o' at hrun hoff
  cases hrun with
  | done hD =>
    obtain ⟨⟨rfl, -⟩⟩ := hoff
    exact hes
  | failed hF =>
    obtain ⟨⟨rfl, -⟩⟩ := hoff
    intro e he fault line
    rcases List.mem_append.1 he with he | he
    · exact hes e he fault line
    · cases List.mem_singleton.1 he
      rintro rfl
      cases hF.1
  | outOfFuel => cases hoff

theorem marked_ne_lex {ts : List Token} (hts : ts ≠ []) :
    ∀ e ∈ ((Program.ofTokens (numbered ts)).renumber own).errors, ∀ fault line,
      e ≠ .lex fault line := by
  rw [← Program.ofTokens_renumber _ (numbered_ne_nil hts)]
  exact Program.errors_ne_lex _

section Marked

variable {ts us : List Token} (hkeeps : setting.host.KeepsToArguments)
  (hlines : setting.host.IgnoresLines) (fuel : Nat) (hts : ts ≠ [])
  (hsame : List.Forall₂ Token.SameButLine ts us)

include hkeeps hlines hts hsame

/-- The script runs as its numbered tokens run marked, however the marks are read that stand neither
for a token nor for a line mentioned. -/
theorem runProgram_of_numbered (hown : ∀ i u, us[i]? = some u → f (own i) = u.line)
    (hearlier : ∀ line, m.Mentions line → f (earlier line) = line) :
    AgreeAfter (m.forget.runProgram setting fuel (.ofTokens us))
      ((m.forget.runMarked setting fuel (.ofTokens (numbered ts))).map
        (Prod.map (Report.renumber f .null) (renumber f .null))) := by
  have hprogram : ((Program.ofTokens (numbered ts)).renumber own).renumber f = .ofTokens us := by
    rw [Program.renumber_renumber, ← Program.ofTokens_renumber _ (numbered_ne_nil hts),
      numbered_renumber (f := f ∘ own) hsame hown]
  rw [← hprogram]
  exact runProgram_of_marked hkeeps hlines fuel (marked_ne_lex hts) hearlier

/-- An error of the marked run that is at no token of the script is at a line mentioned. -/
theorem mentions_of_marked {r : Report}
    (h : m.forget.runMarked setting fuel (.ofTokens (numbered ts)) = some (r, m')) {e : Error}
    (he : e ∈ r.errors) {line : Nat} (hline : e.line? = some (earlier line)) :
    m.Mentions line := by
  by_contra hnot
  -- moving the line changes nothing that runs, so it cannot change the error
  let f := Function.update (inTokens us) (earlier line) (line + 1)
  have hown : ∀ i u, us[i]? = some u → f (own i) = u.line := by
    intro i u hu
    have hodd : own i ≠ earlier line := by
      unfold own earlier
      omega
    exact (Function.update_of_ne hodd _ _).trans (inTokens_own hu)
  have hearlier : ∀ l, m.Mentions l → f (earlier l) = l := by
    intro l hl
    have hl' : earlier l ≠ earlier line := by
      intro heq
      have : l = line := by
        unfold earlier at heq
        omega
      exact hnot (this ▸ hl)
    exact (Function.update_of_ne hl' _ _).trans (inTokens_earlier us l)
  have hmoved := runProgram_of_numbered hkeeps hlines fuel hts hsame hown hearlier
  have hkept := runProgram_of_numbered hkeeps hlines fuel hts hsame (m := m)
    (fun i u => inTokens_own) fun l _ => inTokens_earlier us l
  rw [h] at hmoved hkept
  generalize m.forget.runProgram setting fuel (.ofTokens us) = x at hmoved hkept
  obtain ⟨⟨hmoved, -⟩⟩ := hmoved
  obtain ⟨⟨hkept, -⟩⟩ := hkept
  have herrors : r.errors.map (Error.renumber f) = r.errors.map (Error.renumber (inTokens us)) :=
    congrArg Report.errors (hmoved.symm.trans hkept)
  have hsame := congrArg Error.line? (List.map_inj_left.1 herrors e he)
  rw [Error.line?_renumber, Error.line?_renumber, hline] at hsame
  simp [f, inTokens_earlier] at hsame

end Marked

end Machine

open Machine

/-! ### Two scripts that differ in layout -/

/-- **Layout does not change meaning.** Two scripts whose tokens differ in their lines only end on
the same machines, and then they write the same, their results have the same text, and their errors
correspond one to one: the lines are those of corresponding tokens, or of functions declared before.
And after a session of scripts, the functions declared before mention no lines but those of tokens
in these scripts. -/
theorem layout_irrelevant {setting : Setting} (hkeeps : setting.host.KeepsToArguments)
    (hlines : setting.host.IgnoresLines) {source source' : String} {ts us : List Token}
    (hscan : scan source = .ok ts) (hscan' : scan source' = .ok us)
    (hsame : List.Forall₂ Token.SameButLine ts us) (m : Machine) :
    ((∃ r k, m.Runs setting source r k) ↔ ∃ r k, m.Runs setting source' r k) ∧
    (∀ r k r' k', m.Runs setting source r k → m.Runs setting source' r' k' →
      k.sink = k'.sink ∧ r.value.text = r'.value.text ∧
        List.Forall₂ (Error.Corresponds m ts us) r.errors r'.errors) ∧
    ∀ sink fuel calls reports, (start sink).session setting fuel calls = some (reports, m) →
      ∀ line, m.Mentions line → ∃ earlier, .run earlier ∈ calls ∧ ∃ tokens,
        scan earlier = .ok tokens ∧ ∃ t ∈ tokens, t.line = line := by
  have hne : ts ≠ [] := scan_ne_nil hscan
  have hrefl : List.Forall₂ Token.SameButLine ts ts := List.forall₂_same.2 fun _ _ => ⟨rfl, rfl⟩
  have hfirst : ∀ fuel, AgreeAfter (m.forget.runProgram setting fuel (.ofTokens ts))
      ((m.forget.runMarked setting fuel (.ofTokens (numbered ts))).map
        (Prod.map (Report.renumber (inTokens ts) .null) (renumber (inTokens ts) .null))) :=
    fun fuel => runProgram_of_numbered hkeeps hlines fuel hne hrefl (fun _ _ => inTokens_own)
      fun line _ => inTokens_earlier ts line
  have hsecond : ∀ fuel, AgreeAfter (m.forget.runProgram setting fuel (.ofTokens us))
      ((m.forget.runMarked setting fuel (.ofTokens (numbered ts))).map
        (Prod.map (Report.renumber (inTokens us) .null) (renumber (inTokens us) .null))) :=
    fun fuel => runProgram_of_numbered hkeeps hlines fuel hne hsame (fun _ _ => inTokens_own)
      fun line _ => inTokens_earlier us line
  simp only [runs_iff hscan, runs_iff hscan']
  refine ⟨?_, ?_, ?_⟩
  · rw [exists_some_iff, exists_some_iff]
    refine exists_congr fun fuel => Bool.eq_iff_iff.1 ?_
    rw [(hfirst fuel).isSome_eq, (hsecond fuel).isSome_eq, Option.isSome_map, Option.isSome_map]
  · rintro r k r' k' ⟨fuel, hrun⟩ ⟨fuel', hrun'⟩
    -- both runs are the same with more fuel
    have ha := hfirst (fuel + fuel')
    have hb := hsecond (fuel + fuel')
    rw [runProgram_of_le hrun (Nat.le_add_right fuel fuel')] at ha
    rw [runProgram_of_le hrun' (Nat.le_add_left fuel' fuel)] at hb
    cases hmarked : m.forget.runMarked setting (fuel + fuel') (.ofTokens (numbered ts)) with
    | none =>
      rw [hmarked] at ha
      cases ha
    | some marked =>
      obtain ⟨report, n⟩ := marked
      rw [hmarked] at ha hb
      obtain ⟨⟨hreport, hagree⟩⟩ := ha
      obtain ⟨⟨hreport', hagree'⟩⟩ := hb
      replace hreport : r = report.renumber (inTokens ts) .null := hreport
      replace hreport' : r' = report.renumber (inTokens us) .null := hreport'
      have hsink : n.sink = k.sink := hagree.sink_eq
      have hsink' : n.sink = k'.sink := hagree'.sink_eq
      refine ⟨hsink.symm.trans hsink', ?_, ?_⟩
      · simp [hreport, hreport', Report.renumber]
      · simp only [hreport, hreport', Report.renumber, List.forall₂_map_left_iff,
          List.forall₂_map_right_iff, List.forall₂_same]
        intro e he
        refine .of_marked hsame.length_eq hne ?_ ?_
        · exact runProgram_errors_ne_lex hkeeps hlines (marked_ne_lex hne) hmarked e he
        · intro line hline
          exact mentions_of_marked hkeeps hlines _ hne hsame hmarked he hline
  · intro sink fuel calls reports hsession line hline
    exact (session_mentions hkeeps hlines hsession hline).resolve_left (not_mentions_start sink)

/-- A comment in front of a script with a stray semicolon and a call of a function that was declared
in an earlier script and fails on its second line. -/
theorem layout_irrelevant_comment : ∃ r₁ m ts r k r' k',
    (start .unlimited).Runs .standard "function f() \x7b\n return x; \x7d" r₁ m ∧
      scan ";\nf();" = .ok ts ∧ m.Runs .standard ";\nf();" r k ∧
      m.Runs .standard ("// note" ++ "\n" ++ ";\nf();") r' k' ∧
      r.errors.map Error.line? = [some 1, some 2] ∧
      r'.errors.map Error.line? = [some 2, some 2] ∧ k.sink = k'.sink ∧
      List.Forall₂ (Error.Corresponds m ts (ts.map (Token.renumber (· + 1)))) r.errors
        r'.errors := by
  have hruns : ((start .unlimited).runScript .standard 20
      "function f() \x7b\n return x; \x7d").any (fun x =>
        ((x.2.runScript .standard 20 ";\nf();").any fun y =>
          y.1.errors.map Error.line? = [some 1, some 2]) &&
        (x.2.runScript .standard 20 ("// note" ++ "\n" ++ ";\nf();")).any fun y =>
          y.1.errors.map Error.line? = [some 2, some 2]) = true := by
    decide +kernel
  have hcomment : (scan "// note").toOption.any (fun ts => ts.length = 1) = true := by
    decide +kernel
  have hcall : (scan ";\nf();").toOption.isSome = true := by decide +kernel
  obtain ⟨⟨r₁, m⟩, hdeclare, hruns⟩ := (Option.any_eq_true _ _).1 hruns
  obtain ⟨hrun, hrun'⟩ := Bool.and_eq_true_iff.1 hruns
  obtain ⟨⟨r, k⟩, hrun, hlines⟩ := (Option.any_eq_true _ _).1 hrun
  obtain ⟨⟨r', k'⟩, hrun', hlines'⟩ := (Option.any_eq_true _ _).1 hrun'
  cases hscan : scan ";\nf();" with
  | error e =>
    rw [hscan] at hcall
    cases hcall
  | ok ts =>
    cases hfirst : scan "// note" with
    | error e =>
      rw [hfirst] at hcomment
      cases hcomment
    | ok us =>
      have hus : us.dropLast = [] := by
        rw [hfirst] at hcomment
        have hlength : us.length = 1 := of_decide_eq_true hcomment
        rw [← List.length_eq_zero_iff, List.length_dropLast, hlength]
      have hscan' : scan ("// note" ++ "\n" ++ ";\nf();") =
          .ok (ts.map (Token.renumber (· + 1))) := by
        have h := scan_append hfirst hscan
        rwa [hus, List.nil_append] at h
      have hsame : List.Forall₂ Token.SameButLine ts (ts.map (Token.renumber (· + 1))) :=
        List.forall₂_map_right_iff.2 (List.forall₂_same.2 fun _ _ => ⟨rfl, rfl⟩)
      obtain ⟨hsink, -, herrors⟩ := (layout_irrelevant Host.standard_keepsToArguments
        Host.standard_ignoresLines hscan hscan' hsame m).2.1 r k r' k' ⟨20, hrun⟩ ⟨20, hrun'⟩
      exact ⟨r₁, m, ts, r, k, r', k', ⟨20, hdeclare⟩, rfl, ⟨20, hrun⟩, ⟨20, hrun'⟩,
        of_decide_eq_true hlines, of_decide_eq_true hlines', hsink, herrors⟩

end Scriptlet

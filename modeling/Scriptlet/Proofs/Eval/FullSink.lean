import Scriptlet.Proofs.Eval.Cut
import Scriptlet.Proofs.Eval.Fuel
import Scriptlet.Proofs.Eval.Moments

/-!
# A full sink

A session that writes to a sink with room for a number of bytes is compared with one that writes to
an unlimited sink. Until a line that a script prints does not fit, both do the same and the sink
holds the first bytes of what the other one holds; the reports of errors need not fit. From then on
the sink is full and stays as it is, and all that the other session writes comes after those bytes.
-/

namespace Scriptlet

/-- A run that is cut short by a full sink, compared with one that writes to an unlimited sink. -/
def Cut.output (n : Nat) : Cut where
  alter := Sink.cut n
  Admits s := s.room = none
  Stops e := e = .sinkFull
  After s t := s = t.cut n ∧ n ≤ t.written.size
  admits_of_grows hs hgrows := hgrows.room_eq_none hs
  after_of_grows := by
    rintro s t u ⟨rfl, hn⟩ hgrows
    obtain ⟨rest, hrest⟩ := hgrows.written_eq_append
    refine ⟨(hgrows.cut_eq hn).symm, ?_⟩
    rw [hrest, ByteArray.size_append]
    omega

variable {n : Nat}

namespace Eval.CutBy

/-- A line fits in both sinks, or it goes past the first bytes and ends the run with less room. -/
theorem print (line : String) : CutBy (Cut.output n) (Eval.print line) (Eval.print line) where
  grows _ _ := Eval.print_grows
  cut m hm := by
    have hm : m.sink.room = none := hm
    have hfree : (m.sink.writeLine line).2 = true := by rw [Sink.writeLine, Sink.write, hm]
    have hsink : ((m.sink.cut n).writeLine line).1 = (m.sink.writeLine line).1.cut n := by
      rw [Sink.writeLine, Sink.write_cut hm]
      rfl
    have hmachine : { m with sink := ((m.sink.cut n).writeLine line).1 } =
        Machine.withSink (Sink.cut n) { m with sink := (m.sink.writeLine line).1 } := by
      rw [hsink]
      rfl
    rw [Eval.print_of_fits hfree]
    cases hfits : ((m.sink.cut n).writeLine line).2 with
    | true => exact .inl ((Eval.print_of_fits hfits).trans (congrArg (Outcome.done ()) hmachine))
    | false =>
      refine .inr ⟨_, _, Eval.print_of_not_fits hfits, rfl, fun k' hk' => ?_⟩
      cases hk'
      exact ⟨hsink, (Sink.lt_of_not_fits hm hfits).le⟩

/-- Whether a call is refused has nothing to do with the sink. -/
theorem call {setting : Setting} (line : Nat) {x y : Eval Value} (h : CutBy (Cut.output n) x y) :
    CutBy (Cut.output n) (Semantics.plain.call setting line x)
      (Semantics.plain.call setting line y) := by
  refine ⟨fun m k => h.call_grows, fun m hm => ?_⟩
  by_cases hlimit : setting.callLimit ≤ m.callDepth
  · rw [Semantics.plain_call_of_le hlimit]
    exact .inl (Semantics.plain_call_of_le hlimit)
  · have hlt : m.callDepth < setting.callLimit := Nat.not_le.1 hlimit
    have hlt' : (m.withSink (Cut.output n).alter).callDepth < setting.callLimit := hlt
    rw [Semantics.plain_call_of_lt hlt, Semantics.plain_call_of_lt hlt']
    exact h.counted.cut m hm

end Eval.CutBy

theorem output_relates (setting : Setting) (n : Nat) :
    Relates .plain .plain setting setting fun _ _ _ x y => Eval.CutBy (Cut.output n) x y :=
  (Cut.output n).relates rfl rfl .print fun line _ _ h => h.call line

namespace Machine

variable {setting : Setting} {fuel : Nat} {m k : Machine} {source : String} {r : Report}

/-! ### What is written stays written -/

theorem runProgram_grows {program : Program}
    (hrun : m.runProgram setting fuel program = some (r, k)) : m.sink.Grows k.sink := by
  obtain ⟨j, hend, hgrows⟩ := exists_final?_of_runProgram hrun
  have hstatements := (Cut.executeAll (output_relates setting 0) fuel [] program.statements).grows
    (program.errors.foldl report m) j hend
  exact (grows_foldl_report program.errors m).trans (hstatements.trans hgrows)

theorem runScript_grows (hrun : m.runScript setting fuel source = some (r, k)) :
    m.sink.Grows k.sink := by
  unfold runScript at hrun
  split at hrun
  · cases hrun
    exact .writeLine m.sink _
  · have hgrows : m.forget.sink.Grows k.sink := runProgram_grows hrun
    exact hgrows

theorem session_append (setting : Setting) (fuel : Nat) (calls calls' : List HostCall)
    (m : Machine) :
    m.session setting fuel (calls ++ calls') = (m.session setting fuel calls).bind fun x =>
      (x.2.session setting fuel calls').map (Prod.map (x.1 ++ ·) id) := by
  induction calls generalizing m with
  | nil =>
    rw [List.nil_append, session, Option.bind_some]
    exact (congrFun Option.map_id _).symm
  | cons call calls ih =>
    cases call with
    | run source =>
      rw [List.cons_append, session, session, Option.bind_assoc]
      congr 1
      funext x
      rw [ih, Option.map_bind, Option.bind_map]
      congr 1
      funext y
      rw [Function.comp_apply, Option.map_map]
      rfl
    | defineHost name arity key => exact ih (m.defineHost name arity key)

theorem session_grows {calls : List HostCall} {rs : List Report}
    (hsession : m.session setting fuel calls = some (rs, k)) : m.sink.Grows k.sink := by
  induction calls generalizing m rs with
  | nil =>
    cases hsession
    exact .refl
  | cons call calls ih =>
    cases call with
    | run source =>
      obtain ⟨r, j, rs, hrun, hrest, rfl⟩ := session_run_eq_some hsession
      exact (runScript_grows hrun).trans (ih hrest)
    | defineHost name arity key =>
      have hgrows : (m.defineHost name arity key).sink.Grows k.sink := ih hsession
      exact hgrows

/-! ### One script with both sinks -/

theorem report_withSink (hm : m.sink.room = none) (e : Error) :
    (m.withSink (Sink.cut n)).report e = (m.report e).withSink (Sink.cut n) := by
  unfold report withSink
  dsimp only
  rw [Sink.writeLine, Sink.write_cut hm]
  rfl

theorem foldl_report_withSink (hm : m.sink.room = none) (es : List Error) :
    es.foldl report (m.withSink (Sink.cut n)) = (es.foldl report m).withSink (Sink.cut n) := by
  induction es generalizing m with
  | nil => rfl
  | cons e es ih =>
    rw [List.foldl_cons, List.foldl_cons, report_withSink hm, ih]
    exact (Sink.Grows.writeLine m.sink e.message).room_eq_none hm

/-- A line that is printed does not fit exactly if the statements fail for a full sink. -/
theorem print_mem_programMoments {program : Program} :
    (∃ line, .print line false ∈ m.programMoments setting fuel program) ↔
      ∃ k, executeAll setting fuel [] program.statements (program.errors.foldl report m) =
        .failed .sinkFull k := by
  have herror : (∃ a ∈ m.programMoments setting fuel program, a.error? = some .sinkFull) ↔ _ :=
    exists_error?_programMoments
  simp only [Moment.error?_eq_sinkFull, Error.isLimit, true_and] at herror
  rw [← herror]
  constructor
  · rintro ⟨line, hline⟩
    exact ⟨_, hline, line, rfl⟩
  · rintro ⟨a, ha, line, rfl⟩
    exact ⟨line, ha⟩

/-- **A program with both sinks.** It does the same but for the sink, or a line that it prints does
not fit; then it ends with the sink full. -/
theorem runProgram_cut (hm : m.sink.room = none) (setting : Setting) (fuel : Nat)
    (program : Program) :
    (m.withSink (Sink.cut n)).runProgram setting fuel program =
        (m.runProgram setting fuel program).map (Prod.map id (withSink (Sink.cut n))) ∨
      (∃ line, .print line false ∈
        (m.withSink (Sink.cut n)).programMoments setting fuel program) ∧
      ∃ r k, (m.withSink (Sink.cut n)).runProgram setting fuel program = some (r, k) ∧
        ∀ r' k', m.runProgram setting fuel program = some (r', k') →
          (Cut.output n).After k.sink k'.sink := by
  have hadmits : (program.errors.foldl report m).sink.room = none :=
    (grows_foldl_report program.errors m).room_eq_none hm
  have hstart := foldl_report_withSink (n := n) hm program.errors
  rcases (Cut.executeAll (output_relates setting n) fuel [] program.statements).cut _ hadmits with
    hsame | ⟨_, k, hfail, rfl, hafter⟩
  · left
    have hgrows := (Cut.executeAll (output_relates setting n) fuel [] program.statements).grows
      (program.errors.foldl report m)
    unfold runProgram
    rw [hstart]
    change executeAll setting fuel [] _ (withSink (Sink.cut n) _) = _ at hsame
    rw [hsame]
    generalize executeAll setting fuel [] program.statements (program.errors.foldl report m) = o
      at hgrows
    cases o with
    | done flow j => rfl
    | failed e j =>
      have hj : j.sink.room = none := (hgrows j rfl).room_eq_none hadmits
      have hreport := congrArg forget (report_withSink (n := n) hj e)
      exact congrArg (fun k => some (Report.mk j.lastValue (program.errors ++ [e]), k)) hreport
    | outOfFuel => rfl
  · right
    change executeAll setting fuel [] _ (withSink (Sink.cut n) _) = _ at hfail
    rw [← hstart] at hfail
    refine ⟨print_mem_programMoments.2 ⟨k, hfail⟩, _, (k.report .sinkFull).forget,
      by rw [runProgram, hfail], fun r' k' hfree => ?_⟩
    obtain ⟨j', hend, hgrows⟩ := exists_final?_of_runProgram hfree
    have hj := hafter j' hend
    -- the report of the error does not fit either
    have hfull : (k.report .sinkFull).sink = k.sink := by
      refine (Sink.Grows.writeLine k.sink Error.sinkFull.message).eq_of_full ?_
      rw [hj.1]
      exact Sink.room_cut_of_le hj.2
    have hk' : (Cut.output n).After k.sink k'.sink := (Cut.output n).after_of_grows hj hgrows
    rw [← hfull] at hk'
    exact hk'

theorem runScript_cut (hm : m.sink.room = none) (setting : Setting) (fuel : Nat)
    (source : String) :
    (m.withSink (Sink.cut n)).runScript setting fuel source =
        (m.runScript setting fuel source).map (Prod.map id (withSink (Sink.cut n))) ∨
      (∃ line, .print line false ∈
        (m.withSink (Sink.cut n)).scriptMoments setting fuel source) ∧
      ∃ r k, (m.withSink (Sink.cut n)).runScript setting fuel source = some (r, k) ∧
        ∀ r' k', m.runScript setting fuel source = some (r', k') →
          (Cut.output n).After k.sink k'.sink := by
  have hforget : m.forget.sink.room = none := hm
  unfold runScript scriptMoments
  cases scan source with
  | error e =>
    left
    exact congrArg (fun k => some (Report.mk .null [e], k)) (report_withSink hforget e)
  | ok tokens => exact runProgram_cut hforget setting fuel (.ofTokens tokens)

/-! ### Sessions with both sinks -/

/-- At the end of a session the sink holds the first bytes of what the unlimited one holds. -/
theorem session_sink_eq_cut (hm : m.sink.room = none) {calls : List HostCall}
    {rs rs' : List Report} {k k' : Machine}
    (hcut : (m.withSink (Sink.cut n)).session setting fuel calls = some (rs, k))
    (hfree : m.session setting fuel calls = some (rs', k')) : k.sink = k'.sink.cut n := by
  induction calls generalizing m rs rs' with
  | nil =>
    cases hcut
    cases hfree
    rfl
  | cons call calls ih =>
    cases call with
    | run source =>
      obtain ⟨r, j, rs, hrun, hrest, rfl⟩ := session_run_eq_some hcut
      obtain ⟨r', j', rs', hrun', hrest', rfl⟩ := session_run_eq_some hfree
      rcases runScript_cut (n := n) hm setting fuel source with hsame | ⟨-, _, _, hsome, hafter⟩
      · rw [hrun, hrun'] at hsame
        cases hsame
        exact ih ((runScript_grows hrun').room_eq_none hm) hrest hrest'
      · rw [hrun] at hsome
        cases hsome
        obtain ⟨hj, hn⟩ := hafter r' j' hrun'
        -- the sink is full, and what is written to the other one comes later
        have hfull : j.sink.room = some 0 := by
          rw [hj]
          exact Sink.room_cut_of_le hn
        rw [(session_grows hrest).eq_of_full hfull, (session_grows hrest').cut_eq hn, hj]
    | defineHost name arity key =>
      exact ih (m := m.defineHost name arity key) hm hcut hfree

/-- As long as all lines that are printed fit, sessions do the same but for the sink. -/
theorem session_cut (hm : m.sink.room = none) {calls : List HostCall}
    (hprints : ∀ line, .print line false ∉
      (m.withSink (Sink.cut n)).sessionMoments setting fuel calls) :
    (m.withSink (Sink.cut n)).session setting fuel calls =
      (m.session setting fuel calls).map (Prod.map id (withSink (Sink.cut n))) := by
  induction calls generalizing m with
  | nil => rfl
  | cons call calls ih =>
    cases call with
    | run source =>
      rw [sessionMoments] at hprints
      have hsame := (runScript_cut (n := n) hm setting fuel source).resolve_right fun h => by
        obtain ⟨line, hline⟩ := h.1
        exact hprints line (List.mem_append_left _ hline)
      rw [session, session, hsame]
      cases hrun : m.runScript setting fuel source with
      | none => rfl
      | some x =>
        rw [hsame, hrun] at hprints
        have hrest := ih ((runScript_grows hrun).room_eq_none hm) fun line hline =>
          hprints line (List.mem_append_right _ hline)
        rw [Option.map_some, Option.bind_some, Option.bind_some]
        refine (congrArg (Option.map _) hrest).trans ?_
        rw [Option.map_map, Option.map_map]
        rfl
    | defineHost name arity key => exact ih (m := m.defineHost name arity key) hm hprints

/-- The script after that ends if it does with an unlimited sink, even if the sink fills up. -/
theorem isSome_session_append_run (hm : m.sink.room = none) {calls : List HostCall}
    (hprints : ∀ line, .print line false ∉
      (m.withSink (Sink.cut n)).sessionMoments setting fuel calls)
    (hsome : (m.session setting fuel (calls ++ [HostCall.run source])).isSome) :
    ((m.withSink (Sink.cut n)).session setting fuel (calls ++ [HostCall.run source])).isSome := by
  rw [session_append] at hsome ⊢
  rw [session_cut hm hprints]
  cases hcalls : m.session setting fuel calls with
  | none =>
    rw [hcalls] at hsome
    cases hsome
  | some x =>
    obtain ⟨rs, j⟩ := x
    rw [hcalls] at hsome
    rw [Option.map_some, Option.bind_some, Option.isSome_map]
    rw [Option.bind_some, Option.isSome_map] at hsome
    obtain ⟨⟨rs', k⟩, hrun⟩ := Option.isSome_iff_exists.1 hsome
    obtain ⟨r, k', _, hrun, -, -⟩ := session_run_eq_some hrun
    have hj : j.sink.room = none := (session_grows hcalls).room_eq_none hm
    rw [session, Prod.map_apply]
    rcases runScript_cut (n := n) hj setting fuel source with hsame | ⟨-, r', k'', hcut, -⟩
    · rw [hsame, hrun]
      rfl
    · rw [hcut]
      rfl

/-- A script that prints a line that does not fit ends with that error, after those found before it
ran. The report of it changes nothing but the sink. -/
theorem runScript_of_print {line : String}
    (hprint : .print line false ∈ m.scriptMoments setting fuel source) :
    ∃ program j sink, Program.ofTokens <$> scan source = .ok program ∧
      executeAll setting fuel [] program.statements (program.errors.foldl report m.forget) =
        .failed .sinkFull j ∧
      m.runScript setting fuel source =
        some (⟨j.lastValue, program.errors ++ [.sinkFull]⟩, { j.forget with sink }) ∧
      ∀ e ∈ program.errors, e.isStatic := by
  unfold scriptMoments at hprint
  unfold runScript
  cases hscan : scan source with
  | error e =>
    rw [hscan] at hprint
    have hreport := isReport_of_mem_reportMoments hprint
    cases hreport
  | ok tokens =>
    rw [hscan] at hprint
    obtain ⟨j, hfail⟩ := print_mem_programMoments.1 ⟨line, hprint⟩
    refine ⟨.ofTokens tokens, j, (j.report .sinkFull).sink, rfl, hfail, ?_,
      fun e => Program.isStatic_of_mem_errors⟩
    dsimp only
    rw [runProgram, hfail]
    rfl

/-- **A full sink cuts output and nothing else.** Here `free` is the machine with an unlimited sink,
and `total` is the number of bytes that the sink takes in all. If a session ends with both sinks,
the limited one holds the first bytes of the other. As long as all lines that scripts print fit, the
session makes the same reports and changes the machine in the same way, though reports of errors
may not fit; and the next script ends if it does with an unlimited sink. A script in which a line
does not fit starts nothing after that and ends with that error, which comes last after those found
before it ran; the report of it leaves all but the sink as the script has left it. -/
theorem full_sink_only_cuts (setting : Setting) {m : Machine} {room : Nat}
    (hroom : m.sink.room = some room) :
    let free : Machine := { m with sink := { m.sink with room := none } }
    let total := m.sink.written.size + room
    (∀ fuel fuel' calls rs k rs' k', m.session setting fuel calls = some (rs, k) →
      free.session setting fuel' calls = some (rs', k') →
      k.sink.written = k'.sink.written.extract 0 total) ∧
    (∀ fuel calls, (∀ line, .print line false ∉ m.sessionMoments setting fuel calls) →
      m.session setting fuel calls =
        (free.session setting fuel calls).map (Prod.map id (withSink (Sink.cut total))) ∧
      ∀ source, (free.session setting fuel (calls ++ [HostCall.run source])).isSome →
        (m.session setting fuel (calls ++ [HostCall.run source])).isSome) ∧
    ∀ fuel source before line after,
      m.scriptMoments setting fuel source = before ++ Moment.print line false :: after →
      (∀ a ∈ after, a.isStop ∨ a.isReport) ∧
      ∃ program j sink, Program.ofTokens <$> scan source = .ok program ∧
        executeAll setting fuel [] program.statements (program.errors.foldl report m.forget) =
          .failed .sinkFull j ∧
        m.runScript setting fuel source =
          some (⟨j.lastValue, program.errors ++ [.sinkFull]⟩, { j.forget with sink }) ∧
        ∀ e ∈ program.errors, e.isStatic := by
  intro free total
  have hfree : free.sink.room = none := rfl
  have hm : free.withSink (Sink.cut total) = m := by
    have hsink : free.sink.cut total = m.sink := Sink.cut_of_room hroom
    rw [withSink, hsink]
  refine ⟨?_, ?_, ?_⟩
  · intro fuel fuel' calls rs k rs' k' hcut hend
    -- both sessions are the same with more fuel
    have hcut' := session_of_le hcut (Nat.le_add_right fuel fuel')
    have hend' := session_of_le hend (Nat.le_add_left fuel' fuel)
    rw [← hm] at hcut'
    rw [session_sink_eq_cut hfree hcut' hend']
    rfl
  · intro fuel calls hprints
    rw [← hm] at hprints
    constructor
    · rw [← session_cut hfree hprints, hm]
    · intro source hsome
      rw [← hm]
      exact isSome_session_append_run hfree hprints hsome
  · intro fuel source before line after hmoments
    have hprint : .print line false ∈ m.scriptMoments setting fuel source := by
      rw [hmoments]
      exact List.mem_append_right before List.mem_cons_self
    refine ⟨fun a ha => ?_, runScript_of_print hprint⟩
    have hpairs := pairwise_scriptMoments setting fuel source m
    rw [hmoments] at hpairs
    exact (List.pairwise_cons.1 (List.pairwise_append.1 hpairs).2.1).1 a ha rfl

/-- A sink with room for four bytes takes the first of three lines and the first byte of the second;
the report of the error does not fit. -/
theorem full_sink_only_cuts_second_line : ∃ rs k rs' k',
    (start (.limited 4)).session .standard 20 [.run "print 12; print 34; print 56;"] =
      some (rs, k) ∧
    (start .unlimited).session .standard 20 [.run "print 12; print 34; print 56;"] =
      some (rs', k') ∧
    rs.map Report.errors = [[.sinkFull]] ∧ k'.sink.written = "12\n34\n56\n".toUTF8 ∧
    k.sink.written = k'.sink.written.extract 0 4 := by
  have hcut : ((start (.limited 4)).session .standard 20
      [.run "print 12; print 34; print 56;"]).any
        (fun x => x.1.map Report.errors = [[.sinkFull]]) = true := by
    decide +kernel
  have hfree : ((start .unlimited).session .standard 20
      [.run "print 12; print 34; print 56;"]).any
        (fun x => x.2.sink.written = "12\n34\n56\n".toUTF8) = true := by
    decide +kernel
  obtain ⟨⟨rs, k⟩, hcut, herrors⟩ := (Option.any_eq_true _ _).1 hcut
  obtain ⟨⟨rs', k'⟩, hfree, hwritten⟩ := (Option.any_eq_true _ _).1 hfree
  have hroom : (start (.limited 4)).sink.room = some 4 := rfl
  have hfirst := (full_sink_only_cuts .standard hroom).1 20 20 _ rs k rs' k' hcut hfree
  exact ⟨rs, k, rs', k', hcut, hfree, of_decide_eq_true herrors, of_decide_eq_true hwritten, hfirst⟩

end Machine

end Scriptlet

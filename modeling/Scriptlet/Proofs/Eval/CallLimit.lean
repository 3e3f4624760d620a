import Scriptlet.Proofs.Eval.Cut
import Scriptlet.Proofs.Eval.Moments
import Scriptlet.Proofs.Eval.Pieces

/-!
# The limit of active calls

A run that does not reach the limit of active calls is the same under every higher limit. A run that
reaches it ends there with an error, and all it has written until then is written under a higher
limit, too, before anything else.
-/

namespace Scriptlet

/-- The same setting with another limit of active calls. -/
def Setting.withLimit (setting : Setting) (limit : Nat) : Setting :=
  { setting with callLimit := limit }

/-- A run that is cut short by the limit of active calls, compared with one under a higher limit. -/
def Cut.callLimit : Cut where
  alter s := s
  Admits _ := True
  Stops e := ∃ line, e = .runtime .stackOverflow line
  After s t := ∃ rest, t.written = s.written ++ rest
  admits_of_grows _ _ := trivial
  after_of_grows := by
    rintro s t u ⟨rest, ht⟩ hu
    obtain ⟨rest', hrest'⟩ := hu.written_eq_append
    exact ⟨rest ++ rest', by rw [hrest', ht, ByteArray.append_assoc]⟩

theorem Outcome.onMachine_callLimit {α : Type} (o : Outcome α) :
    o.onMachine (Machine.withSink Cut.callLimit.alter) = o := by
  cases o <;> rfl

section Limits

variable {setting : Setting} {limit limit' : Nat} (hlimit : limit ≤ limit')

include hlimit

/-- A call goes the same way under both limits or is refused under the lower one. -/
theorem Eval.CutBy.call_of_le (line : Nat) {x y : Eval Value} (h : CutBy Cut.callLimit x y) :
    CutBy Cut.callLimit (Semantics.plain.call (setting.withLimit limit) line x)
      (Semantics.plain.call (setting.withLimit limit') line y) := by
  refine ⟨fun m k => h.call_grows, fun m _ => ?_⟩
  by_cases hlow : limit ≤ m.callDepth
  · -- refused under the lower limit, whatever happens under the higher one
    refine .inr ⟨_, m, Semantics.plain_call_of_le hlow, ⟨line, rfl⟩, fun k' hk' => ?_⟩
    exact (h.call_grows hk').written_eq_append
  · have hlt : m.callDepth < limit := Nat.not_le.1 hlow
    rw [Semantics.plain_call_of_lt hlt, Semantics.plain_call_of_lt (hlt.trans_le hlimit)]
    exact h.counted.cut m trivial

theorem callLimit_relates : Relates .plain .plain (setting.withLimit limit)
    (setting.withLimit limit') fun _ _ _ x y => Eval.CutBy Cut.callLimit x y := by
  refine Cut.callLimit.relates rfl rfl (fun line => ?_) fun line _ _ h => h.call_of_le hlimit line
  exact ⟨fun _ _ => Eval.print_grows, fun m _ => .inl (Outcome.onMachine_callLimit _).symm⟩

/-- Statements that do not come to the lower limit do the same under both. -/
theorem executeAll_of_limit_le {n : Nat} {ss : List Stmt} {m : Machine}
    (hrefused : ∀ line k, executeAll (setting.withLimit limit) n [] ss m ≠
      .failed (.runtime .stackOverflow line) k) :
    executeAll (setting.withLimit limit') n [] ss m =
      executeAll (setting.withLimit limit) n [] ss m := by
  rcases (Cut.executeAll (callLimit_relates hlimit) n [] ss).cut m trivial with
    hsame | ⟨_, k, hfail, ⟨line, rfl⟩, -⟩
  · exact (Outcome.onMachine_callLimit _).symm.trans hsame.symm
  · exact absurd hfail (hrefused line k)

/-- What is written before a call is refused is written under the higher limit, too. -/
theorem written_of_limit_le {n n' line : Nat} {ss : List Stmt} {m k k' : Machine}
    (hfail : executeAll (setting.withLimit limit) n [] ss m =
      .failed (.runtime .stackOverflow line) k)
    (hend : (executeAll (setting.withLimit limit') n' [] ss m).final? = some k') :
    ∃ rest, k'.sink.written = k.sink.written ++ rest := by
  -- both runs are the same with more fuel
  have hlow : executeAll (setting.withLimit limit) (n + n') [] ss m =
      .failed (.runtime .stackOverflow line) k := by
    rw [(executeAll_extends _ [] ss (Nat.le_add_right n n')).eq_of_ne (by rw [hfail]; simp), hfail]
  have hhigh : (executeAll (setting.withLimit limit') (n + n') [] ss m).final? = some k' := by
    rw [(executeAll_extends _ [] ss (Nat.le_add_left n' n)).eq_of_ne, hend]
    intro hout
    rw [hout] at hend
    cases hend
  rcases (Cut.executeAll (callLimit_relates hlimit) (n + n') [] ss).cut m trivial with
    hsame | ⟨_, j, hfail', -, hafter⟩
  · have hsame' : executeAll (setting.withLimit limit) (n + n') [] ss m =
        executeAll (setting.withLimit limit') (n + n') [] ss m :=
      hsame.trans (Outcome.onMachine_callLimit _)
    rw [← hsame', hlow] at hhigh
    cases hhigh
    exact ⟨.empty, ByteArray.append_empty.symm⟩
  · have hfail'' : executeAll (setting.withLimit limit) (n + n') [] ss m = _ := hfail'
    rw [hlow] at hfail''
    cases hfail''
    exact hafter k' hhigh

end Limits

/-! ### Calls refused in a script -/

namespace Machine

variable {setting : Setting} {fuel line : Nat} {m : Machine}

/-- A call is refused in the course of statements exactly if they fail with a stack overflow. -/
theorem refused_mem_watched {ss : List Stmt} :
    .refused line ∈ ((watched setting fuel).executeAll [] ss m).1 ↔
      ∃ k, executeAll setting fuel [] ss m = .failed (.runtime .stackOverflow line) k := by
  have herror := (watched_endsAtLimit setting fuel [] ss m).error (.runtime .stackOverflow line)
  rw [watched_executeAll_snd] at herror
  simpa [Moment.error?_eq_stackOverflow, Error.isLimit] using herror

/-- A call is refused in the course of a program exactly if its statements fail with a stack
overflow. -/
theorem refused_mem_programMoments {program : Program} :
    .refused line ∈ m.programMoments setting fuel program ↔
      ∃ k, executeAll setting fuel [] program.statements (program.errors.foldl report m) =
        .failed (.runtime .stackOverflow line) k := by
  have herror : (∃ a ∈ m.programMoments setting fuel program,
      a.error? = some (.runtime .stackOverflow line)) ↔ _ := exists_error?_programMoments
  simpa [Moment.error?_eq_stackOverflow, Error.isLimit] using herror

/-- No call is refused before anything runs. -/
theorem not_refused_mem_reportMoments {es : List Error} : .refused line ∉ reportMoments es m := by
  intro hmem
  have hreport := isReport_of_mem_reportMoments hmem
  cases hreport

/-- A program in whose course no call is refused does the same under a higher limit. -/
theorem runProgram_of_limit_le {limit limit' : Nat} (hlimit : limit ≤ limit') {program : Program}
    (hrefused : ∀ line, .refused line ∉ m.programMoments (setting.withLimit limit) fuel program) :
    m.runProgram (setting.withLimit limit') fuel program =
      m.runProgram (setting.withLimit limit) fuel program := by
  unfold runProgram
  rw [executeAll_of_limit_le hlimit]
  intro line k hfail
  exact hrefused line (refused_mem_programMoments.2 ⟨k, hfail⟩)

/-- **The limit of active calls cuts runs short and changes nothing else.** A run in whose course no
call is refused is the same under a higher limit: it ends with the same result or error and in the
same state. A run in whose course a call is refused ends with that error, and what it has written
before the error is reported is the first part of what is written under a higher limit. Both hold of
statements, run from any state, and of scripts. -/
theorem call_limit_only_cuts (setting : Setting) {limit limit' : Nat} (hlimit : limit ≤ limit')
    (m : Machine) :
    (∀ fuel ss,
      let moments := ((watched (setting.withLimit limit) fuel).executeAll [] ss m).1
      ((∀ line, .refused line ∉ moments) →
        executeAll (setting.withLimit limit') fuel [] ss m =
          executeAll (setting.withLimit limit) fuel [] ss m) ∧
      ∀ line, .refused line ∈ moments → ∃ k,
        executeAll (setting.withLimit limit) fuel [] ss m =
          .failed (.runtime .stackOverflow line) k ∧
        ∀ fuel' k', (executeAll (setting.withLimit limit') fuel' [] ss m).final? = some k' →
          ∃ rest, k'.sink.written = k.sink.written ++ rest) ∧
    ∀ fuel source r k, m.runScript (setting.withLimit limit) fuel source = some (r, k) →
      let moments := m.scriptMoments (setting.withLimit limit) fuel source
      ((∀ line, .refused line ∉ moments) →
        m.runScript (setting.withLimit limit') fuel source = some (r, k)) ∧
      ∀ line, .refused line ∈ moments → ∃ (front : List Error) (before : Sink),
        r.errors = front ++ [Error.runtime .stackOverflow line] ∧
        k.sink = (before.writeLine (Error.runtime .stackOverflow line).message).1 ∧
        ∀ r' k', m.Runs (setting.withLimit limit') source r' k' →
          ∃ rest, k'.sink.written = before.written ++ rest := by
  constructor
  · intro fuel ss
    constructor
    · intro hrefused
      apply executeAll_of_limit_le hlimit
      intro line k hfail
      exact hrefused line (refused_mem_watched.2 ⟨k, hfail⟩)
    · intro line hrefused
      obtain ⟨k, hfail⟩ := refused_mem_watched.1 hrefused
      exact ⟨k, hfail, fun fuel' k' hend => written_of_limit_le hlimit hfail hend⟩
  · intro fuel source r k hrun
    dsimp only
    unfold scriptMoments
    cases hscan : scan source with
    | error e =>
      refine ⟨fun _ => ?_, fun line hrefused => absurd hrefused not_refused_mem_reportMoments⟩
      rw [runScript, hscan] at hrun ⊢
      exact hrun
    | ok tokens =>
      rw [runScript, hscan] at hrun
      dsimp only at hrun ⊢
      constructor
      · intro hrefused
        rw [runScript, hscan]
        exact (runProgram_of_limit_le hlimit hrefused).trans hrun
      · intro line hrefused
        obtain ⟨j, hfail⟩ := refused_mem_programMoments.1 hrefused
        rw [runProgram, hfail] at hrun
        cases hrun
        refine ⟨_, j.sink, rfl, rfl, fun r' k' hhigh => ?_⟩
        obtain ⟨fuel', hhigh⟩ := (runs_iff hscan).1 hhigh
        obtain ⟨j', hend, hgrows⟩ := exists_final?_of_runProgram hhigh
        obtain ⟨rest, hrest⟩ := written_of_limit_le hlimit hfail hend
        exact Cut.callLimit.after_of_grows ⟨rest, hrest⟩ hgrows

/-- Where no call is allowed, a script is cut short at its first call, after its first line of
output. -/
theorem call_limit_only_cuts_first_call : ∃ r k r' k' rest, ∃ before : Sink,
    (start .unlimited).runScript (Setting.standard.withLimit 0) 20
      "function f() \x7b print 2; \x7d print 1; f();" = some (r, k) ∧
    (start .unlimited).Runs (Setting.standard.withLimit 1)
      "function f() \x7b print 2; \x7d print 1; f();" r' k' ∧
    k.sink = (before.writeLine (Error.runtime .stackOverflow 1).message).1 ∧
    k'.sink.written = before.written ++ rest ∧ r'.errors = [] := by
  have hlow : ((start .unlimited).runScript (Setting.standard.withLimit 0) 20
      "function f() \x7b print 2; \x7d print 1; f();").isSome = true := by
    decide +kernel
  have hrefused : ((start .unlimited).scriptMoments (Setting.standard.withLimit 0) 20
      "function f() \x7b print 2; \x7d print 1; f();").any
        (fun a => a.error? = some (.runtime .stackOverflow 1)) = true := by
    decide +kernel
  have hhigh : ((start .unlimited).runScript (Setting.standard.withLimit 1) 20
      "function f() \x7b print 2; \x7d print 1; f();").any (fun x => x.1.isOk) = true := by
    decide +kernel
  obtain ⟨⟨r, k⟩, hlow⟩ := Option.isSome_iff_exists.1 hlow
  obtain ⟨a, ha, herror⟩ := List.any_eq_true.1 hrefused
  obtain rfl := Moment.error?_eq_stackOverflow.1 (of_decide_eq_true herror)
  obtain ⟨⟨r', k'⟩, hhigh, hok⟩ := (Option.any_eq_true _ _).1 hhigh
  obtain ⟨-, before, -, hreport, hcut⟩ := ((call_limit_only_cuts .standard (Nat.zero_le 1)
    (start .unlimited)).2 20 _ r k hlow).2 1 ha
  obtain ⟨rest, hrest⟩ := hcut r' k' ⟨20, hhigh⟩
  exact ⟨r, k, r', k', rest, before, hlow, ⟨20, hhigh⟩, hreport, hrest, List.isEmpty_iff.1 hok⟩

end Machine

end Scriptlet

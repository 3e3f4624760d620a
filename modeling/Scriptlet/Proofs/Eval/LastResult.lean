import Scriptlet.Proofs.Eval.Output

/-!
# The last result

Every expression that gets a value writes it to a register unless it is `null`. In the trace of a
run the values stand in the order in which the expressions got them, so the register can be read
off the trace: it holds the last value there that is not `null`, and if there is none, what it held
before. A script starts with an empty register, so its report tells its own last result.
-/

namespace Scriptlet

/-- The value that an expression has got, if that is what happens. -/
def Event.result? : Event → Option Value
  | result v => some v
  | call _ | body _ | back | printed _ => none

/-- The values that expressions got, in the order in which they got them. -/
def results (t : List Event) : List Value := t.filterMap Event.result?

@[simp] theorem results_append (t u : List Event) : results (t ++ u) = results t ++ results u :=
  List.filterMap_append

/-- The results of a call are those of what it calls. -/
theorem results_ofCall {α : Type} (depth : Nat) (t : List Event) (o : Outcome α) :
    results (Event.ofCall depth t o) = results t := by
  have hback : results (t ++ [.back]) = results t := by simp [results, Event.result?]
  cases o with
  | done | failed => exact hback
  | outOfFuel => rfl

/-- The last of the values that is not `null`, or the given one if there is none. -/
def lastNonNull (before : Value) (vs : List Value) : Value :=
  (vs.filter fun v => !v.isNull).getLast?.getD before

@[simp] theorem lastNonNull_nil (before : Value) : lastNonNull before [] = before := rfl

/-- The last of two stretches is the last of the second, or of the first if that has none. -/
theorem lastNonNull_append (before : Value) (vs ws : List Value) :
    lastNonNull before (vs ++ ws) = lastNonNull (lastNonNull before vs) ws := by
  unfold lastNonNull
  rw [List.filter_append, List.getLast?_append]
  cases (ws.filter fun v => !v.isNull).getLast? <;> rfl

namespace Traced

variable {α β : Type} {setting : Setting}

/-- However the computation ends, the register holds the last of its results that is not `null`, or
what it held before. -/
def Remembers (x : Traced α) : Prop :=
  ∀ m k, (x m).2.final? = some k → k.lastValue = lastNonNull m.lastValue (results (x m).1)

namespace Remembers

/-- A step that writes down no result leaves the register alone. -/
theorem noting {entries : Machine → Outcome α → List Event} {x : Eval α} (hx : x.Operation)
    (hresults : ∀ m, results (entries m (x m)) = []) :
    Remembers (Recording.noting entries x) := by
  intro m k hk
  change k.lastValue = lastNonNull m.lastValue (results (entries m (x m)))
  rw [hresults, hx.keeps hk]
  rfl

theorem step {x : Eval α} (hx : x.Operation) : Remembers (Semantics.traced.step x) :=
  noting hx fun _ => rfl

theorem print (line : String) : Remembers (Semantics.traced.print line) := by
  refine noting (.print line) fun m => ?_
  change results (Event.ofPrint line (Eval.print line m)) = []
  cases Eval.print line m <;> rfl

/-- Computations that remember their results may be run one after another. -/
theorem bind {x : Traced α} {f : α → Traced β} (hx : x.Remembers) (hf : ∀ a, (f a).Remembers) :
    (x >>= f).Remembers := by
  intro m
  refine Recording.bind_cases
    (Q := fun r => ∀ k, r.2.final? = some k → k.lastValue = lastNonNull m.lastValue (results r.1))
    (P := fun r => ∀ k, r.2.final? = some k → k.lastValue = lastNonNull m.lastValue (results r.1))
    (hx m) (fun t a j hm k hk => ?_) (fun t e j hm => ?_) fun t hm => ?_
  · rw [results_append, lastNonNull_append, ← hm j rfl]
    exact hf a j k hk
  · exact hm
  · exact hm

/-- To remember a value is to have it as the last result, unless it is null. -/
theorem remember (v : Value) : Remembers (Semantics.traced.remember v) := by
  intro m k hk
  change (Eval.remember v m).final? = some k at hk
  change k.lastValue = lastNonNull m.lastValue [v]
  unfold Eval.remember at hk
  cases hv : v.isNull with
  | true =>
    rw [if_pos hv] at hk
    cases hk
    simp [lastNonNull, hv]
  | false =>
    rw [if_neg (by simp [hv])] at hk
    cases hk
    simp [lastNonNull, hv]

/-- A call is over without a result of its own, and to count it does not touch the register. -/
theorem call {x : Traced α} (hx : x.Remembers) (line : Nat) :
    Remembers (Semantics.traced.call setting line x) := by
  intro m
  refine Semantics.recording_call_cases
    (P := fun r => ∀ k, r.2.final? = some k → k.lastValue = lastNonNull m.lastValue (results r.1))
    (fun _ k hk => ?_) fun _ k hk => ?_
  · cases hk
    rfl
  · change k.lastValue = lastNonNull m.lastValue (results (Event.ofCall _ _ _))
    change (Eval.counted x.erase m).final? = some k at hk
    rw [Eval.counted_apply] at hk
    obtain ⟨a, j, hj, rfl⟩ := Eval.exists_final?_of_andThen hk
    rw [results_ofCall]
    exact hx _ j hj

/-- To leave a block changes nothing that is remembered. -/
theorem inFrame {x : FrameId → Traced Flow} (hx : ∀ previous, (x previous).Remembers)
    (held : List Reference) (frame : FrameId) :
    Remembers (Semantics.traced.inFrame setting held frame x) := by
  intro m k hk
  obtain ⟨flow, j, hj, rfl⟩ := Eval.exists_final?_of_andThen hk
  have hbody := hx m.current { m with current := frame } j hj
  obtain ⟨-, -, hlast⟩ := j.leave_registers setting held frame m.current flow
  exact hlast.trans hbody

end Remembers

/-- Every step of a run remembers its results. -/
theorem remembers_invariant (setting : Setting) :
    Semantics.traced.Invariant setting fun {_} x => Remembers x where
  step := .step
  pure a m k hk := by
    cases hk
    rfl
  bind := .bind
  remember := .remember
  print := .print
  call line _ hx := hx.call line
  inFrame held frame _ hx := .inFrame hx held frame
  part _ _ _ _ hx := hx

/-- The last event of a value that is remembered is the value. -/
theorem getLast?_bind_remember {x : Traced Value} {m k : Machine} {v : Value}
    (h : ((x >>= Semantics.traced.remember) m).2 = .done v k) :
    ((x >>= Semantics.traced.remember) m).1.getLast? = some (.result v) := by
  revert h
  refine Recording.bind_cases (Q := fun _ => True)
    (P := fun r => r.2 = .done v k → r.1.getLast? = some (Event.result v)) trivial
    (fun t w j _ h => ?_) (fun t e j _ h => ?_) fun t _ h => ?_
  · have hw : Eval.remember w j = .done v k := h
    have hwv : w = v := by
      unfold Eval.remember at hw
      split at hw
      · cases hw
        rfl
      · cases hw
        rfl
    rw [← hwv]
    exact List.getLast?_concat
  · cases h
  · cases h

/-- What happens last while an expression gets a value is that it gets it. -/
theorem getLast?_evaluate {n : Nat} {held : List Reference} {e : Expr} {m k : Machine} {v : Value}
    (h : Scriptlet.evaluate setting n held e m = .done v k) :
    (evaluate setting n held e m).1.getLast? = some (.result v) := by
  have herase := congrFun ((erase_traced setting n).evaluate held e) m
  replace h : (evaluate setting n held e m).2 = .done v k := herase.trans h
  cases n with
  | zero => cases h
  | succ n => exact getLast?_bind_remember h

end Traced

namespace Machine

variable {setting : Setting} {fuel : Nat} {source : String} {m k : Machine} {r : Report}

theorem foldl_report_lastValue (es : List Error) (m : Machine) :
    (es.foldl report m).lastValue = m.lastValue := by
  induction es generalizing m with
  | nil => rfl
  | cons e es ih => exact ih (m.report e)

/-- The run of a script does not depend on the last result of what ran before. -/
theorem runScript_lastValue (v : Value) :
    ({ m with lastValue := v }).runScript setting fuel source = m.runScript setting fuel source :=
  rfl

theorem lastValue_of_runScript (hrun : m.runScript setting fuel source = some (r, k)) :
    k.lastValue = .null := by
  unfold runScript at hrun
  split at hrun
  · cases hrun
    rfl
  · obtain ⟨j, -, -, rfl⟩ := runProgram_eq_some rfl hrun
    rfl

/-- **The reported value is the last result of the run that is not `null`.** When a script ends, in
whatever state it started, its report gives the last value in the trace of its run that an
expression got and that is not `null`, and `null` if there is none or if the text of the script is
at fault. The trace is one of the same run, and it has every value when its expression gets it, also
inside functions, in conditions and in arguments, and up to the error that ends the run. The
register is empty afterwards, and what it held before makes no difference. -/
theorem reported_value_is_last_result (hrun : m.runScript setting fuel source = some (r, k)) :
    (∀ e, scan source = .error e → r.value = .null) ∧
    (∀ tokens, scan source = .ok tokens →
      let program := Program.ofTokens tokens
      let start := program.errors.foldl report m.forget
      let run := Traced.executeAll setting fuel [] program.statements start
      run.2 = executeAll setting fuel [] program.statements start ∧
      r.value = lastNonNull .null (results run.1)) ∧
    (∀ n held e i j v, evaluate setting n held e i = .done v j →
      (Traced.evaluate setting n held e i).2 = .done v j ∧
      (Traced.evaluate setting n held e i).1.getLast? = some (.result v)) ∧
    k.lastValue = .null ∧
    ∀ v, ({ m with lastValue := v }).runScript setting fuel source = some (r, k) := by
  have hfinal := lastValue_of_runScript hrun
  refine ⟨?_, ?_, ?_, hfinal, fun v => (runScript_lastValue v).trans hrun⟩
  · intro e he
    unfold runScript at hrun
    rw [he] at hrun
    cases hrun
    rfl
  · intro tokens htokens program start run
    have herase : run.2 = executeAll setting fuel [] program.statements start :=
      congrFun ((erase_traced setting fuel).executeAll [] program.statements) start
    have hremembers := ((Traced.remembers_invariant setting).ofFuel fuel).executeAll []
      program.statements start
    unfold runScript at hrun
    rw [htokens] at hrun
    obtain ⟨j, hj, rfl, -⟩ := runProgram_eq_some herase.symm hrun
    refine ⟨herase, ?_⟩
    calc j.lastValue
        = lastNonNull start.lastValue (results run.1) := hremembers j hj
      _ = lastNonNull .null (results run.1) := by
        rw [foldl_report_lastValue program.errors m.forget]
        rfl
  · intro n held e i j v h
    have herase := congrFun ((erase_traced setting n).evaluate held e) i
    exact ⟨herase.trans h, Traced.getLast?_evaluate h⟩

/-- A script that fails in the middle of an operator, after a call whose value is `null`: the last
result that is not `null` is one inside the function. -/
theorem reported_value_is_last_result_at_failure :
    let source := "function f(x) \x7b x + 1; return null; \x7d f(1); 7 * -f(2);"
    ∃ r k tokens, (start .unlimited).runScript .standard 30 source = some (r, k) ∧
      scan source = .ok tokens ∧
      r.errors = [.runtime (.operandNotNumber "-") 1] ∧ r.value.text = "3" ∧
      let run := Traced.executeAll .standard 30 [] (Program.ofTokens tokens).statements
        ((Program.ofTokens tokens).errors.foldl report (start .unlimited).forget)
      r.value = lastNonNull .null (results run.1) := by
  intro source
  have hany : ((start .unlimited).runScript .standard 30 source).any (fun x =>
      x.1.errors = [.runtime (.operandNotNumber "-") 1] ∧ x.1.value.text = "3") = true := by
    decide +kernel
  have hscan : (scan source).isOk = true := by decide +kernel
  obtain ⟨⟨r, k⟩, hrun, hend⟩ := (Option.any_eq_true _ _).1 hany
  obtain ⟨herrors, hvalue⟩ := of_decide_eq_true hend
  cases htokens : scan source with
  | error e =>
    rw [htokens] at hscan
    cases hscan
  | ok tokens =>
    obtain ⟨-, hrest, -⟩ := reported_value_is_last_result hrun
    exact ⟨r, k, tokens, hrun, rfl, herrors, hvalue, (hrest tokens htokens).2⟩

end Machine

end Scriptlet

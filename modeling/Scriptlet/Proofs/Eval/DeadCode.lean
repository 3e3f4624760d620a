import Scriptlet.Proofs.Eval.Indistinguishable
import Scriptlet.Proofs.Eval.Output
import Scriptlet.Proofs.Tree.Live

/-!
# Code behind a return is dead

A return ends the call it is made in, through any loops, conditionals and blocks, and outside of
calls it ends the program. So nothing that stands behind a return in a list of statements is ever
executed, and a program without its dead code is the same program to a host.
-/

namespace Scriptlet

/-! ### A call ends at its return -/

/-- The result of a computation, if it comes to one. -/
def Outcome.value? {α : Type} : Outcome α → Option α
  | .done a _ => some a
  | _ => none

@[simp] theorem Eval.value?_andThen {α : Type} (x : Eval α) (exit : Option α → Machine → Machine)
    (m : Machine) : (Eval.andThen x exit m).value? = (x m).value? := by
  unfold Eval.andThen
  cases x m <;> rfl

/-- A return with a value, as many calls deep as the level says. -/
def LogEntry.ReturnsAt (level : Nat) (v : Value) (d : LogEntry) : Prop :=
  d.level = level ∧ d.deed = .returns v

/-- A return at the given level is the last deed, and its value is the result. Without one there is
no result but `null`. -/
structure EndsAtReturn (level : Nat) (t : List LogEntry) (result : Option Value) : Prop where
  last : ∀ before d after v, t = before ++ d :: after → d.ReturnsAt level v → after = []
  value : ∀ d ∈ t, ∀ v, d.ReturnsAt level v → result = some v
  null : (∀ d ∈ t, ∀ v, ¬ d.ReturnsAt level v) → ∀ v ∈ result, v = .null

namespace EndsAtReturn

variable {level : Nat} {t u : List LogEntry} {result : Option Value}

/-- No result and no return. -/
theorem none (ht : ∀ d ∈ t, ∀ v, ¬ d.ReturnsAt level v) : EndsAtReturn level t none where
  last before d after v h hd := absurd hd (ht d (by simp [h]) v)
  value d hd v h := absurd h (ht d hd v)
  null _ v h := by cases h

theorem append (ht : ∀ d ∈ t, ∀ v, ¬ d.ReturnsAt level v) (h : EndsAtReturn level u result) :
    EndsAtReturn level (t ++ u) result where
  last before d after v heq hd := by
    rcases List.append_eq_append_iff.1 heq with ⟨before', rfl, hu⟩ | ⟨rest, rfl, hrest⟩
    · exact h.last before' d after v hu hd
    · cases rest with
      | nil => exact h.last [] d after v hrest.symm hd
      | cons d' rest =>
        obtain ⟨rfl, -⟩ := List.cons.inj hrest
        exact absurd hd (ht d (by simp) v)
  value d hd v hv := by
    rcases List.mem_append.1 hd with hd | hd
    · exact absurd hv (ht d hd v)
    · exact h.value d hd v hv
  null hnot := h.null fun d hd => hnot d (List.mem_append_right t hd)

/-- What happens in a call is one level deeper from outside. -/
theorem raise (h : EndsAtReturn level t result) :
    EndsAtReturn (level + 1) (t.map LogEntry.raise) result where
  last before d after v heq hd := by
    obtain ⟨before', rest, rfl, -, hrest⟩ := List.map_eq_append_iff.1 heq
    obtain ⟨d', after', rfl, rfl, rfl⟩ := List.map_eq_cons_iff.1 hrest
    rw [h.last before' d' after' v rfl ⟨Nat.succ.inj hd.1, hd.2⟩, List.map_nil]
  value d hd v hv := by
    obtain ⟨d', hd', rfl⟩ := List.mem_map.1 hd
    exact h.value d' hd' v ⟨Nat.succ.inj hv.1, hv.2⟩
  null hnot := h.null fun d hd v hv =>
    hnot d.raise (List.mem_map_of_mem hd) v ⟨congrArg (· + 1) hv.1, hv.2⟩

end EndsAtReturn

theorem LogEntry.ReturnsAt.isTopReturn {d : LogEntry} {v : Value} (h : d.ReturnsAt 0 v) :
    d.IsTopReturn := ⟨h.1, v, h.2⟩

/-- A body gives the call the value of its return. -/
theorem ReturnsLast.endsAtReturn {t : List LogEntry} {o : Outcome Flow} (h : ReturnsLast t o) :
    EndsAtReturn 0 t (o.value?.map Flow.value) where
  last before d after v ht hd := by
    subst ht
    exact LogEntry.eq_nil_of_pairwise h.last fun hnot => hnot hd.isTopReturn
  value d hd v hv := by
    obtain ⟨k, rfl⟩ := (h.flow v).1 ⟨d, hd, hv⟩
    rfl
  null hnot v hv := by
    cases o with
    | done flow k =>
      cases flow with
      | normal =>
        cases hv
        rfl
      | ret w =>
        obtain ⟨d, hd, hw⟩ := (h.flow w).2 ⟨k, rfl⟩
        exact absurd hw (hnot d hd w)
    | failed e k => cases hv
    | outOfFuel => cases hv

namespace Recorded

variable {α : Type}

/-- What the body of a function comes to is the value of the call. -/
theorem Returning.endsAtReturn {x : Recorded Flow} (hx : x.Returning) (m : Machine) :
    let call := (x >>= fun flow => pure flow.value) m
    EndsAtReturn 0 call.1 call.2.value? := by
  intro call
  refine Recording.bind_cases (Q := fun r => ReturnsLast r.1 r.2)
    (P := fun r => EndsAtReturn 0 r.1 r.2.value?) (hx m) (fun t flow k hm => ?_)
    (fun t e k hm => ?_) fun t hm => ?_
  · change EndsAtReturn 0 (t ++ []) (some flow.value)
    rw [List.append_nil]
    exact hm.endsAtReturn
  · exact hm.endsAtReturn
  · exact hm.endsAtReturn

/-- A computation without a return outside of calls leaves it to the one that follows. -/
theorem Inner.endsAtReturn {x : Recorded α} {f : α → Recorded Value} (hx : x.Inner)
    (hf : ∀ a m, EndsAtReturn 0 (f a m).1 (f a m).2.value?) (m : Machine) :
    EndsAtReturn 0 ((x >>= f) m).1 ((x >>= f) m).2.value? := by
  have hnot : ∀ d ∈ (x m).1, ∀ v, ¬ d.ReturnsAt 0 v := fun d hd v h => hx m d hd h.isTopReturn
  refine Recording.bind_cases
    (Q := fun r : List LogEntry × Outcome α => ∀ d ∈ r.1, ∀ v, ¬ d.ReturnsAt 0 v)
    (P := fun r => EndsAtReturn 0 r.1 r.2.value?) hnot (fun t a k hm => ?_) (fun t e k hm => ?_)
    fun t hm => ?_
  · exact .append hm (hf a k)
  · exact .none hm
  · exact .none hm

/-- A failure is no return. -/
theorem endsAtReturn_fail (e : Error) (m : Machine) :
    let call := (Semantics.recorded.step (Eval.fail e) : Recorded Value) m
    EndsAtReturn 1 call.1 call.2.value? := by
  refine .none fun d hd v hv => ?_
  cases List.mem_singleton.1 hd
  cases hv.1

end Recorded

namespace Evaluator

/-- What happens in a call happens one level deeper. -/
theorem endsAtReturn_call (setting : Setting) (line : Nat) {x : Recorded Value}
    (hx : ∀ m, EndsAtReturn 0 (x m).1 (x m).2.value?) (m : Machine) :
    let call := Semantics.recorded.call setting line x m
    EndsAtReturn 1 call.1 call.2.value? := by
  intro call
  refine Semantics.recording_call_cases (P := fun r => EndsAtReturn 1 r.1 r.2.value?)
    (fun _ => Recorded.endsAtReturn_fail (.runtime .stackOverflow line) m) fun _ => ?_
  have hvalue : (Eval.counted x.erase m).value? =
      (x { m with callDepth := m.callDepth + 1 }).2.value? := by
    rw [Eval.counted_apply, Eval.value?_andThen]
    rfl
  rw [hvalue]
  exact (hx _).raise

/-- **A call ends at its return**, whatever loops, conditionals and blocks it stands in. -/
theorem Returning.endsAtReturn_called {L : Evaluator Recorded} (hL : Returning L)
    (setting : Setting) (held : List Reference) (line : Nat) (args : List Value) (id : FunctionId)
    {decl : FunctionDecl} (hbody : ∀ s ∈ decl.body, Stmt.PlainHeaders s) (frame : FrameId)
    (m : Machine) :
    let call := L.called .recorded setting held line args (.function id (.closure decl frame)) m
    EndsAtReturn 1 call.1 call.2.value? := by
  rw [Evaluator.called]
  split
  · exact Recorded.endsAtReturn_fail _ m
  · refine endsAtReturn_call setting line (fun k => ?_) m
    refine Recorded.Inner.endsAtReturn (.step _) (fun inner => ?_) k
    exact (hL.executeBlock held decl.body inner hbody).endsAtReturn

end Evaluator

/-! ### Programs without dead code -/

theorem Program.resembles_live (program : Program) : program.Resembles .live program.live :=
  ⟨(Stmt.liveEach_liveEach program.statements).symm, rfl⟩

theorem Program.live_resembles (program : Program) : program.live.Resembles .live program :=
  ⟨Stmt.liveEach_liveEach program.statements, rfl⟩

/-- **What stands behind a return is dead.** On every machine that a host can come to, a program and
the same program without the statements behind a return in any list of statements are the same, as a
script and as statements that the host runs itself: they end alike or not at all, with the same
output, errors and last result, and no host can tell the machines apart afterwards. For a return
outside of calls is the last deed of the program, and a return in a function that a program declares
is the last deed of the call, and gives the call its value. -/
theorem code_behind_return_is_dead {setting : Setting} (hhost : setting.host.Parametric)
    {m : Machine} (hm : m.Hosted setting) (tokens : List Token) :
    let program := Program.ofTokens tokens
    SameReports setting .live (fun n => m.forget.runProgram setting n program)
      (fun n => m.forget.runProgram setting n program.live) ∧
    SameRuns setting .live True (fun n => executeAll setting n [] program.statements m)
      (fun n => executeAll setting n [] program.live.statements m) ∧
    (∀ n k,
      let run := (Evaluator.recorded setting n).executeAll [] program.statements k
      run.2 = executeAll setting n [] program.statements k ∧ ReturnsLast run.1 run.2) ∧
    ∀ decl ∈ Stmt.declaredEach program.statements, ∀ n held line args id frame k,
      let f := Value.function id (.closure decl frame)
      let call := (Evaluator.recorded setting n).invoke (.value f :: held) line f args k
      call.2 = invoke setting n (.value f :: held) line f args k ∧
        EndsAtReturn 1 call.1 call.2.value? := by
  intro program
  refine ⟨?_, ?_, fun n k => ⟨?_, ?_⟩, fun decl hdecl n held line args id frame k => ⟨?_, ?_⟩⟩
  · exact (hm.rooted hhost.keepsToArguments).forget.sameReports hhost program.resembles_live
      program.live_resembles
  · exact sameRuns_of_resembles hhost hm program.resembles_live.statements
      program.live_resembles.statements
  · exact congrFun ((erase_recorded setting n).executeAll [] program.statements) k
  · exact (Evaluator.Returning.recorded setting n).executeAll [] program.statements
      (fun _ => Program.plainHeaders_of_mem) k
  · exact congrFun ((erase_recorded setting n).invoke _ line _ args List.mem_cons_self) k
  · cases n with
    | zero => exact .none (List.forall_mem_nil _)
    | succ n =>
      exact (Evaluator.Returning.recorded setting n).endsAtReturn_called setting _ line args id
        (Program.plainHeaders_of_mem_declared hdecl) frame k

/-- A function that returns out of two loops and a block, and a return outside of calls, both with
a statement behind them. -/
theorem code_behind_return_is_dead_in_loops :
    let source := "function f() \x7b while (true) for (;;) \x7b return 1; print 2; \x7d \x7d " ++
      "print f(); return 3; print 4;"
    ∃ tokens decl, scan source = .ok tokens ∧
      let program := Program.ofTokens tokens
      program.statements.length = 4 ∧ program.live.statements.length = 3 ∧
      (((Machine.start .unlimited).forget.runProgram .standard 30 program).any fun x =>
        x.1.errors.length = 0 ∧ x.2.sink.written.size = 2) = true ∧
      SameReports .standard .live
        (fun n => (Machine.start .unlimited).forget.runProgram .standard n program)
        (fun n => (Machine.start .unlimited).forget.runProgram .standard n program.live) ∧
      decl ∈ Stmt.declaredEach program.statements ∧
      ∀ n held k,
        let f := Value.function 0 (.closure decl Machine.globals)
        let call := (Evaluator.recorded .standard n).invoke (.value f :: held) 1 f [] k
        EndsAtReturn 1 call.1 call.2.value? := by
  intro source
  have hsource : ((scan source).toOption.any fun tokens =>
      (Program.ofTokens tokens).statements.length = 4 ∧
      (Program.ofTokens tokens).live.statements.length = 3 ∧
      ((Machine.start .unlimited).forget.runProgram .standard 30 (.ofTokens tokens)).any (fun x =>
        x.1.errors.length = 0 ∧ x.2.sink.written.size = 2) = true ∧
      (Stmt.declaredEach (Program.ofTokens tokens).statements).length = 1) = true := by
    decide +kernel
  cases htokens : scan source with
  | error e =>
    rw [htokens] at hsource
    cases hsource
  | ok tokens =>
    rw [htokens] at hsource
    obtain ⟨hlength, hlive, hrun, hdeclared⟩ := of_decide_eq_true hsource
    obtain ⟨decl, hdecl⟩ := List.length_eq_one_iff.1 hdeclared
    have hmem : decl ∈ Stmt.declaredEach (Program.ofTokens tokens).statements := by simp [hdecl]
    have hhost : Setting.standard.host.Parametric := Host.standard_parametric
    obtain ⟨hreports, -, -, hcalls⟩ := code_behind_return_is_dead hhost (.start .unlimited) tokens
    refine ⟨tokens, decl, rfl, hlength, hlive, hrun, hreports, hmem, fun n held k => ?_⟩
    exact (hcalls decl hmem n held 1 [] 0 Machine.globals k).2

end Scriptlet

import Scriptlet.Proofs.Eval.Deeds
import Scriptlet.Proofs.Grammar.Headers
import Scriptlet.Proofs.Token.LineBreak

/-!
# What a script writes and reports

A script writes its errors and what it prints, each once and in the order in which things happen:
what is wrong with its text or its grammar, what its statements print, and the failure that ends it.
A failure is the last thing that happens, and so is a return outside of calls, since no loop header
can hold one (`Evaluator.Returning.recorded`).
-/

namespace Scriptlet

/-- A return outside of calls. -/
def LogEntry.IsTopReturn (d : LogEntry) : Prop := d.level = 0 ∧ ∃ v, d.deed = .returns v

/-! ### Computations without a return outside of calls -/

namespace Recorded

variable {α β : Type}

/-- A computation that comes to no return outside of calls. -/
def Inner (x : Recorded α) : Prop := ∀ m, ∀ d ∈ (x m).1, ¬ d.IsTopReturn

/-- A deed of two computations is a deed of one of them. -/
theorem mem_bind {x : Recorded α} {f : α → Recorded β} {m : Machine} {d : LogEntry}
    (hd : d ∈ ((x >>= f) m).1) : d ∈ (x m).1 ∨ ∃ a k, d ∈ (f a k).1 := by
  revert hd
  refine Recording.bind_cases (Q := fun r => d ∈ r.1 → d ∈ (x m).1)
    (P := fun r => d ∈ r.1 → d ∈ (x m).1 ∨ ∃ a k, d ∈ (f a k).1) id
    (fun t a k hm hd => ?_) (fun t e k hm hd => ?_) fun t hm hd => ?_
  · exact (List.mem_append.1 hd).imp hm fun hd => ⟨a, k, hd⟩
  · exact .inl (hm hd)
  · exact .inl (hm hd)

namespace Inner

theorem pure (a : α) : Inner (pure a : Recorded α) := by
  intro m d hd
  cases hd

/-- Computations without a return outside of calls may be run one after another. -/
theorem bind {x : Recorded α} {f : α → Recorded β} (hx : x.Inner) (hf : ∀ a, (f a).Inner) :
    (x >>= f).Inner := by
  intro m d hd
  rcases mem_bind hd with hd | ⟨a, k, hd⟩
  · exact hx m d hd
  · exact hf a k d hd

theorem act {deed : α → Deed} (hdeed : ∀ a v, deed a ≠ .returns v) (x : Eval α) :
    (act deed x).Inner := by
  intro m d hd
  change d ∈ (x m).entries deed at hd
  cases hx : x m with
  | done a k =>
    rw [hx] at hd
    cases List.mem_singleton.1 hd
    rintro ⟨-, v, hv⟩
    exact hdeed a v hv
  | failed e k =>
    rw [hx] at hd
    cases List.mem_singleton.1 hd
    rintro ⟨-, v, hv⟩
    cases hv
  | outOfFuel =>
    rw [hx] at hd
    cases hd

theorem step (x : Eval α) : (Semantics.recorded.step x).Inner := act (by simp) x

/-- What happens in a call happens inside of it. -/
theorem call (setting : Setting) (line : Nat) (x : Recorded α) :
    (Semantics.recorded.call setting line x).Inner := by
  intro m
  refine Semantics.recording_call_cases
    (P := fun r => ∀ d : LogEntry, d ∈ r.1 → ¬ d.IsTopReturn) (fun _ d hd => ?_) fun _ d hd => ?_
  · cases List.mem_singleton.1 hd
    rintro ⟨-, v, hv⟩
    cases hv
  · obtain ⟨d', -, rfl⟩ := List.mem_map.1 hd
    rintro ⟨hlevel, -⟩
    cases hlevel

end Inner

end Recorded

namespace Evaluator

/-- Expressions and the clauses of loop headers come to no return outside of calls. -/
structure Inner (L : Evaluator Recorded) : Prop where
  evaluate : ∀ held e, (L.evaluate held e).Inner
  evaluateEach : ∀ held es, (L.evaluateEach held es).Inner
  invoke : ∀ held line f args, (L.invoke held line f args).Inner
  clause : ∀ held s, s.isClause = true → (L.execute held s).Inner

namespace Inner

open Recorded.Inner

variable {L : Evaluator Recorded}

theorem valueOr (h : Inner L) (held : List Reference) (v : Value) (e : Option Expr) :
    (L.valueOr held v e).Inner := by
  cases e with
  | some e => exact h.evaluate held e
  | none => exact .pure v

/-- No node of an expression comes to a return outside of calls. -/
theorem node (h : Inner L) (held : List Reference) (e : Expr) :
    (L.node .recorded held e).Inner := by
  cases e with
  | literal value => exact .pure _
  | group inner => exact h.evaluate held inner
  | var name => exact .step _
  | assign name value =>
    exact .bind (h.evaluate held value) fun v => .bind (.step _) fun _ => .pure v
  | unary operator operand => exact .bind (h.evaluate held operand) fun v => .step _
  | binary left operator right =>
    exact .bind (h.evaluate held left) fun a => .bind (h.evaluate _ right) fun b => .step _
  | logical left operator right =>
    refine .bind (h.evaluate held left) fun a => ?_
    split
    · exact .pure a
    · exact h.evaluate _ right
  | call callee paren arguments =>
    refine .bind (h.evaluate held callee) fun f => ?_
    exact .bind (h.evaluateEach _ arguments) fun args => h.invoke _ _ f args

theorem each (h : Inner L) (held : List Reference) (es : List Expr) : (L.each held es).Inner := by
  cases es with
  | nil => exact .pure []
  | cons e es =>
    exact .bind (h.evaluate held e) fun v => .bind (h.evaluateEach _ es) fun vs => .pure _

/-- A call comes to no return outside of calls. -/
theorem called (setting : Setting) (held : List Reference) (line : Nat) (args : List Value)
    (f : Value) : (L.called .recorded setting held line args f).Inner := by
  cases f with
  | function id callable =>
    rw [Evaluator.called]
    split
    · exact .step _
    · exact .call setting line _
  | number _ | string _ | boolean _ | null => exact .step _

theorem recorded (setting : Setting) (n : Nat) : Inner (recorded setting n) := by
  induction n with
  | zero => exact ⟨fun _ _ => .step _, fun _ _ => .step _, fun _ _ _ _ => .step _,
      fun _ _ _ => .step _⟩
  | succ n ih =>
    refine ⟨fun held e => .bind (ih.node held e) fun v => .step _, ih.each,
      fun held line f args => called setting held line args f, fun held s hs => ?_⟩
    refine .bind (.act (by simp) _) fun _ => ?_
    cases s with
    | expression e => exact .bind (ih.evaluate held e) fun _ => .pure _
    | var name initializer =>
      exact .bind (ih.valueOr held .null initializer) fun v => .bind (.step _) fun _ => .pure _
    | print | block | function | ifElse | whileLoop | forLoop | ret => cases hs

end Inner

end Evaluator

/-! ### Statements end at a return outside of calls -/

/-- A return outside of calls is the last deed, and the statements then end with it. -/
structure ReturnsLast (t : List LogEntry) (o : Outcome Flow) : Prop where
  /-- A deed that another one follows is no such return. -/
  last : t.Pairwise fun d _ => ¬ d.IsTopReturn
  flow : ∀ v, (∃ d ∈ t, d.level = 0 ∧ d.deed = .returns v) ↔ ∃ k, o = .done (.ret v) k

namespace ReturnsLast

variable {t u : List LogEntry} {o o' : Outcome Flow} {k : Machine}

/-- Without a return outside of calls, none is the end. -/
theorem of_inner (ht : ∀ d ∈ t, ¬ d.IsTopReturn) (ho : ∀ v k, o ≠ .done (.ret v) k) :
    ReturnsLast t o where
  last := List.pairwise_of_forall_mem_list fun d hd _ _ => ht d hd
  flow v := by
    constructor
    · rintro ⟨d, hd, hlevel, hdeed⟩
      exact absurd ⟨hlevel, v, hdeed⟩ (ht d hd)
    · rintro ⟨k, hk⟩
      exact absurd hk (ho v k)

/-- If statements end without a return, none was on the way. -/
theorem not_isTopReturn (h : ReturnsLast t (.done .normal k)) {d : LogEntry} (hd : d ∈ t) :
    ¬ d.IsTopReturn := by
  rintro ⟨hlevel, v, hdeed⟩
  obtain ⟨j, hj⟩ := (h.flow v).1 ⟨d, hd, hlevel, hdeed⟩
  cases hj

theorem append (ht : ∀ d ∈ t, ¬ d.IsTopReturn) (h : ReturnsLast u o) : ReturnsLast (t ++ u) o where
  last := List.pairwise_append.2
    ⟨List.pairwise_of_forall_mem_list fun d hd _ _ => ht d hd, h.last, fun d hd _ _ => ht d hd⟩
  flow v := by
    rw [← h.flow v]
    constructor
    · rintro ⟨d, hd, hlevel, hdeed⟩
      rcases List.mem_append.1 hd with hd | hd
      · exact absurd ⟨hlevel, v, hdeed⟩ (ht d hd)
      · exact ⟨d, hd, hlevel, hdeed⟩
    · rintro ⟨d, hd, hdeed⟩
      exact ⟨d, List.mem_append_right t hd, hdeed⟩

/-- A change of nothing that matters keeps the return the last deed. -/
theorem of_rests (h : ReturnsLast t o) (ho : o.Rests o') : ReturnsLast t o' := by
  refine ⟨h.last, fun v => ?_⟩
  rw [h.flow v]
  cases ho <;> simp

end ReturnsLast

namespace Recorded

/-- A computation of which a return outside of calls is the end. -/
def Returning (x : Recorded Flow) : Prop := ∀ m, ReturnsLast (x m).1 (x m).2

namespace Returning

variable {α : Type}

theorem normal : Returning (pure .normal) := by
  intro m
  refine .of_inner (fun d hd => ?_) fun v k hk => ?_
  · cases hd
  · cases hk

theorem exhausted : Returning (Semantics.recorded.step Eval.exhausted) := by
  intro m
  refine .of_inner (fun d hd => ?_) fun v k hk => ?_
  · cases hd
  · cases hk

/-- A return statement comes to a return, and that is its end. -/
theorem returns (v : Value) : Returning (act (fun _ => .returns v) (pure (.ret v))) := by
  intro m
  refine ⟨List.pairwise_singleton _ _, fun w => ?_⟩
  constructor
  · rintro ⟨d, hd, -, hdeed⟩
    cases List.mem_singleton.1 hd
    cases hdeed
    exact ⟨m, rfl⟩
  · rintro ⟨k, hk⟩
    cases hk
    exact ⟨_, List.mem_singleton_self _, rfl, rfl⟩

/-- What comes before a return outside of calls is no such return. -/
theorem bind {x : Recorded α} {f : α → Recorded Flow} (hx : x.Inner) (hf : ∀ a, (f a).Returning) :
    (x >>= f).Returning := by
  intro m
  refine Recording.bind_cases
    (Q := fun r : List LogEntry × Outcome α => ∀ d ∈ r.1, ¬ d.IsTopReturn)
    (P := fun r => ReturnsLast r.1 r.2) (hx m) (fun t a k hm => ?_) (fun t e k hm => ?_)
    fun t hm => ?_
  · exact .append hm (hf a k)
  · exact .of_inner hm (by simp)
  · exact .of_inner hm (by simp)

/-- What follows statements runs unless they came to a return. -/
theorem bind_onward {x k : Recorded Flow} (hx : x.Returning) (hk : k.Returning) :
    (x >>= Evaluator.onward k).Returning := by
  intro m
  refine Recording.bind_cases (Q := fun r => ReturnsLast r.1 r.2)
    (P := fun r => ReturnsLast r.1 r.2) (hx m) (fun t flow j hm => ?_) (fun t e j hm => ?_)
    fun t hm => ?_
  · cases flow with
    | normal => exact .append (fun _ => hm.not_isTopReturn) (hk j)
    | ret v =>
      change ReturnsLast (t ++ []) (.done (.ret v) j)
      rwa [List.append_nil]
  · exact hm
  · exact hm

end Returning

end Recorded

namespace Evaluator

/-- Statements with plain loop headers end at a return outside of calls. -/
structure Returning (L : Evaluator Recorded) : Prop where
  execute : ∀ held s, s.PlainHeaders → (L.execute held s).Returning
  executeAll : ∀ held ss, (∀ s ∈ ss, Stmt.PlainHeaders s) → (L.executeAll held ss).Returning
  executeBlock : ∀ held ss frame, (∀ s ∈ ss, Stmt.PlainHeaders s) →
    (L.executeBlock held ss frame).Returning

namespace Returning

variable {L : Evaluator Recorded} {s : Stmt}

/-- A statement ends at its return, whatever it is made of. -/
theorem statement (hL : Inner L) (h : Returning L) (held : List Reference)
    (hs : s.PlainHeaders) : (L.recordedStatement held s).Returning := by
  cases hs with
  | expression e => exact .bind (hL.evaluate held e) fun _ => .normal
  | print e =>
    refine .bind (hL.evaluate held e) fun v => ?_
    exact .bind (.act (by simp) _) fun _ => .normal
  | var name initializer =>
    refine .bind (hL.valueOr held .null initializer) fun v => ?_
    exact .bind (.step _) fun _ => .normal
  | function name params body => exact .bind (.step _) fun _ => .normal
  | block hbody =>
    refine .bind (.step _) fun current => .bind (.step _) fun frame => ?_
    exact h.executeBlock held _ frame hbody
  | @ifElse condition thenBranch elseBranch hthen helse =>
    refine .bind (hL.evaluate held condition) fun v => ?_
    split
    · exact h.execute held thenBranch hthen
    · cases elseBranch with
      | some s => exact h.execute held s (helse s rfl)
      | none => exact .normal
  | whileLoop condition hbody =>
    refine .bind (hL.evaluate held condition) fun v => ?_
    split
    · exact .bind_onward (h.execute held _ hbody) (h.execute held _ (.whileLoop condition hbody))
    · exact .normal
  | @forLoop initializer condition increment body hinit hbody =>
    have hheader : Stmt.PlainHeaders (.forLoop none condition increment body) :=
      .forLoop condition increment (by simp) hbody
    have hagain := h.execute held _ hheader
    cases initializer with
    -- The flow of an initializer is dropped: a return in it would go unheeded, were it no clause.
    | some s => exact .bind (hL.clause held s (hinit s rfl)) fun _ => hagain
    | none =>
      refine .bind (hL.valueOr held _ condition) fun v => ?_
      split
      · refine .bind_onward (h.execute held body hbody) ?_
        exact .bind (hL.valueOr held .null increment) fun _ => hagain
      · exact .normal
  | ret keyword value => exact .bind (hL.valueOr held .null value) .returns

theorem recorded (setting : Setting) (n : Nat) : Returning (recorded setting n) := by
  induction n with
  | zero => exact ⟨fun _ _ _ => .exhausted, fun _ _ _ => .exhausted, fun _ _ _ _ => .exhausted⟩
  | succ n ih =>
    refine ⟨fun held s hs => ?_, fun held ss hss => ?_, fun held ss frame hss m => ?_⟩
    · exact .bind (.act (by simp) _) fun _ => statement (.recorded setting n) ih held hs
    · cases ss with
      | nil => exact .normal
      | cons s ss =>
        obtain ⟨hs, hss⟩ := List.forall_mem_cons.1 hss
        exact .bind_onward (ih.execute held s hs) (ih.executeAll held ss hss)
    -- To leave a block is no deed: it changes the state and neither the record nor the flow.
    · refine (ih.executeAll _ ss hss { m with current := frame }).of_rests ?_
      exact Eval.rests_andThen (Recording.erase _) (.leave setting held frame m.current) _

end Returning

end Evaluator

/-! ### Scripts -/

/-- What keeps a script from being split into tokens is the fault of a bite. -/
theorem exists_fault_of_scan {source : String} {e : Error} (h : scan source = .error e) :
    ∃ d ds fault line, (bite d ds).piece = .fault fault ∧ e = .lex fault line := by
  obtain ⟨ts, after, hitems⟩ := mapM_id_eq_error_iff.1 h
  have hmem : .error e ∈ items 1 source.toList := by
    rw [show items 1 source.toList = _ from hitems]
    simp
  exact exists_fault_of_mem_items 1 hmem

/-- A text that does not scan has a fault at some line. -/
theorem exists_lex_of_scan {source : String} {e : Error} (h : scan source = .error e) :
    ∃ fault line, e = .lex fault line := by
  obtain ⟨-, -, fault, line, -, he⟩ := exists_fault_of_scan h
  exact ⟨fault, line, he⟩

/-- Every error found by reading tokens is one of grammar. -/
theorem Program.exists_parse_of_mem_errors {tokens : List Token} {e : Error}
    (he : e ∈ (Program.ofTokens tokens).errors) :
    ∃ site complaint line, e = .parse site complaint line := by
  obtain ⟨⟨site, complaint⟩, -, rfl⟩ := List.mem_map.1 he
  cases site <;> exact ⟨_, _, _, rfl⟩

/-- The error that an outcome ends with. -/
def Outcome.failure? {α : Type} : Outcome α → Option Error
  | .failed e _ => some e
  | _ => none

theorem Outcome.failure?_eq_some_iff {α : Type} {o : Outcome α} {e : Error} :
    o.failure? = some e ↔ ∃ k, o = .failed e k := by
  cases o <;> simp [failure?]

/-- The end of a run: a failure, or a return outside of calls. -/
def LogEntry.EndsRun (d : LogEntry) : Prop := (∃ e, d.deed = .fails e) ∨ d.IsTopReturn

/-- Nothing follows a deed if all that are followed by another have a property that it has not. -/
theorem LogEntry.eq_nil_of_pairwise {P : LogEntry → Prop} {before after : List LogEntry}
    {d : LogEntry} (h : (before ++ d :: after).Pairwise fun d _ => P d) (hd : ¬ P d) :
    after = [] := by
  cases after with
  | nil => rfl
  | cons d' after =>
    exact absurd ((List.pairwise_cons.1 (List.pairwise_append.1 h).2.1).1 d' List.mem_cons_self) hd

/-- Nothing follows a failure or a return outside of calls. -/
theorem Accounts.eq_nil_of_endsRun {m : Machine} {t before after : List LogEntry} {d : LogEntry}
    {o : Outcome Flow} (h : Accounts m t o) (h' : ReturnsLast t o) (ht : t = before ++ d :: after)
    (hd : d.EndsRun) : after = [] := by
  subst ht
  rcases hd with ⟨e, he⟩ | hd
  · exact LogEntry.eq_nil_of_pairwise h.failsLast fun hne => hne e he
  · exact LogEntry.eq_nil_of_pairwise h'.last fun hnot => hnot hd

namespace Machine

variable {setting : Setting} {fuel : Nat} {source : String} {m k : Machine} {r : Report}

/-- Reports go to a sink without limit as lines, and change nothing else. -/
theorem foldl_report_of_room (es : List Error) {m : Machine} (hm : m.sink.room = none) :
    es.foldl report m = { m with sink := m.sink.withLines (es.map Error.message) } := by
  induction es generalizing m with
  | nil => simp
  | cons e es ih =>
    have hreport : m.report e = { m with sink := m.sink.withLines [e.message] } := by
      rw [report, Sink.writeLine_of_room hm]
    have hrest := ih (m := m.report e) (by rw [hreport]; exact hm)
    rw [List.foldl_cons, hrest, hreport, ← Sink.withLines_append]
    rfl

/-- The report of a program and the state it leaves, from how its statements end. -/
theorem runProgram_eq_some {program : Program} {o : Outcome Flow}
    (ho : executeAll setting fuel [] program.statements (program.errors.foldl report m) = o)
    (hrun : m.runProgram setting fuel program = some (r, k)) :
    ∃ j, o.final? = some j ∧ r = ⟨j.lastValue, program.errors ++ o.failure?.toList⟩ ∧
      k = (o.failure?.toList.foldl report j).forget := by
  rw [runProgram, ho] at hrun
  cases o with
  | done flow j =>
    cases hrun
    exact ⟨j, rfl, by simp [Outcome.failure?], rfl⟩
  | failed e j =>
    cases hrun
    exact ⟨j, rfl, rfl, rfl⟩
  | outOfFuel => cases hrun

/-- What a program reports and writes, and the state it leaves, from a record of its run. -/
theorem runProgram_fits {program : Program} {t : List LogEntry} {o : Outcome Flow}
    (hroom : m.sink.room = none) (h : Accounts (program.errors.foldl report m) t o)
    (ho : executeAll setting fuel [] program.statements (program.errors.foldl report m) = o)
    (hrun : m.runProgram setting fuel program = some (r, k)) :
    let last := LogEntry.lastState (program.errors.foldl report m) t
    r = ⟨last.lastValue, program.errors ++ o.failure?.toList⟩ ∧
    k.sink = m.sink.withLines (program.errors.map Error.message ++
      (LogEntry.printed t).map Value.text ++ o.failure?.toList.map Error.message) ∧
    last.heap.Agree [.frame globals] k.heap ∧
    ∀ e ∈ o.failure?, ∃ fault line, e = .runtime fault line := by
  obtain ⟨j, hj, rfl, rfl⟩ := runProgram_eq_some ho hrun
  have hstart : (program.errors.foldl report m).sink =
      m.sink.withLines (program.errors.map Error.message) := by
    rw [foldl_report_of_room program.errors hroom]
  have hstartRoom : (program.errors.foldl report m).sink.room = none := by
    rw [hstart]
    exact hroom
  have hsink := h.output hstartRoom j hj
  have hrests := h.rests j hj
  have hjRoom : j.sink.room = none := by
    rw [hsink]
    exact hstartRoom
  rw [foldl_report_of_room o.failure?.toList hjRoom]
  refine ⟨?_, ?_, hrests.heap.mono (List.cons_subset_cons _ (List.nil_subset _)), ?_⟩
  · rw [hrests.lastValue]
  · change j.sink.withLines _ = _
    rw [hsink, hstart, Sink.withLines_append, Sink.withLines_append]
  · intro e he
    obtain ⟨i, hi⟩ := Outcome.failure?_eq_some_iff.1 he
    exact h.runtime hstartRoom e i hi

/-- **What a script writes and what it reports fit together.** On a sink without limit, a script
whose text is at fault writes that one error, reports it alone, and leaves the rest of the machine
as it was. Any other script reports the errors of its grammar, in order, and then at most one error
of its run; it writes the errors of its grammar, what it prints, and the error of its run, one line
for each. That error is the last thing that happens, as is a return outside of calls: the state in
which they leave the global names is the state in which the script leaves them. -/
theorem output_fits_report (hroom : m.sink.room = none)
    (hrun : m.runScript setting fuel source = some (r, k)) :
    (∀ e, scan source = .error e → (∃ fault line, e = .lex fault line) ∧ r = ⟨.null, [e]⟩ ∧
      k = { m.forget with sink := m.sink.withLines [e.message] }) ∧
    ∀ tokens, scan source = .ok tokens →
      let program := Program.ofTokens tokens
      let start := program.errors.foldl report m.forget
      let run := (Evaluator.recorded setting fuel).executeAll [] program.statements start
      run.2 = executeAll setting fuel [] program.statements start ∧
      ∃ failure : Option Error,
        r.errors = program.errors ++ failure.toList ∧
        (∀ e ∈ program.errors, ∃ site complaint line, e = .parse site complaint line) ∧
        (∀ e ∈ failure, ∃ fault line, e = .runtime fault line) ∧
        k.sink = m.sink.withLines (program.errors.map Error.message ++
          (LogEntry.printed run.1).map Value.text ++ failure.toList.map Error.message) ∧
        (∀ e, (∃ d ∈ run.1, d.deed = .fails e) ↔ e ∈ failure) ∧
        (∀ v, (∃ d ∈ run.1, d.level = 0 ∧ d.deed = .returns v) ↔
          ∃ j, run.2 = .done (.ret v) j) ∧
        (∀ before d after, run.1 = before ++ d :: after → d.EndsRun → after = []) ∧
        r.value = (LogEntry.lastState start run.1).lastValue ∧
        (LogEntry.lastState start run.1).heap.Agree [.frame globals] k.heap := by
  unfold runScript at hrun
  constructor
  · intro e he
    rw [he] at hrun
    cases hrun
    exact ⟨exists_lex_of_scan he, rfl, foldl_report_of_room (m := m.forget) [e] hroom⟩
  · intro tokens htokens program start run
    rw [htokens] at hrun
    have herase : run.2 = executeAll setting fuel [] program.statements start :=
      congrFun ((erase_recorded setting fuel).executeAll [] program.statements) start
    have haccounts := recorded_accounts setting fuel [] program.statements start
    have hreturns := (Evaluator.Returning.recorded setting fuel).executeAll [] program.statements
      (fun _ => Program.plainHeaders_of_mem) start
    obtain ⟨hr, hsink, hheap, hruntime⟩ :=
      runProgram_fits (m := m.forget) hroom haccounts herase.symm hrun
    refine ⟨herase, run.2.failure?, ?_, fun _ => Program.exists_parse_of_mem_errors, hruntime,
      hsink, fun e => ?_, hreturns.flow, fun _ _ _ => haccounts.eq_nil_of_endsRun hreturns, ?_,
      hheap⟩
    · rw [hr]
    · rw [haccounts.fails e, Option.mem_def, Outcome.failure?_eq_some_iff]
    · rw [hr]

/-- A script with an error of grammar, a call that prints and returns, and a failure in the middle
of a block. -/
theorem output_fits_report_at_failure :
    let source :=
      "var; function f() \x7b print 1; return 2; \x7d print f(); \x7b -null; print 3; \x7d"
    ∃ r k tokens, (start .unlimited).runScript .standard 30 source = some (r, k) ∧
      scan source = .ok tokens ∧
      r.errors = [.parse (some ";") (.expected .variableName) 1,
        .runtime (.operandNotNumber "-") 1] ∧
      k.sink.written = "Error at ';': Expect variable name.\n1\n2\n".toUTF8 ++
        "Operand of '-' must be a number.\n".toUTF8 ∧
      let program := Program.ofTokens tokens
      let run := (Evaluator.recorded .standard 30).executeAll [] program.statements
        (program.errors.foldl report (start .unlimited).forget)
      ∀ before d after, run.1 = before ++ d :: after → d.EndsRun → after = [] := by
  intro source
  have hany : ((start .unlimited).runScript .standard 30 source).any (fun x =>
      x.1.errors = [.parse (some ";") (.expected .variableName) 1,
        .runtime (.operandNotNumber "-") 1] ∧
      x.2.sink.written = "Error at ';': Expect variable name.\n1\n2\n".toUTF8 ++
        "Operand of '-' must be a number.\n".toUTF8) = true := by
    decide +kernel
  have hscan : (scan source).isOk = true := by decide +kernel
  obtain ⟨⟨r, k⟩, hrun, hend⟩ := (Option.any_eq_true _ _).1 hany
  obtain ⟨herrors, hwritten⟩ := of_decide_eq_true hend
  cases htokens : scan source with
  | error e =>
    rw [htokens] at hscan
    cases hscan
  | ok tokens =>
    have hroom : (start .unlimited).sink.room = none := rfl
    obtain ⟨-, -, -, -, -, -, -, -, hlast, -⟩ := (output_fits_report hroom hrun).2 tokens htokens
    exact ⟨r, k, tokens, hrun, rfl, herrors, hwritten, hlast⟩

end Machine

end Scriptlet

import Scriptlet.Proofs.Eval.Mirror

/-!
# The evaluator side by side

Trees that resemble each other, on machines that correspond, come to corresponding ends. This is one
induction over the fuel of the first run, through all expressions and statements, for a setting
without releases and a host that does not look into functions.
-/

namespace Scriptlet

/-! ### Parentheses -/

theorem Eval.remember_bind (v : Value) : Eval.remember v >>= Eval.remember = Eval.remember v := by
  funext m
  change Eval.bind _ _ m = _
  by_cases hv : v.isNull
  · simp [Eval.bind, Eval.remember, hv]
  · simp [Eval.bind, Eval.remember, hv]

theorem evaluate_bind_remember (setting : Setting) (n : Nat) (held : List Reference) (e : Expr) :
    evaluate setting n held e >>= Eval.remember = evaluate setting n held e := by
  cases n with
  | zero =>
    rw [evaluate]
    rfl
  | succ n =>
    rw [evaluate_succ, bind_assoc]
    exact congrArg _ (funext Eval.remember_bind)

/-- Parentheses cost one unit of fuel and do nothing. -/
theorem evaluate_group (setting : Setting) (n : Nat) (held : List Reference) (e : Expr) :
    evaluate setting (n + 1) held (.group e) = evaluate setting n held e := by
  rw [evaluate_succ]
  exact evaluate_bind_remember setting n held e

/-- A return ends the list of statements it stands in. -/
theorem executeAll_ret (setting : Setting) (n : Nat) (held : List Reference) (keyword : Token)
    (value : Option Expr) (ss : List Stmt) :
    executeAll setting (n + 1) held (.ret keyword value :: ss) =
      execute setting n held (.ret keyword value) := by
  rw [executeAll]
  cases n with
  | zero =>
    rw [execute]
    rfl
  | succ n =>
    rw [execute_ret, bind_assoc]
    rfl

/-- Without releases, leaving a block only resets the current frame. -/
theorem Machine.leave_of_not_releases {setting : Setting} (hoff : setting.releases = false)
    (held : List Reference) (frame previous : FrameId) (flow : Option Flow) (m : Machine) :
    m.leave setting held frame previous flow = { m with current := previous } := by
  simp [Machine.leave, hoff]

/-! ### The evaluator -/

/-- All that runs with the given fuel is mirrored by what resembles it, on machines that
correspond. -/
structure Mirroring (setting : Setting) (T : Resemblance) (last : Prop) (n : Nat) : Prop where
  evaluate : ∀ {W i j e e'} held held', W.Scopes i j → T.expr e e' →
    Eval.Mirrors T last W i j (Value.Paired T) (evaluate setting n held e)
      fun k => evaluate setting k held' e'
  evaluateEach : ∀ {W i j es es'} held held', W.Scopes i j → List.Forall₂ T.expr es es' →
    Eval.Mirrors T last W i j (fun V => List.Forall₂ (Value.Paired T V))
      (evaluateEach setting n held es) fun k => evaluateEach setting k held' es'
  invoke : ∀ {W i j v v' args args'} held held' line, v.Paired T W v' →
    List.Forall₂ (Value.Paired T W) args args' →
    Eval.Mirrors T last W i j (Value.Paired T) (invoke setting n held line v args)
      fun k => invoke setting k held' line v' args'
  execute : ∀ {W i j s s'} held held', W.pair i j → T.stmt s s' →
    Eval.Mirrors T last W i j (Flow.Paired T)
      (execute setting n held s) fun k => execute setting k held' s'
  executeAll : ∀ {W i j ss ss'} held held', W.pair i j → T.body ss ss' →
    Eval.Mirrors T last W i j (Flow.Paired T)
      (executeAll setting n held ss) fun k => executeAll setting k held' ss'
  executeBlock : ∀ {W i j a b ss ss'} held held', W.pair a b → T.body ss ss' →
    Eval.Mirrors T last W i j (Flow.Paired T)
      (executeBlock setting n held ss a) fun k => executeBlock setting k held' ss' b

namespace Mirroring

variable {setting : Setting} {T : Resemblance} {last : Prop} {n : Nat} {W : Pairing}
  {i j : FrameId}

theorem zero : Mirroring setting T last 0 where
  evaluate _ _ _ _ := .exhausted
  evaluateEach _ _ _ _ := .exhausted
  invoke _ _ _ _ _ := .exhausted
  execute _ _ _ _ := .exhausted
  executeAll _ _ _ _ := .exhausted
  executeBlock _ _ _ _ := .exhausted

open Eval

theorem node (ih : Mirroring setting T last n) (held held' : List Reference) (hij : W.Scopes i j)
    {e e' : Expr} (h : e.Node T.expr e') :
    Mirrors T last W i j (Value.Paired T) (evaluateNode setting n held e)
      fun k => evaluateNode setting k held' e' := by
  cases h with
  | literal value => exact .pure (.ofLiteral value)
  | var name => exact .lookup hij name
  | assign name h =>
    refine .bind (ih.evaluate held held' hij h) fun V hV v v' hv => ?_
    exact .bind (.assign (hij.mono hV) name hv) fun U hU _ _ _ => .pure (hv.mono hU)
  | unary operator h =>
    refine .bind (ih.evaluate held held' hij h) fun V hV v v' hv => ?_
    exact .ofExcept operator.line (hv.applyUnary operator)
  | binary operator h h' =>
    refine .bind (ih.evaluate held held' hij h) fun V hV a a' ha => ?_
    refine .bind (ih.evaluate _ _ (hij.mono hV) h') fun U hU b b' hb => ?_
    exact .ofExcept operator.line ((ha.mono hU).applyBinary operator hb)
  | logical operator h h' =>
    refine .bind (ih.evaluate held held' hij h) fun V hV a a' ha => ?_
    rw [ha.shortCircuits operator]
    split
    · exact .pure ha
    · exact ih.evaluate _ _ (hij.mono hV) h'
  | call paren h h' =>
    refine .bind (ih.evaluate held held' hij h) fun V hV v v' hv => ?_
    refine .bind (ih.evaluateEach _ _ (hij.mono hV) h') fun U hU args args' hargs => ?_
    exact ih.invoke _ _ paren.line (hv.mono hU) hargs

/-- Parentheses on the left are passed by the fuel, those on the right one by one. -/
theorem succ_evaluate (ih : Mirroring setting T last n) (held held' : List Reference)
    (hij : W.Scopes i j) {e e' : Expr} (h : T.expr e e') :
    Mirrors T last W i j (Value.Paired T) (Scriptlet.evaluate setting (n + 1) held e)
      fun k => Scriptlet.evaluate setting k held' e' := by
  cases T.expr_layer h with
  | node hnode =>
    refine .step (fun k => evaluate_succ setting k held' e') ?_
    rw [evaluate_succ]
    exact .bind (ih.node held held' hij hnode) fun V hV v v' hv => .remember hv
  | group hinner =>
    refine .step (fun k => evaluate_group setting k held' _) ?_
    rw [evaluate_group]
    exact ih.evaluate held held' hij hinner
  | groupLeft hinner =>
    rw [evaluate_group]
    exact ih.evaluate held held' hij hinner
  | @groupRight _ inner hinner =>
    refine .step (fun k => evaluate_group setting k held' inner) ?_
    exact ih.succ_evaluate held held' hij hinner
termination_by e'

theorem valueOr (ih : Mirroring setting T last n) (held held' : List Reference)
    (hij : W.Scopes i j) {v : Value} (hv : v.Paired T W v) {e e' : Option Expr}
    (h : Option.Rel T.expr e e') :
    Mirrors T last W i j (Value.Paired T) (evaluateOr setting n held v e)
      fun k => evaluateOr setting k held' v e' := by
  cases h with
  | some h => exact ih.evaluate held held' hij h
  | none => exact .pure hv

theorem succ_evaluateEach (ih : Mirroring setting T last n) (held held' : List Reference)
    (hij : W.Scopes i j) {es es' : List Expr} (h : List.Forall₂ T.expr es es') :
    Mirrors T last W i j (fun V => List.Forall₂ (Value.Paired T V))
      (Scriptlet.evaluateEach setting (n + 1) held es)
      fun k => Scriptlet.evaluateEach setting k held' es' := by
  cases h with
  | nil =>
    refine .step (fun k => by rw [Scriptlet.evaluateEach]) ?_
    rw [Scriptlet.evaluateEach]
    exact .pure .nil
  | cons h h' =>
    refine .step (fun k => by rw [Scriptlet.evaluateEach]) ?_
    rw [Scriptlet.evaluateEach]
    refine .bind (ih.evaluate held held' hij h) fun V hV v v' hv => ?_
    refine .bind (ih.evaluateEach _ _ (hij.mono hV) h') fun U hU vs vs' hvs => ?_
    exact .pure (.cons (hv.mono hU) hvs)

theorem callable (hhost : setting.host.Parametric) (ih : Mirroring setting T last n)
    (held held' : List Reference) (line : Nat) {args args' : List Value}
    (hargs : List.Forall₂ (Value.Paired T W) args args') {c c' : Callable} (hc : c.Paired T W c') :
    Mirrors T last W i j (Value.Paired T) (runCallable setting n held line args c)
      fun k => runCallable setting k held' line args' c' := by
  cases hc with
  | closure name params hbody hscopes =>
    have hzip := BindingPaired.zip (params.map (·.lexeme)) hargs
    refine .bind (.newFrame hscopes hzip) fun V hV a b hab => ?_
    refine .bind (ih.executeBlock held held' hab hbody) fun U hU flow flow' hflow => ?_
    exact .pure hflow.value
  | host name arity key =>
    have hres := hhost _ Callable.Paired.keepsFace key args args' hargs
    exact .ofExcept line (hres.mapError RuntimeFault.native)

theorem succ_invoke (hhost : setting.host.Parametric) (ih : Mirroring setting T last n)
    (held held' : List Reference) (line : Nat) {v v' : Value} (hv : v.Paired T W v')
    {args args' : List Value} (hargs : List.Forall₂ (Value.Paired T W) args args') :
    Mirrors T last W i j (Value.Paired T) (Scriptlet.invoke setting (n + 1) held line v args)
      fun k => Scriptlet.invoke setting k held' line v' args' := by
  cases hv with
  | @function id c c' hc =>
    refine .step (fun k => invoke_function setting k held' line id c' args') ?_
    rw [invoke_function, hargs.length_eq, (Callable.Paired.keepsFace c c' hc).2]
    split
    · exact .fail _
    · refine .read fun m m' _ _ hdepth => ?_
      rw [hdepth]
      split
      · exact .fail _
      · exact .counted (ih.callable hhost held held' line hargs hc)
  | number _ | string _ | boolean _ | null =>
    refine .step (fun k => invoke_of_functionId?_eq_none setting k held' line args' rfl) ?_
    rw [invoke_of_functionId?_eq_none _ _ _ _ _ rfl]
    exact .fail _

/-- A block makes a frame inside the current one, so the current frames need only correspond up to
spare frames. -/
theorem succ_block (ih : Mirroring setting T last n) (held held' : List Reference)
    (hij : W.Scopes i j) {ss ss' : List Stmt} (h : T.body ss ss') :
    Mirrors T last W i j (Flow.Paired T)
      (Scriptlet.execute setting (n + 1) held (.block ss))
      fun k => Scriptlet.execute setting k held' (.block ss') := by
  refine .step (fun k => by rw [Scriptlet.execute]) ?_
  rw [Scriptlet.execute]
  refine .read fun m m' hcurrent hcurrent' _ => ?_
  rw [hcurrent, hcurrent']
  exact .bind (.newFrame hij .nil) fun V hV a b hab => ih.executeBlock held held' hab h

theorem succ_execute (ih : Mirroring setting T last n) (held held' : List Reference)
    (hij : W.pair i j) {s s' : Stmt} (h : T.stmt s s') :
    Mirrors T last W i j (Flow.Paired T)
      (Scriptlet.execute setting (n + 1) held s) fun k => Scriptlet.execute setting k held' s' := by
  have hscopes : W.Scopes i j := .pair hij
  cases T.stmt_layer h with
  | expression he =>
    refine .step (fun k => by rw [Scriptlet.execute]) ?_
    rw [Scriptlet.execute]
    exact .bind (ih.evaluate held held' hscopes he) fun V hV v v' hv => .pure .normal
  | print he =>
    refine .step (fun k => by rw [Scriptlet.execute]) ?_
    rw [Scriptlet.execute]
    refine .bind (ih.evaluate held held' hscopes he) fun V hV v v' hv => ?_
    rw [hv.text Callable.Paired.keepsFace]
    exact .bind (.print _) fun U hU _ _ _ => .pure .normal
  | var name he =>
    refine .step (fun k => execute_var setting k held' name _) ?_
    rw [execute_var]
    refine .bind (ih.valueOr held held' hscopes .null he) fun V hV v v' hv => ?_
    exact .bind (.define (hV.1 _ _ hij) name.lexeme hv) fun U hU _ _ _ => .pure .normal
  | block hbody => exact ih.succ_block held held' hscopes hbody
  | function name params hbody =>
    refine .step (fun k => by rw [Scriptlet.execute]) ?_
    rw [Scriptlet.execute]
    exact .bind (.declare hij name params hbody) fun V hV _ _ _ => .pure .normal
  | ifElse hcondition hthen helse =>
    refine .step (fun k => execute_ifElse setting k held' _ _ _) ?_
    rw [execute_ifElse]
    refine .bind (ih.evaluate held held' hscopes hcondition) fun V hV v v' hv => ?_
    rw [hv.isTruthy]
    split
    · exact ih.execute held held' (hV.1 _ _ hij) hthen
    · cases helse with
      | some helse => exact ih.execute held held' (hV.1 _ _ hij) helse
      | none => exact .pure .normal
  | whileLoop hcondition hbody =>
    refine .step (fun k => by rw [Scriptlet.execute]) ?_
    rw [Scriptlet.execute]
    refine .bind (ih.evaluate held held' hscopes hcondition) fun V hV v v' hv => ?_
    rw [hv.isTruthy]
    split
    · refine .bind (ih.execute held held' (hV.1 _ _ hij) hbody) fun U hU flow flow' hflow => ?_
      cases hflow with
      | normal => exact ih.execute held held' ((hV.trans hU).1 _ _ hij) h
      | ret hv => exact .pure (.ret hv)
    · exact .pure .normal
  | forEntry hinitializer hloop =>
    refine .step (fun k => by rw [Scriptlet.execute]) ?_
    rw [Scriptlet.execute]
    exact .bind (ih.execute held held' hij hinitializer) fun V hV _ _ _ =>
      ih.execute held held' (hV.1 _ _ hij) hloop
  | forLoop hcondition hincrement hbody =>
    refine .step (fun k => execute_forLoop setting k held' _ _ _) ?_
    rw [execute_forLoop]
    refine .bind (ih.valueOr held held' hscopes (.boolean true) hcondition) fun V hV v v' hv => ?_
    rw [hv.isTruthy]
    split
    · refine .bind (ih.execute held held' (hV.1 _ _ hij) hbody) fun U hU flow flow' hflow => ?_
      cases hflow with
      | normal =>
        refine .bind (ih.valueOr held held' (hscopes.mono (hV.trans hU)) .null hincrement)
          fun X hX _ _ _ => ?_
        exact ih.execute held held' (((hV.trans hU).trans hX).1 _ _ hij) h
      | ret hv => exact .pure (.ret hv)
    · exact .pure .normal
  | ret keyword he =>
    refine .step (fun k => execute_ret setting k held' keyword _) ?_
    rw [execute_ret]
    exact .bind (ih.valueOr held held' hscopes .null he) fun V hV v v' hv => .pure (.ret hv)

theorem succ_executeAll (ih : Mirroring setting T last n) (held held' : List Reference)
    (hij : W.pair i j) {ss ss' : List Stmt} (h : T.body ss ss') :
    Mirrors T last W i j (Flow.Paired T)
      (Scriptlet.executeAll setting (n + 1) held ss)
      fun k => Scriptlet.executeAll setting k held' ss' := by
  cases T.body_layer h with
  | nil =>
    refine .step (fun k => by rw [Scriptlet.executeAll]) ?_
    rw [Scriptlet.executeAll]
    exact .pure .normal
  | cons hs hss =>
    refine .step (fun k => by rw [Scriptlet.executeAll]) ?_
    rw [Scriptlet.executeAll]
    refine .bind (ih.execute held held' hij hs) fun V hV flow flow' hflow => ?_
    cases hflow with
    | normal => exact ih.executeAll held held' (hV.1 _ _ hij) hss
    | ret hv => exact .pure (.ret hv)
  | ret hs =>
    refine .step (fun k => executeAll_ret setting k held' _ _ _) ?_
    rw [executeAll_ret]
    exact ih.execute held held' hij hs

theorem succ_executeBlock (hoff : setting.releases = false) (ih : Mirroring setting T last n)
    (held held' : List Reference) {a b : FrameId} (hab : W.pair a b) {ss ss' : List Stmt}
    (h : T.body ss ss') :
    Mirrors T last W i j (Flow.Paired T)
      (Scriptlet.executeBlock setting (n + 1) held ss a)
      fun k => Scriptlet.executeBlock setting k held' ss' b := by
  refine .step (fun k => by rw [Scriptlet.executeBlock]) ?_
  rw [Scriptlet.executeBlock]
  refine .read fun m m' hcurrent hcurrent' _ => ?_
  rw [hcurrent, hcurrent']
  intro k k' hk
  refine (ih.executeAll _ _ hab h).andThen _ _ (hk.withCurrent a b) fun V r r' _ _ _ hl => ?_
  rw [Machine.leave_of_not_releases hoff, Machine.leave_of_not_releases hoff]
  exact hl.withCurrent i j

theorem succ (hhost : setting.host.Parametric) (hoff : setting.releases = false)
    (ih : Mirroring setting T last n) : Mirroring setting T last (n + 1) where
  evaluate held held' hij h := ih.succ_evaluate held held' hij h
  evaluateEach held held' hij h := ih.succ_evaluateEach held held' hij h
  invoke held held' line hv hargs := ih.succ_invoke hhost held held' line hv hargs
  execute held held' hij h := ih.succ_execute held held' hij h
  executeAll held held' hij h := ih.succ_executeAll held held' hij h
  executeBlock held held' hab h := ih.succ_executeBlock hoff held held' hab h

end Mirroring

/-- Without releases, all computations are mirrored. -/
theorem mirroring {setting : Setting} (hhost : setting.host.Parametric)
    (hoff : setting.releases = false) (T : Resemblance) (last : Prop) (n : Nat) :
    Mirroring setting T last n := by
  induction n with
  | zero => exact .zero
  | succ n ih => exact ih.succ hhost hoff

end Scriptlet

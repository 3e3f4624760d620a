import Scriptlet.Proofs.Eval.Related
import Scriptlet.Proofs.Eval.Rules
import Scriptlet.Proofs.Grammar.Renumber
import Scriptlet.Proofs.Scope.Renumber
import Scriptlet.Session

/-!
# Evaluation and lines

Lines are only ever carried from the tokens of a script to its errors. If all lines in a program and
in a machine are renumbered, the program runs as before, and the errors are renumbered. The last
result of the machine does not matter to the run either: where a run has no result of its own, an
earlier one stays. Both are one induction over the fuel, for a setting without releases.
-/

namespace Scriptlet

variable {α β : Type}

/-- The first of two values that is not `null`. -/
def Value.or : Value → Value → Value
  | null, w => w
  | v, _ => v

theorem Value.or_eq_self {v : Value} (hv : v.isNull = false) (w : Value) : v.or w = v := by
  cases v with
  | null => cases hv
  | number _ | string _ | boolean _ | function _ _ => rfl

@[simp] theorem Value.null_or (w : Value) : Value.null.or w = w := rfl

@[simp] theorem Value.or_null (v : Value) : v.or .null = v := by
  cases v <;> rfl

theorem Value.or_assoc (u v w : Value) : (u.or v).or w = u.or (v.or w) := by
  cases u <;> rfl

@[simp] theorem Value.or_renumber (f : Nat → Nat) (v w : Value) :
    (v.or w).renumber f = (v.renumber f).or (w.renumber f) := by
  cases v <;> rfl

/-- The same machine with all tokens in it on other lines. Where it has no last result, it has the
given one. -/
def Machine.renumber (f : Nat → Nat) (last : Value) (m : Machine) : Machine where
  heap := m.heap.renumber f
  current := m.current
  callDepth := m.callDepth
  lastValue := (m.lastValue.renumber f).or last
  sink := m.sink

namespace Machine

variable (f g : Nat → Nat)

/-- To renumber twice is to renumber once, and the first last value that is not null is kept. -/
theorem renumber_renumber (last last' : Value) (m : Machine) :
    (m.renumber f last).renumber g last' =
      m.renumber (g ∘ f) ((last.renumber g).or last') := by
  simp [renumber, Value.or_assoc]

end Machine

/-- Changing the heap commutes with renumbering. -/
theorem Machine.renumber_withHeap {f : Nat → Nat} {last : Value} (m : Machine) {h h' : Heap}
    (hh : h' = h.renumber f) :
    { m.renumber f last with heap := h' } = { m with heap := h }.renumber f last := by
  subst hh
  rfl

/-- The same flow with all tokens in it on other lines. -/
def Flow.renumber (f : Nat → Nat) : Flow → Flow
  | normal => normal
  | ret v => ret (v.renumber f)

/-- The second of two computations does to a renumbered machine what the first does to the machine
itself; `g` renumbers results. -/
def Eval.Follows (f : Nat → Nat) (last : Value) (g : α → β) (x : Eval α) (y : Eval β) : Prop :=
  ∀ m, Outcome.Rel (fun a n b n' => b = g a ∧ n' = n.renumber f last)
    (fun e n e' n' => e.isStatic = false ∧ e' = e.renumber f ∧ n' = n.renumber f last)
    (x m) (y (m.renumber f last))

namespace Eval.Follows

variable {γ δ : Type} {f : Nat → Nat} {last : Value} {g : α → β} {g' : γ → δ}
  {x : Eval α} {y : Eval β}

theorem pure {a : α} {b : β} (h : b = g a) :
    Follows f last g (pure a : Eval α) (Pure.pure b : Eval β) :=
  fun _ => .done ⟨h, rfl⟩

/-- Operations that follow may be run one after another. -/
theorem bind {p : α → Eval γ} {q : β → Eval δ} (h : Follows f last g x y)
    (hp : ∀ a, Follows f last g' (p a) (q (g a))) : Follows f last g' (x >>= p) (y >>= q) := by
  intro m
  refine (h m).bind fun a n b n' hD => ?_
  obtain ⟨rfl, rfl⟩ := hD
  exact hp a n

theorem exhausted : Follows f last g Eval.exhausted Eval.exhausted := fun _ => .outOfFuel

theorem fail {e : Error} (he : e.isStatic = false) :
    Follows f last g (Eval.fail e) (Eval.fail (e.renumber f)) :=
  fun _ => .failed ⟨he, rfl, rfl⟩

theorem ofExcept (line : Nat) (r : Except RuntimeFault α) :
    Follows f last g (Eval.ofExcept line r) (Eval.ofExcept (f line) (r.map g)) := by
  intro m
  cases r with
  | ok a => exact .done ⟨rfl, rfl⟩
  | error fault => exact .failed ⟨rfl, rfl, rfl⟩

/-- What reads the state follows if it does for every state. -/
theorem read {p : Machine → Eval α} {q : Machine → Eval β}
    (h : ∀ m, Follows f last g (p m) (q (m.renumber f last))) :
    Follows f last g (Eval.state >>= p) (Eval.state >>= q) :=
  fun m => h m m

/-- A call is counted alike on both sides. -/
theorem counted (h : Follows f last g x y) :
    Follows f last g (Eval.counted x) (Eval.counted y) := by
  intro m
  rw [counted_apply, counted_apply]
  refine (h { m with callDepth := m.callDepth + 1 }).andThen ?_ ?_
  · rintro a n b _ ⟨rfl, rfl⟩
    exact ⟨rfl, rfl⟩
  · rintro e n e' _ ⟨he, rfl, rfl⟩
    exact ⟨he, rfl, rfl⟩

/-! ### The operations of a machine -/

/-- A name is found alike, or missing at the new line. -/
theorem lookup (name : Token) :
    Follows f last (Value.renumber f) (Eval.lookup name) (Eval.lookup (name.renumber f)) := by
  intro m
  have hlookup : (m.renumber f last).heap.lookup (m.renumber f last).current
      (name.renumber f).lexeme = (m.heap.lookup m.current name.lexeme).map (Value.renumber f) :=
    Heap.lookup_renumber f m.heap m.current name.lexeme
  dsimp only [Eval.lookup]
  rw [hlookup]
  cases m.heap.lookup m.current name.lexeme with
  | none => exact .failed ⟨rfl, rfl, rfl⟩
  | some v => exact .done ⟨rfl, rfl⟩

/-- A name is assigned to alike, or missing at the new line. -/
theorem assign (name : Token) (v : Value) :
    Follows f last id (Eval.assign name v) (Eval.assign (name.renumber f) (v.renumber f)) := by
  intro m
  have hresolve : (m.renumber f last).heap.resolve (m.renumber f last).current
      (name.renumber f).lexeme = m.heap.resolve m.current name.lexeme :=
    Heap.resolve_renumber f m.heap m.current name.lexeme
  dsimp only [Eval.assign]
  rw [hresolve]
  cases m.heap.resolve m.current name.lexeme with
  | none => exact .failed ⟨rfl, rfl, rfl⟩
  | some owner =>
    exact .done ⟨rfl, Machine.renumber_withHeap m (Heap.define_renumber f m.heap owner _ v)⟩

theorem define (name : String) (v : Value) : Follows f last id
    (Eval.change (·.define name v)) (Eval.change (·.define name (v.renumber f))) :=
  fun m => .done ⟨rfl, Machine.renumber_withHeap m (Heap.define_renumber f m.heap _ name v)⟩

/-- The function declared has the new lines. -/
theorem declare (decl : FunctionDecl) :
    Follows f last id (Eval.declare decl) (Eval.declare (decl.renumber f)) := by
  intro m
  let made := m.heap.makeFunction (.closure decl m.current)
  exact .done ⟨rfl, Machine.renumber_withHeap m
    (Heap.define_renumber f made.2 m.current decl.name.lexeme made.1)⟩

/-- A line is printed alike. -/
theorem print (line : String) : Follows f last id (Eval.print line) (Eval.print line) := by
  intro m
  unfold Eval.print
  dsimp only [Machine.renumber]
  split
  · exact .done ⟨rfl, rfl⟩
  · exact .failed ⟨rfl, rfl, rfl⟩

theorem remember (v : Value) :
    Follows f last (Value.renumber f) (Eval.remember v) (Eval.remember (v.renumber f)) := by
  intro m
  unfold Eval.remember
  rw [Value.isNull_renumber]
  split
  · exact .done ⟨rfl, rfl⟩
  · rename_i hv
    -- a result that is not `null` takes the place of any earlier one
    refine .done ⟨rfl, ?_⟩
    have hn : (v.renumber f).isNull = false := by simpa using hv
    simp only [Machine.renumber, Value.or_eq_self hn]

theorem newFrame (parent : FrameId) (bindings : List (String × Value)) :
    Follows f last id (Eval.newFrame parent bindings)
      (Eval.newFrame parent (bindings.map fun b => (b.1, b.2.renumber f))) := by
  intro m
  refine .done ⟨Heap.size_renumber f m.heap, Machine.renumber_withHeap m ?_⟩
  rw [← Heap.push_renumber]
  exact congrArg _ (Frame.foldl_bind_renumber f bindings ⟨[], some parent⟩)

end Eval.Follows

/-! ### The evaluator -/

/-- All that runs with the given fuel does the same after renumbering. What pending computations
hold is of no account, as nothing is released. -/
structure Renumbers (setting : Setting) (f : Nat → Nat) (last : Value) (n : Nat) : Prop where
  evaluate : ∀ held held' e, Eval.Follows f last (Value.renumber f) (evaluate setting n held e)
    (evaluate setting n held' (e.renumber f))
  evaluateEach : ∀ held held' es, Eval.Follows f last (List.map (Value.renumber f))
    (evaluateEach setting n held es) (evaluateEach setting n held' (es.map (Expr.renumber f)))
  invoke : ∀ held held' line v args, Eval.Follows f last (Value.renumber f)
    (invoke setting n held line v args)
    (invoke setting n held' (f line) (v.renumber f) (args.map (Value.renumber f)))
  execute : ∀ held held' s, Eval.Follows f last (Flow.renumber f) (execute setting n held s)
    (execute setting n held' (s.renumber f))
  executeAll : ∀ held held' ss, Eval.Follows f last (Flow.renumber f)
    (executeAll setting n held ss) (executeAll setting n held' (ss.map (Stmt.renumber f)))
  executeBlock : ∀ held held' body frame, Eval.Follows f last (Flow.renumber f)
    (executeBlock setting n held body frame)
    (executeBlock setting n held' (body.map (Stmt.renumber f)) frame)

namespace Renumbers

variable {setting : Setting} {f : Nat → Nat} {last : Value} {n : Nat}

/-- Without fuel both evaluators do nothing. -/
theorem zero : Renumbers setting f last 0 where
  evaluate _ _ _ := .exhausted
  evaluateEach _ _ _ := .exhausted
  invoke _ _ _ _ _ := .exhausted
  execute _ _ _ := .exhausted
  executeAll _ _ _ := .exhausted
  executeBlock _ _ _ _ := .exhausted

open Eval

/-- A node has the same value up to lines, or the same error at the new line. -/
theorem node (ih : Renumbers setting f last n) (held held' : List Reference) (e : Expr) :
    Follows f last (Value.renumber f) (evaluateNode setting n held e)
      (evaluateNode setting n held' (e.renumber f)) := by
  cases e with
  | literal value =>
    rw [Expr.renumber]
    exact .pure (Value.renumber_ofLiteral f value).symm
  | group inner =>
    rw [Expr.renumber]
    exact ih.evaluate held held' inner
  | var name =>
    rw [Expr.renumber]
    exact .lookup name
  | assign name value =>
    rw [Expr.renumber]
    exact .bind (ih.evaluate held held' value) fun v => .bind (.assign name v) fun _ => .pure rfl
  | unary operator operand =>
    rw [Expr.renumber]
    refine .bind (ih.evaluate held held' operand) fun v => ?_
    rw [Value.applyUnary_renumber]
    exact .ofExcept _ _
  | binary left operator right =>
    rw [Expr.renumber]
    refine .bind (ih.evaluate held held' left) fun a =>
      .bind (ih.evaluate _ _ right) fun b => ?_
    rw [Value.applyBinary_renumber]
    exact .ofExcept _ _
  | logical left operator right =>
    rw [Expr.renumber]
    refine .bind (ih.evaluate held held' left) fun a => ?_
    rw [Value.shortCircuits_renumber]
    split
    · exact .pure rfl
    · exact ih.evaluate _ _ right
  | call callee paren arguments =>
    rw [Expr.renumber]
    refine .bind (ih.evaluate held held' callee) fun v => ?_
    exact .bind (ih.evaluateEach _ _ arguments) fun args => ih.invoke _ _ _ v args

theorem valueOr (ih : Renumbers setting f last n) (held held' : List Reference) {v : Value}
    (hv : v.renumber f = v) (e : Option Expr) :
    Follows f last (Value.renumber f) (evaluateOr setting n held v e)
      (evaluateOr setting n held' v (e.map (Expr.renumber f))) := by
  cases e with
  | some e => exact ih.evaluate held held' e
  | none => exact .pure hv.symm

theorem succ_evaluateEach (ih : Renumbers setting f last n) (held held' : List Reference)
    (es : List Expr) :
    Follows f last (List.map (Value.renumber f)) (Scriptlet.evaluateEach setting (n + 1) held es)
      (Scriptlet.evaluateEach setting (n + 1) held' (es.map (Expr.renumber f))) := by
  cases es with
  | nil =>
    rw [List.map_nil, Scriptlet.evaluateEach, Scriptlet.evaluateEach]
    exact .pure rfl
  | cons e es =>
    rw [List.map_cons, Scriptlet.evaluateEach, Scriptlet.evaluateEach]
    exact .bind (ih.evaluate held held' e) fun v =>
      .bind (ih.evaluateEach _ _ es) fun vs => .pure rfl

/-- What a call runs has the same value up to lines, if the host ignores them. -/
theorem callable (hhost : setting.host.IgnoresLines) (ih : Renumbers setting f last n)
    (held held' : List Reference) (line : Nat) (args : List Value) (callable : Callable) :
    Follows f last (Value.renumber f) (runCallable setting n held line args callable)
      (runCallable setting n held' (f line) (args.map (Value.renumber f))
        (callable.renumber f)) := by
  cases callable with
  | closure decl closure =>
    -- parameters keep their names, so the arguments are bound to the same names
    have hzip : ((decl.renumber f).params.map (·.lexeme)).zip (args.map (Value.renumber f)) =
        ((decl.params.map (·.lexeme)).zip args).map fun b => (b.1, b.2.renumber f) := by
      rw [FunctionDecl.renumber, List.map_map, List.zip_map_right]
      rfl
    rw [Callable.renumber, runCallable, runCallable, hzip]
    refine .bind (.newFrame closure _) fun frame =>
      .bind (ih.executeBlock held held' decl.body frame) fun flow => .pure ?_
    cases flow <;> rfl
  | host name arity key =>
    have hmap : ((setting.host key (args.map (Value.renumber f))).mapError RuntimeFault.native) =
        ((setting.host key args).mapError RuntimeFault.native).map (Value.renumber f) := by
      rw [hhost f key args]
      cases setting.host key args <;> rfl
    rw [Callable.renumber, runCallable, runCallable, hmap]
    exact .ofExcept _ _

/-- A call is refused or made alike. -/
theorem succ_invoke (hhost : setting.host.IgnoresLines) (ih : Renumbers setting f last n)
    (held held' : List Reference) (line : Nat) (v : Value) (args : List Value) :
    Follows f last (Value.renumber f) (Scriptlet.invoke setting (n + 1) held line v args)
      (Scriptlet.invoke setting (n + 1) held' (f line) (v.renumber f)
        (args.map (Value.renumber f))) := by
  cases v with
  | function id callable =>
    rw [Value.renumber, invoke_function, invoke_function, List.length_map, Callable.arity_renumber]
    split
    · exact .fail (e := .runtime _ line) rfl
    · refine .read fun m => ?_
      change Follows f last _ _ (if setting.callLimit ≤ m.callDepth then _ else _)
      split
      · exact .fail (e := .runtime _ line) rfl
      · exact .counted (ih.callable hhost held held' line args callable)
  | number _ | string _ | boolean _ | null =>
    rw [Value.renumber, invoke_of_functionId?_eq_none _ _ _ _ _ rfl,
      invoke_of_functionId?_eq_none _ _ _ _ _ rfl]
    · exact .fail (e := .runtime _ line) rfl
    all_goals simp

/-- A statement has the same flow up to lines. -/
theorem succ_execute (ih : Renumbers setting f last n) (held held' : List Reference) (s : Stmt) :
    Follows f last (Flow.renumber f) (Scriptlet.execute setting (n + 1) held s)
      (Scriptlet.execute setting (n + 1) held' (s.renumber f)) := by
  cases s with
  | expression e =>
    rw [Stmt.renumber, Scriptlet.execute, Scriptlet.execute]
    exact .bind (ih.evaluate held held' e) fun _ => .pure rfl
  | print e =>
    rw [Stmt.renumber, Scriptlet.execute, Scriptlet.execute]
    refine .bind (ih.evaluate held held' e) fun v => ?_
    rw [Value.text_renumber]
    exact .bind (.print v.text) fun _ => .pure rfl
  | var name initializer =>
    rw [Stmt.renumber, execute_var, execute_var]
    exact .bind (ih.valueOr held held' rfl initializer) fun v =>
      .bind (.define name.lexeme v) fun _ => .pure rfl
  | function name params body =>
    rw [Stmt.renumber, Scriptlet.execute, Scriptlet.execute]
    exact .bind (.declare ⟨name, params, body⟩) fun _ => .pure rfl
  | block body =>
    rw [Stmt.renumber, Scriptlet.execute, Scriptlet.execute]
    exact .read fun m => .bind (.newFrame m.current []) fun frame =>
      ih.executeBlock held held' body frame
  | ifElse condition thenBranch elseBranch =>
    rw [Stmt.renumber_ifElse, execute_ifElse, execute_ifElse]
    refine .bind (ih.evaluate held held' condition) fun v => ?_
    rw [Value.isTruthy_renumber]
    split
    · exact ih.execute held held' thenBranch
    · cases elseBranch with
      | some s => exact ih.execute held held' s
      | none => exact .pure rfl
  | whileLoop condition body =>
    rw [Stmt.renumber, Scriptlet.execute, Scriptlet.execute]
    refine .bind (ih.evaluate held held' condition) fun v => ?_
    rw [Value.isTruthy_renumber]
    split
    · refine .bind (ih.execute held held' body) fun flow => ?_
      cases flow with
      | normal =>
        have hloop := ih.execute held held' (.whileLoop condition body)
        rwa [Stmt.renumber] at hloop
      | ret v => exact .pure rfl
    · exact .pure rfl
  | forLoop initializer condition increment body =>
    -- behind its initializer and after each round a loop goes on as one without an initializer
    have hloop := ih.execute held held' (.forLoop none condition increment body)
    rw [Stmt.renumber_forLoop] at hloop ⊢
    cases initializer with
    | some s =>
      rw [Option.map_some, Scriptlet.execute, Scriptlet.execute]
      exact .bind (ih.execute held held' s) fun _ => hloop
    | none =>
      rw [Option.map_none, execute_forLoop, execute_forLoop]
      refine .bind (ih.valueOr held held' rfl condition) fun v => ?_
      rw [Value.isTruthy_renumber]
      split
      · refine .bind (ih.execute held held' body) fun flow => ?_
        cases flow with
        | normal => exact .bind (ih.valueOr held held' rfl increment) fun _ => hloop
        | ret v => exact .pure rfl
      · exact .pure rfl
  | ret keyword value =>
    rw [Stmt.renumber, execute_ret, execute_ret]
    exact .bind (ih.valueOr held held' rfl value) fun v => .pure rfl

/-- Statements have the same flow up to lines. -/
theorem succ_executeAll (ih : Renumbers setting f last n) (held held' : List Reference)
    (ss : List Stmt) :
    Follows f last (Flow.renumber f) (Scriptlet.executeAll setting (n + 1) held ss)
      (Scriptlet.executeAll setting (n + 1) held' (ss.map (Stmt.renumber f))) := by
  cases ss with
  | nil =>
    rw [List.map_nil, Scriptlet.executeAll, Scriptlet.executeAll]
    exact .pure rfl
  | cons s ss =>
    rw [List.map_cons, Scriptlet.executeAll, Scriptlet.executeAll]
    refine .bind (ih.execute held held' s) fun flow => ?_
    cases flow with
    | normal => exact ih.executeAll held held' ss
    | ret v => exact .pure rfl

/-- Without releases, leaving a block only resets the current frame. -/
theorem succ_executeBlock (hoff : setting.releases = false) (ih : Renumbers setting f last n)
    (held held' : List Reference) (body : List Stmt) (frame : FrameId) :
    Follows f last (Flow.renumber f) (Scriptlet.executeBlock setting (n + 1) held body frame)
      (Scriptlet.executeBlock setting (n + 1) held' (body.map (Stmt.renumber f)) frame) := by
  have hleave : ∀ held previous flow (m : Machine),
      m.leave setting held frame previous flow = { m with current := previous } := by
    intro held previous flow m
    simp [Machine.leave, hoff]
  rw [Scriptlet.executeBlock, Scriptlet.executeBlock]
  intro m
  refine (ih.executeAll _ _ body { m with current := frame }).andThen ?_ ?_
  · rintro flow k flow' _ ⟨rfl, rfl⟩
    rw [hleave, hleave]
    exact ⟨rfl, rfl⟩
  · rintro e k e' _ ⟨he, rfl, rfl⟩
    rw [hleave, hleave]
    exact ⟨he, rfl, rfl⟩

/-- One more unit of fuel, in a setting without releases. -/
theorem succ (hhost : setting.host.IgnoresLines) (hoff : setting.releases = false)
    (ih : Renumbers setting f last n) : Renumbers setting f last (n + 1) where
  evaluate held held' e := by
    rw [evaluate_succ, evaluate_succ]
    exact .bind (ih.node held held' e) .remember
  evaluateEach := ih.succ_evaluateEach
  invoke := ih.succ_invoke hhost
  execute := ih.succ_execute
  executeAll := ih.succ_executeAll
  executeBlock := ih.succ_executeBlock hoff

end Renumbers

/-- Without releases, all computations do the same after renumbering. -/
theorem renumbers {setting : Setting} (hhost : setting.host.IgnoresLines)
    (hoff : setting.releases = false) (f : Nat → Nat) (last : Value) (n : Nat) :
    Renumbers setting f last n := by
  induction n with
  | zero => exact .zero
  | succ n ih => exact ih.succ hhost hoff

/-! ### Programs -/

/-- The same report with its tokens on other lines. Where it has no value, it has the given one. -/
def Report.renumber (f : Nat → Nat) (last : Value) (r : Report) : Report :=
  ⟨(r.value.renumber f).or last, r.errors.map (Error.renumber f)⟩

namespace Machine

variable (f : Nat → Nat) (last : Value)

theorem renumber_forget (m : Machine) :
    (m.renumber f last).forget = m.forget.renumber f .null := rfl

/-- An error that is no fault of the text is reported in the same words with its new line. -/
theorem report_renumber (m : Machine) {e : Error} (he : ∀ fault line, e ≠ .lex fault line) :
    (m.renumber f last).report (e.renumber f) = (m.report e).renumber f last := by
  rw [report, report, Error.message_renumber f he]
  rfl

/-- Errors are reported one after another in the same words. -/
theorem foldl_report_renumber (m : Machine) {es : List Error}
    (hes : ∀ e ∈ es, ∀ fault line, e ≠ .lex fault line) :
    (es.map (Error.renumber f)).foldl report (m.renumber f last) =
      (es.foldl report m).renumber f last := by
  induction es generalizing m with
  | nil => rfl
  | cons e es ih =>
    obtain ⟨he, hes⟩ := List.forall_mem_cons.1 hes
    rw [List.map_cons, List.foldl_cons, report_renumber f last m he]
    exact ih (m.report e) hes

/-- **Lines do not matter to a run.** Without releases, a program with all its lines renumbered, run
on a machine with all lines renumbered, gives the renumbered report and machine. -/
theorem runProgram_renumber {setting : Setting} (hhost : setting.host.IgnoresLines)
    (hoff : setting.releases = false) (fuel : Nat) (program : Program)
    (hes : ∀ e ∈ program.errors, ∀ fault line, e ≠ .lex fault line) (m : Machine) :
    (m.renumber f last).runProgram setting fuel (program.renumber f) =
      (m.runProgram setting fuel program).map
        (Prod.map (Report.renumber f last) (renumber f .null)) := by
  have hrun := (renumbers hhost hoff f last fuel).executeAll [] [] program.statements
    (program.errors.foldl report m)
  rw [← foldl_report_renumber f last m hes] at hrun
  unfold runProgram
  dsimp only [Program.renumber]
  generalize executeAll setting fuel [] program.statements _ = o,
    executeAll setting fuel [] (program.statements.map (Stmt.renumber f)) _ = o' at hrun
  cases hrun with
  | done hD =>
    obtain ⟨-, rfl⟩ := hD
    rfl
  | @failed e n _ _ hF =>
    obtain ⟨he, rfl, rfl⟩ := hF
    have hlex : ∀ fault line, e ≠ .lex fault line := by
      rintro fault line rfl
      cases he
    dsimp only
    rw [report_renumber f last n hlex, renumber_forget]
    simp only [Option.map_some, Prod.map, Report.renumber, List.map_append, List.map_singleton]
    rfl
  | outOfFuel => rfl

end Machine

end Scriptlet

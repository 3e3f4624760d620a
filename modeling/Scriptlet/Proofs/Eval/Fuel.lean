import Scriptlet.Proofs.Eval.Rules
import Scriptlet.Proofs.Eval.Session

/-!
# More fuel

A computation that ends with some fuel ends in the same way with more. Hence the run of a list of
statements that comes to its end may be followed by that of another list, whatever fuel each of them
took, and the outcome of a script does not depend on the fuel.
-/

namespace Scriptlet

/-- The second of two computations ends as the first does, unless the first runs out of fuel. -/
def Eval.Extends {α : Type} (x y : Eval α) : Prop := ∀ m, x m = .outOfFuel ∨ x m = y m

namespace Eval.Extends

variable {α β : Type} {x y : Eval α}

theorem refl (x : Eval α) : Extends x x := fun _ => Or.inr rfl

theorem exhausted (y : Eval α) : Extends Eval.exhausted y := fun _ => Or.inl rfl

theorem trans {z : Eval α} (hxy : Extends x y) (hyz : Extends y z) : Extends x z := by
  intro m
  rcases hxy m with hx | hx
  · exact Or.inl hx
  · rcases hyz m with hy | hy
    · exact Or.inl (hx.trans hy)
    · exact Or.inr (hx.trans hy)

/-- A run that ends is the same with more fuel. -/
theorem eq_of_ne (h : Extends x y) {m : Machine} (hne : x m ≠ .outOfFuel) : y m = x m :=
  ((h m).resolve_left hne).symm

/-- Computations that extend others may be run one after another. -/
theorem bind {p q : α → Eval β} (h : Extends x y) (hp : ∀ a, Extends (p a) (q a)) :
    Extends (x >>= p) (y >>= q) := by
  intro m
  change Eval.bind x p m = _ ∨ Eval.bind x p m = Eval.bind y q m
  unfold Eval.bind
  rcases h m with hx | hx
  · rw [hx]
    exact Or.inl rfl
  · rw [← hx]
    cases x m with
    | done a n => exact hp a n
    | failed e n => exact Or.inr rfl
    | outOfFuel => exact Or.inl rfl

theorem andThen (h : Extends x y) (exit : Option α → Machine → Machine) :
    Extends (Eval.andThen x exit) (Eval.andThen y exit) := by
  intro m
  unfold Eval.andThen
  rcases h m with hx | hx
  · rw [hx]
    exact Or.inl rfl
  · rw [← hx]
    exact Or.inr rfl

theorem counted (h : Extends x y) : Extends (Eval.counted x) (Eval.counted y) :=
  .bind (.refl _) fun _ => h.andThen _

end Eval.Extends

/-- One more unit of fuel extends all that runs with the given fuel. -/
structure MoreFuel (setting : Setting) (n : Nat) : Prop where
  evaluate : ∀ held e, Eval.Extends (evaluate setting n held e) (evaluate setting (n + 1) held e)
  evaluateEach : ∀ held es,
    Eval.Extends (evaluateEach setting n held es) (evaluateEach setting (n + 1) held es)
  invoke : ∀ held line v args,
    Eval.Extends (invoke setting n held line v args) (invoke setting (n + 1) held line v args)
  execute : ∀ held s, Eval.Extends (execute setting n held s) (execute setting (n + 1) held s)
  executeAll : ∀ held ss,
    Eval.Extends (executeAll setting n held ss) (executeAll setting (n + 1) held ss)
  executeBlock : ∀ held body frame, Eval.Extends (executeBlock setting n held body frame)
    (executeBlock setting (n + 1) held body frame)

namespace MoreFuel

variable {setting : Setting} {n : Nat}

/-- Without fuel nothing is done, which everything extends. -/
theorem zero : MoreFuel setting 0 where
  evaluate _ _ := .exhausted _
  evaluateEach _ _ := .exhausted _
  invoke _ _ _ _ := .exhausted _
  execute _ _ := .exhausted _
  executeAll _ _ := .exhausted _
  executeBlock _ _ _ := .exhausted _

open Eval

/-- A node with more fuel extends the node with less. -/
theorem node (ih : MoreFuel setting n) (held : List Reference) (e : Expr) :
    Extends (evaluateNode setting n held e) (evaluateNode setting (n + 1) held e) := by
  cases e with
  | literal value => exact .refl _
  | group inner => exact ih.evaluate held inner
  | var name => exact .refl _
  | assign name value => exact .bind (ih.evaluate held value) fun v => .refl _
  | unary operator operand => exact .bind (ih.evaluate held operand) fun v => .refl _
  | binary left operator right =>
    exact .bind (ih.evaluate held left) fun a => .bind (ih.evaluate _ right) fun b => .refl _
  | logical left operator right =>
    refine .bind (ih.evaluate held left) fun a => ?_
    split
    · exact .refl _
    · exact ih.evaluate _ right
  | call callee paren arguments =>
    exact .bind (ih.evaluate held callee) fun v =>
      .bind (ih.evaluateEach _ arguments) fun args => ih.invoke _ _ v args

theorem valueOr (ih : MoreFuel setting n) (held : List Reference) (v : Value) (e : Option Expr) :
    Extends (evaluateOr setting n held v e) (evaluateOr setting (n + 1) held v e) := by
  cases e with
  | some e => exact ih.evaluate held e
  | none => exact .refl _

theorem succ_evaluateEach (ih : MoreFuel setting n) (held : List Reference) (es : List Expr) :
    Extends (Scriptlet.evaluateEach setting (n + 1) held es)
      (Scriptlet.evaluateEach setting (n + 2) held es) := by
  cases es with
  | nil =>
    rw [Scriptlet.evaluateEach, Scriptlet.evaluateEach]
    exact .refl _
  | cons e es =>
    rw [Scriptlet.evaluateEach, Scriptlet.evaluateEach]
    exact .bind (ih.evaluate held e) fun v => .bind (ih.evaluateEach _ es) fun vs => .refl _

/-- With more fuel a call extends the call with less. -/
theorem callable (ih : MoreFuel setting n) (held : List Reference) (line : Nat)
    (args : List Value) (callable : Callable) :
    Extends (runCallable setting n held line args callable)
      (runCallable setting (n + 1) held line args callable) := by
  cases callable with
  | closure decl closure =>
    exact .bind (.refl _) fun frame => .bind (ih.executeBlock held decl.body frame) fun _ => .refl _
  | host name arity key => exact .refl _

theorem succ_invoke (ih : MoreFuel setting n) (held : List Reference) (line : Nat) (v : Value)
    (args : List Value) : Extends (Scriptlet.invoke setting (n + 1) held line v args)
      (Scriptlet.invoke setting (n + 2) held line v args) := by
  cases v with
  | function id callable =>
    rw [invoke_function, invoke_function]
    split
    · exact .refl _
    · refine .bind (.refl _) fun m => ?_
      split
      · exact .refl _
      · exact .counted (ih.callable held line args callable)
  | number _ | string _ | boolean _ | null =>
    rw [invoke_of_functionId?_eq_none _ _ _ _ _ rfl, invoke_of_functionId?_eq_none _ _ _ _ _ rfl]
    exact .refl _

/-- With more fuel a statement extends the statement with less. -/
theorem succ_execute (ih : MoreFuel setting n) (held : List Reference) (s : Stmt) :
    Extends (Scriptlet.execute setting (n + 1) held s)
      (Scriptlet.execute setting (n + 2) held s) := by
  cases s with
  | expression e =>
    rw [Scriptlet.execute, Scriptlet.execute]
    exact .bind (ih.evaluate held e) fun _ => .refl _
  | print e =>
    rw [Scriptlet.execute, Scriptlet.execute]
    exact .bind (ih.evaluate held e) fun _ => .refl _
  | var name initializer =>
    rw [execute_var, execute_var]
    exact .bind (ih.valueOr held _ initializer) fun _ => .refl _
  | function name params body =>
    rw [Scriptlet.execute, Scriptlet.execute]
    exact .refl _
  | block body =>
    rw [Scriptlet.execute, Scriptlet.execute]
    exact .bind (.refl _) fun m => .bind (.refl _) fun frame => ih.executeBlock held body frame
  | ifElse condition thenBranch elseBranch =>
    rw [execute_ifElse, execute_ifElse]
    refine .bind (ih.evaluate held condition) fun v => ?_
    split
    · exact ih.execute held thenBranch
    · cases elseBranch with
      | some s => exact ih.execute held s
      | none => exact .refl _
  | whileLoop condition body =>
    rw [Scriptlet.execute, Scriptlet.execute]
    refine .bind (ih.evaluate held condition) fun v => ?_
    split
    · refine .bind (ih.execute held body) fun flow => ?_
      cases flow with
      | normal => exact ih.execute held _
      | ret v => exact .refl _
    · exact .refl _
  | forLoop initializer condition increment body =>
    cases initializer with
    | some s =>
      rw [Scriptlet.execute, Scriptlet.execute]
      exact .bind (ih.execute held s) fun _ => ih.execute held _
    | none =>
      rw [execute_forLoop, execute_forLoop]
      refine .bind (ih.valueOr held _ condition) fun v => ?_
      split
      · refine .bind (ih.execute held body) fun flow => ?_
        cases flow with
        | normal => exact .bind (ih.valueOr held _ increment) fun _ => ih.execute held _
        | ret v => exact .refl _
      · exact .refl _
  | ret keyword value =>
    rw [execute_ret, execute_ret]
    exact .bind (ih.valueOr held _ value) fun _ => .refl _

theorem succ_executeAll (ih : MoreFuel setting n) (held : List Reference) (ss : List Stmt) :
    Extends (Scriptlet.executeAll setting (n + 1) held ss)
      (Scriptlet.executeAll setting (n + 2) held ss) := by
  cases ss with
  | nil =>
    rw [Scriptlet.executeAll, Scriptlet.executeAll]
    exact .refl _
  | cons s ss =>
    rw [Scriptlet.executeAll, Scriptlet.executeAll]
    refine .bind (ih.execute held s) fun flow => ?_
    cases flow with
    | normal => exact ih.executeAll held ss
    | ret v => exact .refl _

theorem succ_executeBlock (ih : MoreFuel setting n) (held : List Reference) (body : List Stmt)
    (frame : FrameId) : Extends (Scriptlet.executeBlock setting (n + 1) held body frame)
      (Scriptlet.executeBlock setting (n + 2) held body frame) := by
  rw [Scriptlet.executeBlock, Scriptlet.executeBlock]
  exact .bind (.refl _) fun m => .bind (.refl _) fun _ => .andThen (ih.executeAll _ body) _

theorem succ (ih : MoreFuel setting n) : MoreFuel setting (n + 1) where
  evaluate held e := by
    rw [evaluate_succ, evaluate_succ]
    exact .bind (ih.node held e) fun v => .refl _
  evaluateEach := ih.succ_evaluateEach
  invoke := ih.succ_invoke
  execute := ih.succ_execute
  executeAll := ih.succ_executeAll
  executeBlock := ih.succ_executeBlock

end MoreFuel

/-- Every function of the evaluator extends itself when it has more fuel. -/
theorem moreFuel (setting : Setting) (n : Nat) : MoreFuel setting n := by
  induction n with
  | zero => exact .zero
  | succ n ih => exact ih.succ

theorem execute_extends (setting : Setting) (held : List Reference) (s : Stmt) {n n' : Nat}
    (hn : n ≤ n') : Eval.Extends (execute setting n held s) (execute setting n' held s) := by
  induction hn with
  | refl => exact .refl _
  | step _ ih => exact ih.trans ((moreFuel setting _).execute held s)

theorem executeAll_extends (setting : Setting) (held : List Reference) (ss : List Stmt)
    {n n' : Nat} (hn : n ≤ n') :
    Eval.Extends (executeAll setting n held ss) (executeAll setting n' held ss) := by
  induction hn with
  | refl => exact .refl _
  | step _ ih => exact ih.trans ((moreFuel setting _).executeAll held ss)

/-- Statements end in one way only, whatever fuel is enough for them. -/
theorem executeAll_eq_of_ne {setting : Setting} {held : List Reference} {ss : List Stmt}
    {m : Machine} {n n' : Nat} (h : executeAll setting n held ss m ≠ .outOfFuel)
    (h' : executeAll setting n' held ss m ≠ .outOfFuel) :
    executeAll setting n held ss m = executeAll setting n' held ss m := by
  have hlong := (executeAll_extends setting held ss (Nat.le_add_right n n')).eq_of_ne h
  have hlong' := (executeAll_extends setting held ss (Nat.le_add_left n' n)).eq_of_ne h'
  exact hlong.symm.trans hlong'

/-- The outcome of a program does not depend on the fuel. -/
theorem Machine.runProgram_of_le {setting : Setting} {n n' : Nat} {program : Program} {m : Machine}
    {x : Report × Machine} (h : m.runProgram setting n program = some x) (hn : n ≤ n') :
    m.runProgram setting n' program = some x := by
  have hne : executeAll setting n [] program.statements (program.errors.foldl report m) ≠
      .outOfFuel := by
    intro hout
    rw [runProgram, hout] at h
    cases h
  rw [runProgram, (executeAll_extends setting [] program.statements hn).eq_of_ne hne]
  exact h

/-- A statement that comes to its end is followed by the next. -/
theorem executeAll_cons {setting : Setting} {n : Nat} {held : List Reference} {s : Stmt}
    {m j : Machine} (hs : execute setting n held s m = .done .normal j) (ss : List Stmt) :
    executeAll setting (n + 1) held (s :: ss) m = executeAll setting n held ss j := by
  rw [executeAll]
  change Eval.bind _ _ m = _
  unfold Eval.bind
  rw [hs]

/-- Statements that come to their end do so one after another. -/
theorem exists_of_executeAll_cons {setting : Setting} {n : Nat} {held : List Reference} {s : Stmt}
    {ss : List Stmt} {m k : Machine}
    (hend : executeAll setting (n + 1) held (s :: ss) m = .done .normal k) :
    ∃ j, execute setting n held s m = .done .normal j ∧
      executeAll setting n held ss j = .done .normal k := by
  rw [executeAll] at hend
  change Eval.bind _ _ m = _ at hend
  unfold Eval.bind at hend
  cases hs : execute setting n held s m with
  | done flow j =>
    rw [hs] at hend
    cases flow with
    | normal => exact ⟨j, rfl, hend⟩
    | ret v => cases hend
  | failed e j =>
    rw [hs] at hend
    cases hend
  | outOfFuel =>
    rw [hs] at hend
    cases hend

/-- **One list of statements after another.** If the first comes to its end, the second goes on from
there, with one unit less of fuel for each statement before. -/
theorem executeAll_append {setting : Setting} {held : List Reference} {ss : List Stmt} {n : Nat}
    {m k : Machine} (hend : executeAll setting n held ss m = .done .normal k) (ts : List Stmt)
    {n' : Nat} (hn : n ≤ n') :
    executeAll setting n' held (ss ++ ts) m = executeAll setting (n' - ss.length) held ts k := by
  -- a statement takes one unit from those behind it, whatever it takes for itself
  induction ss generalizing n n' m with
  | nil =>
    cases n with
    | zero => cases hend
    | succ n =>
      rw [executeAll] at hend
      cases hend
      rfl
  | cons s ss ih =>
    cases n with
    | zero => cases hend
    | succ n =>
      obtain ⟨n', rfl⟩ : ∃ j, n' = j + 1 := ⟨n' - 1, by omega⟩
      have hle : n ≤ n' := Nat.le_of_succ_le_succ hn
      obtain ⟨j, hs, hrest⟩ := exists_of_executeAll_cons hend
      have hs' : execute setting n' held s m = .done .normal j := by
        rw [(execute_extends setting held s hle).eq_of_ne (by rw [hs]; simp), hs]
      rw [List.cons_append, executeAll_cons hs', ih hrest hle, List.length_cons,
        Nat.add_sub_add_right]

/-! ### Sessions -/

namespace Machine

variable {setting : Setting} {fuel : Nat} {m k : Machine} {source : String} {r : Report}

/-- A session that starts with a script goes on from the machine that the script leaves. -/
theorem session_run_eq_some {calls : List HostCall} {rs : List Report}
    (hsession : m.session setting fuel (.run source :: calls) = some (rs, k)) :
    ∃ r j rs', m.runScript setting fuel source = some (r, j) ∧
      j.session setting fuel calls = some (rs', k) ∧ rs = r :: rs' := by
  rw [session] at hsession
  obtain ⟨⟨r, j⟩, hrun, hsession⟩ := Option.bind_eq_some_iff.1 hsession
  obtain ⟨⟨rs', k'⟩, hrest, heq⟩ := Option.map_eq_some_iff.1 hsession
  cases heq
  exact ⟨r, j, rs', hrun, hrest, rfl⟩

theorem runScript_of_le {fuel' : Nat} (hrun : m.runScript setting fuel source = some (r, k))
    (hle : fuel ≤ fuel') : m.runScript setting fuel' source = some (r, k) := by
  unfold runScript at hrun ⊢
  split at hrun
  · exact hrun
  · exact runProgram_of_le hrun hle

/-- A session that ends is the same with more fuel. -/
theorem session_of_le {fuel' : Nat} {calls : List HostCall} {rs : List Report}
    (hsession : m.session setting fuel calls = some (rs, k)) (hle : fuel ≤ fuel') :
    m.session setting fuel' calls = some (rs, k) := by
  induction calls generalizing m rs with
  | nil => exact hsession
  | cons call calls ih =>
    cases call with
    | run source =>
      obtain ⟨r, j, rs, hrun, hrest, rfl⟩ := session_run_eq_some hsession
      rw [session, runScript_of_le hrun hle, Option.bind_some, ih hrest]
      rfl
    | defineHost name arity key => exact ih hsession

end Machine

end Scriptlet

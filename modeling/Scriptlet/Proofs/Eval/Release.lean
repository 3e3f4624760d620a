import Scriptlet.Proofs.Eval.Agreement
import Scriptlet.Proofs.Eval.Session

/-!
# Releasing frames is invisible to scripts

One machine releases frames at the end of blocks and another does not. They run the same scripts in
lockstep and stay in agreement, by one induction over the fuel that goes through all expressions and
statements. A host that calls both in the same way sees the same reports and the same output.
-/

namespace Scriptlet

/-! ### The evaluator -/

/-- A host gives out no function with a frame around it but those made in the frames of functions it
was given. -/
def Host.KeepsToArguments (host : Host) : Prop :=
  ∀ key args v frame, host key args = .ok v → v.closure? = some frame →
    ∃ a ∈ args, a.closure? = some frame

/-- The host functions that come with the project hand out their own arguments at most. -/
theorem Host.standard_keepsToArguments : Host.standard.KeepsToArguments := by
  intro key args v frame h hc
  have getD {o : Option Value} (ho : o.getD .null = v) :
      ∃ a, o = some a ∧ a.closure? = some frame := by
    cases o with
    | none =>
      subst ho
      cases hc
    | some a =>
      subst ho
      exact ⟨a, rfl, hc⟩
  unfold standard at h
  split at h
  case h_1 =>
    unfold twice at h
    split at h <;> cases h
    cases hc
  case h_2 =>
    obtain ⟨a, ha, hc⟩ := getD (Except.ok.inj h)
    exact ⟨a, List.mem_of_head? ha, hc⟩
  case h_3 =>
    obtain ⟨a, ha, hc⟩ := getD (Except.ok.inj h)
    exact ⟨a, List.mem_of_getLast? ha, hc⟩
  case h_9 => cases h
  all_goals
    cases h
    cases hc

/-- The value of a prefix operator is no function. -/
theorem Value.closure?_applyUnary {operator : Token} {v w : Value}
    (h : v.applyUnary operator = .ok w) : w.closure? = none := by
  unfold applyUnary at h
  split at h
  · split at h <;> cases h
    rfl
  · cases h
    rfl
  · cases h

theorem Value.closure?_withNumbers {operator : String} {f : Float → Float → Value} {a b w : Value}
    (hf : ∀ x y, (f x y).closure? = none) (h : withNumbers operator f a b = .ok w) :
    w.closure? = none := by
  unfold withNumbers at h
  split at h <;> cases h
  exact hf _ _

theorem Value.closure?_add {a b w : Value} (h : add a b = .ok w) : w.closure? = none := by
  unfold add at h
  split at h <;> cases h <;> rfl

/-- The value of an operator between values is no function. -/
theorem Value.closure?_applyBinary {operator : Token} {a b w : Value}
    (h : applyBinary operator a b = .ok w) : w.closure? = none := by
  unfold applyBinary at h
  split at h
  case h_1 => exact closure?_add h
  case h_9 | h_10 => cases h; rfl
  case h_11 => cases h
  all_goals exact closure?_withNumbers (fun _ _ => rfl) h

/-- A setting with and without releases keeps machines in agreement, for all that runs with the
given fuel. -/
structure Simulates (setting : Setting) (releases : Bool) (n : Nat) : Prop where
  evaluate : ∀ held e, Eval.Sim [] held (fun v => [.value v]) (evaluate setting n held e)
    (evaluate { setting with releases } n held e)
  evaluateEach : ∀ held es, Eval.Sim [] held (fun vs => vs.map .value)
    (evaluateEach setting n held es) (evaluateEach { setting with releases } n held es)
  invoke : ∀ held line f args, .value f ∈ held →
    Eval.Sim (args.map .value) held (fun v => [.value v]) (invoke setting n held line f args)
      (invoke { setting with releases } n held line f args)
  execute : ∀ held s, Eval.Sim [] held Flow.references (execute setting n held s)
    (execute { setting with releases } n held s)
  executeAll : ∀ held ss, Eval.Sim [] held Flow.references (executeAll setting n held ss)
    (executeAll { setting with releases } n held ss)
  executeBlock : ∀ held body frame, Eval.Sim [.frame frame] held Flow.references
    (executeBlock setting n held body frame)
    (executeBlock { setting with releases } n held body frame)

namespace Simulates

variable {setting : Setting} {releases : Bool} {n : Nat} {held : List Reference}

/-- Without fuel there is nothing to release. -/
theorem zero : Simulates setting releases 0 where
  evaluate _ _ := .exhausted
  evaluateEach _ _ := .exhausted
  invoke _ _ _ _ _ := .exhausted
  execute _ _ := .exhausted
  executeAll _ _ := .exhausted
  executeBlock _ _ _ := .exhausted

open Eval

/-- A computation that runs while a value is held. -/
theorem holding {α : Type} {refs : α → List Reference} {x y : Eval α} {v : Value}
    (h : Sim [] (.value v :: held) refs x y) : Sim [.value v] held refs x y :=
  (Sim.unhold [.value v] h).weaken (.of_subset (List.subset_append_left _ _))
    fun _ => .of_subset (List.Subset.trans (List.subset_append_left _ _)
      (List.subset_append_left _ _))

/-- A node does the same with and without releases. -/
theorem node (ih : Simulates setting releases n) (held : List Reference) (e : Expr) :
    Sim [] held (fun v => [.value v]) (evaluateNode setting n held e)
      (evaluateNode { setting with releases } n held e) := by
  cases e with
  | literal value => exact .pure _ (.value_of_closure?_eq_none (by cases value <;> rfl))
  | group inner => exact ih.evaluate held inner
  | var name => exact .lookup name
  | assign name value =>
    refine .bind (ih.evaluate held value) fun v => .bind (.assign name v) fun _ => ?_
    exact .pure v (.of_subset (List.subset_append_left _ _))
  | unary operator operand =>
    refine .bind_drop (ih.evaluate held operand) fun v => .ofExcept _ _ fun w hw => ?_
    exact .value_of_closure?_eq_none (Value.closure?_applyUnary hw)
  | binary left operator right =>
    refine .bind (ih.evaluate held left) fun a => holding ?_
    refine .bind_drop (ih.evaluate _ right) fun b => .ofExcept _ _ fun w hw => ?_
    exact .value_of_closure?_eq_none (Value.closure?_applyBinary hw)
  | logical left operator right =>
    refine .bind (ih.evaluate held left) fun a => ?_
    split
    · exact .pure a (.of_subset (List.subset_append_left _ _))
    · exact holding (ih.evaluate _ right)
  | call callee paren arguments =>
    refine .bind (ih.evaluate held callee) fun f => holding ?_
    refine .bind (ih.evaluateEach _ arguments) fun args => ?_
    exact ih.invoke _ _ f args List.mem_cons_self

theorem valueOr (ih : Simulates setting releases n) (held : List Reference) {v : Value}
    (hv : v.closure? = none) (e : Option Expr) :
    Sim [] held (fun v => [.value v]) (evaluateOr setting n held v e)
      (evaluateOr { setting with releases } n held v e) := by
  cases e with
  | some e => exact ih.evaluate held e
  | none => exact .pure _ (.value_of_closure?_eq_none hv)

theorem succ_evaluateEach (ih : Simulates setting releases n) (held : List Reference)
    (es : List Expr) :
    Sim [] held (fun vs => vs.map .value) (Scriptlet.evaluateEach setting (n + 1) held es)
      (Scriptlet.evaluateEach { setting with releases } (n + 1) held es) := by
  cases es with
  | nil =>
    rw [Scriptlet.evaluateEach, Scriptlet.evaluateEach]
    exact .pure [] (.nil _)
  | cons e es =>
    rw [Scriptlet.evaluateEach, Scriptlet.evaluateEach]
    refine .bind (ih.evaluate held e) fun v => holding ?_
    refine .bind (ih.evaluateEach _ es) fun vs => .pure (v :: vs) (.of_subset ?_)
    intro r
    simp only [List.map_cons, List.mem_cons, List.mem_append]
    tauto

/-- What a call runs does the same with and without releases, if the host makes up no frames. -/
theorem callable (hhost : setting.host.KeepsToArguments) (ih : Simulates setting releases n)
    (line : Nat) (args : List Value) {id : FunctionId} {callable : Callable}
    (hf : .value (.function id callable) ∈ held) :
    Sim (args.map .value) held (fun v => [.value v]) (runCallable setting n held line args callable)
      (runCallable { setting with releases } n held line args callable) := by
  cases callable with
  | closure decl closure =>
    refine .bind ((Sim.newFrame closure _).weaken ?_ fun _ =>
      .of_subset (List.subset_append_left _ _)) fun frame =>
        .bind (ih.executeBlock held decl.body frame) fun flow => .pure _ ?_
    · -- the function holds the parent of the new frame
      intro r hr i ht
      rcases List.mem_cons.1 hr with rfl | hr
      · exact ⟨_, List.mem_append_right _ hf, ht⟩
      · obtain ⟨b, hb, rfl⟩ := List.mem_map.1 hr
        exact ⟨_, List.mem_append_left _ (List.mem_map.2 ⟨b.2, (List.of_mem_zip hb).2, rfl⟩), ht⟩
    · cases flow with
      | normal => exact .value_of_closure?_eq_none rfl
      | ret v => exact .of_subset (List.subset_append_left _ _)
  | host name arity key =>
    refine .ofExcept _ _ fun v hv r hr i ht => ?_
    obtain rfl := List.mem_singleton.1 hr
    cases hres : setting.host key args with
    | error message =>
      rw [hres] at hv
      cases hv
    | ok w =>
      rw [hres] at hv
      cases hv
      obtain ⟨a, ha, hc⟩ := hhost key args v i hres ht
      exact ⟨_, List.mem_append_left _ (List.mem_map.2 ⟨a, ha, rfl⟩), hc⟩

/-- A call does the same with and without releases. -/
theorem succ_invoke (hhost : setting.host.KeepsToArguments) (ih : Simulates setting releases n)
    (held : List Reference) (line : Nat) (f : Value) (args : List Value) (hf : .value f ∈ held) :
    Sim (args.map .value) held (fun v => [.value v])
      (Scriptlet.invoke setting (n + 1) held line f args)
      (Scriptlet.invoke { setting with releases } (n + 1) held line f args) := by
  cases f with
  | function id callable =>
    rw [invoke_function, invoke_function]
    split
    · exact .fail _
    · refine .read fun m heap => ?_
      split
      · exact .fail _
      · refine .counted ((ih.callable hhost line args hf).weaken ?_ fun _ => ?_)
        · exact .of_subset (List.Subset.trans (List.subset_cons_self _ _)
            (List.subset_append_left _ _))
        · exact .of_subset (List.subset_append_left _ _)
  | number _ | string _ | boolean _ | null =>
    rw [invoke_of_functionId?_eq_none _ _ _ _ _ rfl, invoke_of_functionId?_eq_none _ _ _ _ _ rfl]
    exact .fail _

/-- A statement does the same with and without releases. -/
theorem succ_execute (ih : Simulates setting releases n) (held : List Reference) (s : Stmt) :
    Sim [] held Flow.references (Scriptlet.execute setting (n + 1) held s)
      (Scriptlet.execute { setting with releases } (n + 1) held s) := by
  cases s with
  | expression e =>
    rw [Scriptlet.execute, Scriptlet.execute]
    exact .bind_drop (ih.evaluate held e) fun _ => .pure _ (.nil _)
  | print e =>
    rw [Scriptlet.execute, Scriptlet.execute]
    exact .bind_drop (ih.evaluate held e) fun v => .bind (.print v.text) fun _ => .pure _ (.nil _)
  | var name initializer =>
    rw [execute_var, execute_var]
    refine .bind (ih.valueOr held rfl initializer) fun v => ?_
    exact .bind (.define name.lexeme v) fun _ => .pure _ (.nil _)
  | function name params body =>
    rw [Scriptlet.execute, Scriptlet.execute]
    exact .bind (.declare _) fun _ => .pure _ (.nil _)
  | block body =>
    rw [Scriptlet.execute, Scriptlet.execute]
    refine .read fun m heap => .bind (Sim.newFrame m.current []) fun frame => ?_
    exact ih.executeBlock held body frame
  | ifElse condition thenBranch elseBranch =>
    rw [execute_ifElse, execute_ifElse]
    refine .bind_drop (ih.evaluate held condition) fun v => ?_
    split
    · exact ih.execute held thenBranch
    · cases elseBranch with
      | some s => exact ih.execute held s
      | none => exact .pure _ (.nil _)
  | whileLoop condition body =>
    rw [Scriptlet.execute, Scriptlet.execute]
    refine .bind_drop (ih.evaluate held condition) fun v => ?_
    split
    · refine .bind (ih.execute held body) fun flow => ?_
      cases flow with
      | normal => exact ih.execute held _
      | ret v => exact .pure _ (.of_subset (List.subset_append_left _ _))
    · exact .pure _ (.nil _)
  | forLoop initializer condition increment body =>
    cases initializer with
    | some s =>
      rw [Scriptlet.execute, Scriptlet.execute]
      exact .bind_drop (ih.execute held s) fun _ => ih.execute held _
    | none =>
      rw [execute_forLoop, execute_forLoop]
      refine .bind_drop (ih.valueOr held rfl condition) fun v => ?_
      split
      · refine .bind (ih.execute held body) fun flow => ?_
        cases flow with
        | normal => exact .bind_drop (ih.valueOr held rfl increment) fun _ => ih.execute held _
        | ret v => exact .pure _ (.of_subset (List.subset_append_left _ _))
      · exact .pure _ (.nil _)
  | ret keyword value =>
    rw [execute_ret, execute_ret]
    refine .bind (ih.valueOr held rfl value) fun v => .pure _ ?_
    exact .of_subset (List.subset_append_left _ _)

/-- Statements do the same with and without releases. -/
theorem succ_executeAll (ih : Simulates setting releases n) (held : List Reference)
    (ss : List Stmt) :
    Sim [] held Flow.references (Scriptlet.executeAll setting (n + 1) held ss)
      (Scriptlet.executeAll { setting with releases } (n + 1) held ss) := by
  cases ss with
  | nil =>
    rw [Scriptlet.executeAll, Scriptlet.executeAll]
    exact .pure _ (.nil _)
  | cons s ss =>
    rw [Scriptlet.executeAll, Scriptlet.executeAll]
    refine .bind (ih.execute held s) fun flow => ?_
    cases flow with
    | normal => exact ih.executeAll held ss
    | ret v => exact .pure _ (.of_subset (List.subset_append_left _ _))

/-- A block does the same whether or not its frame is released at its end. -/
theorem succ_executeBlock (ih : Simulates setting releases n) (held : List Reference)
    (body : List Stmt) (frame : FrameId) :
    Sim [.frame frame] held Flow.references
      (Scriptlet.executeBlock setting (n + 1) held body frame)
      (Scriptlet.executeBlock { setting with releases } (n + 1) held body frame) := by
  rw [Scriptlet.executeBlock, Scriptlet.executeBlock]
  rintro m _ ⟨hh⟩
  have hall := ih.executeAll (.frame frame :: .frame m.current :: held) body
    { m with current := frame } _ (.intro (hh.mono fun r => ?_))
  · refine hall.andThen (fun flow k flow' k' hD => ?_) fun e k e' k' hF => ?_
    · obtain ⟨rfl, hk⟩ := hD
      exact ⟨rfl, hk.leave (some flow)⟩
    · exact ⟨hF.1, hF.2.leave none⟩
  · simp only [List.mem_append, Machine.mem_roots, List.mem_cons]
    tauto

/-- One more unit of fuel. -/
theorem succ (hhost : setting.host.KeepsToArguments) (ih : Simulates setting releases n) :
    Simulates setting releases (n + 1) where
  evaluate held e := by
    rw [evaluate_succ, evaluate_succ]
    exact .bind (ih.node held e) .remember
  evaluateEach := ih.succ_evaluateEach
  invoke := ih.succ_invoke hhost
  execute := ih.succ_execute
  executeAll := ih.succ_executeAll
  executeBlock := ih.succ_executeBlock

end Simulates

/-- With and without releases, all computations keep machines in agreement. -/
theorem simulates {setting : Setting} (hhost : setting.host.KeepsToArguments) (releases : Bool)
    (n : Nat) : Simulates setting releases n := by
  induction n with
  | zero => exact .zero
  | succ n ih => exact ih.succ hhost

/-! ### Sessions -/

namespace Machine

/-- Two answers, if there are any, that are equal but for machines in agreement. -/
def AgreeAfter {α : Type} : Option (α × Machine) → Option (α × Machine) → Prop :=
  Option.Rel fun x y => x.1 = y.1 ∧ Agree (x.2.roots []) x.2 y.2

namespace AgreeAfter

variable {α β : Type} {x y z : Option (α × Machine)}

theorem isSome_eq (h : AgreeAfter x y) : x.isSome = y.isSome := by
  cases h <;> rfl

/-- If one run ends then so does the other, in agreement. -/
theorem exists_of_eq_some (h : AgreeAfter x y) {a : α} {m : Machine} (hx : x = some (a, m)) :
    ∃ m', y = some (a, m') ∧ Agree (m.roots []) m m' := by
  subst hx
  cases h with
  | @some _ b h =>
    obtain ⟨b, m'⟩ := b
    obtain ⟨rfl, hm⟩ := h
    exact ⟨m', rfl, hm⟩

theorem symm (h : AgreeAfter x y) : AgreeAfter y x := by
  cases h with
  | none => exact .none
  | some h =>
    refine .some ⟨h.1.symm, ?_⟩
    rw [h.2.roots_eq []]
    exact h.2.symm

theorem trans (h : AgreeAfter x y) (h' : AgreeAfter y z) : AgreeAfter x z := by
  cases h with
  | none => exact h'
  | some h =>
    cases h' with
    | some h' =>
      refine .some ⟨h.1.trans h'.1, h.2.trans ?_⟩
      rw [← h.2.roots_eq []]
      exact h'.2

/-- Runs in agreement give the same answer and the same output. -/
theorem observed (h : AgreeAfter x y) :
    (x.map fun r => (r.1, r.2.sink)) = y.map fun r => (r.1, r.2.sink) := by
  cases h with
  | none => rfl
  | @some a b h =>
    obtain ⟨a, m⟩ := a
    obtain ⟨b, _⟩ := b
    obtain ⟨rfl, ⟨-⟩⟩ := h
    rfl

/-- What follows runs in agreement stays in agreement. -/
theorem bind {f g : α × Machine → Option (β × Machine)} (h : AgreeAfter x y)
    (hf : ∀ a m m', Agree (m.roots []) m m' → AgreeAfter (f (a, m)) (g (a, m'))) :
    AgreeAfter (x.bind f) (y.bind g) := by
  cases h with
  | none => exact .none
  | @some a b h =>
    obtain ⟨a, m⟩ := a
    obtain ⟨b, m'⟩ := b
    obtain ⟨rfl, hm⟩ := h
    exact hf a m m' hm

theorem map (h : AgreeAfter x y) (f : α → β) :
    AgreeAfter (x.map (Prod.map f id)) (y.map (Prod.map f id)) := by
  cases h with
  | none => exact .none
  | some h => exact .some ⟨congrArg f h.1, h.2⟩

end AgreeAfter

variable {setting : Setting} {releases : Bool} {m m' : Machine}

theorem Agree.report (hm : Agree (m.roots []) m m') (e : Error) :
    Agree ((m.report e).roots []) (m.report e) (m'.report e) := by
  obtain ⟨hh⟩ := hm
  exact .intro hh

theorem Agree.foldl_report (hm : Agree (m.roots []) m m') (es : List Error) :
    Agree ((es.foldl Machine.report m).roots []) (es.foldl Machine.report m)
      (es.foldl Machine.report m') := by
  induction es generalizing m m' with
  | nil => exact hm
  | cons e es ih => exact ih (hm.report e)

theorem Agree.forget (hm : Agree (m.roots []) m m') :
    Agree (m.forget.roots []) m.forget m'.forget := by
  obtain ⟨hh⟩ := hm
  refine .intro (hh.of_roots fun r hr i ht => ?_)
  simp only [mem_roots] at hr
  rcases hr with rfl | rfl | rfl | hr
  · exact .root (mem_roots.2 (Or.inl rfl)) ht
  · exact .root (mem_roots.2 (Or.inr (Or.inl rfl))) ht
  · cases ht
  · cases hr

theorem Agree.defineHost (hm : Agree (m.roots []) m m') (name : String) (arity : Nat)
    (key : String) : Agree ((m.defineHost name arity key).roots []) (m.defineHost name arity key)
      (m'.defineHost name arity key) := by
  obtain ⟨hh⟩ := hm
  obtain ⟨hv, hheap⟩ := hh.makeFunction (.host name arity key)
  refine .intro ?_
  change Heap.Agree _ _ (Heap.define _ _ _ (Heap.makeFunction _ _).1)
  rw [← hv]
  refine hheap.define fun i hi => ?_
  cases hi

/-- A program does the same on machines in agreement, with and without releases. -/
theorem Agree.runProgram (hhost : setting.host.KeepsToArguments) (fuel : Nat) (program : Program)
    (hm : Agree (m.roots []) m m') :
    AgreeAfter (m.runProgram setting fuel program)
      (m'.runProgram { setting with releases } fuel program) := by
  have hrun := (simulates hhost releases fuel).executeAll [] program.statements _ _
    (hm.foldl_report program.errors)
  unfold Machine.runProgram
  generalize executeAll setting fuel [] program.statements _ = o,
    executeAll { setting with releases } fuel [] program.statements _ = o' at hrun
  cases hrun with
  | @done flow k _ k' hD =>
    have hk : Agree (k.roots []) k k' := hD.2.mono (List.subset_append_right _ _)
    refine .some ⟨?_, hk.forget⟩
    obtain ⟨-⟩ := hk
    rfl
  | @failed e k e' k' hF =>
    obtain ⟨rfl, hk⟩ := hF
    refine .some ⟨?_, (hk.report e).forget⟩
    obtain ⟨-⟩ := hk
    rfl
  | outOfFuel => exact .none

/-- A script does the same on machines in agreement, with and without releases. -/
theorem Agree.runScript (hhost : setting.host.KeepsToArguments) (fuel : Nat) (source : String)
    (hm : Agree (m.roots []) m m') :
    AgreeAfter (m.runScript setting fuel source)
      (m'.runScript { setting with releases } fuel source) := by
  unfold Machine.runScript
  split
  · exact .some ⟨rfl, hm.forget.report _⟩
  · exact hm.forget.runProgram hhost fuel _

/-- A session does the same on machines in agreement, with and without releases. -/
theorem Agree.session (hhost : setting.host.KeepsToArguments) (fuel : Nat) (calls : List HostCall)
    (hm : Agree (m.roots []) m m') :
    AgreeAfter (m.session setting fuel calls)
      (m'.session { setting with releases } fuel calls) := by
  induction calls generalizing m m' with
  | nil => exact .some ⟨rfl, hm⟩
  | cons call calls ih =>
    cases call with
    | run source =>
      exact (hm.runScript hhost fuel source).bind fun report k k' hk => (ih hk).map (report :: ·)
    | defineHost name arity key => exact ih (hm.defineHost name arity key)

end Machine

/-- **Releasing frames is invisible to scripts.** With releases and without, every program run on
every machine gives the same report and writes the same, or runs out of fuel in both cases; so does
every session of a host. And when a block ends, every name keeps its value in every frame that the
registers, the pending computations or the value returned still reach. -/
theorem release_invisible (setting : Setting) (hhost : setting.host.KeepsToArguments) :
    (∀ (m : Machine) (fuel : Nat) (program : Program),
      (m.runProgram { setting with releases := true } fuel program).map
          (fun r => (r.1, r.2.sink)) =
        (m.runProgram { setting with releases := false } fuel program).map
          (fun r => (r.1, r.2.sink))) ∧
    (∀ (m : Machine) (fuel : Nat) (calls : List HostCall),
      m.observe { setting with releases := true } fuel calls =
        m.observe { setting with releases := false } fuel calls) ∧
    (∀ (m : Machine) (held : List Reference) (frame previous : FrameId) (flow : Option Flow)
      (id : FrameId) (name : String), m.heap.Reaches (m.exitRoots held previous flow) id →
      (m.leave setting held frame previous flow).heap.lookup id name = m.heap.lookup id name) := by
  have hon : ({ setting with releases := true } : Setting).host.KeepsToArguments := hhost
  refine ⟨fun m fuel program => ?_, fun m fuel calls => ?_, ?_⟩
  · exact ((Machine.Agree.refl _ m).runProgram hon fuel program).observed
  · exact ((Machine.Agree.refl _ m).session hon fuel calls).observed
  · intro m held frame previous flow id name hid
    have hleave := m.agree_leave setting held frame previous flow
    generalize m.leave setting held frame previous flow = m' at hleave
    obtain ⟨hh⟩ := hleave
    exact (hh.lookup name hid).symm

/-- A block binds a function of its own and calls it, so that its frame is released when the block
ends: in the state at its end the function has its name, and behind the block it has not, while the
global names are what they were. With releases as without, the scripts end and write the same two
lines. -/
theorem standard_release_invisible :
    let calls : List HostCall :=
      [.run "{ function f() { return 1; } print f(); }", .run "print 1;"]
    let name : Token := ⟨.mark .identifier, "f", 1⟩
    let body : List Stmt :=
      [.ret ⟨.mark .kwReturn, "return", 1⟩ (some (.literal (.number 1)))]
    -- the frame of the block has number 1, that of the call number 2
    let made := ((Heap.empty.push ⟨[], none⟩).push ⟨[], some 0⟩).makeFunction
      (.closure ⟨name, [], body⟩ 1)
    let m : Machine := { Machine.start .unlimited with
      heap := (made.2.define 1 "f" made.1).push ⟨[], some 1⟩
      current := 1
      lastValue := .number 1 }
    let left := m.leave .standard [] 1 0 (some .normal)
    Setting.standard.host.KeepsToArguments ∧
      (Machine.start .unlimited).observe { Setting.standard with releases := true } 100 calls =
        (Machine.start .unlimited).observe { Setting.standard with releases := false } 100 calls ∧
      ((Machine.start .unlimited).observe { Setting.standard with releases := true } 100 calls).any
        (fun r => r.2.written.data.toList = "1\n1\n".toUTF8.data.toList) = true ∧
      (m.heap.lookup 1 "f").isSome = true ∧ (left.heap.lookup 1 "f").isSome = false ∧
      ∀ name, left.heap.lookup 0 name = m.heap.lookup 0 name := by
  intro calls name body made m left
  have hinvisible := release_invisible Setting.standard Host.standard_keepsToArguments
  have hobserve := hinvisible.2.1 (Machine.start .unlimited) 100 calls
  refine ⟨Host.standard_keepsToArguments, hobserve, ?_, by decide +kernel, ?_, fun name => ?_⟩
  · rw [hobserve]
    decide +kernel
  · have hids : m.heap.ids.length = 3 := rfl
    change ((Machine.leave .standard [] 1 0 (some .normal) m).heap.lookup 1 "f").isSome = false
    unfold Machine.leave
    dsimp only
    rw [if_pos (by decide +kernel), Heap.sweep, hids, Heap.sweep_go_succ,
      if_neg (by decide +kernel), Heap.sweep_go_succ, if_pos (by decide +kernel)]
    decide +kernel
  · refine hinvisible.2.2 m [] 1 0 _ 0 name (.root (r := .frame 0) ?_ rfl)
    simp [Machine.exitRoots, Machine.roots]

end Scriptlet

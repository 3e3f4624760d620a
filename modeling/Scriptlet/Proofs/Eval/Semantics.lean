import Scriptlet.Proofs.Eval.Release

/-!
# Evaluation carried out in other ways

What a script does can be followed in more ways than by running it on a machine: also with a record
of all that happens, or on two machines side by side. A `Semantics` says how the steps of evaluation
are carried out in a monad, and `Evaluator.ofFuel` evaluates scripts that way. Carried out plainly,
this is the evaluator. What relates the steps of two semantics relates all that they evaluate
(`Relates.ofFuel`), so a fact about evaluation is proved by looking at its steps only.
-/

namespace Scriptlet

/-- The current frame. -/
def Eval.current : Eval FrameId := fun m => .done m.current m

/-- How the steps of evaluation are carried out. -/
structure Semantics (M : Type → Type) where
  /-- An operation of the machine. -/
  step : {α : Type} → Eval α → M α
  /-- Remembers the value that an expression has got. -/
  remember : Value → M Value
  /-- Writes a line of output. -/
  print : String → M Unit
  /-- A call from the given line that runs as one more active call, or is refused. -/
  call : {α : Type} → Setting → Nat → M α → M α
  /-- A block that runs in the given frame and is told the frame before. -/
  inFrame : Setting → List Reference → FrameId → (FrameId → M Flow) → M Flow
  /-- A part of a script, with the references it starts from besides those that pending
  computations hold, and those in its result. -/
  part : {α : Type} → List Reference → List Reference → (α → List Reference) → M α → M α

/-- The functions of an evaluator that has some given fuel. -/
structure Evaluator (M : Type → Type) where
  evaluate : List Reference → Expr → M Value
  evaluateEach : List Reference → List Expr → M (List Value)
  invoke : List Reference → Nat → Value → List Value → M Value
  execute : List Reference → Stmt → M Flow
  executeAll : List Reference → List Stmt → M Flow
  executeBlock : List Reference → List Stmt → FrameId → M Flow

namespace Evaluator

variable {M : Type → Type} [Monad M] (S : Semantics M) (setting : Setting) (L : Evaluator M)
  (held : List Reference)

/-- The value of an expression before it is remembered. -/
def node : Expr → M Value
  | .literal value => pure (.ofLiteral value)
  | .group inner => L.evaluate held inner
  | .var name => S.step (Eval.lookup name)
  | .assign name value => do
    let v ← L.evaluate held value
    S.step (Eval.assign name v)
    pure v
  | .unary operator operand => do
    let v ← L.evaluate held operand
    S.step (Eval.ofExcept operator.line (v.applyUnary operator))
  | .binary left operator right => do
    let a ← L.evaluate held left
    let b ← L.evaluate (.value a :: held) right
    S.step (Eval.ofExcept operator.line (Value.applyBinary operator a b))
  | .logical left operator right => do
    let a ← L.evaluate held left
    if Value.shortCircuits operator a then
      pure a
    else
      L.evaluate (.value a :: held) right
  | .call callee paren arguments => do
    let f ← L.evaluate held callee
    let args ← L.evaluateEach (.value f :: held) arguments
    L.invoke (.value f :: held) paren.line f args

/-- The values of expressions, from left to right. -/
def each : List Expr → M (List Value)
  | [] => pure []
  | e :: es => do
    let v ← L.evaluate held e
    let vs ← L.evaluateEach (.value v :: held) es
    pure (v :: vs)

/-- The value of an expression that may be missing, and then is the given one. -/
def valueOr (v : Value) : Option Expr → M Value
  | some e => L.evaluate held e
  | none => pure v

/-- What a call runs while it is active. -/
def callable (line : Nat) (args : List Value) : Callable → M Value
  | .closure decl closure => do
    let frame ← S.step (Eval.newFrame closure ((decl.params.map (·.lexeme)).zip args))
    let flow ← L.executeBlock held decl.body frame
    pure flow.value
  | .host _ _ key => S.step (Eval.ofExcept line ((setting.host key args).mapError .native))

/-- The value of a call. -/
def called (line : Nat) (args : List Value) : Value → M Value
  | .function _ callable =>
    if args.length ≠ callable.arity then
      S.step (Eval.fail (.runtime (.wrongArity callable.arity args.length) line))
    else
      S.call setting line (L.callable S setting held line args callable)
  | _ => S.step (Eval.fail (.runtime .notCallable line))

/-- A return is passed on, and otherwise the run goes on. -/
def onward (x : M Flow) : Flow → M Flow
  | .ret v => pure (.ret v)
  | .normal => x

/-- Runs one statement. -/
def statement : Stmt → M Flow
  | .expression e => do
    let _ ← L.evaluate held e
    pure .normal
  | .print e => do
    let v ← L.evaluate held e
    S.print v.text
    pure .normal
  | .var name initializer => do
    let v ← L.valueOr held .null initializer
    S.step (Eval.change (·.define name.lexeme v))
    pure .normal
  | .function name params body => do
    S.step (Eval.declare ⟨name, params, body⟩)
    pure .normal
  | .block body => do
    let current ← S.step Eval.current
    let frame ← S.step (Eval.newFrame current [])
    L.executeBlock held body frame
  | .ifElse condition thenBranch elseBranch => do
    let v ← L.evaluate held condition
    if v.isTruthy then
      L.execute held thenBranch
    else
      (elseBranch.map (L.execute held)).getD (pure .normal)
  | .whileLoop condition body => do
    let v ← L.evaluate held condition
    if v.isTruthy then
      L.execute held body >>= onward (L.execute held (.whileLoop condition body))
    else
      pure .normal
  | .forLoop (some initializer) condition increment body => do
    let _ ← L.execute held initializer
    L.execute held (.forLoop none condition increment body)
  | .forLoop none condition increment body => do
    let v ← L.valueOr held (.boolean true) condition
    if v.isTruthy then
      L.execute held body >>= onward (do
        let _ ← L.valueOr held .null increment
        L.execute held (.forLoop none condition increment body))
    else
      pure .normal
  | .ret _ value => do
    let v ← L.valueOr held .null value
    pure (.ret v)

/-- Runs statements in order, up to the first return. -/
def statements : List Stmt → M Flow
  | [] => pure .normal
  | s :: ss => L.execute held s >>= onward (L.executeAll held ss)

/-- The functions of an evaluator with no fuel. -/
def exhausted : Evaluator M where
  evaluate _ _ := S.step Eval.exhausted
  evaluateEach _ _ := S.step Eval.exhausted
  invoke _ _ _ _ := S.step Eval.exhausted
  execute _ _ := S.step Eval.exhausted
  executeAll _ _ := S.step Eval.exhausted
  executeBlock _ _ _ := S.step Eval.exhausted

/-- The functions of an evaluator with one more unit of fuel. -/
def next : Evaluator M where
  evaluate held e := S.part [] held (fun v => [.value v]) (L.node S held e >>= S.remember)
  evaluateEach held es := S.part [] held (fun vs => vs.map .value) (L.each held es)
  invoke held line f args := S.part (args.map .value) held (fun v => [.value v])
    (L.called S setting held line args f)
  execute held s := S.part [] held Flow.references (L.statement S held s)
  executeAll held ss := S.part [] held Flow.references (L.statements held ss)
  executeBlock held body frame := S.part [.frame frame] held Flow.references
    (S.inFrame setting held frame fun previous =>
      L.executeAll (.frame frame :: .frame previous :: held) body)

/-- The functions of an evaluator with the given fuel. -/
def ofFuel : Nat → Evaluator M
  | 0 => exhausted S
  | n + 1 => (ofFuel n).next S setting

end Evaluator

/-! ### The plain way -/

/-- Evaluation on a machine, and nothing else. -/
def Semantics.plain : Semantics Eval where
  step x := x
  remember := Eval.remember
  print := Eval.print
  call setting line x m :=
    if setting.callLimit ≤ m.callDepth then
      .failed (.runtime .stackOverflow line) m
    else
      Eval.counted x m
  inFrame setting held frame body m :=
    Eval.andThen (body m.current) (Machine.leave setting held frame m.current)
      { m with current := frame }
  part _ _ _ x := x

namespace Semantics

variable {α : Type} {setting : Setting} {line : Nat} {x : Eval α} {m : Machine}

/-- A call at the limit is refused. -/
theorem plain_call_of_le (h : setting.callLimit ≤ m.callDepth) :
    plain.call setting line x m = .failed (.runtime .stackOverflow line) m := if_pos h

/-- A call below the limit is counted. -/
theorem plain_call_of_lt (h : m.callDepth < setting.callLimit) :
    plain.call setting line x m = Eval.counted x m := if_neg (Nat.not_le.2 h)

end Semantics

namespace Evaluator

variable (setting : Setting) (n : Nat) (held : List Reference)

/-- The evaluator with the given fuel. -/
def direct : Evaluator Eval :=
  ⟨Scriptlet.evaluate setting n, Scriptlet.evaluateEach setting n, Scriptlet.invoke setting n,
    Scriptlet.execute setting n, Scriptlet.executeAll setting n, Scriptlet.executeBlock setting n⟩

/-- A node evaluated plainly is the node of the evaluator. -/
theorem node_direct (e : Expr) :
    (direct setting n).node .plain held e = evaluateNode setting n held e := by
  cases e <;> rfl

/-- A call carried out plainly is the call of the evaluator. -/
theorem called_direct (line : Nat) (args : List Value) (f : Value) :
    (direct setting n).called .plain setting held line args f =
      Scriptlet.invoke setting (n + 1) held line f args := by
  cases f with
  | function id callable =>
    rw [invoke_function, called]
    split
    · rfl
    · funext m
      change _ = (if setting.callLimit ≤ m.callDepth then _ else _ : Eval Value) m
      split
      · rename_i hlimit
        exact Semantics.plain_call_of_le hlimit
      · rename_i hlimit
        rw [Semantics.plain_call_of_lt (Nat.not_le.1 hlimit)]
        cases callable <;> rfl
  | number _ | string _ | boolean _ | null =>
    rw [invoke_of_functionId?_eq_none _ _ _ _ _ rfl]
    rfl

/-- Going on unless there is a return is the same in both spellings. -/
theorem bind_onward (x k : Eval Flow) :
    (x >>= onward k) = x >>= fun
      | .ret v => pure (.ret v)
      | .normal => k := by
  refine congrArg (x >>= ·) (funext fun flow => ?_)
  cases flow <;> rfl

/-- A statement carried out plainly is the statement of the evaluator. -/
theorem statement_direct (s : Stmt) :
    (direct setting n).statement .plain held s = Scriptlet.execute setting (n + 1) held s := by
  cases s with
  | expression | print | function | block =>
    rw [Scriptlet.execute]
    rfl
  | var name initializer =>
    rw [execute_var]
    cases initializer <;> rfl
  | ifElse condition thenBranch elseBranch =>
    rw [execute_ifElse]
    cases elseBranch <;> rfl
  | whileLoop condition body =>
    rw [Scriptlet.execute]
    unfold statement
    simp only [bind_onward]
    rfl
  | forLoop initializer condition increment body =>
    cases initializer with
    | some s =>
      rw [Scriptlet.execute]
      rfl
    | none =>
      rw [execute_forLoop]
      unfold statement
      simp only [bind_onward]
      cases condition <;> cases increment <;> rfl
  | ret keyword value =>
    rw [execute_ret]
    cases value <;> rfl

theorem statements_direct (ss : List Stmt) :
    (direct setting n).statements held ss = Scriptlet.executeAll setting (n + 1) held ss := by
  cases ss with
  | nil => rfl
  | cons s ss =>
    rw [Scriptlet.executeAll]
    exact bind_onward _ _

theorem each_direct (es : List Expr) :
    (direct setting n).each held es = Scriptlet.evaluateEach setting (n + 1) held es := by
  cases es <;> rfl

/-- One more unit of fuel for plain evaluation is one more for the evaluator. -/
theorem next_direct :
    (direct setting n).next .plain setting = direct setting (n + 1) := by
  unfold next direct
  congr 1
  · funext held e
    rw [evaluate_succ, ← node_direct]
    rfl
  · funext held es
    exact each_direct setting n held es
  · funext held line f args
    exact called_direct setting n held line args f
  · funext held s
    exact statement_direct setting n held s
  · funext held ss
    exact statements_direct setting n held ss

/-- **Evaluation carried out plainly is the evaluator.** -/
theorem ofFuel_plain : ofFuel .plain setting n = direct setting n := by
  induction n with
  | zero => rfl
  | succ n ih => rw [ofFuel, ih, next_direct]

end Evaluator

/-! ### Two semantics side by side -/

namespace Value

theorem applyUnary_ne_stackOverflow (operator : Token) (v : Value) :
    v.applyUnary operator ≠ .error .stackOverflow := by
  unfold applyUnary
  split
  · split <;> simp
  · simp
  · simp

theorem withNumbers_ne_stackOverflow (operator : String) (f : Float → Float → Value) (a b : Value) :
    withNumbers operator f a b ≠ .error .stackOverflow := by
  unfold withNumbers
  split <;> simp

/-- No operator between values overflows the stack. -/
theorem applyBinary_ne_stackOverflow (operator : Token) (a b : Value) :
    applyBinary operator a b ≠ .error .stackOverflow := by
  unfold applyBinary
  split
  case h_1 =>
    unfold add
    split <;> simp
  case h_9 | h_10 | h_11 => simp
  all_goals exact withNumbers_ne_stackOverflow _ _ a b

end Value

variable {M N : Type → Type} [Monad M] [Monad N]

/-- Relations between computations in two semantics that their steps respect. What a computation
starts from and what its result holds is told by references: those given, those that pending
computations hold, and those in the result. -/
structure Relates (S : Semantics M) (T : Semantics N) (setting setting' : Setting)
    (R : {α : Type} → List Reference → List Reference → (α → List Reference) → M α → N α → Prop) :
    Prop where
  weaken : ∀ {α : Type} {before before' held : List Reference} {refs refs' : α → List Reference}
    {x : M α} {y : N α}, R before held refs x y → Reference.Covers (before' ++ held) before →
    (∀ a, Reference.Covers (refs a ++ held) (refs' a)) → R before' held refs' x y
  /-- What is held while a computation runs may be given up when it starts. -/
  holding : ∀ {α : Type} {held : List Reference} {refs : α → List Reference} {v : Value}
    {x : M α} {y : N α}, R [] (.value v :: held) refs x y → R [.value v] held refs x y
  pure : ∀ {α : Type} {before held : List Reference} {refs : α → List Reference} (a : α),
    Reference.Covers (before ++ held) (refs a) → R before held refs (pure a) (pure a)
  bind : ∀ {α β : Type} {before held : List Reference} {refs : α → List Reference}
    {refs' : β → List Reference} {x : M α} {y : N α} {f : α → M β} {g : α → N β},
    R before held refs x y → (∀ a, R (refs a) held refs' (f a) (g a)) →
    R before held refs' (x >>= f) (y >>= g)
  exhausted : ∀ {α : Type} {before held : List Reference} {refs : α → List Reference},
    R before held refs (S.step Eval.exhausted) (T.step Eval.exhausted)
  /-- A failure other than that of a refused call. -/
  fail : ∀ {before held : List Reference} {refs : Value → List Reference} (line : Nat)
    {fault : RuntimeFault}, fault ≠ .stackOverflow →
    R before held refs (S.step (Eval.fail (.runtime fault line)))
      (T.step (Eval.fail (.runtime fault line)))
  /-- The value of an operator is no function. -/
  operator : ∀ {held : List Reference} (line : Nat) {r : Except RuntimeFault Value},
    (∀ v, r = .ok v → v.closure? = none) → r ≠ .error .stackOverflow →
    R [] held (fun v => [.value v]) (S.step (Eval.ofExcept line r)) (T.step (Eval.ofExcept line r))
  host : ∀ {held : List Reference} (line : Nat) (key : String) (args : List Value),
    R (args.map .value) held (fun v => [.value v])
      (S.step (Eval.ofExcept line ((setting.host key args).mapError .native)))
      (T.step (Eval.ofExcept line ((setting'.host key args).mapError .native)))
  lookup : ∀ {held : List Reference} (name : Token),
    R [] held (fun v => [.value v]) (S.step (Eval.lookup name)) (T.step (Eval.lookup name))
  assign : ∀ {held : List Reference} (name : Token) (v : Value),
    R [.value v] held (fun _ => [.value v]) (S.step (Eval.assign name v))
      (T.step (Eval.assign name v))
  define : ∀ {held : List Reference} (name : String) (v : Value),
    R [.value v] held (fun _ => []) (S.step (Eval.change (·.define name v)))
      (T.step (Eval.change (·.define name v)))
  declare : ∀ {held : List Reference} (decl : FunctionDecl),
    R [] held (fun _ => []) (S.step (Eval.declare decl)) (T.step (Eval.declare decl))
  remember : ∀ {held : List Reference} (v : Value),
    R [.value v] held (fun v => [.value v]) (S.remember v) (T.remember v)
  newFrame : ∀ {held : List Reference} (parent : FrameId) (bindings : List (String × Value)),
    R (.frame parent :: bindings.map fun b => .value b.2) held (fun id => [.frame id])
      (S.step (Eval.newFrame parent bindings)) (T.step (Eval.newFrame parent bindings))
  current : ∀ {held : List Reference},
    R [] held (fun id => [.frame id]) (S.step Eval.current) (T.step Eval.current)
  print : ∀ {held : List Reference} (line : String),
    R [] held (fun _ => []) (S.print line) (T.print line)
  call : ∀ {before held : List Reference} (line : Nat) {x : M Value} {y : N Value},
    R before held (fun v => [.value v]) x y →
    R before held (fun v => [.value v]) (S.call setting line x) (T.call setting' line y)
  inFrame : ∀ {held : List Reference} (frame : FrameId) {x : FrameId → M Flow}
    {y : FrameId → N Flow},
    (∀ previous, R [] (.frame frame :: .frame previous :: held) Flow.references (x previous)
      (y previous)) →
    R [.frame frame] held Flow.references (S.inFrame setting held frame x)
      (T.inFrame setting' held frame y)
  part : ∀ {α : Type} {before held : List Reference} {refs : α → List Reference} {x : M α}
    {y : N α}, R before held refs x y →
    R before held refs (S.part before held refs x) (T.part before held refs y)

/-- Two evaluators whose functions are related. -/
structure Evaluator.Related
    (R : {α : Type} → List Reference → List Reference → (α → List Reference) → M α → N α → Prop)
    (L : Evaluator M) (L' : Evaluator N) : Prop where
  evaluate : ∀ held e, R [] held (fun v => [.value v]) (L.evaluate held e) (L'.evaluate held e)
  evaluateEach : ∀ held es,
    R [] held (fun vs => vs.map .value) (L.evaluateEach held es) (L'.evaluateEach held es)
  invoke : ∀ held line f args, .value f ∈ held →
    R (args.map .value) held (fun v => [.value v]) (L.invoke held line f args)
      (L'.invoke held line f args)
  execute : ∀ held s, R [] held Flow.references (L.execute held s) (L'.execute held s)
  executeAll : ∀ held ss, R [] held Flow.references (L.executeAll held ss) (L'.executeAll held ss)
  executeBlock : ∀ held body frame,
    R [.frame frame] held Flow.references (L.executeBlock held body frame)
      (L'.executeBlock held body frame)

namespace Relates

variable {S : Semantics M} {T : Semantics N} {setting setting' : Setting}
  {R : {α : Type} → List Reference → List Reference → (α → List Reference) → M α → N α → Prop}
  {L : Evaluator M} {L' : Evaluator N} {held : List Reference}

/-- A result that is not needed any more is no longer held. -/
theorem bind_drop (h : Relates S T setting setting' R) {α β : Type} {before : List Reference}
    {refs : α → List Reference} {refs' : β → List Reference} {x : M α} {y : N α} {f : α → M β}
    {g : α → N β} (hx : R before held refs x y) (hf : ∀ a, R [] held refs' (f a) (g a)) :
    R before held refs' (x >>= f) (y >>= g) :=
  h.bind (h.weaken hx (.of_subset (List.subset_append_left _ _)) fun _ => .nil _) hf

theorem exhausted_evaluator (h : Relates S T setting setting' R) :
    Evaluator.Related R (Evaluator.exhausted S) (Evaluator.exhausted T) where
  evaluate _ _ := h.exhausted
  evaluateEach _ _ := h.exhausted
  invoke _ _ _ _ _ := h.exhausted
  execute _ _ := h.exhausted
  executeAll _ _ := h.exhausted
  executeBlock _ _ _ := h.exhausted

/-- Related evaluators relate the nodes of expressions. -/
theorem node (h : Relates S T setting setting' R) (ih : Evaluator.Related R L L')
    (held : List Reference) (e : Expr) :
    R [] held (fun v => [.value v]) (L.node S held e) (L'.node T held e) := by
  cases e with
  | literal value => exact h.pure _ (.value_of_closure?_eq_none (by cases value <;> rfl))
  | group inner => exact ih.evaluate held inner
  | var name => exact h.lookup name
  | assign name value =>
    refine h.bind (ih.evaluate held value) fun v => h.bind (h.assign name v) fun _ => ?_
    exact h.pure v (.of_subset (List.subset_append_left _ _))
  | unary operator operand =>
    refine h.bind_drop (ih.evaluate held operand) fun v => h.operator _ (fun w hw => ?_) ?_
    · exact Value.closure?_applyUnary hw
    · exact Value.applyUnary_ne_stackOverflow operator v
  | binary left operator right =>
    refine h.bind (ih.evaluate held left) fun a => h.holding ?_
    refine h.bind_drop (ih.evaluate _ right) fun b => h.operator _ (fun w hw => ?_) ?_
    · exact Value.closure?_applyBinary hw
    · exact Value.applyBinary_ne_stackOverflow operator a b
  | logical left operator right =>
    refine h.bind (ih.evaluate held left) fun a => ?_
    split
    · exact h.pure a (.of_subset (List.subset_append_left _ _))
    · exact h.holding (ih.evaluate _ right)
  | call callee paren arguments =>
    refine h.bind (ih.evaluate held callee) fun f => h.holding ?_
    refine h.bind (ih.evaluateEach _ arguments) fun args => ?_
    exact ih.invoke _ _ f args List.mem_cons_self

theorem each (h : Relates S T setting setting' R) (ih : Evaluator.Related R L L')
    (held : List Reference) (es : List Expr) :
    R [] held (fun vs => vs.map .value) (L.each held es) (L'.each held es) := by
  cases es with
  | nil => exact h.pure [] (.nil _)
  | cons e es =>
    refine h.bind (ih.evaluate held e) fun v => h.holding ?_
    refine h.bind (ih.evaluateEach _ es) fun vs => h.pure (v :: vs) (.of_subset ?_)
    intro r
    simp only [List.map_cons, List.mem_cons, List.mem_append]
    tauto

theorem valueOr (h : Relates S T setting setting' R) (ih : Evaluator.Related R L L')
    (held : List Reference) {v : Value} (hv : v.closure? = none) (e : Option Expr) :
    R [] held (fun v => [.value v]) (L.valueOr held v e) (L'.valueOr held v e) := by
  cases e with
  | some e => exact ih.evaluate held e
  | none => exact h.pure _ (.value_of_closure?_eq_none hv)

/-- Related evaluators relate what calls run. -/
theorem callable (h : Relates S T setting setting' R) (ih : Evaluator.Related R L L') (line : Nat)
    (args : List Value) {id : FunctionId} {callable : Callable}
    (hf : .value (.function id callable) ∈ held) :
    R (args.map .value) held (fun v => [.value v]) (L.callable S setting held line args callable)
      (L'.callable T setting' held line args callable) := by
  cases callable with
  | closure decl closure =>
    refine h.bind (h.weaken (h.newFrame closure _) ?_ fun _ =>
      .of_subset (List.subset_append_left _ _)) fun frame =>
        h.bind (ih.executeBlock held decl.body frame) fun flow => h.pure _ ?_
    · -- the function holds the parent of the new frame
      intro r hr i ht
      rcases List.mem_cons.1 hr with rfl | hr
      · exact ⟨_, List.mem_append_right _ hf, ht⟩
      · obtain ⟨b, hb, rfl⟩ := List.mem_map.1 hr
        exact ⟨_, List.mem_append_left _ (List.mem_map.2 ⟨b.2, (List.of_mem_zip hb).2, rfl⟩), ht⟩
    · cases flow with
      | normal => exact .value_of_closure?_eq_none rfl
      | ret v => exact .of_subset (List.subset_append_left _ _)
  | host name arity key => exact h.host line key args

/-- Related evaluators relate calls. -/
theorem called (h : Relates S T setting setting' R) (ih : Evaluator.Related R L L') (line : Nat)
    (args : List Value) {f : Value} (hf : .value f ∈ held) :
    R (args.map .value) held (fun v => [.value v]) (L.called S setting held line args f)
      (L'.called T setting' held line args f) := by
  cases f with
  | function id callable =>
    rw [Evaluator.called, Evaluator.called]
    split
    · exact h.fail line (by simp)
    · exact h.call line (h.callable ih line args hf)
  | number _ | string _ | boolean _ | null => exact h.fail line (by simp)

/-- A return is passed on in both, and otherwise both go on. -/
theorem onward (h : Relates S T setting setting' R) {x : M Flow} {y : N Flow}
    (hx : R [] held Flow.references x y) (flow : Flow) :
    R flow.references held Flow.references (Evaluator.onward x flow) (Evaluator.onward y flow) := by
  cases flow with
  | normal => exact hx
  | ret v => exact h.pure _ (.of_subset (List.subset_append_left _ _))

/-- Related evaluators relate statements. -/
theorem statement (h : Relates S T setting setting' R) (ih : Evaluator.Related R L L')
    (held : List Reference) (s : Stmt) :
    R [] held Flow.references (L.statement S held s) (L'.statement T held s) := by
  cases s with
  | expression e => exact h.bind_drop (ih.evaluate held e) fun _ => h.pure _ (.nil _)
  | print e =>
    exact h.bind_drop (ih.evaluate held e) fun v => h.bind (h.print v.text) fun _ =>
      h.pure _ (.nil _)
  | var name initializer =>
    refine h.bind (h.valueOr ih held rfl initializer) fun v => ?_
    exact h.bind (h.define name.lexeme v) fun _ => h.pure _ (.nil _)
  | function name params body => exact h.bind (h.declare _) fun _ => h.pure _ (.nil _)
  | block body =>
    refine h.bind h.current fun current => h.bind (h.newFrame current []) fun frame => ?_
    exact ih.executeBlock held body frame
  | ifElse condition thenBranch elseBranch =>
    refine h.bind_drop (ih.evaluate held condition) fun v => ?_
    split
    · exact ih.execute held thenBranch
    · cases elseBranch with
      | some s => exact ih.execute held s
      | none => exact h.pure _ (.nil _)
  | whileLoop condition body =>
    refine h.bind_drop (ih.evaluate held condition) fun v => ?_
    split
    · exact h.bind (ih.execute held body) (h.onward (ih.execute held _))
    · exact h.pure _ (.nil _)
  | forLoop initializer condition increment body =>
    cases initializer with
    | some s => exact h.bind_drop (ih.execute held s) fun _ => ih.execute held _
    | none =>
      refine h.bind_drop (h.valueOr ih held rfl condition) fun v => ?_
      split
      · exact h.bind (ih.execute held body) (h.onward
          (h.bind_drop (h.valueOr ih held rfl increment) fun _ => ih.execute held _))
      · exact h.pure _ (.nil _)
  | ret keyword value =>
    refine h.bind (h.valueOr ih held rfl value) fun v => h.pure _ ?_
    exact .of_subset (List.subset_append_left _ _)

theorem statements (h : Relates S T setting setting' R) (ih : Evaluator.Related R L L')
    (held : List Reference) (ss : List Stmt) :
    R [] held Flow.references (L.statements held ss) (L'.statements held ss) := by
  cases ss with
  | nil => exact h.pure _ (.nil _)
  | cons s ss => exact h.bind (ih.execute held s) (h.onward (ih.executeAll held ss))

/-- Related evaluators are related with one more unit of fuel. -/
theorem next (h : Relates S T setting setting' R) (ih : Evaluator.Related R L L') :
    Evaluator.Related R (L.next S setting) (L'.next T setting') where
  evaluate held e := h.part (h.bind (h.node ih held e) h.remember)
  evaluateEach held es := h.part (h.each ih held es)
  invoke _ line _ args hf := h.part (h.called ih line args hf)
  execute held s := h.part (h.statement ih held s)
  executeAll held ss := h.part (h.statements ih held ss)
  executeBlock _ body frame := h.part (h.inFrame frame fun _ => ih.executeAll _ body)

/-- **What relates the steps of two semantics relates all that they evaluate.** -/
theorem ofFuel (h : Relates S T setting setting' R) (n : Nat) :
    Evaluator.Related R (Evaluator.ofFuel S setting n) (Evaluator.ofFuel T setting' n) := by
  induction n with
  | zero => exact h.exhausted_evaluator
  | succ n ih => exact h.next ih

end Relates

end Scriptlet

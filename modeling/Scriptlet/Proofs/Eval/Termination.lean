import Scriptlet.Proofs.Eval.Cut
import Scriptlet.Proofs.Eval.Fuel
import Scriptlet.Proofs.Scope.Loops
import Scriptlet.Proofs.Tree.Induction

/-!
# Runs without loops end

A script can run on only by loops and by calls. Where no loop occurs, neither in the script nor in
the functions that it finds, every run comes to an end, since the limit of active calls bounds how
deep calls go and between two calls the trees that are left to evaluate get smaller. `Eval.Settles`
is the end of a computation with enough fuel; its rules follow the way computations are put
together. The induction is on the number of calls that may still become active, and for each such
number on the trees.
-/

namespace Scriptlet

/-- An end that is not for lack of fuel, with a result as required or with an error. -/
def Outcome.Ends {α : Type} (Q : α → Machine → Prop) : Outcome α → Prop
  | .done a m => Q a m
  | .failed _ _ => True
  | .outOfFuel => False

/-- With enough fuel a computation ends, however much more there is. -/
def Eval.Settles {α : Type} (x : Nat → Eval α) (m : Machine) (Q : α → Machine → Prop) : Prop :=
  ∃ n₀ o, (∀ n, n₀ ≤ n → x n m = o) ∧ o.Ends Q

namespace Eval.Settles

variable {α β : Type} {x y : Nat → Eval α} {m : Machine} {P Q : α → Machine → Prop}

/-- A computation that takes no fuel. -/
theorem const {x : Eval α} (h : (x m).Ends Q) : Settles (fun _ => x) m Q :=
  ⟨0, x m, fun _ _ => rfl, h⟩

/-- A computation that takes one more unit of fuel than another. -/
theorem succ (heq : ∀ n, y (n + 1) = x n) (h : Settles x m Q) : Settles y m Q := by
  obtain ⟨n₀, o, hx, ho⟩ := h
  refine ⟨n₀ + 1, o, fun n hn => ?_, ho⟩
  obtain ⟨n, rfl⟩ : ∃ k, n = k + 1 := ⟨n - 1, by omega⟩
  rw [heq]
  exact hx n (by omega)

/-- A computation settles if its first part does and what follows settles from there. -/
theorem bind {R : β → Machine → Prop} {f : Nat → α → Eval β} (h : Settles x m P)
    (hf : ∀ a k, P a k → Settles (fun n => f n a) k R) : Settles (fun n => x n >>= f n) m R := by
  obtain ⟨n₀, o, hx, ho⟩ := h
  have hbind : ∀ n, n₀ ≤ n → (x n >>= f n) m = Eval.bind (fun _ => o) (f n) m := by
    intro n hn
    change Eval.bind (x n) (f n) m = _
    unfold Eval.bind
    rw [hx n hn]
  cases o with
  | done a k =>
    obtain ⟨n₁, o', hf', ho'⟩ := hf a k ho
    refine ⟨max n₀ n₁, o', fun n hn => ?_, ho'⟩
    exact (hbind n (le_of_max_le_left hn)).trans (hf' n (le_of_max_le_right hn))
  | failed e k => exact ⟨n₀, .failed e k, hbind, trivial⟩
  | outOfFuel => exact absurd ho id

theorem andThen (h : Settles x m P) (exit : Option α → Machine → Machine)
    (hexit : ∀ a k, P a k → Q a (exit (some a) k)) :
    Settles (fun n => Eval.andThen (x n) exit) m Q := by
  obtain ⟨n₀, o, hx, ho⟩ := h
  have hthen : ∀ n, n₀ ≤ n → Eval.andThen (x n) exit m = Eval.andThen (fun _ => o) exit m := by
    intro n hn
    unfold Eval.andThen
    rw [hx n hn]
  refine ⟨n₀, _, hthen, ?_⟩
  cases o with
  | done a k => exact hexit a k ho
  | failed e k => trivial
  | outOfFuel => exact absurd ho id

theorem state {f : Nat → Machine → Eval α} (h : Settles (fun n => f n m) m Q) :
    Settles (fun n => Eval.state >>= f n) m Q := by
  refine .bind (P := fun current k => current = m ∧ k = m) (.const ⟨rfl, rfl⟩) ?_
  rintro _ _ ⟨rfl, rfl⟩
  exact h

theorem change {f : Machine → Machine} (h : Settles x (f m) Q) :
    Settles (fun n => Eval.change f >>= fun _ => x n) m Q := by
  refine .bind (P := fun _ k => k = f m) (.const rfl) ?_
  rintro _ _ rfl
  exact h

/-- A call settles if what it runs does. -/
theorem counted (h : Settles x { m with callDepth := m.callDepth + 1 } P)
    (hexit : ∀ a k, P a k → Q a { k with callDepth := k.callDepth - 1 }) :
    Settles (fun n => Eval.counted (x n)) m Q := .change (h.andThen _ hexit)

end Eval.Settles

/-! ### What stays while a script runs -/

/-- The given number of calls is active, and no function with a loop is bound. -/
def Machine.LoopFreeAt (d : Nat) (m : Machine) : Prop := m.callDepth = d ∧ m.heap.loopFree

/-- A run that ends as required has a result without loops, and as many calls are active as
before. -/
def LoopFreeEnd {α : Type} (d : Nat) (ok : α → Bool) (a : α) (m : Machine) : Prop :=
  ok a = true ∧ m.LoopFreeAt d

/-- Leaving a block adds nothing to any frame. -/
theorem Machine.within_leave (setting : Setting) (held : List Reference) (frame previous : FrameId)
    (flow : Option Flow) (m : Machine) :
    (m.leave setting held frame previous flow).heap.Within m.heap := by
  rw [leave_eq]
  dsimp only
  split
  · exact (Heap.within_release _ _ frame).trans (Heap.swept_sweep _ m.heap).within
  · exact .refl _

/-- Leaving a block stores no loop. -/
theorem Machine.LoopFreeAt.leave {d : Nat} {m : Machine} (hm : m.LoopFreeAt d) (setting : Setting)
    (held : List Reference) (frame previous : FrameId) (flow : Option Flow) :
    (m.leave setting held frame previous flow).LoopFreeAt d := by
  refine ⟨?_, (m.within_leave setting held frame previous flow).loopFree hm.2⟩
  rw [leave_eq]
  exact hm.1

namespace Eval.Settles

variable {d : Nat} {m : Machine} (hm : m.LoopFreeAt d)

include hm

theorem value {v : Value} (hv : v.loopFree = true) :
    Settles (fun _ => (pure v : Eval Value)) m (LoopFreeEnd d Value.loopFree) :=
  const ⟨hv, hm⟩

theorem lookup (name : Token) :
    Settles (fun _ => Eval.lookup name) m (LoopFreeEnd d Value.loopFree) := by
  refine const ?_
  unfold Eval.lookup
  cases hv : m.heap.lookup m.current name.lexeme with
  | none => trivial
  | some v => exact ⟨Heap.loopFree_of_lookup hm.2 hv, hm⟩

theorem assign (name : Token) {v : Value} (hv : v.loopFree = true) :
    Settles (fun _ => Eval.assign name v) m fun _ k => k.LoopFreeAt d := by
  refine const ?_
  unfold Eval.assign
  cases m.heap.resolve m.current name.lexeme with
  | none => trivial
  | some owner => exact ⟨hm.1, Heap.loopFree_define hm.2 owner name.lexeme hv⟩

theorem define (name : String) {v : Value} (hv : v.loopFree = true) :
    Settles (fun _ => Eval.change (·.define name v)) m fun _ k => k.LoopFreeAt d :=
  const ⟨hm.1, Heap.loopFree_define hm.2 m.current name hv⟩

theorem declare {decl : FunctionDecl} (hbody : Stmt.loopFreeEach decl.body = true) :
    Settles (fun _ => Eval.declare decl) m fun _ k => k.LoopFreeAt d :=
  const ⟨hm.1, Heap.loopFree_define (Heap.loopFree_makeFunction hm.2 (.closure decl m.current))
    m.current decl.name.lexeme hbody⟩

theorem print (line : String) : Settles (fun _ => Eval.print line) m fun _ k => k.LoopFreeAt d := by
  refine const ?_
  unfold Eval.print
  dsimp only
  split
  · exact hm
  · trivial

theorem remember {v : Value} (hv : v.loopFree = true) :
    Settles (fun _ => Eval.remember v) m (LoopFreeEnd d Value.loopFree) := by
  refine const ?_
  unfold Eval.remember
  split
  · exact ⟨hv, hm⟩
  · exact ⟨hv, hm⟩

theorem newFrame (parent : FrameId) {bindings : List (String × Value)}
    (hbindings : ∀ b ∈ bindings, b.2.loopFree) :
    Settles (fun _ => Eval.newFrame parent bindings) m fun _ k => k.LoopFreeAt d :=
  const ⟨hm.1, Heap.loopFree_push hm.2 (Frame.loopFree_foldl_bind rfl hbindings)⟩

/-- The value of an operator or a host function stores no loop if none is given to it. -/
theorem ofExcept (line : Nat) {r : Except RuntimeFault Value}
    (hr : ∀ v, r = .ok v → v.loopFree = true) :
    Settles (fun _ => Eval.ofExcept line r) m (LoopFreeEnd d Value.loopFree) := by
  refine const ?_
  cases r with
  | ok v => exact ⟨hr v rfl, hm⟩
  | error fault => trivial

end Eval.Settles

open Eval

variable {setting : Setting} {d : Nat}

/-! ### Trees -/

/-- Calls end while the given number of them is active. -/
def CallsSettle (setting : Setting) (d : Nat) : Prop :=
  ∀ held line f args m, Value.loopFree f = true → (∀ a ∈ args, Value.loopFree a = true) →
    m.LoopFreeAt d → Settles (fun n => invoke setting n held line f args) m
      (LoopFreeEnd d Value.loopFree)

/-- Statements without loops end while the given number of calls is active. -/
def StatementsSettle (setting : Setting) (d : Nat) : Prop :=
  ∀ held ss m, Stmt.loopFreeEach ss = true → m.LoopFreeAt d →
    Settles (fun n => executeAll setting n held ss) m (LoopFreeEnd d (·.value.loopFree))

/-- Arguments settle if each of them does. -/
theorem settles_evaluateEach {es : List Expr}
    (h : ∀ e ∈ es, ∀ held m, m.LoopFreeAt d →
      Settles (fun n => evaluate setting n held e) m (LoopFreeEnd d Value.loopFree))
    (held : List Reference) {m : Machine} (hm : m.LoopFreeAt d) :
    Settles (fun n => evaluateEach setting n held es) m
      (LoopFreeEnd d (·.all Value.loopFree)) := by
  induction es generalizing held m with
  | nil =>
    refine .succ (x := fun _ => pure []) (fun n => by rw [evaluateEach]) ?_
    exact .const ⟨rfl, hm⟩
  | cons e es ih =>
    refine .succ (fun n => by rw [evaluateEach]) ?_
    refine .bind (h e List.mem_cons_self held m hm) fun v k hv => ?_
    refine .bind (ih (fun e' he' => h e' (List.mem_cons_of_mem e he')) _ hv.2) fun vs j hvs => ?_
    refine .const ⟨List.all_eq_true.2 ?_, hvs.2⟩
    exact List.forall_mem_cons.2 ⟨hv.1, List.all_eq_true.1 hvs.1⟩

/-- An expression ends if it does before its value is remembered. -/
theorem settles_evaluate_of_node {e : Expr} {held : List Reference} {m : Machine}
    (h : Settles (fun n => evaluateNode setting n held e) m (LoopFreeEnd d Value.loopFree)) :
    Settles (fun n => evaluate setting n held e) m (LoopFreeEnd d Value.loopFree) :=
  .succ (fun n => evaluate_succ setting n held e) (.bind h fun _ _ hv => .remember hv.2 hv.1)

/-- Expressions end if calls do. -/
theorem settles_evaluate (hcalls : CallsSettle setting d) (e : Expr) (held : List Reference)
    (m : Machine) (hm : m.LoopFreeAt d) :
    Settles (fun n => evaluate setting n held e) m (LoopFreeEnd d Value.loopFree) := by
  induction e using Expr.tree_induction generalizing held m with
  | literal value =>
    refine settles_evaluate_of_node (.value hm ?_)
    cases value <;> rfl
  | var name => exact settles_evaluate_of_node (.lookup hm name)
  | assign name value ih =>
    refine settles_evaluate_of_node (.bind (ih held m hm) fun v k hv => ?_)
    exact .bind (.assign hv.2 name hv.1) fun _ j hj => .value hj hv.1
  | unary operator operand ih =>
    refine settles_evaluate_of_node (.bind (ih held m hm) fun v k hv => ?_)
    exact .ofExcept hv.2 _ fun w hw =>
      Value.loopFree_of_closure?_eq_none (Value.closure?_applyUnary hw)
  | binary left operator right ihl ihr =>
    refine settles_evaluate_of_node (.bind (ihl held m hm) fun a k ha => ?_)
    refine .bind (ihr _ k ha.2) fun b j hb => ?_
    exact .ofExcept hb.2 _ fun w hw =>
      Value.loopFree_of_closure?_eq_none (Value.closure?_applyBinary hw)
  | logical left operator right ihl ihr =>
    refine settles_evaluate_of_node (.bind (ihl held m hm) fun a k ha => ?_)
    cases Value.shortCircuits operator a with
    | true => exact .value ha.2 ha.1
    | false => exact ihr _ k ha.2
  | group inner ih => exact settles_evaluate_of_node (ih held m hm)
  | call callee paren arguments ihc iha =>
    refine settles_evaluate_of_node (.bind (ihc held m hm) fun f k hf => ?_)
    refine .bind (settles_evaluateEach iha _ hf.2) fun args j hargs => ?_
    exact hcalls _ _ f args j hf.1 (List.all_eq_true.1 hargs.1) hargs.2

theorem settles_evaluateOr (hcalls : CallsSettle setting d) {v : Value} (hv : v.loopFree = true)
    (e : Option Expr) (held : List Reference) {m : Machine} (hm : m.LoopFreeAt d) :
    Settles (fun n => evaluateOr setting n held v e) m (LoopFreeEnd d Value.loopFree) := by
  cases e with
  | some e => exact settles_evaluate hcalls e held m hm
  | none => exact .value hm hv

/-- A block ends if its statements do. -/
theorem settles_executeBlock {body : List Stmt} (held : List Reference) (frame : FrameId)
    {m : Machine} (h : Settles
      (fun n => executeAll setting n (.frame frame :: .frame m.current :: held) body)
      { m with current := frame } (LoopFreeEnd d (·.value.loopFree))) :
    Settles (fun n => executeBlock setting n held body frame) m
      (LoopFreeEnd d (·.value.loopFree)) := by
  refine .succ (fun n => by rw [executeBlock]) (.state (.change ?_))
  refine h.andThen _ fun flow k hk => ⟨hk.1, ?_⟩
  exact hk.2.leave setting held frame m.current (some flow)

/-- Statements settle if each of them does. -/
theorem settles_executeAll {ss : List Stmt}
    (h : ∀ s ∈ ss, ∀ held m, m.LoopFreeAt d →
      Settles (fun n => execute setting n held s) m (LoopFreeEnd d (·.value.loopFree)))
    (held : List Reference) {m : Machine} (hm : m.LoopFreeAt d) :
    Settles (fun n => executeAll setting n held ss) m (LoopFreeEnd d (·.value.loopFree)) := by
  induction ss generalizing m with
  | nil =>
    refine .succ (x := fun _ => pure .normal) (fun n => by rw [executeAll]) ?_
    exact .const ⟨rfl, hm⟩
  | cons s ss ih =>
    refine .succ (fun n => by rw [executeAll]) ?_
    refine .bind (h s List.mem_cons_self held m hm) fun flow k hk => ?_
    cases flow with
    | ret v => exact .const hk
    | normal => exact ih (fun s' hs' => h s' (List.mem_cons_of_mem s hs')) hk.2

/-- Statements without loops end if calls do. -/
theorem settles_execute (hcalls : CallsSettle setting d) (s : Stmt) (hs : s.loopFree = true)
    (held : List Reference) (m : Machine) (hm : m.LoopFreeAt d) :
    Settles (fun n => execute setting n held s) m (LoopFreeEnd d (·.value.loopFree)) := by
  induction s using Stmt.tree_induction generalizing held m with
  | expression e =>
    refine .succ (fun n => by rw [execute]) ?_
    exact .bind (settles_evaluate hcalls e held m hm) fun _ k hk => .const ⟨rfl, hk.2⟩
  | print e =>
    refine .succ (fun n => by rw [execute]) ?_
    refine .bind (settles_evaluate hcalls e held m hm) fun v k hk => ?_
    exact .bind (.print hk.2 v.text) fun _ j hj => .const ⟨rfl, hj⟩
  | var name initializer =>
    refine .succ (fun n => execute_var setting n held name initializer) ?_
    refine .bind (settles_evaluateOr hcalls rfl initializer held hm) fun v k hk => ?_
    exact .bind (.define hk.2 name.lexeme hk.1) fun _ j hj => .const ⟨rfl, hj⟩
  | block body ih =>
    refine .succ (fun n => by rw [execute]) (.state ?_)
    refine .bind (.newFrame hm _ (by simp)) fun frame k hk => ?_
    refine settles_executeBlock held frame (settles_executeAll (fun s hs' => ?_) _ hk)
    exact ih s hs' (Stmt.loopFreeEach_iff.1 hs s hs')
  | function name params body ih =>
    refine .succ (fun n => by rw [execute]) ?_
    exact .bind (.declare hm hs) fun _ k hk => .const ⟨rfl, hk⟩
  | ifElse condition thenBranch elseBranch iht ihe =>
    obtain ⟨hthen, helse⟩ := Bool.and_eq_true_iff.1 hs
    refine .succ (fun n => execute_ifElse setting n held condition thenBranch elseBranch) ?_
    refine .bind (settles_evaluate hcalls condition held m hm) fun v k hk => ?_
    cases v.isTruthy with
    | true => exact iht hthen held k hk.2
    | false =>
      cases elseBranch with
      | some s => exact ihe s rfl helse held k hk.2
      | none => exact .const ⟨rfl, hk.2⟩
  | whileLoop condition body ih => cases hs
  | forLoop initializer condition increment body ihi ihb => cases hs
  | ret keyword value =>
    refine .succ (fun n => execute_ret setting n held keyword value) ?_
    exact .bind (settles_evaluateOr hcalls rfl value held hm) fun v k hk => .const ⟨hk.1, hk.2⟩

/-- If calls settle, so do statements without loops. -/
theorem CallsSettle.statements (hcalls : CallsSettle setting d) : StatementsSettle setting d := by
  intro held ss m hss hm
  refine settles_executeAll (fun s hs => ?_) held hm
  exact settles_execute hcalls s (Stmt.loopFreeEach_iff.1 hss s hs)

/-! ### Calls -/

/-- What a call runs ends if statements do while one more call is active. -/
theorem settles_runCallable (hhost : setting.host.AddsNoLoops)
    (hdeeper : StatementsSettle setting d) (held : List Reference) (line : Nat) {id : FunctionId}
    {callable : Callable} {args : List Value} {m : Machine}
    (hf : (Value.function id callable).loopFree = true) (hargs : ∀ a ∈ args, a.loopFree = true)
    (hm : m.LoopFreeAt d) :
    Settles (fun n => runCallable setting n held line args callable) m
      (LoopFreeEnd d Value.loopFree) := by
  cases callable with
  | closure decl closure =>
    refine .bind (.newFrame hm closure fun b hb => hargs b.2 (List.of_mem_zip hb).2)
      fun frame k hk => ?_
    refine .bind (settles_executeBlock held frame (hdeeper _ decl.body _ hf hk)) fun flow j hj => ?_
    exact .value hj.2 hj.1
  | host name arity key =>
    refine .ofExcept hm line fun v hv => ?_
    cases hres : setting.host key args with
    | error message =>
      rw [hres] at hv
      cases hv
    | ok w =>
      rw [hres] at hv
      cases hv
      exact hhost key args v hres hargs

/-- **A call ends**, since it is refused or leaves fewer calls that may become active. -/
theorem CallsSettle.of_deeper (hhost : setting.host.AddsNoLoops)
    (hdeeper : d < setting.callLimit → StatementsSettle setting (d + 1)) :
    CallsSettle setting d := by
  intro held line f args m hf hargs hm
  cases f with
  | function id callable =>
    refine .succ (fun n => invoke_function setting n held line id callable args) ?_
    split
    · exact .const trivial
    · refine .state ?_
      split
      · exact .const trivial
      · rename_i hlimit
        have hd : d < setting.callLimit := by
          rw [← hm.1]
          exact Nat.not_le.1 hlimit
        refine .counted (P := LoopFreeEnd (d + 1) Value.loopFree) ?_ fun v j hj => ?_
        · exact settles_runCallable hhost (hdeeper hd) held line hf hargs
            ⟨congrArg (· + 1) hm.1, hm.2⟩
        · exact ⟨hj.1, congrArg (· - 1) hj.2.1, hj.2.2⟩
  | number _ | string _ | boolean _ | null =>
    refine .succ (fun n => invoke_of_functionId?_eq_none setting n held line args rfl) ?_
    exact .const trivial

/-- **Statements without loops end**, by induction on how many calls may still become active. -/
theorem statementsSettle (hhost : setting.host.AddsNoLoops) (b d : Nat)
    (hb : setting.callLimit ≤ d + b) : StatementsSettle setting d := by
  induction b generalizing d with
  | zero =>
    refine (CallsSettle.of_deeper hhost fun hlt => ?_).statements
    omega
  | succ b ih =>
    refine (CallsSettle.of_deeper hhost fun _ => ih (d + 1) ?_).statements
    omega

/-! ### Calls that go as deep as they may -/

/-- A call of a function without arguments. -/
def Expr.plainCall (name paren : Token) : Expr := .call (.var name) paren []

/-- The declaration of a function that does nothing but call itself. -/
def FunctionDecl.recursion (name paren : Token) : FunctionDecl :=
  ⟨name, [], [.expression (.plainCall name paren)]⟩

/-- The declaration of a function that calls itself, and a call of it. -/
def Stmt.recursion (name paren : Token) : List Stmt :=
  [.function name [] (FunctionDecl.recursion name paren).body,
    .expression (.plainCall name paren)]

namespace Eval

variable {α β : Type} {x : Eval α} {f : α → Eval β} {m k : Machine}

theorem bind_of_done {a : α} (h : x m = .done a k) : (x >>= f) m = f a k := by
  change Eval.bind x f m = _
  unfold Eval.bind
  rw [h]

theorem bind_of_outOfFuel (h : x m = .outOfFuel) : (x >>= f) m = .outOfFuel := by
  change Eval.bind x f m = _
  unfold Eval.bind
  rw [h]

theorem andThen_of_outOfFuel (h : x m = .outOfFuel) (exit : Option α → Machine → Machine) :
    Eval.andThen x exit m = .outOfFuel := by
  unfold Eval.andThen
  rw [h]

end Eval

/-- A global name stands for a value, and the current frame is the global frame or an empty one in
it. -/
structure Machine.Knows (name : Token) (v : Value) (m : Machine) : Prop where
  bound : ∃ g, m.heap.get? globals = some g ∧ g.get? name.lexeme = some v
  current : m.current = globals ∨
    globals < m.current ∧ m.heap.get? m.current = some ⟨[], some globals⟩

namespace Machine.Knows

variable {name : Token} {v : Value} {m : Machine}

theorem lookup (hm : m.Knows name v) : Eval.lookup name m = .done v m := by
  obtain ⟨g, hg, hv⟩ := hm.bound
  have hbinds : g.binds name.lexeme = true := by rw [Frame.binds, hv]; rfl
  have hglobal : m.heap.resolve globals name.lexeme = some globals := by
    rw [Heap.resolve, hg]
    exact if_pos hbinds
  have hresolve : m.heap.resolve m.current name.lexeme = some globals := by
    rcases hm.current with heq | ⟨hlt, hf⟩
    · rw [heq, hglobal]
    · rw [Heap.resolve, hf]
      simpa [Frame.binds, Frame.get?, hlt] using hglobal
  unfold Eval.lookup Heap.lookup
  rw [hresolve, Option.bind_some, hg, Option.bind_some, hv]

/-- In a new empty frame inside the global one. -/
theorem push (hm : m.Knows name v) (depth : Nat) (last : Value) :
    Knows name v { m with
      heap := m.heap.push ⟨[], some globals⟩
      current := m.heap.size
      callDepth := depth
      lastValue := last } := by
  obtain ⟨g, hg, hv⟩ := hm.bound
  have hlt : globals < m.heap.size := by
    by_contra hle
    rw [m.heap.get?_of_size_le (Nat.not_lt.1 hle)] at hg
    cases hg
  constructor
  · refine ⟨g, ?_, hv⟩
    rw [Heap.get?_push, if_neg hlt.ne, hg]
  · refine .inr ⟨hlt, ?_⟩
    rw [Heap.get?_push, if_pos rfl]

end Machine.Knows

/-- The body of a function that calls itself, run in its frame. -/
theorem executeBlock_recursion {name paren : Token} {n : Nat} {held : List Reference}
    {frame : FrameId} {m : Machine}
    (h : ∀ held, evaluate setting n held (.plainCall name paren) { m with current := frame } =
      .outOfFuel) :
    executeBlock setting (n + 3) held (FunctionDecl.recursion name paren).body frame m =
      .outOfFuel := by
  rw [executeBlock]
  refine Eval.andThen_of_outOfFuel ?_ _
  rw [FunctionDecl.recursion, executeAll]
  apply Eval.bind_of_outOfFuel
  rw [execute]
  exact Eval.bind_of_outOfFuel (h _)

/-- **A function that calls itself goes on** with five units of fuel for each call that may still
become active. -/
theorem evaluate_plainCall {name paren : Token} (id : FunctionId) (b : Nat)
    (held : List Reference) {m : Machine} (hb : m.callDepth + b ≤ setting.callLimit)
    (hm : m.Knows name
      (.function id (.closure (FunctionDecl.recursion name paren) Machine.globals))) :
    evaluate setting (5 * b) held (.plainCall name paren) m = .outOfFuel := by
  induction b generalizing held m with
  | zero =>
    rw [Nat.mul_zero, evaluate]
    rfl
  | succ b ih =>
    have hvar : evaluate setting (5 * b + 4) held (.var name) m =
        Eval.remember (.function id
          (.closure (FunctionDecl.recursion name paren) Machine.globals)) m := by
      rw [evaluate_succ]
      exact Eval.bind_of_done hm.lookup
    rw [Nat.mul_succ, evaluate_succ]
    apply Eval.bind_of_outOfFuel
    refine (Eval.bind_of_done hvar).trans ?_
    rw [evaluateEach]
    refine (Eval.bind_of_done rfl).trans ?_
    have harity : ¬([] : List Value).length ≠
        (Callable.closure (FunctionDecl.recursion name paren) Machine.globals).arity := by
      simp [Callable.arity, FunctionDecl.recursion]
    rw [invoke_function, if_neg harity]
    refine (Eval.bind_of_done rfl).trans ?_
    rw [if_neg (by dsimp only; omega), Eval.counted_apply]
    apply Eval.andThen_of_outOfFuel
    rw [runCallable]
    refine (Eval.bind_of_done rfl).trans ?_
    refine Eval.bind_of_outOfFuel (executeBlock_recursion fun held => ih held ?_ ?_)
    · dsimp only
      omega
    · exact hm.push _ _

/-- However the limit of active calls is set, a function that calls itself takes more fuel. -/
theorem executeAll_recursion (name paren : Token) (sink : Sink) {fuel : Nat}
    (hfuel : fuel ≤ setting.callLimit) :
    executeAll setting fuel [] (Stmt.recursion name paren) (Machine.start sink) = .outOfFuel := by
  have hlong : executeAll setting (5 * setting.callLimit + 3) [] (Stmt.recursion name paren)
      (Machine.start sink) = .outOfFuel := by
    rw [Stmt.recursion, executeAll, execute]
    refine (Eval.bind_of_done rfl).trans ?_
    dsimp only
    rw [executeAll]
    apply Eval.bind_of_outOfFuel
    rw [execute]
    apply Eval.bind_of_outOfFuel
    refine evaluate_plainCall 0 setting.callLimit [] (Nat.zero_add _).le ⟨?_, .inl rfl⟩
    exact ⟨_, rfl, Frame.get?_bind_self _ _ _⟩
  rcases executeAll_extends setting [] (Stmt.recursion name paren)
    (show fuel ≤ 5 * setting.callLimit + 3 by omega) (Machine.start sink) with hout | heq
  · exact hout
  · exact heq.trans hlong

/-- **Without loops every run ends.** Statements in which no loop occurs, run in a state in which no
function with a loop is bound, come to their end, to a return or to an error, however they call
functions. It is the limit of active calls that makes them end: there are statements without loops
that no fuel up to the limit is enough for, whatever it is. -/
theorem loop_free_runs_end (setting : Setting) (hhost : setting.host.AddsNoLoops) :
    (∀ m ss, Heap.loopFree m.heap = true → Stmt.loopFreeEach ss = true → ∃ fuel,
      (∃ k, executeAll setting fuel [] ss m = .done .normal k) ∨
      (∃ v k, executeAll setting fuel [] ss m = .done (.ret v) k) ∨
      ∃ e k, executeAll setting fuel [] ss m = .failed e k) ∧
    ∀ name paren sink, Stmt.loopFreeEach (Stmt.recursion name paren) = true ∧
      ∀ fuel ≤ setting.callLimit,
        executeAll setting fuel [] (Stmt.recursion name paren) (Machine.start sink) =
          .outOfFuel := by
  constructor
  · intro m ss hm hss
    have hsettles := statementsSettle hhost (setting.callLimit - m.callDepth) m.callDepth (by omega)
    obtain ⟨fuel, o, hend, ho⟩ := hsettles [] ss m hss ⟨rfl, hm⟩
    have hend : executeAll setting fuel [] ss m = o := hend fuel (Nat.le_refl fuel)
    refine ⟨fuel, ?_⟩
    rw [hend]
    cases o with
    | done flow k =>
      cases flow with
      | normal => exact .inl ⟨k, rfl⟩
      | ret v => exact .inr (.inl ⟨v, k, rfl⟩)
    | failed e k => exact .inr (.inr ⟨e, k, rfl⟩)
    | outOfFuel => exact absurd ho id
  · intro name paren sink
    exact ⟨rfl, fun fuel hfuel => executeAll_recursion name paren sink hfuel⟩

/-- A function that calls itself comes to an end with more than a thousand units of fuel. -/
theorem loop_free_runs_end_recursion : ∃ fuel, 1024 < fuel ∧ executeAll .standard fuel []
    (Stmt.recursion ⟨.mark .identifier, "f", 1⟩ ⟨.mark .rightParen, ")", 1⟩)
    (Machine.start .unlimited) ≠ .outOfFuel := by
  obtain ⟨hends, hrecursion⟩ := loop_free_runs_end .standard Host.standard_addsNoLoops
  obtain ⟨hfree, hlimit⟩ := hrecursion ⟨.mark .identifier, "f", 1⟩ ⟨.mark .rightParen, ")", 1⟩
    .unlimited
  obtain ⟨fuel, hend⟩ := hends (Machine.start .unlimited) _ rfl hfree
  refine ⟨fuel, Nat.not_le.1 fun hle => ?_, fun hout => ?_⟩
  · rw [hlimit fuel hle] at hend
    simp at hend
  · rw [hout] at hend
    simp at hend

end Scriptlet

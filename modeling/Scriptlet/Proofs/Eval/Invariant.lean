import Scriptlet.Proofs.Eval.Semantics

/-!
# What every step of a run keeps

A run is made of operations of the machine, of calls and of blocks. A property of computations that
the operations have, and that calls, blocks and running one computation after another keep, holds of
all that is evaluated (`Semantics.Invariant.ofFuel`), in whatever way the steps are carried out. So a
fact about the course of every run is proved by looking at its steps only.
-/

namespace Scriptlet

/-- The state in which a computation ended, unless fuel ran out. -/
def Outcome.final? {α : Type} : Outcome α → Option Machine
  | .done _ m => some m
  | .failed _ m => some m
  | .outOfFuel => none

/-- What ends with an exit has ended before it. -/
theorem Eval.exists_final?_of_andThen {α : Type} {x : Eval α} {exit : Option α → Machine → Machine}
    {m k' : Machine} (h : (Eval.andThen x exit m).final? = some k') :
    ∃ a k, (x m).final? = some k ∧ k' = exit a k := by
  unfold Eval.andThen at h
  cases hx : x m with
  | done a k =>
    rw [hx] at h
    cases h
    exact ⟨some a, k, rfl, rfl⟩
  | failed e k =>
    rw [hx] at h
    cases h
    exact ⟨none, k, rfl, rfl⟩
  | outOfFuel =>
    rw [hx] at h
    cases h

/-- The operations of the machine that a run is made of, besides remembering a result. -/
inductive Eval.Operation : {α : Type} → Eval α → Prop
  | exhausted {α : Type} : Operation (Eval.exhausted : Eval α)
  | fail {α : Type} (e : Error) : Operation (Eval.fail e : Eval α)
  | ofExcept {α : Type} (line : Nat) (r : Except RuntimeFault α) : Operation (Eval.ofExcept line r)
  | current : Operation Eval.current
  | lookup (name : Token) : Operation (Eval.lookup name)
  | assign (name : Token) (v : Value) : Operation (Eval.assign name v)
  | define (name : String) (v : Value) : Operation (Eval.change (·.define name v))
  | declare (decl : FunctionDecl) : Operation (Eval.declare decl)
  | print (line : String) : Operation (Eval.print line)
  | newFrame (parent : FrameId) (bindings : List (String × Value)) :
    Operation (Eval.newFrame parent bindings)

/-- However an operation ends, nothing but the heap and the output has changed. -/
theorem Eval.Operation.keeps {α : Type} {x : Eval α} (hx : x.Operation) {m k : Machine}
    (hk : (x m).final? = some k) : k = { m with heap := k.heap, sink := k.sink } := by
  cases hx with
  | exhausted => cases hk
  | fail | current | define | declare | newFrame =>
    cases hk
    rfl
  | ofExcept line r =>
    cases r with
    | ok a =>
      cases hk
      rfl
    | error fault =>
      cases hk
      rfl
  | lookup name =>
    unfold Eval.lookup at hk
    split at hk
    · cases hk
      rfl
    · cases hk
      rfl
  | assign name v =>
    unfold Eval.assign at hk
    split at hk
    · cases hk
      rfl
    · cases hk
      rfl
  | print line =>
    unfold Eval.print at hk
    dsimp only at hk
    split at hk
    · cases hk
      rfl
    · cases hk
      rfl

/-- A block is left for the frame before, with the other registers as they are. -/
theorem Machine.leave_registers (setting : Setting) (held : List Reference)
    (frame previous : FrameId) (flow : Option Flow) (m : Machine) :
    (m.leave setting held frame previous flow).current = previous ∧
      (m.leave setting held frame previous flow).callDepth = m.callDepth ∧
      (m.leave setting held frame previous flow).lastValue = m.lastValue := by
  unfold leave
  dsimp only
  split <;> exact ⟨rfl, rfl, rfl⟩

/-- A property of computations that the operations of the machine have, and that is kept by what a
run is put together with. -/
structure Semantics.Invariant {M : Type → Type} [Monad M] (S : Semantics M) (setting : Setting)
    (P : {α : Type} → M α → Prop) : Prop where
  step : ∀ {α : Type} {x : Eval α}, x.Operation → P (S.step x)
  pure : ∀ {α : Type} (a : α), P (pure a)
  bind : ∀ {α β : Type} {x : M α} {f : α → M β}, P x → (∀ a, P (f a)) → P (x >>= f)
  remember : ∀ v, P (S.remember v)
  print : ∀ line, P (S.print line)
  call : ∀ line {x : M Value}, P x → P (S.call setting line x)
  inFrame : ∀ held frame {x : FrameId → M Flow}, (∀ previous, P (x previous)) →
    P (S.inFrame setting held frame x)
  part : ∀ {α : Type} before held (refs : α → List Reference) {x : M α}, P x →
    P (S.part before held refs x)

namespace Semantics.Invariant

variable {M : Type → Type} [Monad M] {S : Semantics M} {setting : Setting}
  {P : {α : Type} → M α → Prop}

/-- An invariant relates evaluation to itself. -/
theorem relates (h : S.Invariant setting P) :
    Relates S S setting setting fun _ _ _ x _ => P x where
  weaken h _ _ := h
  holding h := h
  pure a _ := h.pure a
  bind hx hf := h.bind hx hf
  exhausted := h.step .exhausted
  fail _ _ _ := h.step (.fail _)
  operator _ _ _ _ := h.step (.ofExcept _ _)
  host _ _ _ := h.step (.ofExcept _ _)
  lookup name := h.step (.lookup name)
  assign name v := h.step (.assign name v)
  define name v := h.step (.define name v)
  declare decl := h.step (.declare decl)
  remember := h.remember
  newFrame parent bindings := h.step (.newFrame parent bindings)
  current := h.step .current
  print := h.print
  call line _ _ hx := h.call line hx
  inFrame frame _ _ hx := h.inFrame _ frame hx
  part hx := h.part _ _ _ hx

/-- **What the steps of a run keep holds of the whole run.** -/
theorem ofFuel (h : S.Invariant setting P) (n : Nat) :
    Evaluator.Related (fun _ _ _ x _ => P x) (.ofFuel S setting n) (.ofFuel S setting n) :=
  h.relates.ofFuel n

end Semantics.Invariant

end Scriptlet

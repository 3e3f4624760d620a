import Mathlib.Order.Filter.AtTopBot.Basic
import Scriptlet.Proofs.Eval.Related
import Scriptlet.Proofs.Eval.Rules
import Scriptlet.Proofs.Scope.Pairing

/-!
# Runs side by side

Two machines that correspond run trees that resemble each other, the first with the fuel it is
given, the second with as much as it needs. If the first run comes to an end, so does the second,
and in a corresponding way: with results and machines that correspond for a pairing of frames that
has grown, or with the same error. Nothing is released on either side.

The last results of the machines are compared only if `last` holds; where they differ, nothing else
does.
-/

namespace Scriptlet

open Filter

variable {α β γ δ : Type}

/-- Two machines whose heaps correspond, with frames `i` and `j` current. -/
structure Machine.Paired (T : Resemblance) (last : Prop) (W : Pairing) (i j : FrameId)
    (m m' : Machine) : Prop where
  heap : m.heap.Paired T W m'.heap
  globals : W.pair globals globals
  current : m.current = i
  current' : m'.current = j
  callDepth : m.callDepth = m'.callDepth
  sink : m.sink = m'.sink
  lastValue : last → m.lastValue.Paired T W m'.lastValue

/-- What holds of a pairing that has grown, in which the machines correspond. -/
def Machine.PairedAfter (T : Resemblance) (last : Prop) (W : Pairing) (i j : FrameId)
    (P : Pairing → Prop) (m m' : Machine) : Prop :=
  ∃ V, W ≤ V ∧ P V ∧ m.Paired T last V i j m'

/-- Two computations that end in a corresponding way. -/
def Outcome.Paired (T : Resemblance) (last : Prop) (W : Pairing) (i j : FrameId)
    (A : Pairing → α → β → Prop) : Outcome α → Outcome β → Prop :=
  Outcome.Rel (fun a m b m' => m.PairedAfter T last W i j (fun V => A V a b) m')
    fun e m e' m' => e = e' ∧ m.PairedAfter T last W i j (fun _ => True) m'

/-- Whatever the first computation ends with, the second ends with something that corresponds to it,
given enough fuel. -/
def Eval.Mirrors (T : Resemblance) (last : Prop) (W : Pairing) (i j : FrameId)
    (A : Pairing → α → β → Prop) (x : Eval α) (y : Nat → Eval β) : Prop :=
  ∀ m m', m.Paired T last W i j m' → x m = .outOfFuel ∨
    ∃ o, (∀ᶠ n in atTop, y n m' = o) ∧ (x m).Paired T last W i j A o

variable {T : Resemblance} {last : Prop} {W V : Pairing} {i j : FrameId}

namespace Machine.Paired

variable {m m' : Machine}

/-- Paired machines are paired in an extension of the pairing, which may be the pairing itself. -/
theorem after (h : m.Paired T last W i j m') {P : Pairing → Prop} (hP : P W) :
    m.PairedAfter T last W i j P m' := ⟨W, le_rfl, hP, h⟩

/-- Machines that correspond once both heaps have been changed. -/
theorem withHeap (h : m.Paired T last W i j m') (hle : W ≤ V) {g g' : Heap}
    (hg : g.Paired T V g') :
    { m with heap := g }.Paired T last V i j { m' with heap := g' } where
  heap := hg
  globals := hle.1 _ _ h.globals
  current := h.current
  current' := h.current'
  callDepth := h.callDepth
  sink := h.sink
  lastValue hlast := (h.lastValue hlast).mono hle

theorem withCurrent (h : m.Paired T last W i j m') (a b : FrameId) :
    { m with current := a }.Paired T last W a b { m' with current := b } :=
  { h with current := rfl, current' := rfl }

theorem withCallDepth (h : m.Paired T last W i j m') (f : Nat → Nat) :
    { m with callDepth := f m.callDepth }.Paired T last W i j
      { m' with callDepth := f m'.callDepth } :=
  { h with callDepth := congrArg f h.callDepth }

theorem withSink (h : m.Paired T last W i j m') (f : Sink → Sink) :
    { m with sink := f m.sink }.Paired T last W i j { m' with sink := f m'.sink } :=
  { h with sink := congrArg f h.sink }

theorem withLastValue (h : m.Paired T last W i j m') {v v' : Value} (hv : v.Paired T W v') :
    { m with lastValue := v }.Paired T last W i j { m' with lastValue := v' } :=
  { h with lastValue := fun _ => hv }

end Machine.Paired

namespace Machine.PairedAfter

variable {m m' k k' : Machine} {P Q : Pairing → Prop}

/-- What extends a larger pairing extends the smaller. -/
theorem mono (h : m.PairedAfter T last V i j P m') (hle : W ≤ V) :
    m.PairedAfter T last W i j P m' := by
  obtain ⟨U, hVU, hP, hm⟩ := h
  exact ⟨U, hle.trans hVU, hP, hm⟩

theorem imp (h : m.PairedAfter T last W i j P m')
    (hPQ : ∀ V, W ≤ V → P V → m.Paired T last V i j m' → Q V ∧ k.Paired T last V i j k') :
    k.PairedAfter T last W i j Q k' := by
  obtain ⟨V, hle, hP, hm⟩ := h
  obtain ⟨hQ, hk⟩ := hPQ V hle hP hm
  exact ⟨V, hle, hQ, hk⟩

end Machine.PairedAfter

theorem Outcome.Paired.mono {A : Pairing → α → β → Prop} {o : Outcome α} {o' : Outcome β}
    (h : o.Paired T last V i j A o') (hle : W ≤ V) : o.Paired T last W i j A o' :=
  Outcome.Rel.imp h (fun _ _ _ _ h => h.mono hle) fun _ _ _ _ h => ⟨h.1, h.2.mono hle⟩

namespace Eval.Mirrors

variable {A : Pairing → α → β → Prop} {B : Pairing → γ → δ → Prop} {x : Eval α}
  {y z : Nat → Eval β}

/-! ### Putting computations together -/

/-- A step of both computations. -/
theorem of_eq {o : Machine → Outcome β} (hy : ∀ n m', y n m' = o m')
    (h : ∀ m m', m.Paired T last W i j m' → (x m).Paired T last W i j A (o m')) :
    Mirrors T last W i j A x y :=
  fun m m' hm => Or.inr ⟨o m', .of_forall fun n => hy n m', h m m' hm⟩

theorem exhausted : Mirrors T last W i j A Eval.exhausted y := fun _ _ _ => Or.inl rfl

theorem pure {a : α} {b : β} (h : A W a b) :
    Mirrors T last W i j A (pure a) fun _ => Pure.pure b :=
  .of_eq (fun _ _ => rfl) fun _ _ hm => .done (hm.after h)

theorem fail (e : Error) : Mirrors T last W i j A (Eval.fail e) fun _ => Eval.fail e :=
  .of_eq (fun _ _ => rfl) fun _ _ hm => .failed ⟨rfl, hm.after trivial⟩

/-- What an operator gives is paired if its results are. -/
theorem ofExcept (line : Nat) {r : Except RuntimeFault α} {r' : Except RuntimeFault β}
    (h : ExceptRel (A W) r r') :
    Mirrors T last W i j A (Eval.ofExcept line r) fun _ => Eval.ofExcept line r' := by
  cases h with
  | ok h => exact pure h
  | error fault => exact fail (.runtime fault line)

/-- The second computation may take one unit of fuel for itself. -/
theorem step (hy : ∀ n, y (n + 1) = z n) (h : Mirrors T last W i j A x z) :
    Mirrors T last W i j A x y := by
  intro m m' hm
  refine (h m m' hm).imp_right fun ⟨o, hz, ho⟩ => ⟨o, ?_, ho⟩
  rw [← map_add_atTop_eq_nat 1, eventually_map]
  exact hz.mono fun n hn => (congrFun (hy n) m').trans hn

/-- The second computation may be given one more unit of fuel. -/
theorem shift (h : Mirrors T last W i j A x y) : Mirrors T last W i j A x fun n => y (n + 1) := by
  intro m m' hm
  refine (h m m' hm).imp_right fun ⟨o, hy, ho⟩ => ⟨o, ?_, ho⟩
  exact (tendsto_add_atTop_nat 1).eventually hy

/-- Computations that mirror others may be run one after another. -/
theorem bind {f : α → Eval γ} {g : β → Nat → Eval δ} (h : Mirrors T last W i j A x y)
    (hf : ∀ V, W ≤ V → ∀ a b, A V a b → Mirrors T last V i j B (f a) (g b)) :
    Mirrors T last W i j B (x >>= f) fun n => y n >>= (g · n) := by
  intro m m' hm
  change Eval.bind x f m = _ ∨ ∃ o, (∀ᶠ n in atTop, Eval.bind (y n) (g · n) m' = o) ∧
    (Eval.bind x f m).Paired T last W i j B o
  unfold Eval.bind
  rcases h m m' hm with hx | ⟨o, hy, ho⟩
  · exact Or.inl (by rw [hx])
  · generalize x m = r at ho
    cases ho with
    | @done a k b k' hD =>
      obtain ⟨V, hle, hA, hk⟩ := hD
      refine (hf V hle a b hA k k' hk).imp_right fun ⟨o', hg, ho'⟩ => ⟨o', ?_, ?_⟩
      · filter_upwards [hy, hg] with n hn hgn
        rw [hn]
        exact hgn
      · exact ho'.mono hle
    | @failed e k _ k' hF =>
      refine Or.inr ⟨_, hy.mono fun n hn => ?_, .failed hF⟩
      rw [hn]
    | outOfFuel => exact Or.inl rfl

/-- A computation after which both machines do something more, however it ends. -/
theorem andThen (exit : Option α → Machine → Machine) (exit' : Option β → Machine → Machine)
    {a b : FrameId} {m m' : Machine} (h : Mirrors T last W a b A x y)
    (hm : m.Paired T last W a b m')
    (hexit : ∀ V r r' k k', W ≤ V → k.Paired T last V a b k' →
      (exit r k).Paired T last V i j (exit' r' k')) :
    Eval.andThen x exit m = .outOfFuel ∨ ∃ o, (∀ᶠ n in atTop, Eval.andThen (y n) exit' m' = o) ∧
      (Eval.andThen x exit m).Paired T last W i j A o := by
  unfold Eval.andThen
  rcases h m m' hm with hx | ⟨o, hy, ho⟩
  · exact Or.inl (by rw [hx])
  · generalize x m = r at ho
    cases ho with
    | @done a k b k' hD =>
      obtain ⟨V, hle, hA, hk⟩ := hD
      have hk' := hexit V (some a) (some b) k k' hle hk
      refine Or.inr ⟨_, hy.mono fun n hn => ?_, .done ⟨V, hle, hA, hk'⟩⟩
      rw [hn]
    | @failed e k _ k' hF =>
      obtain ⟨rfl, V, hle, -, hk⟩ := hF
      have hk' := hexit V none none k k' hle hk
      refine Or.inr ⟨_, hy.mono fun n hn => ?_, .failed ⟨rfl, V, hle, trivial, hk'⟩⟩
      rw [hn]
    | outOfFuel => exact Or.inl rfl

/-- Reading the registers. -/
theorem read {f : Machine → Eval α} {g : Machine → Nat → Eval β}
    (h : ∀ m m', m.current = i → m'.current = j → m.callDepth = m'.callDepth →
      Mirrors T last W i j A (f m) (g m')) :
    Mirrors T last W i j A (Eval.state >>= f) fun n => Eval.state >>= (g · n) :=
  fun m m' hm => h m m' hm.current hm.current' hm.callDepth m m' hm

/-- A call mirrors a call if what they run does. -/
theorem counted (h : Mirrors T last W i j A x y) :
    Mirrors T last W i j A (Eval.counted x) fun n => Eval.counted (y n) := by
  intro m m' hm
  simp only [counted_apply]
  exact h.andThen _ _ (hm.withCallDepth (· + 1)) fun V _ _ k k' _ hk => hk.withCallDepth (· - 1)

/-! ### The operations of a machine -/

/-- A name means paired values in paired scopes. -/
theorem lookup (hij : W.Scopes i j) (name : Token) :
    Mirrors T last W i j (Value.Paired T) (Eval.lookup name) fun _ => Eval.lookup name := by
  refine .of_eq (fun _ _ => rfl) fun m m' hm => ?_
  have hlookup := hm.heap.lookup hij name.lexeme
  rw [← hm.current, ← hm.current'] at hlookup
  unfold Eval.lookup
  generalize m.heap.lookup _ _ = o, m'.heap.lookup _ _ = o' at hlookup
  cases hlookup with
  | none => exact .failed ⟨rfl, hm.after trivial⟩
  | some hv => exact .done (hm.after hv)

/-- A name is assigned to in both scopes or in none. -/
theorem assign (hij : W.Scopes i j) (name : Token) {v v' : Value} (hv : v.Paired T W v') :
    Mirrors T last W i j (fun _ _ _ => True) (Eval.assign name v) fun _ => Eval.assign name v' := by
  refine .of_eq (fun _ _ => rfl) fun m m' hm => ?_
  have hresolve := hm.heap.resolve hij name.lexeme
  rw [← hm.current, ← hm.current'] at hresolve
  unfold Eval.assign
  generalize m.heap.resolve _ _ = o, m'.heap.resolve _ _ = o' at hresolve
  cases hresolve with
  | none => exact .failed ⟨rfl, hm.after trivial⟩
  | some howner =>
    exact .done ((hm.withHeap le_rfl (hm.heap.define howner name.lexeme hv)).after trivial)

/-- A name is bound in both frames of a pair. -/
theorem define (hij : W.pair i j) (name : String) {v v' : Value} (hv : v.Paired T W v') :
    Mirrors T last W i j (fun _ _ _ => True) (Eval.change (·.define name v))
      fun _ => Eval.change (·.define name v') := by
  refine .of_eq (fun _ _ => rfl) fun m m' hm => .done ?_
  have hheap := hm.heap.define hij name hv
  rw [← hm.current, ← hm.current'] at hheap
  exact (hm.withHeap le_rfl hheap).after trivial

/-- Functions with resembling bodies are declared in both frames of a pair. -/
theorem declare (hij : W.pair i j) (name : Token) (params : List Token) {body body' : List Stmt}
    (hbody : T.body body body') :
    Mirrors T last W i j (fun _ _ _ => True) (Eval.declare ⟨name, params, body⟩)
      fun _ => Eval.declare ⟨name, params, body'⟩ := by
  refine .of_eq (fun _ _ => rfl) fun m m' hm => .done ?_
  have hcallable : (Callable.closure ⟨name, params, body⟩ m.current).Paired T W
      (.closure ⟨name, params, body'⟩ m'.current) := by
    rw [hm.current, hm.current']
    exact .closure name params hbody (.pair hij)
  obtain ⟨hv, hmade⟩ := hm.heap.makeFunction hcallable
  have hheap := hmade.define hij name.lexeme hv
  rw [← hm.current, ← hm.current'] at hheap
  exact (hm.withHeap le_rfl hheap).after trivial

theorem print (line : String) :
    Mirrors T last W i j (fun _ _ _ => True) (Eval.print line) fun _ => Eval.print line := by
  refine .of_eq (fun _ _ => rfl) fun m m' hm => ?_
  have hk := hm.withSink fun sink => (sink.writeLine line).1
  unfold Eval.print
  dsimp only
  rw [← hm.sink] at hk ⊢
  split
  · exact .done (hk.after trivial)
  · exact .failed ⟨rfl, hk.after trivial⟩

theorem remember {v v' : Value} (hv : v.Paired T W v') :
    Mirrors T last W i j (Value.Paired T) (Eval.remember v) fun _ => Eval.remember v' := by
  refine .of_eq (fun _ _ => rfl) fun m m' hm => ?_
  unfold Eval.remember
  rw [hv.isNull]
  split
  · exact .done (hm.after hv)
  · exact .done ((hm.withLastValue hv).after hv)

/-- New frames in paired scopes are paired. -/
theorem newFrame {p q : FrameId} (hpq : W.Scopes p q) {bs bs' : List (String × Value)}
    (hbs : List.Forall₂ (BindingPaired T W) bs bs') :
    Mirrors T last W i j (fun V a b => V.pair a b) (Eval.newFrame p bs)
      fun _ => Eval.newFrame q bs' := by
  refine .of_eq (fun _ _ => rfl) fun m m' hm => .done ?_
  have hframe : Frame.Paired T W m.heap.size m'.heap.size ⟨[], some p⟩ ⟨[], some q⟩ :=
    ⟨.nil, .some ⟨(hm.heap.lt_size hpq).1, (hm.heap.lt_size hpq).2, hpq⟩⟩
  have hle := W.le_addPair m.heap.size m'.heap.size
  exact ⟨_, hle, Or.inr ⟨rfl, rfl⟩, hm.withHeap hle (hm.heap.push (hframe.foldl_bind hbs))⟩

end Eval.Mirrors

/-- Flows that correspond. -/
inductive Flow.Paired (T : Resemblance) (W : Pairing) : Flow → Flow → Prop
  | normal : Paired T W .normal .normal
  | ret {v v' : Value} : v.Paired T W v' → Paired T W (.ret v) (.ret v')

theorem Flow.Paired.value {flow flow' : Flow} (h : flow.Paired T W flow') :
    flow.value.Paired T W flow'.value := by
  cases h with
  | normal => exact .null
  | ret hv => exact hv

end Scriptlet

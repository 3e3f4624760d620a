import Scriptlet.Proofs.Eval.Registers
import Scriptlet.Proofs.Eval.Semantics
import Scriptlet.Proofs.Sink

/-!
# Runs that are cut short

Two runs of the same script, one of which may be stopped by a limit that the other does not have.
Until it is stopped, both do the same and their machines differ at most in their sinks; the other
run goes on, and all it can do to what is written is to add to it. A `Cut` says how the sinks
compare; `Cut.relates` reduces the comparison of all runs to that of printing and calling.
-/

namespace Scriptlet

/-- How a run that may be cut short compares with one that goes on. -/
structure Cut where
  /-- The sink of the first run, as long as it was not cut short, from that of the second. -/
  alter : Sink → Sink
  /-- The sinks of the second run that are compared. -/
  Admits : Sink → Prop
  /-- The errors by which the first run is cut short. -/
  Stops : Error → Prop
  /-- How the sinks compare when the first run was cut short and the second is over. -/
  After : Sink → Sink → Prop
  admits_of_grows : ∀ {s t : Sink}, Admits s → s.Grows t → Admits t
  after_of_grows : ∀ {s t u : Sink}, After s t → t.Grows u → After s u

/-- The same machine with another sink. -/
def Machine.withSink (alter : Sink → Sink) (m : Machine) : Machine :=
  { m with sink := alter m.sink }

/-- The same outcome with another state of the machine. -/
def Outcome.onMachine {α : Type} (f : Machine → Machine) : Outcome α → Outcome α
  | .done a m => .done a (f m)
  | .failed e m => .failed e (f m)
  | .outOfFuel => .outOfFuel

/-- The first of two outcomes is the second but for the sink, or it was cut short. -/
def Outcome.CutBy {α : Type} (c : Cut) (o o' : Outcome α) : Prop :=
  o = o'.onMachine (Machine.withSink c.alter) ∨
    ∃ e k, o = .failed e k ∧ c.Stops e ∧ ∀ k', o'.final? = some k' → c.After k.sink k'.sink

/-- The first of two computations does what the second does until it may be cut short, and the
second does nothing to what is written but add to it. -/
structure Eval.CutBy {α : Type} (c : Cut) (x y : Eval α) : Prop where
  grows : ∀ m k, (y m).final? = some k → m.sink.Grows k.sink
  cut : ∀ m, c.Admits m.sink → (x (m.withSink c.alter)).CutBy c (y m)

/-- A computation that neither looks at the sink nor writes to it. -/
def Eval.IgnoresSink {α : Type} (x : Eval α) : Prop :=
  ∀ m s, x { m with sink := s } = (x m).onMachine fun k => { k with sink := s }

namespace Eval.IgnoresSink

variable {α : Type}

/-- What ignores the sink leaves it as it is. -/
theorem sink_eq {x : Eval α} (h : IgnoresSink x) {m k : Machine} (hk : (x m).final? = some k) :
    k.sink = m.sink := by
  have hsame : x m = (x m).onMachine fun k => { k with sink := m.sink } := h m m.sink
  rw [hsame] at hk
  cases ho : x m with
  | done a j =>
    rw [ho] at hk
    cases hk
    rfl
  | failed e j =>
    rw [ho] at hk
    cases hk
    rfl
  | outOfFuel =>
    rw [ho] at hk
    cases hk

theorem pure (a : α) : IgnoresSink (pure a : Eval α) := fun _ _ => rfl

theorem exhausted : IgnoresSink (Eval.exhausted : Eval α) := fun _ _ => rfl

theorem fail (e : Error) : IgnoresSink (Eval.fail e : Eval α) := fun _ _ => rfl

theorem ofExcept (line : Nat) (r : Except RuntimeFault α) : IgnoresSink (Eval.ofExcept line r) := by
  intro m s
  cases r <;> rfl

theorem lookup (name : Token) : IgnoresSink (Eval.lookup name) := by
  intro m s
  unfold Eval.lookup
  dsimp only
  split <;> rfl

theorem assign (name : Token) (v : Value) : IgnoresSink (Eval.assign name v) := by
  intro m s
  unfold Eval.assign
  dsimp only
  split <;> rfl

theorem define (name : String) (v : Value) : IgnoresSink (Eval.change (·.define name v)) :=
  fun _ _ => rfl

theorem declare (decl : FunctionDecl) : IgnoresSink (Eval.declare decl) := fun _ _ => rfl

theorem remember (v : Value) : IgnoresSink (Eval.remember v) := by
  intro m s
  unfold Eval.remember
  split <;> rfl

theorem newFrame (parent : FrameId) (bindings : List (String × Value)) :
    IgnoresSink (Eval.newFrame parent bindings) := fun _ _ => rfl

theorem current : IgnoresSink Eval.current := fun _ _ => rfl

end Eval.IgnoresSink

namespace Eval.CutBy

variable {α β : Type} {c : Cut} {x y : Eval α}

/-- What ignores the sink is never cut short. -/
theorem of_ignoresSink (h : IgnoresSink x) : CutBy c x x where
  grows m k hk := by
    rw [h.sink_eq hk]
    exact .refl
  cut m _ := by
    refine .inl ((h m (c.alter m.sink)).trans ?_)
    have hsink : ∀ k, (x m).final? = some k → k.sink = m.sink := fun k => h.sink_eq
    generalize x m = o at hsink
    cases o with
    | done a k => simp only [Outcome.onMachine, Machine.withSink, hsink k rfl]
    | failed e k => simp only [Outcome.onMachine, Machine.withSink, hsink k rfl]
    | outOfFuel => rfl

/-- Computations that are cut short may be run one after another. -/
theorem bind {f g : α → Eval β} (h : CutBy c x y) (hf : ∀ a, CutBy c (f a) (g a)) :
    CutBy c (x >>= f) (y >>= g) where
  grows m k hk := by
    change (Eval.bind y g m).final? = some k at hk
    unfold Eval.bind at hk
    cases hy : y m with
    | done a j =>
      rw [hy] at hk
      exact (h.grows m j (by rw [hy]; rfl)).trans ((hf a).grows j k hk)
    | failed e j =>
      rw [hy] at hk
      cases hk
      exact h.grows m k (by rw [hy]; rfl)
    | outOfFuel =>
      rw [hy] at hk
      cases hk
  cut m hm := by
    change Outcome.CutBy c (Eval.bind x f _) (Eval.bind y g m)
    unfold Eval.bind
    rcases h.cut m hm with hsame | ⟨e, k, hx, hstop, hafter⟩
    · cases hy : y m with
      | done a j =>
        rw [hsame, hy]
        exact (hf a).cut j (c.admits_of_grows hm (h.grows m j (by rw [hy]; rfl)))
      | failed e j =>
        rw [hsame, hy]
        exact .inl rfl
      | outOfFuel =>
        rw [hsame, hy]
        exact .inl rfl
    · rw [hx]
      refine .inr ⟨e, k, rfl, hstop, fun k' hk' => ?_⟩
      cases hy : y m with
      | done a j =>
        rw [hy] at hk'
        exact c.after_of_grows (hafter j (by rw [hy]; rfl)) ((hf a).grows j k' hk')
      | failed e' j =>
        rw [hy] at hk'
        cases hk'
        exact hafter k' (by rw [hy]; rfl)
      | outOfFuel =>
        rw [hy] at hk'
        cases hk'

/-- An exit that has nothing to do with the sink changes nothing. -/
theorem andThen {exit : Option α → Machine → Machine}
    (hexit : ∀ a m s, exit a { m with sink := s } = { exit a m with sink := s })
    (h : CutBy c x y) : CutBy c (Eval.andThen x exit) (Eval.andThen y exit) := by
  have hsink : ∀ a m, (exit a m).sink = m.sink := by
    intro a m
    have hsame := congrArg Machine.sink (hexit a m m.sink)
    exact hsame
  have hwith : ∀ a m, exit a (m.withSink c.alter) = (exit a m).withSink c.alter := by
    intro a m
    rw [Machine.withSink, hexit, Machine.withSink, hsink]
  -- the sink at the end is that before the exit
  have hfinal : ∀ m k', (Eval.andThen y exit m).final? = some k' →
      ∃ j, (y m).final? = some j ∧ k'.sink = j.sink := by
    intro m k' hk'
    obtain ⟨a, j, hj, rfl⟩ := Eval.exists_final?_of_andThen hk'
    exact ⟨j, hj, hsink a j⟩
  constructor
  · intro m k hk
    obtain ⟨j, hj, hsame⟩ := hfinal m k hk
    rw [hsame]
    exact h.grows m j hj
  · intro m hm
    rcases h.cut m hm with hsame | ⟨e, k, hx, hstop, hafter⟩
    · refine .inl ?_
      unfold Eval.andThen
      rw [hsame]
      cases y m with
      | done a j => exact congrArg (Outcome.done a) (hwith _ j)
      | failed e j => exact congrArg (Outcome.failed e) (hwith _ j)
      | outOfFuel => rfl
    · refine .inr ⟨e, exit none k, ?_, hstop, fun k' hk' => ?_⟩
      · unfold Eval.andThen
        rw [hx]
      · obtain ⟨j, hj, hsame⟩ := hfinal m k' hk'
        rw [hsink, hsame]
        exact hafter j hj

theorem counted (h : CutBy c x y) : CutBy c (Eval.counted x) (Eval.counted y) :=
  .bind (.of_ignoresSink fun _ _ => rfl) fun _ => h.andThen fun _ _ _ => rfl

/-- A call that is refused writes nothing, and any other what it runs. -/
theorem call_grows (h : CutBy c x y) {setting : Setting} {line : Nat} {m k : Machine}
    (hk : (Semantics.plain.call setting line y m).final? = some k) : m.sink.Grows k.sink := by
  by_cases hlimit : setting.callLimit ≤ m.callDepth
  · rw [Semantics.plain_call_of_le hlimit] at hk
    cases hk
    exact .refl
  · rw [Semantics.plain_call_of_lt (Nat.not_le.1 hlimit)] at hk
    exact h.counted.grows m k hk

end Eval.CutBy

namespace Eval

variable {line : String} {m k : Machine}

theorem print_of_fits (h : (m.sink.writeLine line).2 = true) :
    Eval.print line m = .done () { m with sink := (m.sink.writeLine line).1 } := if_pos h

theorem print_of_not_fits (h : (m.sink.writeLine line).2 = false) :
    Eval.print line m = .failed .sinkFull { m with sink := (m.sink.writeLine line).1 } :=
  if_neg (Bool.eq_false_iff.1 h)

/-- To print is to add to what is written. -/
theorem print_grows (hk : (Eval.print line m).final? = some k) : m.sink.Grows k.sink := by
  cases hfits : (m.sink.writeLine line).2 with
  | true =>
    rw [print_of_fits hfits] at hk
    cases hk
    exact .writeLine m.sink line
  | false =>
    rw [print_of_not_fits hfits] at hk
    cases hk
    exact .writeLine m.sink line

end Eval

/-! ### Whole runs -/

/-- Leaving a block changes the current frame and the heap only. -/
theorem Machine.leave_eq (setting : Setting) (held : List Reference) (frame previous : FrameId)
    (flow : Option Flow) (m : Machine) :
    m.leave setting held frame previous flow =
      let roots := .frame frame :: m.exitRoots held previous flow
      { m with
        current := previous
        heap :=
          if setting.releases && m.heap.capturesItself roots frame then
            (m.heap.sweep roots).release roots frame
          else
            m.heap } := by
  unfold leave exitRoots
  dsimp only
  split <;> rfl

/-- Leaving a block has nothing to do with the sink. -/
theorem Machine.leave_withSink (setting : Setting) (held : List Reference)
    (frame previous : FrameId) (flow : Option Flow) (m : Machine) (s : Sink) :
    leave setting held frame previous flow { m with sink := s } =
      { m.leave setting held frame previous flow with sink := s } := by
  rw [leave_eq, leave_eq]
  rfl

theorem Machine.leave_congr {setting setting' : Setting}
    (h : setting.releases = setting'.releases) : leave setting = leave setting' := by
  funext held frame previous flow m
  unfold leave
  rw [h]

/-- A block runs in its frame and leaves it in both runs. -/
theorem Eval.CutBy.inFrame {c : Cut} {setting setting' : Setting}
    (hreleases : setting.releases = setting'.releases) (held : List Reference) (frame : FrameId)
    {x y : FrameId → Eval Flow} (h : ∀ previous, CutBy c (x previous) (y previous)) :
    CutBy c (Semantics.plain.inFrame setting held frame x)
      (Semantics.plain.inFrame setting' held frame y) := by
  have hbody : ∀ previous, CutBy c
      (Eval.andThen (x previous) (Machine.leave setting held frame previous))
      (Eval.andThen (y previous) (Machine.leave setting' held frame previous)) := by
    intro previous
    rw [← Machine.leave_congr hreleases]
    exact (h previous).andThen (Machine.leave_withSink setting held frame previous)
  exact ⟨fun m k hk => (hbody m.current).grows { m with current := frame } k hk,
    fun m hm => (hbody m.current).cut { m with current := frame } hm⟩

/-- **Two runs compare as printing and calling do.** -/
theorem Cut.relates (c : Cut) {setting setting' : Setting} (hhost : setting.host = setting'.host)
    (hreleases : setting.releases = setting'.releases)
    (hprint : ∀ line, Eval.CutBy c (Eval.print line) (Eval.print line))
    (hcall : ∀ (line : Nat) {x y : Eval Value}, Eval.CutBy c x y →
      Eval.CutBy c (Semantics.plain.call setting line x) (Semantics.plain.call setting' line y)) :
    Relates .plain .plain setting setting' fun _ _ _ x y => Eval.CutBy c x y where
  weaken h _ _ := h
  holding h := h
  pure a _ := .of_ignoresSink (.pure a)
  bind hx hf := .bind hx hf
  exhausted := .of_ignoresSink .exhausted
  fail _ _ _ := .of_ignoresSink (.fail _)
  operator _ _ _ _ := .of_ignoresSink (.ofExcept _ _)
  host line key args := by
    rw [← hhost]
    exact .of_ignoresSink (.ofExcept _ _)
  lookup name := .of_ignoresSink (.lookup name)
  assign name v := .of_ignoresSink (.assign name v)
  define name v := .of_ignoresSink (.define name v)
  declare decl := .of_ignoresSink (.declare decl)
  remember v := .of_ignoresSink (.remember v)
  newFrame parent bindings := .of_ignoresSink (.newFrame parent bindings)
  current := .of_ignoresSink .current
  print line := hprint line
  call line _ _ hx := hcall line hx
  inFrame frame _ _ hx := .inFrame hreleases _ frame hx
  part hx := hx

/-- What relates the steps relates the runs of statements. -/
theorem Cut.executeAll {c : Cut} {setting setting' : Setting}
    (h : Relates .plain .plain setting setting' fun _ _ _ x y => Eval.CutBy c x y) (n : Nat)
    (held : List Reference) (ss : List Stmt) :
    Eval.CutBy c (executeAll setting n held ss) (executeAll setting' n held ss) := by
  have heval := h.ofFuel n
  rw [Evaluator.ofFuel_plain, Evaluator.ofFuel_plain] at heval
  exact heval.executeAll held ss

/-! ### The sink of a program -/

namespace Machine

variable {setting : Setting} {fuel : Nat} {m k : Machine}

/-- What a program writes at last comes after what its statements wrote. -/
theorem exists_final?_of_runProgram {program : Program} {r : Report}
    (hrun : m.runProgram setting fuel program = some (r, k)) :
    ∃ j, (executeAll setting fuel [] program.statements
      (program.errors.foldl report m)).final? = some j ∧ j.sink.Grows k.sink := by
  unfold runProgram at hrun
  generalize executeAll setting fuel [] program.statements (program.errors.foldl report m) = o
    at hrun
  cases o with
  | done flow j =>
    cases hrun
    exact ⟨j, rfl, .refl⟩
  | failed e j =>
    cases hrun
    exact ⟨j, rfl, .writeLine j.sink e.message⟩
  | outOfFuel => cases hrun

theorem grows_foldl_report (es : List Error) (m : Machine) :
    m.sink.Grows (es.foldl report m).sink := by
  induction es generalizing m with
  | nil => exact .refl
  | cons e es ih => exact (Sink.Grows.writeLine m.sink e.message).trans (ih (m.report e))

end Machine

end Scriptlet

import Scriptlet.Proofs.Eval.Cut

/-!
# What a run does

A `Recorded` computation writes down its deeds: the statements it starts, the operations it carries
out, the values it prints, the returns it comes to and the failure it ends with, each with the state
it leaves and the number of calls inside which it happens. Without the record, recorded evaluation
is the evaluator (`erase_recorded`). The record accounts for the run: what is written is what is
printed, a failure is the last deed, and the state after the last deed is the state at the end, but
for what nobody can reach (`recorded_accounts`).
-/

namespace Scriptlet

/-- What a run does. -/
inductive Deed
  | starts (s : Stmt)
  /-- The machine carries out an operation, such as to look up, bind or assign a name. -/
  | operates
  | prints (v : Value)
  /-- A return statement has its value. -/
  | returns (v : Value)
  | fails (e : Error)

/-- The value that is printed. -/
def Deed.printed? : Deed → Option Value
  | prints v => some v
  | _ => none

/-- A deed, the number of calls inside which it happens, and the state it leaves. -/
structure LogEntry where
  level : Nat
  deed : Deed
  after : Machine

namespace LogEntry

/-- The entry as it is seen from outside of a call. -/
def raise (d : LogEntry) : LogEntry := { d with level := d.level + 1 }

/-- The values printed in the course of a record. -/
def printed (t : List LogEntry) : List Value := t.filterMap (·.deed.printed?)

/-- The state after the last deed of a record that starts in the given state. -/
def lastState (m : Machine) (t : List LogEntry) : Machine := (t.getLast?.map after).getD m

theorem printed_append (t u : List LogEntry) : printed (t ++ u) = printed t ++ printed u :=
  List.filterMap_append

/-- The state after two stretches of a record is that after the second, from where the first
ends. -/
theorem lastState_append (m : Machine) (t u : List LogEntry) :
    lastState m (t ++ u) = lastState (lastState m t) u := by
  unfold lastState
  rw [List.getLast?_append]
  cases u.getLast? <;> rfl

theorem printed_map_raise (t : List LogEntry) : printed (t.map raise) = printed t := by
  rw [printed, List.filterMap_map]
  rfl

theorem lastState_map_raise (m : Machine) (t : List LogEntry) :
    lastState m (t.map raise) = lastState m t := by
  unfold lastState
  rw [List.getLast?_map, Option.map_map]
  rfl

end LogEntry

/-- A computation that records its deeds. -/
abbrev Recorded : Type → Type := Recording LogEntry

/-- How a step ends, as a deed or as a failure. -/
def Outcome.entries {α : Type} (deed : α → Deed) : Outcome α → List LogEntry
  | .done a k => [⟨0, deed a, k⟩]
  | .failed e k => [⟨0, .fails e, k⟩]
  | .outOfFuel => []

/-- An operation of the machine as a deed, or as a failure. -/
def Recorded.act {α : Type} (deed : α → Deed) (x : Eval α) : Recorded α :=
  .noting (fun _ o => o.entries deed) x

/-- Writes down the deeds of a run. -/
def Scribe.logging : Scribe LogEntry where
  step o := o.entries fun _ => .operates
  remember _ o := o.entries fun _ => .operates
  print line _ o := o.entries fun _ => .prints (.string line)
  refused line m := [⟨0, .fails (.runtime .stackOverflow line), m⟩]
  call _ t _ := t.map LogEntry.raise
  part _ _ _ _ t _ := t

/-- Evaluation that records its deeds. -/
def Semantics.recorded : Semantics Recorded := .recording .logging

namespace Evaluator

/-- Runs one statement and records the value it prints or returns. -/
def recordedStatement (L : Evaluator Recorded) (held : List Reference) : Stmt → Recorded Flow
  | .print e => do
    let v ← L.evaluate held e
    Recorded.act (fun _ => .prints v) (Eval.print v.text)
    pure .normal
  | .ret _ value => do
    let v ← L.valueOr held .null value
    Recorded.act (fun _ => .returns v) (pure (.ret v))
  | s => L.statement .recorded held s

/-- The recording evaluator with the given fuel. -/
def recorded (setting : Setting) : Nat → Evaluator Recorded
  | 0 => .exhausted .recorded
  | n + 1 =>
    { (recorded setting n).next .recorded setting with
      execute := fun held s => do
        Recorded.act (fun _ => .starts s) (pure ())
        (recorded setting n).recordedStatement held s }

/-- What relates the steps of recorded and plain evaluation relates all that they evaluate, if it
also relates what is recorded of statements. -/
theorem related_recorded {setting : Setting}
    {R : {α : Type} → List Reference → List Reference → (α → List Reference) → Recorded α →
      Eval α → Prop} (h : Relates .recorded .plain setting setting R)
    (hstarts : ∀ {held : List Reference} (s : Stmt) {x : Recorded Flow} {y : Eval Flow},
      R [] held Flow.references x y →
      R [] held Flow.references (Recorded.act (fun _ => .starts s) (pure ()) >>= fun _ => x) y)
    (hprints : ∀ {held : List Reference} (v : Value),
      R [] held (fun _ => []) (Recorded.act (fun _ => .prints v) (Eval.print v.text))
        (Eval.print v.text))
    (hreturns : ∀ {held : List Reference} (v : Value),
      R [.value v] held Flow.references (Recorded.act (fun _ => .returns v) (pure (.ret v)))
        (pure (.ret v)))
    (n : Nat) : Related R (recorded setting n) (ofFuel .plain setting n) := by
  induction n with
  | zero => exact h.exhausted_evaluator
  | succ n ih =>
    refine { h.next ih with execute := fun held s => hstarts s ?_ }
    have hplain := h.statement ih held s
    cases s with
    | print e =>
      exact h.bind_drop (ih.evaluate held e) fun v => h.bind (hprints v) fun _ => h.pure _ (.nil _)
    | ret keyword value => exact h.bind (h.valueOr ih held rfl value) hreturns
    | expression | var | function | block | ifElse | whileLoop | forLoop => exact hplain

end Evaluator

/-! ### The evaluator behind the record -/

/-- Without its record, recorded evaluation is the evaluator. -/
theorem erase_recorded (setting : Setting) (n : Nat) :
    Evaluator.Related (fun _ _ _ x y => x.erase = y) (.recorded setting n)
      (.direct setting n) := by
  rw [← Evaluator.ofFuel_plain]
  refine Evaluator.related_recorded (recording_relates_plain .logging setting)
    (fun s x y hx => ?_) (fun _ => rfl) (fun _ => rfl) n
  rw [Recording.erase_bind, hx]
  rfl

/-! ### States that differ in nothing that matters -/

/-- The second state is the first but for the frame that is current, the number of active calls, and
what neither the global names nor the last result reach. -/
structure Machine.Rests (m k : Machine) : Prop where
  sink : k.sink = m.sink
  lastValue : k.lastValue = m.lastValue
  heap : m.heap.Agree [.frame globals, .value m.lastValue] k.heap

namespace Machine.Rests

variable {m k : Machine}

theorem refl (m : Machine) : m.Rests m := ⟨rfl, rfl, .refl _ _⟩

theorem trans {j : Machine} (h : m.Rests k) (h' : k.Rests j) : m.Rests j where
  sink := h'.sink.trans h.sink
  lastValue := h'.lastValue.trans h.lastValue
  heap := h.heap.trans (h.lastValue ▸ h'.heap)

/-- A block is left without a trace in what still matters. -/
theorem leave (setting : Setting) (held : List Reference) (frame previous : FrameId)
    (flow : Option Flow) (m : Machine) : m.Rests (m.leave setting held frame previous flow) := by
  have hagree := m.agree_leave setting held frame previous flow
  generalize m.leave setting held frame previous flow = k at hagree
  obtain ⟨hheap⟩ := hagree
  refine ⟨rfl, rfl, hheap.mono fun r hr => List.mem_append_right _ ?_⟩
  rw [Machine.mem_roots]
  rcases List.mem_cons.1 hr with rfl | hr
  · exact .inl rfl
  · exact .inr (.inr (.inl (List.mem_singleton.1 hr)))

end Machine.Rests

/-- From states that differ in nothing that matters, a record leads to such states. -/
theorem LogEntry.rests_lastState {m k : Machine} (h : m.Rests k) (t : List LogEntry) :
    (lastState m t).Rests (lastState k t) := by
  unfold lastState
  cases t.getLast? with
  | none => exact h
  | some d => exact .refl d.after

/-- The second outcome is the first, in a state that differs in nothing that matters. -/
inductive Outcome.Rests {α : Type} : Outcome α → Outcome α → Prop
  | done {a : α} {m k : Machine} : m.Rests k → Rests (.done a m) (.done a k)
  | failed {e : Error} {m k : Machine} : m.Rests k → Rests (.failed e m) (.failed e k)
  | outOfFuel : Rests .outOfFuel .outOfFuel

theorem Outcome.Rests.failed_iff {α : Type} {o o' : Outcome α} (h : o.Rests o') (e : Error) :
    (∃ k, o' = .failed e k) ↔ ∃ k, o = .failed e k := by
  cases h <;> simp

theorem Outcome.Rests.exists_final? {α : Type} {o o' : Outcome α} (h : o.Rests o') {k : Machine}
    (hk : o'.final? = some k) : ∃ j, o.final? = some j ∧ j.Rests k := by
  cases h with
  | done h =>
    cases hk
    exact ⟨_, rfl, h⟩
  | failed h =>
    cases hk
    exact ⟨_, rfl, h⟩
  | outOfFuel => cases hk

/-- An exit that changes nothing that matters. -/
theorem Eval.rests_andThen {α : Type} (x : Eval α) {exit : Option α → Machine → Machine}
    (hexit : ∀ a (m : Machine), m.Rests (exit a m)) (m : Machine) :
    (x m).Rests (Eval.andThen x exit m) := by
  unfold Eval.andThen
  cases x m with
  | done a k => exact .done (hexit _ k)
  | failed e k => exact .failed (hexit _ k)
  | outOfFuel => exact .outOfFuel

/-- What a call runs is counted, and the count is no part of what matters. -/
theorem Eval.rests_counted {α : Type} (x : Eval α) (m : Machine) :
    (x { m with callDepth := m.callDepth + 1 }).Rests (Eval.counted x m) := by
  rw [Eval.counted_apply]
  refine Eval.rests_andThen x (fun _ k => ?_) _
  exact ⟨rfl, rfl, .refl _ _⟩

/-! ### Lines of output -/

/-- Lines of text, each with its line break. -/
def inLines (lines : List String) : String := String.join (lines.map (· ++ "\n"))

/-- A sink with more lines in it. -/
def Sink.withLines (s : Sink) (lines : List String) : Sink :=
  { s with written := s.written ++ (inLines lines).toUTF8 }

namespace Sink

variable {s : Sink}

@[simp] theorem withLines_nil (s : Sink) : s.withLines [] = s := by
  simp [withLines, inLines]

theorem withLines_append (s : Sink) (xs ys : List String) :
    s.withLines (xs ++ ys) = (s.withLines xs).withLines ys := by
  simp [withLines, inLines, String.join_append, ByteArray.append_assoc]

/-- A sink without limit takes every line. -/
theorem writeLine_of_room (h : s.room = none) (line : String) :
    s.writeLine line = (s.withLines [line], true) := by
  simp [writeLine, write, h, withLines, inLines]

end Sink

/-! ### Records that account for a run -/

/-- A record of deeds that accounts for a run from the given state. -/
structure Accounts {α : Type} (m : Machine) (t : List LogEntry) (o : Outcome α) : Prop where
  fails : ∀ e, (∃ d ∈ t, d.deed = .fails e) ↔ ∃ k, o = .failed e k
  /-- A deed that another one follows is no failure. -/
  failsLast : t.Pairwise fun d _ => ∀ e, d.deed ≠ .fails e
  runtime : m.sink.room = none → ∀ e k, o = .failed e k → ∃ fault line, e = .runtime fault line
  output : m.sink.room = none → ∀ k, o.final? = some k →
    k.sink = m.sink.withLines ((LogEntry.printed t).map Value.text)
  rests : ∀ k, o.final? = some k → (LogEntry.lastState m t).Rests k

namespace Accounts

variable {α β : Type} {m m' : Machine} {t u : List LogEntry} {o o' : Outcome α}

theorem nil (a : α) (m : Machine) : Accounts m [] (.done a m) where
  fails := by simp
  failsLast := .nil
  runtime := by simp
  output _ k hk := by
    cases hk
    simp [LogEntry.printed]
  rests k hk := by
    cases hk
    exact .refl m

theorem outOfFuel (m : Machine) : Accounts m [] (.outOfFuel : Outcome α) :=
  ⟨by simp, .nil, by simp, by simp [Outcome.final?], by simp [Outcome.final?]⟩

/-- The record of a failure alone. -/
theorem failed {level : Nat} {e : Error} {k : Machine}
    (hk : m.sink.room = none → k.sink = m.sink ∧ ∃ fault line, e = .runtime fault line) :
    Accounts m [⟨level, .fails e, k⟩] (.failed e k : Outcome α) where
  fails := by simp
  failsLast := List.pairwise_singleton _ _
  runtime hroom e' k' he := by
    cases he
    exact (hk hroom).2
  output hroom k' hk' := by
    cases hk'
    simpa [LogEntry.printed, Deed.printed?] using (hk hroom).1
  rests k' hk' := by
    cases hk'
    exact .refl k

/-- The record of one deed alone. -/
theorem single {level : Nat} {deed : Deed} {a : α} {k : Machine} (hdeed : ∀ e, deed ≠ .fails e)
    (hk : m.sink.room = none → k.sink = m.sink.withLines (deed.printed?.toList.map Value.text)) :
    Accounts m [⟨level, deed, k⟩] (.done a k) where
  fails := by simp [hdeed]
  failsLast := List.pairwise_singleton _ _
  runtime := by simp
  output hroom k' hk' := by
    cases hk'
    have hprinted : LogEntry.printed [⟨level, deed, k⟩] = deed.printed?.toList := by
      cases h : deed.printed? <;> simp [LogEntry.printed, h]
    rw [hk hroom, hprinted]
  rests k' hk' := by
    cases hk'
    exact .refl k

/-- A run that does not go on is the same run whatever was to follow. -/
theorem of_ended {o' : Outcome β} (h : Accounts m t o)
    (hfailed : ∀ e k, o' = .failed e k ↔ o = .failed e k) (hfinal : o'.final? = o.final?) :
    Accounts m t o' where
  fails e := by simp only [h.fails, hfailed]
  failsLast := h.failsLast
  runtime hroom e k hk := h.runtime hroom e k ((hfailed e k).1 hk)
  output := by
    rw [hfinal]
    exact h.output
  rests := by
    rw [hfinal]
    exact h.rests

/-- While nothing has failed there is no failure in the record. -/
theorem deed_ne_fails {a : α} {k : Machine} (h : Accounts m t (.done a k)) {d : LogEntry}
    (hd : d ∈ t) (e : Error) : d.deed ≠ .fails e := by
  intro he
  obtain ⟨j, hj⟩ := (h.fails e).1 ⟨d, hd, he⟩
  cases hj

/-- One run after another. -/
theorem append {a : α} {k : Machine} {o' : Outcome β} (h : Accounts m t (.done a k))
    (h' : Accounts k u o') : Accounts m (t ++ u) o' where
  fails e := by
    rw [← h'.fails e]
    constructor
    · rintro ⟨d, hd, he⟩
      rcases List.mem_append.1 hd with hd | hd
      · exact absurd he (h.deed_ne_fails hd e)
      · exact ⟨d, hd, he⟩
    · rintro ⟨d, hd, he⟩
      exact ⟨d, List.mem_append_right t hd, he⟩
  failsLast := List.pairwise_append.2
    ⟨h.failsLast, h'.failsLast, fun _ hd _ _ => h.deed_ne_fails hd⟩
  runtime hroom := h'.runtime (by rw [h.output hroom k rfl]; exact hroom)
  output hroom j hj := by
    have hk := h.output hroom k rfl
    rw [h'.output (by rw [hk]; exact hroom) j hj, hk, ← Sink.withLines_append, ← List.map_append,
      LogEntry.printed_append]
  rests j hj := by
    rw [LogEntry.lastState_append]
    exact (LogEntry.rests_lastState (h.rests k rfl) u).trans (h'.rests j hj)

/-- A run that starts from a state that differs in nothing that matters, and is left in one. -/
theorem of_rests (h : Accounts m' t o) (hm : m.Rests m') (ho : o.Rests o') : Accounts m t o' where
  fails e := by rw [ho.failed_iff, h.fails]
  failsLast := h.failsLast
  runtime hroom e k hk := by
    obtain ⟨j, hj⟩ := (ho.failed_iff e).1 ⟨k, hk⟩
    exact h.runtime (by rw [hm.sink]; exact hroom) e j hj
  output hroom k hk := by
    obtain ⟨j, hj, hrests⟩ := ho.exists_final? hk
    rw [hrests.sink, h.output (by rw [hm.sink]; exact hroom) j hj, hm.sink]
  rests k hk := by
    obtain ⟨j, hj, hrests⟩ := ho.exists_final? hk
    exact (LogEntry.rests_lastState hm t).trans ((h.rests j hj).trans hrests)

/-- The record of a call, seen from outside. -/
theorem raise (h : Accounts m t o) : Accounts m (t.map LogEntry.raise) o where
  fails e := by
    rw [← h.fails e]
    simp [LogEntry.raise]
  failsLast := List.pairwise_map.2 h.failsLast
  runtime := h.runtime
  output := by
    rw [LogEntry.printed_map_raise]
    exact h.output
  rests := by
    rw [LogEntry.lastState_map_raise]
    exact h.rests

end Accounts

/-- An operation whose failures are those of a script, and that writes nothing. -/
structure Eval.Silent {α : Type} (x : Eval α) : Prop where
  ignoresSink : IgnoresSink x
  runtime : ∀ m e k, x m = .failed e k → ∃ fault line, e = .runtime fault line

namespace Recorded

variable {α β : Type}

/-- The record of a computation accounts for it. -/
def Accounted (x : Recorded α) : Prop := ∀ m, Accounts m (x m).1 (x m).2

/-- An operation that writes nothing is accounted for. -/
theorem accounted_act {deed : α → Deed} {x : Eval α} (hdeed : ∀ a e, deed a ≠ .fails e)
    (hprinted : ∀ a, (deed a).printed? = none) (hx : x.Silent) : (act deed x).Accounted := by
  intro m
  have hsink : ∀ k, (x m).final? = some k → k.sink = m.sink := fun k => hx.ignoresSink.sink_eq
  have hruntime := hx.runtime m
  change Accounts m ((x m).entries deed) (x m)
  generalize x m = o at hsink hruntime
  cases o with
  | done a k =>
    refine .single (hdeed a) fun _ => ?_
    rw [hsink k rfl, hprinted]
    exact (Sink.withLines_nil m.sink).symm
  | failed e k => exact .failed fun _ => ⟨hsink k rfl, hruntime e k rfl⟩
  | outOfFuel => exact .outOfFuel m

/-- Computations that are accounted for may be run one after another. -/
theorem accounted_bind {x : Recorded α} {f : α → Recorded β} (hx : x.Accounted)
    (hf : ∀ a, (f a).Accounted) : (x >>= f).Accounted := by
  intro m
  refine Recording.bind_cases (Q := fun r => Accounts m r.1 r.2) (P := fun r => Accounts m r.1 r.2)
    (hx m) (fun t a k hm => ?_) (fun t e k hm => ?_) fun t hm => ?_
  · exact hm.append (hf a k)
  · exact hm.of_ended (by simp) rfl
  · exact hm.of_ended (by simp) rfl

/-- What is printed is written, or the run ends with a full sink. -/
theorem accounted_prints (v : Value) :
    (act (fun _ => .prints v) (Eval.print v.text)).Accounted := by
  intro m
  change Accounts m ((Eval.print v.text m).entries fun _ => .prints v) (Eval.print v.text m)
  cases hfits : (m.sink.writeLine v.text).2 with
  | true =>
    rw [Eval.print_of_fits hfits]
    refine .single (by simp) fun hroom => ?_
    rw [Sink.writeLine_of_room hroom]
    rfl
  | false =>
    rw [Eval.print_of_not_fits hfits]
    refine .failed fun hroom => ?_
    rw [Sink.writeLine_of_room hroom] at hfits
    cases hfits

/-- An operation that is not remarkable in itself. -/
theorem accounted_step {x : Eval α} (hx : x.Silent) :
    (Semantics.recorded.step x).Accounted :=
  accounted_act (by simp) (fun _ => rfl) hx

/-- A call is accounted for if what it runs is. -/
theorem accounted_call {setting : Setting} {x : Recorded α} (hx : x.Accounted) (line : Nat) :
    (Semantics.recorded.call setting line x).Accounted := by
  intro m
  refine Semantics.recording_call_cases (P := fun r => Accounts m r.1 r.2)
    (fun _ => .failed fun _ => ⟨rfl, _, _, rfl⟩) fun _ => ?_
  exact (hx _).raise.of_rests ⟨rfl, rfl, .refl _ _⟩ (Eval.rests_counted x.erase m)

/-- A block is accounted for if its statements are. -/
theorem accounted_inFrame {setting : Setting} {held : List Reference} {x : FrameId → Recorded Flow}
    (hx : ∀ previous, (x previous).Accounted) (frame : FrameId) :
    (Semantics.recorded.inFrame setting held frame x).Accounted := by
  intro m
  refine (hx m.current { m with current := frame }).of_rests ⟨rfl, rfl, .refl _ _⟩ ?_
  exact Eval.rests_andThen (x m.current).erase (.leave setting held frame m.current) _

end Recorded

namespace Eval.Silent

theorem ofExcept {α : Type} (line : Nat) (r : Except RuntimeFault α) :
    Silent (Eval.ofExcept line r) := by
  refine ⟨.ofExcept line r, fun m e k he => ?_⟩
  cases r with
  | ok a => cases he
  | error fault =>
    cases he
    exact ⟨fault, line, rfl⟩

theorem lookup (name : Token) : Silent (Eval.lookup name) := by
  refine ⟨.lookup name, fun m e k he => ?_⟩
  unfold Eval.lookup at he
  split at he
  · cases he
  · cases he
    exact ⟨_, _, rfl⟩

theorem assign (name : Token) (v : Value) : Silent (Eval.assign name v) := by
  refine ⟨.assign name v, fun m e k he => ?_⟩
  unfold Eval.assign at he
  split at he
  · cases he
  · cases he
    exact ⟨_, _, rfl⟩

/-- An operation that does not fail. -/
theorem of_done {α : Type} {x : Eval α} (hsink : IgnoresSink x) (hx : ∀ m, ∃ a k, x m = .done a k) :
    Silent x := by
  refine ⟨hsink, fun m e k he => ?_⟩
  obtain ⟨a, j, hj⟩ := hx m
  cases he.symm.trans hj

theorem remember (v : Value) : Silent (Eval.remember v) := by
  refine of_done (.remember v) fun m => ?_
  unfold Eval.remember
  split <;> exact ⟨_, _, rfl⟩

end Eval.Silent

/-- The record of every step accounts for it. -/
theorem recorded_relates_accounted (setting : Setting) :
    Relates .recorded .plain setting setting fun _ _ _ x _ => x.Accounted where
  weaken h _ _ := h
  holding h := h
  pure a _ m := .nil a m
  bind hx hf := Recorded.accounted_bind hx hf
  exhausted := Recorded.accounted_step ⟨.exhausted, fun _ _ _ h => by cases h⟩
  fail line fault _ := by
    refine Recorded.accounted_step ⟨.fail _, fun _ _ _ h => ?_⟩
    cases h
    exact ⟨fault, line, rfl⟩
  operator _ _ _ _ := Recorded.accounted_step (.ofExcept _ _)
  host _ _ _ := Recorded.accounted_step (.ofExcept _ _)
  lookup name := Recorded.accounted_step (.lookup name)
  assign name v := Recorded.accounted_step (.assign name v)
  define name v := Recorded.accounted_step (.of_done (.define name v) fun _ => ⟨_, _, rfl⟩)
  declare decl := Recorded.accounted_step (.of_done (.declare decl) fun _ => ⟨_, _, rfl⟩)
  remember v := Recorded.accounted_step (.remember v)
  newFrame parent bindings :=
    Recorded.accounted_step (.of_done (.newFrame parent bindings) fun _ => ⟨_, _, rfl⟩)
  current := Recorded.accounted_step (.of_done .current fun _ => ⟨_, _, rfl⟩)
  print line := Recorded.accounted_prints (.string line)
  call line _ _ hx := Recorded.accounted_call hx line
  inFrame frame _ _ hx := Recorded.accounted_inFrame hx frame
  part hx := hx

/-- **The record of a run accounts for it.** -/
theorem recorded_accounts (setting : Setting) (n : Nat) (held : List Reference) (ss : List Stmt) :
    ((Evaluator.recorded setting n).executeAll held ss).Accounted := by
  refine (Evaluator.related_recorded (recorded_relates_accounted setting) (fun s x y hx => ?_)
    Recorded.accounted_prints (fun v => ?_) n).executeAll held ss
  · have hstarts : (Recorded.act (fun _ => .starts s) (pure ())).Accounted :=
      Recorded.accounted_act (by simp) (fun _ => rfl) (.of_done (.pure ()) fun _ => ⟨_, _, rfl⟩)
    exact Recorded.accounted_bind hstarts fun _ => hx
  · exact Recorded.accounted_act (by simp) (fun _ => rfl) (.of_done (.pure _) fun _ => ⟨_, _, rfl⟩)

end Scriptlet

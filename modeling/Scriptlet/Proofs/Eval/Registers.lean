import Scriptlet.Proofs.Eval.Invariant
import Scriptlet.Proofs.Eval.Session
import Scriptlet.Proofs.Eval.Trace

/-!
# Registers of a machine

However a computation ends, the current frame and the count of active calls are what they were
before it. The count is right in between as well: in the trace of a run it is the number of calls
that are made and not over, no body runs while it exceeds the limit, and a call is refused exactly
when the limit is reached. Both follow from one property of traced computations, `Traced.Balanced`.
-/

namespace Scriptlet

/-- However a computation ends, the registers for the current frame and for the active calls are
what they were before. -/
def Eval.Restores {α : Type} (x : Eval α) : Prop :=
  ∀ m m', (x m).final? = some m' → m'.current = m.current ∧ m'.callDepth = m.callDepth

/-! ### Calls in a trace -/

namespace Event

/-- The number of active calls after an event. -/
def activeAfter (active : Nat) : Event → Nat
  | call refused => if refused then active else active + 1
  | back => active - 1
  | body _ | result _ | printed _ => active

/-- Whether an event may happen while a number of calls is active: a call is refused exactly at the
limit, and a body runs with the right count in the register, which does not exceed the limit. -/
def Allowed (limit active : Nat) : Event → Prop
  | call refused => refused = true ↔ limit ≤ active
  | body depth => depth = active ∧ depth ≤ limit
  | back => 0 < active
  | result _ | printed _ => True

end Event

/-- Every event of a trace may happen when it does, if a number of calls is active at the start. -/
def RespectsLimit (limit : Nat) : Nat → List Event → Prop
  | _, [] => True
  | active, e :: t => e.Allowed limit active ∧ RespectsLimit limit (e.activeAfter active) t

/-- A trace respects the limit if its stretches do, one from where the other leaves off. -/
theorem respectsLimit_append {limit active : Nat} {t u : List Event} :
    RespectsLimit limit active (t ++ u) ↔
      RespectsLimit limit active t ∧ RespectsLimit limit (t.foldl Event.activeAfter active) u := by
  induction t generalizing active with
  | nil => simp [RespectsLimit]
  | cons e t ih => simp [RespectsLimit, ih, and_assoc]

namespace Event

/-- Whether an event is no part of a call. -/
def isQuiet : Event → Bool
  | result _ | printed _ => true
  | call _ | body _ | back => false

theorem allowed_of_isQuiet {limit active : Nat} {e : Event} (he : e.isQuiet = true) :
    e.Allowed limit active := by
  cases e with
  | result | printed => trivial
  | call | body | back => cases he

theorem activeAfter_of_isQuiet {active : Nat} {e : Event} (he : e.isQuiet = true) :
    e.activeAfter active = active := by
  cases e with
  | result | printed => rfl
  | call | body | back => cases he

end Event

/-- Where no calls are made, the limit is respected and the number of active calls stays. -/
theorem respectsLimit_of_isQuiet {limit active : Nat} {t : List Event}
    (ht : ∀ e ∈ t, e.isQuiet = true) :
    RespectsLimit limit active t ∧ t.foldl Event.activeAfter active = active := by
  induction t with
  | nil => exact ⟨trivial, rfl⟩
  | cons e t ih =>
    have he := ht e List.mem_cons_self
    obtain ⟨hrespects, hactive⟩ := ih fun e he => ht e (List.mem_cons_of_mem _ he)
    rw [RespectsLimit, List.foldl_cons, Event.activeAfter_of_isQuiet he]
    exact ⟨⟨Event.allowed_of_isQuiet he, hrespects⟩, hactive⟩

/-! ### Operations that leave the registers alone -/

/-- No operation of the machine changes the registers. -/
theorem Eval.Operation.restores {α : Type} {x : Eval α} (hx : x.Operation) : x.Restores := by
  intro m k hk
  rw [hx.keeps hk]
  exact ⟨rfl, rfl⟩

theorem Eval.restores_remember (v : Value) : (Eval.remember v).Restores := by
  intro m k hk
  unfold Eval.remember at hk
  split at hk
  · cases hk
    exact ⟨rfl, rfl⟩
  · cases hk
    exact ⟨rfl, rfl⟩

/-! ### Balanced computations -/

namespace Traced

variable {α β : Type} {limit : Nat}

/-- What a computation comes to when it starts in a given state: it respects the limit on calls, and
if it ends, the registers are as before and all its calls are over. -/
structure BalancedAt (limit : Nat) (m : Machine) (r : List Event × Outcome α) : Prop where
  respects : RespectsLimit limit m.callDepth r.1
  restores : ∀ m', r.2.final? = some m' → m'.current = m.current ∧
    m'.callDepth = m.callDepth ∧ r.1.foldl Event.activeAfter m.callDepth = m.callDepth

/-- A computation that is balanced wherever it starts. -/
def Balanced (limit : Nat) (x : Traced α) : Prop := ∀ m, BalancedAt limit m (x m)

namespace Balanced

/-- Balanced computations may be run one after another. -/
theorem bind {x : Traced α} {f : α → Traced β} (hx : Balanced limit x)
    (hf : ∀ a, Balanced limit (f a)) : Balanced limit (x >>= f) := by
  intro m
  refine Recording.bind_cases (Q := BalancedAt limit m) (P := BalancedAt limit m) (hx m)
    (fun t a k hm => ?_) (fun t e k hm => ?_) fun t hm => ?_
  · obtain ⟨hc, hd, ha⟩ := hm.restores k rfl
    obtain ⟨hr', hs'⟩ := hf a k
    rw [hd] at hr' hs'
    refine ⟨respectsLimit_append.2 ⟨hm.respects, by rwa [ha]⟩, fun m' hm' => ?_⟩
    obtain ⟨hc', hd', ha'⟩ := hs' m' hm'
    exact ⟨hc'.trans hc, hd', by rw [List.foldl_append, ha, ha']⟩
  · exact ⟨hm.respects, hm.restores⟩
  · exact ⟨hm.respects, hm.restores⟩

/-- A step in which no call is made. -/
theorem noting {entries : Machine → Outcome α → List Event} {x : Eval α} (hx : x.Restores)
    (hquiet : ∀ m, ∀ e ∈ entries m (x m), e.isQuiet = true) :
    Balanced limit (Recording.noting entries x) := by
  intro m
  have hrun : RespectsLimit limit m.callDepth (entries m (x m)) ∧
      (entries m (x m)).foldl Event.activeAfter m.callDepth = m.callDepth :=
    respectsLimit_of_isQuiet (hquiet m)
  obtain ⟨hrespects, hactive⟩ := hrun
  exact ⟨hrespects, fun m' hm' => ⟨(hx m m' hm').1, (hx m m' hm').2, hactive⟩⟩

theorem step {x : Eval α} (hx : x.Restores) : Balanced limit (Semantics.traced.step x) :=
  noting hx fun _ e he => by cases he

theorem remember (v : Value) : Balanced limit (Semantics.traced.remember v) := by
  refine noting (Eval.restores_remember v) fun m e he => ?_
  rw [List.mem_singleton.1 he]
  rfl

theorem print (line : String) : Balanced limit (Semantics.traced.print line) := by
  refine noting (Eval.Operation.print line).restores fun m e he => ?_
  change e ∈ Event.ofPrint line (Eval.print line m) at he
  generalize Eval.print line m = o at he
  cases o with
  | done a k =>
    rw [List.mem_singleton.1 he]
    rfl
  | failed | outOfFuel => cases he

/-- A call below the limit is counted while it runs. -/
theorem counted {x : Traced α} (hx : Balanced limit x) {m : Machine}
    (hm : m.callDepth < limit) :
    BalancedAt limit m (Event.ofCall (m.callDepth + 1) (x { m with callDepth := m.callDepth + 1 }).1
      (x { m with callDepth := m.callDepth + 1 }).2, Eval.counted x.erase m) := by
  rw [Eval.counted_apply]
  unfold Recording.erase Eval.andThen
  dsimp only
  have hbody := hx { m with callDepth := m.callDepth + 1 }
  generalize x { m with callDepth := m.callDepth + 1 } = r at hbody
  obtain ⟨hr, hs⟩ := hbody
  have hcall : (Event.call false).Allowed limit m.callDepth := by simp [Event.Allowed]; omega
  have hstart : (Event.body (m.callDepth + 1)).Allowed limit (m.callDepth + 1) := ⟨rfl, hm⟩
  -- however the body ends, its calls are over and the call itself goes back
  have hend (k : Machine) (hk : r.2.final? = some k) :
      RespectsLimit limit m.callDepth
          (.call false :: .body (m.callDepth + 1) :: (r.1 ++ [.back])) ∧
        k.current = m.current ∧ k.callDepth - 1 = m.callDepth ∧
        (Event.call false :: .body (m.callDepth + 1) :: (r.1 ++ [.back])).foldl
          Event.activeAfter m.callDepth = m.callDepth := by
    obtain ⟨hc, hd, ha⟩ := hs k hk
    have hback : ((Event.call false :: .body (m.callDepth + 1) :: r.1).foldl
        Event.activeAfter m.callDepth) = m.callDepth + 1 := ha
    refine ⟨?_, hc, by rw [hd]; rfl, ?_⟩
    · rw [← List.cons_append, ← List.cons_append, respectsLimit_append, hback]
      exact ⟨⟨hcall, hstart, hr⟩, Nat.succ_pos _, trivial⟩
    · rw [← List.cons_append, ← List.cons_append, List.foldl_append, hback]
      rfl
  rcases r with ⟨t, ⟨a, k⟩ | ⟨e, k⟩ | _⟩
  · obtain ⟨hres, hrest⟩ := hend k rfl
    refine ⟨hres, fun m' hm' => ?_⟩
    cases hm'
    exact hrest
  · obtain ⟨hres, hrest⟩ := hend k rfl
    refine ⟨hres, fun m' hm' => ?_⟩
    cases hm'
    exact hrest
  · refine ⟨⟨hcall, hstart, hr⟩, fun m' hm' => ?_⟩
    cases hm'

/-- A call is balanced, whether it is refused or not. -/
theorem call {setting : Setting} {x : Traced α} (hx : Balanced setting.callLimit x) (line : Nat) :
    Balanced setting.callLimit (Semantics.traced.call setting line x) := by
  intro m
  refine Semantics.recording_call_cases (P := BalancedAt setting.callLimit m) (fun hlimit => ?_)
    hx.counted
  refine ⟨⟨⟨fun _ => hlimit, fun _ => rfl⟩, trivial⟩, fun m' hm' => ?_⟩
  cases hm'
  exact ⟨rfl, rfl, rfl⟩

/-- Statements run in another frame are balanced when they leave it for the frame before. -/
theorem inFrame {x : FrameId → Traced Flow} (hx : ∀ previous, Balanced limit (x previous))
    (setting : Setting) (held : List Reference) (frame : FrameId) :
    Balanced limit (Semantics.traced.inFrame setting held frame x) := by
  intro m
  change BalancedAt limit m ((x m.current { m with current := frame }).1,
    Eval.andThen (x m.current).erase (Machine.leave setting held frame m.current)
      { m with current := frame })
  obtain ⟨hr, hs⟩ := hx m.current { m with current := frame }
  refine ⟨hr, fun m' hm' => ?_⟩
  obtain ⟨flow, k, hk, rfl⟩ := Eval.exists_final?_of_andThen hm'
  obtain ⟨-, hd, ha⟩ := hs k hk
  obtain ⟨hc', hd', -⟩ := k.leave_registers setting held frame m.current flow
  exact ⟨hc', hd'.trans hd, ha⟩

/-- What a balanced computation is without its record restores the registers. -/
theorem restores {x : Traced α} {y : Eval α} (hx : Balanced limit x) (hy : x.erase = y) :
    y.Restores := by
  subst hy
  intro m m' hm'
  obtain ⟨hc, hd, -⟩ := (hx m).restores m' hm'
  exact ⟨hc, hd⟩

end Balanced

/-- Every step of a run is balanced. -/
theorem balanced_invariant (setting : Setting) :
    Semantics.traced.Invariant setting fun {_} x => Balanced setting.callLimit x where
  step hx := .step hx.restores
  pure a m := ⟨trivial, fun m' hm' => by cases hm'; exact ⟨rfl, rfl, rfl⟩⟩
  bind := Balanced.bind
  remember := .remember
  print := .print
  call line _ hx := hx.call line
  inFrame held frame _ hx := .inFrame hx setting held frame
  part _ _ _ _ hx := hx

/-- Every computation of the traced evaluator is balanced. -/
theorem balances (setting : Setting) (n : Nat) :
    Evaluator.Related (fun _ _ _ x _ => Balanced setting.callLimit x) (traced setting n)
      (traced setting n) :=
  (balanced_invariant setting).ofFuel n

end Traced

/-! ### Scripts and sessions -/

namespace Machine

variable {setting : Setting} {fuel : Nat} {m m' : Machine}

theorem foldl_report_registers (errors : List Error) (m : Machine) :
    (errors.foldl report m).current = m.current ∧
      (errors.foldl report m).callDepth = m.callDepth := by
  induction errors generalizing m with
  | nil => exact ⟨rfl, rfl⟩
  | cons e errors ih => exact ih (m.report e)

/-- A program leaves the registers as they were. -/
theorem runProgram_registers {program : Program} {report : Report}
    (h : m.runProgram setting fuel program = some (report, m')) :
    m'.current = m.current ∧ m'.callDepth = m.callDepth := by
  have hrun : (executeAll setting fuel [] program.statements).Restores :=
    ((Traced.balances setting fuel).executeAll _ _).restores
      ((erase_traced setting fuel).executeAll _ _)
  obtain ⟨hc, hd⟩ := foldl_report_registers program.errors m
  unfold runProgram at h
  split at h
  · rename_i k hk
    obtain ⟨hc', hd'⟩ := hrun _ k (by rw [hk]; rfl)
    cases h
    exact ⟨hc'.trans hc, hd'.trans hd⟩
  · rename_i e k hk
    obtain ⟨hc', hd'⟩ := hrun _ k (by rw [hk]; rfl)
    cases h
    exact ⟨hc'.trans hc, hd'.trans hd⟩
  · cases h

theorem runScript_registers {source : String} {report : Report}
    (h : m.runScript setting fuel source = some (report, m')) :
    m'.current = m.current ∧ m'.callDepth = m.callDepth := by
  unfold runScript at h
  split at h
  · cases h
    exact ⟨rfl, rfl⟩
  · exact runProgram_registers (m := m.forget) h

/-- A session leaves the registers as they were. -/
theorem session_registers {calls : List HostCall} {reports : List Report}
    (h : m.session setting fuel calls = some (reports, m')) :
    m'.current = m.current ∧ m'.callDepth = m.callDepth := by
  induction calls generalizing m reports with
  | nil =>
    cases h
    exact ⟨rfl, rfl⟩
  | cons call calls ih =>
    cases call with
    | run source =>
      obtain ⟨⟨report, k⟩, hk, hrest⟩ := Option.bind_eq_some_iff.1 h
      obtain ⟨⟨reports', k'⟩, hk', heq⟩ := Option.map_eq_some_iff.1 hrest
      cases heq
      obtain ⟨hc, hd⟩ := runScript_registers hk
      obtain ⟨hc', hd'⟩ := ih hk'
      exact ⟨hc'.trans hc, hd'.trans hd⟩
    | defineHost name arity key => exact ih (m := m.defineHost name arity key) h

end Machine

/-- **The registers are restored on every exit.** However an expression, a statement or a block
ends, the current frame and the count of active calls are what they were before. In between, as the
trace tells, a body runs with the number of active calls in the register and never with more than
the limit, and a call with the right number of arguments is refused exactly when the limit is
reached, with a stack overflow. So after every script of a session the global frame is current
again and no call is active. -/
theorem registers_restored (setting : Setting) :
    (∀ n held e, (evaluate setting n held e).Restores) ∧
    (∀ n held s, (execute setting n held s).Restores) ∧
    (∀ n held body frame, (executeBlock setting n held body frame).Restores) ∧
    (∀ n held e m, (Traced.evaluate setting n held e m).2 = evaluate setting n held e m ∧
      RespectsLimit setting.callLimit m.callDepth (Traced.evaluate setting n held e m).1) ∧
    (∀ n held s m, (Traced.execute setting n held s m).2 = execute setting n held s m ∧
      RespectsLimit setting.callLimit m.callDepth (Traced.execute setting n held s m).1) ∧
    (∀ n held body frame m, (Traced.executeBlock setting n held body frame m).2 =
        executeBlock setting n held body frame m ∧
      RespectsLimit setting.callLimit m.callDepth
        (Traced.executeBlock setting n held body frame m).1) ∧
    (∀ n held line id callable args m, args.length = callable.arity →
      invoke setting (n + 1) held line (.function id callable) args m =
        if setting.callLimit ≤ m.callDepth then
          .failed (.runtime .stackOverflow line) m
        else
          Eval.counted (runCallable setting n held line args callable) m) ∧
    (∀ sink fuel calls reports m',
      (Machine.start sink).session setting fuel calls = some (reports, m') →
      m'.current = Machine.globals ∧ m'.callDepth = 0) ∧
    Setting.standard.callLimit = 1024 ∧
    RuntimeFault.stackOverflow.message = "Stack overflow." := by
  have herase := erase_traced setting
  have hbal := Traced.balances setting
  refine ⟨fun n held e => ?_, fun n held s => ?_, fun n held body frame => ?_,
    fun n held e m => ?_, fun n held s m => ?_, fun n held body frame m => ?_, ?_, ?_, rfl, rfl⟩
  · exact ((hbal n).evaluate held e).restores ((herase n).evaluate held e)
  · exact ((hbal n).execute held s).restores ((herase n).execute held s)
  · exact ((hbal n).executeBlock held body frame).restores ((herase n).executeBlock held body frame)
  · exact ⟨congrFun ((herase n).evaluate held e) m, ((hbal n).evaluate held e m).respects⟩
  · exact ⟨congrFun ((herase n).execute held s) m, ((hbal n).execute held s m).respects⟩
  · exact ⟨congrFun ((herase n).executeBlock held body frame) m,
      ((hbal n).executeBlock held body frame m).respects⟩
  · intro n held line id callable args m harity
    rw [invoke_function, if_neg (fun h => h harity)]
    change (if setting.callLimit ≤ m.callDepth then _ else _ : Eval Value) m = _
    split <;> rfl
  · intro sink fuel calls reports m' h
    exact Machine.session_registers h

/-- A script that returns from a call and from blocks, and one that fails in a call inside of
blocks: after both the global frame is current and no call is active. With 1024 calls active the
next is refused. -/
theorem registers_restored_at_return_and_failure :
    let first := Callable.host "first" 1 "first"
    let returning := "function f(x) \x7b \x7b return -x; \x7d \x7d \x7b \x7b return f(1); \x7d \x7d"
    let failing := "\x7b \x7b f(null); \x7d \x7d"
    let full : Machine := { Machine.start .unlimited with callDepth := 1024 }
    [Value.null].length = first.arity ∧
      invoke .standard 9 [] 7 (.function 0 first) [.null] full =
        .failed (.runtime .stackOverflow 7) full ∧
      ∃ reports m', (Machine.start .unlimited).session .standard 30
          [.run returning, .run failing] = some (reports, m') ∧
        reports.map (fun r => (r.value.text, r.errors)) =
          [("-1", []), ("<fn f>", [.runtime (.operandNotNumber "-") 1])] ∧
        m'.current = Machine.globals ∧ m'.callDepth = 0 := by
  intro first returning failing full
  obtain ⟨-, -, -, -, -, -, hcall, hsession, -⟩ := registers_restored .standard
  have hany : ((Machine.start .unlimited).session .standard 30 [.run returning, .run failing]).any
      (fun x => x.1.map (fun r => (r.value.text, r.errors)) =
        [("-1", []), ("<fn f>", [.runtime (.operandNotNumber "-") 1])]) = true := by
    decide +kernel
  obtain ⟨⟨reports, m'⟩, hrun, hreports⟩ := (Option.any_eq_true _ _).1 hany
  exact ⟨rfl, hcall 8 [] 7 0 first [.null] full rfl, reports, m', hrun,
    of_decide_eq_true hreports, hsession .unlimited 30 _ reports m' hrun⟩

end Scriptlet

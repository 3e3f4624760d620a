import Scriptlet.Proofs.Eval.Recording

/-!
# The moments of a run

The states a machine goes through in the course of a run, and what is written, refused or reported
on the way. One scribe records them; without the record, watched evaluation is the evaluator
(`erase_watched`). A call that is refused and a line that is not written end the run at
once: nothing follows but parts of the script that are left (`watched_endsAtLimit`).
-/

namespace Scriptlet

/-- A moment in the course of a run. -/
inductive Moment
  /-- A part of the script starts, while these references are held and the machine is in this
  state. -/
  | start (held : List Reference) (m : Machine)
  /-- A part of the script is over or given up. -/
  | stop (held : List Reference) (m : Machine)
  /-- The script writes a line, which fits or does not. -/
  | print (line : String) (fits : Bool)
  /-- A call from the given line is refused since the limit of active calls is reached. -/
  | refused (line : Nat)
  /-- An error is reported by a line, which fits or does not. -/
  | report (line : String) (fits : Bool)

/-- A computation that records the moments it goes through. -/
abbrev Watched : Type → Type := Recording Moment

/-- The moment at which a part of a script is over, unless fuel ran out. -/
def Outcome.stops {α : Type} (held : List Reference) (refs : α → List Reference) :
    Outcome α → List Moment
  | .done a m => [.stop (refs a ++ held) m]
  | .failed _ m => [.stop held m]
  | .outOfFuel => []

theorem Outcome.exists_eq_stop {α : Type} {held : List Reference} {refs : α → List Reference}
    {o : Outcome α} {a : Moment} (ha : a ∈ o.stops held refs) : ∃ held m, a = .stop held m := by
  cases o with
  | done b m => exact ⟨_, _, List.mem_singleton.1 ha⟩
  | failed e m => exact ⟨_, _, List.mem_singleton.1 ha⟩
  | outOfFuel => cases ha

/-- Writes down the moments of a run. -/
def Scribe.watching : Scribe Moment where
  step _ := []
  remember _ _ := []
  print line m _ := [.print line (m.sink.writeLine line).2]
  refused line _ := [.refused line]
  call _ t _ := t
  part before held refs m t o := .start (before ++ held) m :: (t ++ o.stops held refs)

/-- Evaluation that records the moments it goes through. -/
def Semantics.watched : Semantics Watched := .recording .watching

/-- The watched evaluator with the given fuel. -/
def watched (setting : Setting) (n : Nat) : Evaluator Watched := .ofFuel .watched setting n

/-- Without its record, watched evaluation is the evaluator. -/
theorem erase_watched (setting : Setting) (n : Nat) :
    Evaluator.Related (fun _ _ _ x y => x.erase = y) (watched setting n) (.direct setting n) :=
  erase_recording .watching setting n

/-! ### Runs that end at a limit -/

namespace Moment

/-- The error that a moment is the cause of: a line that is not written, or a call refused. -/
def error? : Moment → Option Error
  | print _ false => some .sinkFull
  | refused line => some (.runtime .stackOverflow line)
  | _ => none

/-- A stack overflow has one cause, a call that is refused. -/
theorem error?_eq_stackOverflow {a : Moment} {line : Nat} :
    a.error? = some (.runtime .stackOverflow line) ↔ a = .refused line := by
  cases a with
  | print line fits => cases fits <;> simp [error?]
  | start | stop | refused | report => simp [error?]

/-- A full sink has one cause, a line that does not fit. -/
theorem error?_eq_sinkFull {a : Moment} :
    a.error? = some .sinkFull ↔ ∃ line, a = .print line false := by
  cases a with
  | print line fits => cases fits <;> simp [error?]
  | start | stop | refused | report => simp [error?]

/-- Whether a part of a script is left. -/
def isStop : Moment → Bool
  | stop _ _ => true
  | _ => false

end Moment

/-- Whether an error says that a limit is reached, of active calls or of output. -/
def Error.isLimit : Error → Bool
  | .runtime .stackOverflow _ => true
  | .sinkFull => true
  | _ => false

/-- No other failure than a stack overflow is one of a limit. -/
theorem Error.isLimit_runtime {fault : RuntimeFault} (h : fault ≠ .stackOverflow) (line : Nat) :
    (runtime fault line).isLimit = false := by
  cases fault with
  | stackOverflow => exact absurd rfl h
  | _ => rfl

/-- A run that goes on to no limit but the one it ends at: its error is that of the moment at which
the limit was reached, and after that moment parts of the script are left and nothing else. -/
structure EndsAtLimit {α : Type} (t : List Moment) (o : Outcome α) : Prop where
  rest : t.Pairwise fun a b => a.error?.isSome → b.isStop
  error : ∀ e, (∃ a ∈ t, a.error? = some e) ↔ e.isLimit ∧ ∃ k, o = .failed e k

namespace EndsAtLimit

variable {α β : Type} {t u : List Moment} {o : Outcome α}

theorem done (a : α) (m : Machine) : EndsAtLimit [] (.done a m) := ⟨.nil, by simp⟩

theorem failed {e : Error} (he : e.isLimit = false) (m : Machine) :
    EndsAtLimit [] (.failed e m : Outcome α) := by
  refine ⟨.nil, fun e' => ⟨by simp, ?_⟩⟩
  rintro ⟨he', k, hk⟩
  cases hk
  rw [he] at he'
  cases he'

theorem ofExcept (line : Nat) {r : Except RuntimeFault α} (hr : r ≠ .error .stackOverflow)
    (m : Machine) : EndsAtLimit [] (Eval.ofExcept line r m) := by
  cases r with
  | ok a => exact .done a m
  | error fault => exact .failed (Error.isLimit_runtime (fun h => hr (by rw [h])) line) m

/-- A run that ends at the moment at which it reaches a limit. -/
theorem reached {a : Moment} {e : Error} (ha : a.error? = some e) (he : e.isLimit = true)
    (m : Machine) : EndsAtLimit [a] (.failed e m : Outcome α) := by
  refine ⟨List.pairwise_singleton _ _, fun e' => ⟨?_, ?_⟩⟩
  · rintro ⟨b, hb, hb'⟩
    rw [List.mem_singleton.1 hb, ha] at hb'
    cases hb'
    exact ⟨he, m, rfl⟩
  · rintro ⟨-, k, hk⟩
    cases hk
    exact ⟨a, List.mem_singleton_self a, ha⟩

/-- An exit that keeps the error keeps where a run ends. -/
theorem of_exit (h : EndsAtLimit t o) {o' : Outcome β}
    (ho : ∀ e, (∃ k, o' = .failed e k) ↔ ∃ k, o = .failed e k) : EndsAtLimit t o' :=
  ⟨h.rest, fun e => by rw [h.error, ho]⟩

theorem andThen {x : Eval α} {m : Machine} (h : EndsAtLimit t (x m))
    (exit : Option α → Machine → Machine) : EndsAtLimit t (Eval.andThen x exit m) := by
  refine h.of_exit fun e => ?_
  unfold Eval.andThen
  cases x m <;> simp

/-- While no limit is reached there is no cause of an error. -/
theorem error?_eq_none {a : α} {m : Machine} (h : EndsAtLimit t (.done a m)) {b : Moment}
    (hb : b ∈ t) : b.error? = none := by
  refine Option.eq_none_iff_forall_ne_some.2 fun e he => ?_
  obtain ⟨-, k, hk⟩ := (h.error e).1 ⟨b, hb, he⟩
  cases hk

/-- A run after one that reached no limit. -/
theorem append {a : α} {m : Machine} {o' : Outcome β} (h : EndsAtLimit t (.done a m))
    (h' : EndsAtLimit u o') : EndsAtLimit (t ++ u) o' := by
  refine ⟨List.pairwise_append.2 ⟨h.rest, h'.rest, fun b hb c _ hc => ?_⟩, fun e => ?_⟩
  · rw [h.error?_eq_none hb] at hc
    cases hc
  · rw [← h'.error e]
    constructor
    · rintro ⟨b, hb, he⟩
      rcases List.mem_append.1 hb with hb | hb
      · rw [h.error?_eq_none hb] at he
        cases he
      · exact ⟨b, hb, he⟩
    · rintro ⟨b, hb, he⟩
      exact ⟨b, List.mem_append_right t hb, he⟩

/-- Around a run, a part of a script starts and is left. -/
theorem enclose (h : EndsAtLimit t o) {a : Moment} (ha : a.error? = none)
    (hu : ∀ b ∈ u, ∃ held m, b = .stop held m) : EndsAtLimit (a :: (t ++ u)) o := by
  have hstop : ∀ b ∈ u, b.isStop = true := by
    intro b hb
    obtain ⟨held, m, rfl⟩ := hu b hb
    rfl
  refine ⟨List.pairwise_cons.2 ⟨fun b _ hsome => ?_, ?_⟩, fun e => ?_⟩
  · rw [ha] at hsome
    cases hsome
  · refine List.pairwise_append.2 ⟨h.rest, ?_, fun _ _ b hb _ => hstop b hb⟩
    exact List.pairwise_of_forall_mem_list fun _ _ b hb _ => hstop b hb
  · rw [← h.error e]
    constructor
    · rintro ⟨b, hb, he⟩
      rcases List.mem_cons.1 hb with rfl | hb
      · rw [ha] at he
        cases he
      · rcases List.mem_append.1 hb with hb | hb
        · exact ⟨b, hb, he⟩
        · obtain ⟨held, m, rfl⟩ := hu b hb
          cases he
    · rintro ⟨b, hb, he⟩
      exact ⟨b, List.mem_cons_of_mem a (List.mem_append_left u hb), he⟩

end EndsAtLimit

/-- Every step ends at the first limit it reaches. -/
theorem watched_relates_endsAtLimit (setting : Setting) :
    Relates .watched .plain setting setting fun _ _ _ x _ =>
      ∀ m, EndsAtLimit (x m).1 (x m).2 where
  weaken h _ _ := h
  holding h := h
  pure a _ m := .done a m
  bind hx hf m := by
    refine Recording.bind_cases (Q := fun r => EndsAtLimit r.1 r.2)
      (P := fun r => EndsAtLimit r.1 r.2) (hx m) (fun t a k hm => ?_) (fun t e k hm => ?_)
      fun t hm => ?_
    · exact hm.append (hf a k)
    · exact hm.of_exit (by simp)
    · exact hm.of_exit (by simp)
  exhausted m := ⟨.nil, by simp [Semantics.watched, Semantics.recording, Recording.noting,
    Scribe.watching, Eval.exhausted]⟩
  fail line _ hfault m := .failed (Error.isLimit_runtime hfault line) m
  operator line _ _ hr m := .ofExcept line hr m
  host line key args m := by
    refine .ofExcept line ?_ m
    cases setting.host key args <;> simp [Except.mapError]
  lookup name m := by
    change EndsAtLimit [] (Eval.lookup name m)
    unfold Eval.lookup
    split
    · exact .done _ m
    · exact .failed rfl m
  assign name v m := by
    change EndsAtLimit [] (Eval.assign name v m)
    unfold Eval.assign
    split
    · exact .done _ _
    · exact .failed rfl m
  define name v m := .done () _
  declare decl m := .done () _
  remember v m := by
    change EndsAtLimit [] (Eval.remember v m)
    unfold Eval.remember
    split
    · exact .done v m
    · exact .done v _
  newFrame parent bindings m := .done _ _
  current m := .done _ m
  print line m := by
    change EndsAtLimit [.print line (m.sink.writeLine line).2] (Eval.print line m)
    unfold Eval.print
    dsimp only
    cases (m.sink.writeLine line).2 with
    | true => exact ⟨List.pairwise_singleton _ _, by simp [Moment.error?]⟩
    | false => exact .reached rfl rfl _
  call line x y hx m := by
    refine Semantics.recording_call_cases (P := fun r => EndsAtLimit r.1 r.2)
      (fun _ => .reached rfl rfl m) fun _ => ?_
    have hbody : EndsAtLimit _ (x.erase { m with callDepth := m.callDepth + 1 }) := hx _
    exact hbody.andThen fun _ k => { k with callDepth := k.callDepth - 1 }
  inFrame frame x y hx m := by
    have hbody : EndsAtLimit _ ((x m.current).erase { m with current := frame }) := hx _ _
    exact hbody.andThen _
  part hx m := (hx m).enclose rfl fun _ => Outcome.exists_eq_stop

/-- **A run ends at the first limit it reaches.** -/
theorem watched_endsAtLimit (setting : Setting) (n : Nat) (held : List Reference)
    (ss : List Stmt) (m : Machine) :
    EndsAtLimit ((watched setting n).executeAll held ss m).1
      ((watched setting n).executeAll held ss m).2 :=
  ((watched_relates_endsAtLimit setting).ofFuel n).executeAll held ss m

/-! ### Scripts and sessions -/

/-- Every error found by reading tokens was found before anything ran. -/
theorem Program.isStatic_of_mem_errors {tokens : List Token} {e : Error}
    (he : e ∈ (Program.ofTokens tokens).errors) : e.isStatic = true := by
  obtain ⟨⟨site, complaint⟩, -, rfl⟩ := List.mem_map.1 he
  cases site <;> rfl

namespace Moment

/-- Whether an error is reported. -/
def isReport : Moment → Bool
  | report _ _ => true
  | _ => false

theorem error?_of_isReport {a : Moment} (ha : a.isReport = true) : a.error? = none := by
  cases a with
  | report line fits => rfl
  | start | stop | print | refused => cases ha

end Moment

namespace Machine

variable {setting : Setting} {fuel : Nat} {program : Program} {m : Machine}

/-- The moments at which errors are reported one after another. -/
def reportMoments : List Error → Machine → List Moment
  | [], _ => []
  | e :: es, m => .report e.message (m.sink.writeLine e.message).2 :: reportMoments es (m.report e)

/-- The moments of the run of a program, from the report of its errors on. -/
def programMoments (setting : Setting) (fuel : Nat) (program : Program) (m : Machine) :
    List Moment :=
  let run := (watched setting fuel).executeAll [] program.statements (program.errors.foldl report m)
  reportMoments program.errors m ++ (run.1 ++ match run.2 with
    | .failed e k => reportMoments [e] k
    | _ => [])

/-- The moments of the run of a script. -/
def scriptMoments (setting : Setting) (fuel : Nat) (source : String) (m : Machine) : List Moment :=
  match scan source with
  | .error e => reportMoments [e] m.forget
  | .ok tokens => m.forget.programMoments setting fuel (.ofTokens tokens)

/-- The moments of the scripts that a host runs one after another. -/
def sessionMoments (setting : Setting) (fuel : Nat) : List HostCall → Machine → List Moment
  | [], _ => []
  | .run source :: calls, m =>
    m.scriptMoments setting fuel source ++ match m.runScript setting fuel source with
      | some (_, k) => sessionMoments setting fuel calls k
      | none => []
  | .defineHost name arity key :: calls, m =>
    sessionMoments setting fuel calls (m.defineHost name arity key)

theorem isReport_of_mem_reportMoments {es : List Error} {m : Machine} {a : Moment}
    (ha : a ∈ reportMoments es m) : a.isReport = true := by
  induction es generalizing m with
  | nil => cases ha
  | cons e es ih =>
    rcases List.mem_cons.1 ha with rfl | ha
    · rfl
    · exact ih ha

theorem watched_executeAll_snd (setting : Setting) (fuel : Nat) (ss : List Stmt) (m : Machine) :
    ((watched setting fuel).executeAll [] ss m).2 = executeAll setting fuel [] ss m :=
  congrFun ((erase_watched setting fuel).executeAll [] ss) m

/-- What happens in the course of a program happens in its statements, or an error is reported. -/
theorem mem_programMoments {a : Moment} (ha : a ∈ m.programMoments setting fuel program) :
    a ∈ ((watched setting fuel).executeAll [] program.statements
      (program.errors.foldl report m)).1 ∨ a.isReport = true := by
  unfold programMoments at ha
  rcases List.mem_append.1 ha with ha | ha
  · exact .inr (isReport_of_mem_reportMoments ha)
  · rcases List.mem_append.1 ha with ha | ha
    · exact .inl ha
    · split at ha
      · exact .inr (isReport_of_mem_reportMoments ha)
      · cases ha

/-- A program reaches a limit at some moment exactly if it fails with the error of that limit. -/
theorem exists_error?_programMoments {e : Error} :
    (∃ a ∈ m.programMoments setting fuel program, a.error? = some e) ↔
      e.isLimit ∧ ∃ k, executeAll setting fuel [] program.statements
        (program.errors.foldl report m) = .failed e k := by
  have hlimit := watched_endsAtLimit setting fuel [] program.statements
    (program.errors.foldl report m)
  rw [← watched_executeAll_snd, ← hlimit.error e]
  constructor
  · rintro ⟨a, ha, he⟩
    rcases mem_programMoments ha with ha | hreport
    · exact ⟨a, ha, he⟩
    · rw [Moment.error?_of_isReport hreport] at he
      cases he
  · rintro ⟨a, ha, he⟩
    exact ⟨a, List.mem_append_right _ (List.mem_append_left _ ha), he⟩

/-- After the moment at which a program reaches a limit, parts of it are left, the error is
reported, and nothing else happens. -/
theorem pairwise_programMoments : (m.programMoments setting fuel program).Pairwise fun a b =>
    a.error?.isSome → b.isStop ∨ b.isReport := by
  have hlimit := watched_endsAtLimit setting fuel [] program.statements
    (program.errors.foldl report m)
  have hreports : ∀ es k, (reportMoments es k).Pairwise fun a b =>
      a.error?.isSome → b.isStop ∨ b.isReport := fun es k =>
    List.pairwise_of_forall_mem_list fun _ _ b hb _ => .inr (isReport_of_mem_reportMoments hb)
  unfold programMoments
  refine List.pairwise_append.2 ⟨hreports _ _, ?_, fun a ha b _ hsome => ?_⟩
  · refine List.pairwise_append.2 ⟨hlimit.rest.imp fun h hsome => .inl (h hsome), ?_, ?_⟩
    · split
      · exact hreports _ _
      · exact .nil
    · intro a _ b hb _
      split at hb
      · exact .inr (isReport_of_mem_reportMoments hb)
      · cases hb
  · rw [Moment.error?_of_isReport (isReport_of_mem_reportMoments ha)] at hsome
    cases hsome

/-- After the moment at which a script reaches a limit, parts of it are left and the error is
reported. -/
theorem pairwise_scriptMoments (setting : Setting) (fuel : Nat) (source : String) (m : Machine) :
    (m.scriptMoments setting fuel source).Pairwise fun a b =>
      a.error?.isSome → b.isStop ∨ b.isReport := by
  unfold scriptMoments
  split
  · exact List.pairwise_singleton _ _
  · exact pairwise_programMoments

end Machine

end Scriptlet

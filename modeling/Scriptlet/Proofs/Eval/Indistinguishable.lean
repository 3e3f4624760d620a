import Scriptlet.Proofs.Eval.Fuel
import Scriptlet.Proofs.Eval.Mirroring
import Scriptlet.Proofs.Eval.Rooted

/-!
# Runs that cannot be told apart

Two ways of running something on one machine are the same if one comes to an end whenever the other
does, with the same output, the same error or flow, and machines that no host can tell apart: every
later session ends on both or on neither, with the same output and the same reports. Values are
compared up to the frames of functions and to what resembles each other in their bodies. It is
enough that each way mirrors the other without releases, since releases are invisible.
-/

namespace Scriptlet

open Filter

variable {T : Resemblance} {last : Prop} {W : Pairing} {i j : FrameId}

/-- The same setting without releases. -/
def Setting.withoutReleases (setting : Setting) : Setting := { setting with releases := false }

/-! ### What is compared -/

/-- Functions that differ at most in their frames and in what resembles each other in their
bodies. -/
inductive Callable.Resembles (T : Resemblance) : Callable → Callable → Prop
  | closure (name : Token) (params : List Token) {body body' : List Stmt} (i j : FrameId) :
      T.body body body' →
      Resembles T (.closure ⟨name, params, body⟩ i) (.closure ⟨name, params, body'⟩ j)
  | host (name : String) (arity : Nat) (key : String) :
      Resembles T (.host name arity key) (.host name arity key)

/-- The same plain values, or functions of one identity that differ at most in their frames and in
what resembles each other in their bodies. -/
abbrev Value.Resembles (T : Resemblance) : Value → Value → Prop :=
  Value.Rel (Callable.Resembles T)

theorem Value.Rel.resembles {v v' : Value} (h : v.Paired T W v') : v.Resembles T v' := by
  refine h.imp fun c c' hc => ?_
  cases hc with
  | closure name params hbody _ => exact .closure name params _ _ hbody
  | host name arity key => exact .host name arity key

/-- The same way to end, with a returned value that resembles the other. -/
inductive Flow.Resembles (T : Resemblance) : Flow → Flow → Prop
  | normal : Resembles T .normal .normal
  | ret {v v' : Value} : v.Resembles T v' → Resembles T (.ret v) (.ret v')

theorem Flow.Paired.resembles {flow flow' : Flow} (h : flow.Paired T W flow') :
    flow.Resembles T flow' := by
  cases h with
  | normal => exact .normal
  | ret hv => exact .ret hv.resembles

/-- The same errors, and values that resemble each other. -/
structure Report.Resembles (T : Resemblance) (r r' : Report) : Prop where
  value : r.value.Resembles T r'.value
  errors : r.errors = r'.errors

/-- The same errors of grammar, and statements that resemble each other. -/
structure Program.Resembles (T : Resemblance) (program program' : Program) : Prop where
  statements : T.body program.statements program'.statements
  errors : program.errors = program'.errors

theorem Program.Resembles.refl (T : Resemblance) (program : Program) :
    program.Resembles T program := ⟨T.body_refl _, rfl⟩

/-- The same output, and reports that resemble each other one by one. -/
def ObservationResembles (T : Resemblance) (x x' : List Report × Sink) : Prop :=
  List.Forall₂ (Report.Resembles T) x.1 x'.1 ∧ x.2 = x'.2

namespace Machine

/-- No host can tell two machines apart: each session ends on both or on neither, and if it does,
what is seen of it resembles each other. -/
def Indistinguishable (setting : Setting) (T : Resemblance) (m m' : Machine) : Prop :=
  ∀ calls,
    ((∃ n, (m.observe setting n calls).isSome) ↔ ∃ n, (m'.observe setting n calls).isSome) ∧
    ∀ n n' x x', m.observe setting n calls = some x → m'.observe setting n' calls = some x' →
      ObservationResembles T x x'

/-- Machines with the same output that no host can tell apart. Their last results resemble each
other if they are to be compared. -/
structure SameState (setting : Setting) (T : Resemblance) (last : Prop) (m m' : Machine) :
    Prop where
  sink : m.sink = m'.sink
  lastValue : last → m.lastValue.Resembles T m'.lastValue
  later : m.Indistinguishable setting T m'

end Machine

/-- The same way to end, in states that cannot be told apart. -/
def Outcome.Same (setting : Setting) (T : Resemblance) (last : Prop) :
    Outcome Flow → Outcome Flow → Prop :=
  Outcome.Rel (fun flow m flow' m' => flow.Resembles T flow' ∧ m.SameState setting T last m')
    fun e m e' m' => e = e' ∧ m.SameState setting T last m'

/-- One of two runs ends if and only if the other does, and they end in the same way. -/
structure SameRuns (setting : Setting) (T : Resemblance) (last : Prop) (x y : Nat → Outcome Flow) :
    Prop where
  ends_iff : (∃ n, x n ≠ .outOfFuel) ↔ ∃ n, y n ≠ .outOfFuel
  same : ∀ n n', x n ≠ .outOfFuel → y n' ≠ .outOfFuel → (x n).Same setting T last (y n')

/-- One of two ways to run a program ends if and only if the other does, with reports that resemble
each other and in states that cannot be told apart. -/
structure SameReports (setting : Setting) (T : Resemblance)
    (x y : Nat → Option (Report × Machine)) : Prop where
  ends_iff : (∃ n, (x n).isSome) ↔ ∃ n, (y n).isSome
  same : ∀ n n' r r' k k', x n = some (r, k) → y n' = some (r', k') →
    r.Resembles T r' ∧ k.SameState setting T False k'

/-! ### Sessions on machines that correspond -/

namespace Machine

/-- Machines that correspond and are both ready for the next script. -/
def Corresponds (T : Resemblance) (m m' : Machine) : Prop :=
  ∃ W i j, W.pair i j ∧ m.Paired T False W i j m'

namespace Paired

variable {m m' : Machine}

theorem corresponds (h : m.Paired T last W i j m') (hij : W.pair i j) : m.Corresponds T m' :=
  ⟨W, i, j, hij, { h with lastValue := False.elim }⟩

theorem report (h : m.Paired T last W i j m') (e : Error) :
    (m.report e).Paired T last W i j (m'.report e) :=
  h.withSink fun sink => (sink.writeLine e.message).1

theorem foldl_report (h : m.Paired T last W i j m') (es : List Error) :
    (es.foldl Machine.report m).Paired T last W i j (es.foldl Machine.report m') := by
  induction es generalizing m m' with
  | nil => exact h
  | cons e es ih => exact ih (h.report e)

theorem forget (h : m.Paired T last W i j m') : m.forget.Paired T True W i j m'.forget :=
  { h with lastValue := fun _ => .null }

end Paired

variable {setting : Setting} {m m' k : Machine}

theorem Paired.runProgram (hhost : setting.host.Parametric) (hoff : setting.releases = false)
    (h : m.Paired T True W i j m') (hij : W.pair i j) {n : Nat} {program program' : Program}
    (hprograms : program.Resembles T program') {r : Report}
    (hrun : m.runProgram setting n program = some (r, k)) :
    ∃ r' k', (∀ᶠ n' in atTop, m'.runProgram setting n' program' = some (r', k')) ∧
      r.Resembles T r' ∧ k.Corresponds T k' := by
  obtain ⟨ss, es⟩ := program
  obtain ⟨ss', _⟩ := program'
  obtain ⟨hss, rfl⟩ := hprograms
  have hmirror := (mirroring hhost hoff T True n).executeAll [] [] hij hss _ _ (h.foldl_report es)
  unfold Machine.runProgram at hrun ⊢
  dsimp only at hrun ⊢
  rcases hmirror with hout | ⟨o, hend, ho⟩
  · rw [hout] at hrun
    cases hrun
  · generalize executeAll setting n [] ss _ = x at ho hrun
    cases ho with
    | @done flow l flow' l' hD =>
      obtain ⟨V, hV, -, hl⟩ := hD
      cases hrun
      refine ⟨⟨l'.lastValue, es⟩, l'.forget, hend.mono fun n' hn' => ?_, ?_, ?_⟩
      · dsimp only at hn'
        rw [hn']
      · exact ⟨(hl.lastValue trivial).resembles, rfl⟩
      · exact hl.forget.corresponds (hV.1 _ _ hij)
    | @failed e l e' l' hF =>
      obtain ⟨rfl, V, hV, -, hl⟩ := hF
      cases hrun
      refine ⟨⟨l'.lastValue, es ++ [e]⟩, (l'.report e).forget, hend.mono fun n' hn' => ?_, ?_, ?_⟩
      · dsimp only at hn'
        rw [hn']
      · exact ⟨(hl.lastValue trivial).resembles, rfl⟩
      · exact (hl.report e).forget.corresponds (hV.1 _ _ hij)
    | outOfFuel => cases hrun

theorem Corresponds.runScript (hhost : setting.host.Parametric) (hoff : setting.releases = false)
    (h : m.Corresponds T m') {n : Nat} {source : String} {r : Report}
    (hrun : m.runScript setting n source = some (r, k)) :
    ∃ r' k', (∀ᶠ n' in atTop, m'.runScript setting n' source = some (r', k')) ∧
      r.Resembles T r' ∧ k.Corresponds T k' := by
  obtain ⟨W, i, j, hij, h⟩ := h
  unfold Machine.runScript at hrun ⊢
  split at hrun
  · cases hrun
    exact ⟨_, _, .of_forall fun _ => rfl, ⟨.null, rfl⟩, (h.forget.report _).corresponds hij⟩
  · exact h.forget.runProgram hhost hoff hij (.refl T _) hrun

theorem Corresponds.defineHost (h : m.Corresponds T m') (name : String) (arity : Nat)
    (key : String) :
    (m.defineHost name arity key).Corresponds T (m'.defineHost name arity key) := by
  obtain ⟨W, i, j, hij, h⟩ := h
  obtain ⟨hv, hmade⟩ := h.heap.makeFunction (Callable.Paired.host name arity key)
  exact (h.withHeap le_rfl (hmade.define h.globals name hv)).corresponds hij

/-- A session on the first of two machines that correspond has its like on the second. -/
theorem Corresponds.session (hhost : setting.host.Parametric) (hoff : setting.releases = false)
    (h : m.Corresponds T m') {n : Nat} {calls : List HostCall} {rs : List Report}
    (hsession : m.session setting n calls = some (rs, k)) :
    ∃ rs' k', (∀ᶠ n' in atTop, m'.session setting n' calls = some (rs', k')) ∧
      List.Forall₂ (Report.Resembles T) rs rs' ∧ k.Corresponds T k' := by
  induction calls generalizing m m' rs with
  | nil =>
    cases hsession
    exact ⟨[], m', .of_forall fun _ => rfl, .nil, h⟩
  | cons call calls ih =>
    cases call with
    | run source =>
      obtain ⟨r, j, rs, hrun, hrest, rfl⟩ := session_run_eq_some hsession
      obtain ⟨r', j', hrun', hr, hj⟩ := h.runScript hhost hoff hrun
      obtain ⟨rs', k', hrest', hrs, hk⟩ := ih hj hrest
      refine ⟨r' :: rs', k', ?_, .cons hr hrs, hk⟩
      filter_upwards [hrun', hrest'] with n' hn hn'
      rw [Machine.session, hn, Option.bind_some, hn']
      rfl
    | defineHost name arity key => exact ih (h.defineHost name arity key) hsession

theorem observe_eq_some {n : Nat} {calls : List HostCall} {x : List Report × Sink} :
    m.observe setting n calls = some x ↔
      ∃ k, m.session setting n calls = some (x.1, k) ∧ k.sink = x.2 := by
  obtain ⟨rs, sink⟩ := x
  simp [observe]

theorem Corresponds.observe (hhost : setting.host.Parametric) (hoff : setting.releases = false)
    (h : m.Corresponds T m') {n : Nat} {calls : List HostCall} {x : List Report × Sink}
    (hrun : m.observe setting n calls = some x) :
    ∃ x', (∀ᶠ n' in atTop, m'.observe setting n' calls = some x') ∧
      ObservationResembles T x x' := by
  obtain ⟨k, hsession, hsink⟩ := observe_eq_some.1 hrun
  obtain ⟨rs', k', hsession', hrs, W, i, j, -, hk⟩ := h.session hhost hoff hsession
  refine ⟨(rs', k'.sink), hsession'.mono fun n' hn' => ?_, hrs, hsink.symm.trans hk.sink⟩
  exact observe_eq_some.2 ⟨k', hn', rfl⟩

theorem observe_of_le {n n' : Nat} {calls : List HostCall} {x : List Report × Sink}
    (h : m.observe setting n calls = some x) (hn : n ≤ n') :
    m.observe setting n' calls = some x := by
  obtain ⟨k, hsession, hsink⟩ := observe_eq_some.1 h
  exact observe_eq_some.2 ⟨k, session_of_le hsession hn, hsink⟩

/-- Machines that correspond both ways cannot be told apart. -/
theorem Corresponds.indistinguishable (hhost : setting.host.Parametric)
    (hoff : setting.releases = false) (h : m.Corresponds T m') (h' : m'.Corresponds T m) :
    m.Indistinguishable setting T m' := by
  refine fun calls => ⟨⟨?_, ?_⟩, fun n n' x x' hx hx' => ?_⟩
  · rintro ⟨n, hn⟩
    obtain ⟨x, hx⟩ := Option.isSome_iff_exists.1 hn
    obtain ⟨x', hx', -⟩ := h.observe hhost hoff hx
    obtain ⟨n', hn'⟩ := hx'.exists
    exact ⟨n', by rw [hn']; rfl⟩
  · rintro ⟨n, hn⟩
    obtain ⟨x, hx⟩ := Option.isSome_iff_exists.1 hn
    obtain ⟨x', hx', -⟩ := h'.observe hhost hoff hx
    obtain ⟨n', hn'⟩ := hx'.exists
    exact ⟨n', by rw [hn']; rfl⟩
  · obtain ⟨y, hy, hxy⟩ := h.observe hhost hoff hx
    obtain ⟨k, hk, hle⟩ := (hy.and (eventually_ge_atTop n')).exists
    obtain rfl : y = x' := Option.some.inj (hk.symm.trans (observe_of_le hx' hle))
    exact hxy

/-- Machines that agree with machines that cannot be told apart without releases cannot be told
apart with releases either. -/
theorem Indistinguishable.of_agree (hhost : setting.host.KeepsToArguments) {l l' : Machine}
    (hm : Agree (m.roots []) m l) (hm' : Agree (m'.roots []) m' l')
    (h : l.Indistinguishable setting.withoutReleases T l') : m.Indistinguishable setting T m' := by
  have hobserve : ∀ n calls, m.observe setting n calls =
      l.observe setting.withoutReleases n calls :=
    fun n calls => (hm.session hhost n calls).observed
  have hobserve' : ∀ n calls, m'.observe setting n calls =
      l'.observe setting.withoutReleases n calls :=
    fun n calls => (hm'.session hhost n calls).observed
  intro calls
  simp only [hobserve, hobserve']
  exact h calls

/-! ### One machine twice -/

/-- Every frame that a machine can reach corresponds to itself. -/
def selfPairing (m : Machine) : Pairing where
  pair i j := i = j ∧ m.heap.Reaches (m.roots []) i
  left _ _ := False
  right _ _ := False

theorem selfPairing_current (m : Machine) : m.selfPairing.pair m.current m.current :=
  ⟨rfl, Rooted.reaches_current m []⟩

theorem value_paired_self (T : Resemblance) {v : Value}
    (hv : ∀ id, v.closure? = some id → m.heap.Reaches (m.roots []) id) :
    v.Paired T m.selfPairing v := by
  refine .refl_of ?_
  rintro id c rfl
  cases c with
  | closure decl frame =>
    exact .closure decl.name decl.params (T.body_refl decl.body) (.pair ⟨rfl, hv frame rfl⟩)
  | host name arity key => exact .host name arity key

theorem Rooted.paired_self (hm : m.Rooted []) (T : Resemblance) (last : Prop) :
    m.Paired T last m.selfPairing m.current m.current m where
  heap := by
    refine ⟨rfl, ?_, fun _ _ h => h.elim, fun _ _ h => h.elim, ?_, ?_⟩
    · rintro id _ ⟨rfl, hid⟩
      obtain ⟨f, hf, -, hparent⟩ := hm id hid
      refine ⟨f, f, hf, hf, List.forall₂_same.2 fun b hb => ⟨rfl, ?_⟩, ?_⟩
      · refine value_paired_self T fun target ht => .next hid hf (Or.inr ⟨b.2, ?_, ht⟩)
        exact List.mem_map.2 ⟨b, hb, rfl⟩
      · cases hp : f.parent with
        | none => exact .none
        | some p =>
          exact .some ⟨hparent p hp, hparent p hp, .pair ⟨rfl, .next hid hf (Or.inl hp)⟩⟩
    · rintro _ _ _ ⟨rfl, -⟩ ⟨rfl, -⟩
      rfl
    · rintro _ _ _ ⟨rfl, -⟩ ⟨rfl, -⟩
      rfl
  globals := ⟨rfl, .root (Machine.mem_roots.2 (Or.inl rfl)) rfl⟩
  current := rfl
  current' := rfl
  callDepth := rfl
  sink := rfl
  lastValue _ := value_paired_self T fun id hid =>
    .root (Machine.mem_roots.2 (Or.inr (Or.inr (Or.inl rfl)))) hid

end Machine

/-! ### Runs that mirror each other -/

/-- What runs in a setting with given fuel does so with and without releases, and ends in the same
way with more fuel. -/
structure Eval.Steady (setting : Setting) (x : Setting → Nat → Eval Flow) : Prop where
  agree : ∀ n, Eval.Sim [] [] Flow.references (x setting n) (x setting.withoutReleases n)
  extends_of_le : ∀ n n', n ≤ n' →
    Eval.Extends (x setting.withoutReleases n) (x setting.withoutReleases n')

theorem steady_executeAll {setting : Setting} (hhost : setting.host.KeepsToArguments)
    (ss : List Stmt) : Eval.Steady setting fun setting n => executeAll setting n [] ss where
  agree n := (simulates hhost false n).executeAll [] ss
  extends_of_le _ _ hn := executeAll_extends _ [] ss hn

theorem steady_execute {setting : Setting} (hhost : setting.host.KeepsToArguments) (s : Stmt) :
    Eval.Steady setting fun setting n => execute setting n [] s where
  agree n := (simulates hhost false n).execute [] s
  extends_of_le _ _ hn := execute_extends _ [] s hn

/-- States that agree with states that correspond both ways. -/
theorem Machine.Corresponds.sameState {setting : Setting} (hhost : setting.host.Parametric)
    {m m' l l' : Machine} (h : l.Corresponds T l') (h' : l'.Corresponds T l)
    (hm : Agree (m.roots []) m l) (hm' : Agree (m'.roots []) m' l') :
    m.SameState setting T False m' where
  sink := by
    obtain ⟨W, i, j, -, hl⟩ := h
    rw [← hm.sink_eq, ← hm'.sink_eq]
    exact hl.sink
  lastValue := False.elim
  later := by
    have hoff : setting.withoutReleases.host.Parametric := hhost
    exact (h.indistinguishable hoff rfl h').of_agree hhost.keepsToArguments hm hm'

/-- States that correspond both ways, reached with releases. -/
theorem Machine.sameState_of_paired {setting : Setting} (hhost : setting.host.Parametric)
    {m m' l l' : Machine} {P P' : Pairing → Prop} (hij : W.pair i j)
    (hm : Agree (m.roots []) m l) (hm' : Agree (m'.roots []) m' l')
    (h : l.PairedAfter T last W i j P l') (h' : l'.PairedAfter T last W i j P' l) :
    m.SameState setting T last m' := by
  obtain ⟨V, hV, -, hl⟩ := h
  obtain ⟨U, hU, -, hl'⟩ := h'
  have hsame := (hl.corresponds (hV.1 _ _ hij)).sameState hhost (hl'.corresponds (hU.1 _ _ hij))
    hm hm'
  refine { hsame with lastValue := fun hlast => ?_ }
  obtain ⟨-⟩ := hm
  obtain ⟨-⟩ := hm'
  exact (hl.lastValue hlast).resembles

/-- The end of a run with and without releases. -/
def Outcome.AgreeEnd : Outcome Flow → Outcome Flow → Prop :=
  Outcome.Rel (fun flow m flow' m' => flow = flow' ∧ Machine.Agree (m.roots []) m m')
    fun e m e' m' => e = e' ∧ Machine.Agree (m.roots []) m m'

theorem Eval.Steady.agreeEnd {setting : Setting} {x : Setting → Nat → Eval Flow}
    (hx : Eval.Steady setting x) (n : Nat) (m : Machine) :
    (x setting n m).AgreeEnd (x setting.withoutReleases n m) :=
  (hx.agree n m m (.refl _ m)).imp
    (fun _ _ _ _ h => ⟨h.1, h.2.mono (List.subset_append_right _ _)⟩) fun _ _ _ _ h => h

theorem Outcome.AgreeEnd.ne_outOfFuel_iff {o p : Outcome Flow} (h : o.AgreeEnd p) :
    o ≠ .outOfFuel ↔ p ≠ .outOfFuel := by
  cases h <;> simp

theorem Outcome.Same.of_paired {setting : Setting} (hhost : setting.host.Parametric)
    {o o' p p' : Outcome Flow} (hij : W.pair i j) (ho : o.AgreeEnd p) (ho' : o'.AgreeEnd p')
    (h : p.Paired T last W i j (Flow.Paired T) p')
    (h' : p'.Paired T last W i j (Flow.Paired T) p) :
    o.Same setting T last o' := by
  cases h with
  | done h =>
    cases h' with
    | done h' =>
      cases ho with
      | done ho =>
        cases ho' with
        | done ho' =>
          obtain ⟨rfl, ha⟩ := ho
          obtain ⟨rfl, ha'⟩ := ho'
          obtain ⟨V, -, hflow, -⟩ := id h
          exact .done ⟨hflow.resembles, Machine.sameState_of_paired hhost hij ha ha' h h'⟩
  | failed h =>
    cases h' with
    | failed h' =>
      cases ho with
      | failed ho =>
        cases ho' with
        | failed ho' =>
          obtain ⟨rfl, ha⟩ := ho
          obtain ⟨rfl, ha'⟩ := ho'
          exact .failed ⟨h.1, Machine.sameState_of_paired hhost hij ha ha' h.2 h'.2⟩
  | outOfFuel =>
    cases ho
    cases ho'
    exact .outOfFuel

/-- What ends in one way eventually and in another with some fuel ends in one way only. -/
theorem Eval.Steady.eq_of_eventually {setting : Setting} {x : Setting → Nat → Eval Flow}
    (hx : Eval.Steady setting x) {m : Machine} {o : Outcome Flow}
    (ho : ∀ᶠ n in atTop, x setting.withoutReleases n m = o) {n : Nat}
    (hn : x setting.withoutReleases n m ≠ .outOfFuel) :
    x setting.withoutReleases n m = o := by
  obtain ⟨n', hn', hle⟩ := (ho.and (eventually_ge_atTop n)).exists
  exact ((hx.extends_of_le n n' hle).eq_of_ne hn).symm.trans hn'

/-- What a run comes to, the one that mirrors it comes to with enough fuel. -/
theorem Eval.Steady.mirrored {setting : Setting} (hhost : setting.host.Parametric) {m : Machine}
    (hm : m.Hosted setting) {x y : Setting → Nat → Eval Flow} (hx : Eval.Steady setting x)
    (hy : Eval.Steady setting y) {n : Nat}
    (h : Eval.Mirrors T last m.selfPairing m.current m.current (Flow.Paired T)
      (x setting.withoutReleases n) (y setting.withoutReleases))
    (hn : x setting n m ≠ .outOfFuel) :
    (∃ n', y setting n' m ≠ .outOfFuel) ∧ ∀ n', y setting n' m ≠ .outOfFuel →
      (x setting.withoutReleases n m).Paired T last m.selfPairing m.current m.current
        (Flow.Paired T) (y setting.withoutReleases n' m) := by
  have hself := (hm.rooted hhost.keepsToArguments).paired_self T last
  have hoff := (hx.agreeEnd n m).ne_outOfFuel_iff.1 hn
  obtain ⟨o, hend, ho⟩ := (h m m hself).resolve_left hoff
  constructor
  · obtain ⟨n', hn'⟩ := hend.exists
    refine ⟨n', (hy.agreeEnd n' m).ne_outOfFuel_iff.2 ?_⟩
    rw [hn']
    rintro rfl
    generalize x setting.withoutReleases n m = p at ho hoff
    cases ho
    exact hoff rfl
  · intro n' hn'
    rw [hy.eq_of_eventually hend ((hy.agreeEnd n' m).ne_outOfFuel_iff.1 hn')]
    exact ho

/-- **Runs that mirror each other are the same.** -/
theorem sameRuns_of_mirrors {setting : Setting} (hhost : setting.host.Parametric)
    {m : Machine} (hm : m.Hosted setting) {x y : Setting → Nat → Eval Flow}
    (hx : Eval.Steady setting x) (hy : Eval.Steady setting y)
    (hforward : ∀ n, Eval.Mirrors T last m.selfPairing m.current m.current (Flow.Paired T)
      (x setting.withoutReleases n) (y setting.withoutReleases))
    (hbackward : ∀ n, Eval.Mirrors T last m.selfPairing m.current m.current (Flow.Paired T)
      (y setting.withoutReleases n) (x setting.withoutReleases)) :
    SameRuns setting T last (fun n => x setting n m) fun n => y setting n m where
  ends_iff := by
    constructor
    · rintro ⟨n, hn⟩
      exact (hx.mirrored hhost hm hy (hforward n) hn).1
    · rintro ⟨n, hn⟩
      exact (hy.mirrored hhost hm hx (hbackward n) hn).1
  same n n' hn hn' :=
    .of_paired hhost m.selfPairing_current (hx.agreeEnd n m) (hy.agreeEnd n' m)
      ((hx.mirrored hhost hm hy (hforward n) hn).2 n' hn')
      ((hy.mirrored hhost hm hx (hbackward n') hn').2 n hn)

/-! ### Trees that resemble each other -/

/-- **Statements that resemble each other run alike** on any machine that a host can come to. -/
theorem sameRuns_of_resembles {setting : Setting} (hhost : setting.host.Parametric) {m : Machine}
    (hm : m.Hosted setting) {ss ss' : List Stmt} (h : T.body ss ss') (h' : T.body ss' ss) :
    SameRuns setting T True (fun n => executeAll setting n [] ss m)
      fun n => executeAll setting n [] ss' m := by
  have hkeeps := hhost.keepsToArguments
  have hoff : setting.withoutReleases.host.Parametric := hhost
  refine sameRuns_of_mirrors hhost hm (steady_executeAll hkeeps ss) (steady_executeAll hkeeps ss')
    (fun n => ?_) fun n => ?_
  · exact (mirroring hoff rfl T True n).executeAll [] [] m.selfPairing_current h
  · exact (mirroring hoff rfl T True n).executeAll [] [] m.selfPairing_current h'

namespace Machine

variable {setting : Setting} {m : Machine} {program program' : Program}

/-- Without releases, what one program comes to, one that resembles it comes to with enough fuel. -/
theorem Rooted.runProgram_resembles (hhost : setting.host.Parametric)
    (hoff : setting.releases = false) (hm : m.Rooted []) (h : program.Resembles T program')
    {n : Nat} {r : Report} {k : Machine} (hrun : m.runProgram setting n program = some (r, k)) :
    (∃ n', (m.runProgram setting n' program').isSome) ∧
      ∀ n' r' k', m.runProgram setting n' program' = some (r', k') →
        r.Resembles T r' ∧ k.Corresponds T k' := by
  obtain ⟨r₁, k₁, hrun₁, hr, hk⟩ :=
    (hm.paired_self T True).runProgram hhost hoff m.selfPairing_current h hrun
  constructor
  · obtain ⟨n', hn'⟩ := hrun₁.exists
    exact ⟨n', by rw [hn']; rfl⟩
  · intro n' r' k' hrun'
    obtain ⟨n₁, hn₁, hle⟩ := (hrun₁.and (eventually_ge_atTop n')).exists
    cases hn₁.symm.trans (runProgram_of_le hrun' hle)
    exact ⟨hr, hk⟩

/-- **Programs that resemble each other are the same** to a host. -/
theorem Rooted.sameReports (hhost : setting.host.Parametric) (hm : m.Rooted [])
    (h : program.Resembles T program') (h' : program'.Resembles T program) :
    SameReports setting T (fun n => m.runProgram setting n program)
      fun n => m.runProgram setting n program' := by
  have hkeeps := hhost.keepsToArguments
  have hoff : setting.withoutReleases.host.Parametric := hhost
  have hagree : ∀ n program, AgreeAfter (m.runProgram setting n program)
      (m.runProgram setting.withoutReleases n program) :=
    fun n program => (Agree.refl _ m).runProgram hkeeps n program
  have hends : ∀ {p p' : Program} {n : Nat}, p.Resembles T p' →
      (m.runProgram setting n p).isSome → ∃ n', (m.runProgram setting n' p').isSome := by
    intro p p' n hp hn
    rw [(hagree n p).isSome_eq] at hn
    obtain ⟨x, hx⟩ := Option.isSome_iff_exists.1 hn
    obtain ⟨n', hn'⟩ := (hm.runProgram_resembles hoff rfl hp hx).1
    exact ⟨n', by rwa [(hagree n' p').isSome_eq]⟩
  refine ⟨⟨fun ⟨n, hn⟩ => hends h hn, fun ⟨n, hn⟩ => hends h' hn⟩, ?_⟩
  intro n n' r r' k k' hrun hrun'
  obtain ⟨l, hl, hkl⟩ := (hagree n program).exists_of_eq_some hrun
  obtain ⟨l', hl', hkl'⟩ := (hagree n' program').exists_of_eq_some hrun'
  obtain ⟨hr, hforth⟩ := (hm.runProgram_resembles hoff rfl h hl).2 n' r' l' hl'
  have hback := ((hm.runProgram_resembles hoff rfl h' hl').2 n r l hl).2
  exact ⟨hr, hforth.sameState hhost hback hkl hkl'⟩

end Machine

end Scriptlet

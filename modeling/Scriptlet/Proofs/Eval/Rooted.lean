import Scriptlet.Proofs.Eval.Moments
import Scriptlet.Proofs.Eval.Registers
import Scriptlet.Proofs.Scope.Chain

/-!
# Scopes in the course of a run

Whatever a script does, at every moment of its run each frame that can still be reached has a scope
chain: from the current frame, from the frames of open blocks and pending calls, and from the frames
of functions. The step lemmas say that the operations of a machine keep its heap rooted; by
`Relates.ofFuel` so do all scripts, with everything that is recorded on the way.
-/

namespace Scriptlet

/-- The heap of a machine is rooted, given what pending computations hold. -/
def Machine.Rooted (held : List Reference) (m : Machine) : Prop := m.heap.Rooted (m.roots held)

/-- What a moment tells of the machine: what is held, and its state. -/
def Moment.state? : Moment → Option (List Reference × Machine)
  | start held m => some (held, m)
  | stop held m => some (held, m)
  | _ => none

/-- The machine is rooted at a moment that tells of it. -/
def Moment.Rooted (a : Moment) : Prop := ∀ held m, a.state? = some (held, m) → m.Rooted held

/-- The machine is rooted at the end, given what pending computations and the result hold. -/
def Outcome.Rooted {α : Type} (held : List Reference) (refs : α → List Reference) :
    Outcome α → Prop
  | .done a m => m.Rooted (refs a ++ held)
  | .failed _ m => m.Rooted held
  | .outOfFuel => True

theorem Outcome.Rooted.imp {α : Type} {held held' : List Reference}
    {refs refs' : α → List Reference} {o : Outcome α} (h : o.Rooted held refs)
    (hdone : ∀ a (k : Machine), k.Rooted (refs a ++ held) → k.Rooted (refs' a ++ held'))
    (hfailed : ∀ k : Machine, k.Rooted held → k.Rooted held') : o.Rooted held' refs' := by
  cases o with
  | done a k => exact hdone a k h
  | failed e k => exact hfailed k h
  | outOfFuel => trivial

/-- An exit may give up what only the computation before it held. -/
theorem Outcome.Rooted.andThen {α : Type} {held held' : List Reference} {refs : α → List Reference}
    {x : Eval α} {m : Machine} (h : (x m).Rooted held' refs) {exit : Option α → Machine → Machine}
    (hdone : ∀ a (k : Machine), k.Rooted (refs a ++ held') →
      (exit (some a) k).Rooted (refs a ++ held))
    (hfailed : ∀ k : Machine, k.Rooted held' → (exit none k).Rooted held) :
    (Eval.andThen x exit m).Rooted held refs := by
  unfold Eval.andThen
  cases hx : x m with
  | done a k =>
    rw [hx] at h
    exact hdone a k h
  | failed e k =>
    rw [hx] at h
    exact hfailed k h
  | outOfFuel => trivial

/-- A computation that keeps machines rooted all the way. -/
def Watched.KeepsRooted {α : Type} (before held : List Reference) (refs : α → List Reference)
    (x : Watched α) : Prop :=
  ∀ m, m.Rooted (before ++ held) → (∀ a ∈ (x m).1, a.Rooted) ∧ (x m).2.Rooted held refs

/-- What is held besides is covered, too. -/
theorem Reference.Covers.append {before before' held : List Reference}
    (hc : Covers (before ++ held) before') : Covers (before ++ held) (before' ++ held) := by
  intro r hr i ht
  rcases List.mem_append.1 hr with hr | hr
  · exact hc r hr i ht
  · exact ⟨r, List.mem_append_right before hr, ht⟩

namespace Machine.Rooted

variable {m : Machine} {held held' : List Reference}

/-- What pending computations hold is reached. -/
theorem reaches {r : Reference} {i : FrameId} (hr : r ∈ held) (ht : r.target? = some i) :
    m.heap.Reaches (m.roots held) i :=
  .root (mem_roots.2 (.inr (.inr (.inr hr)))) ht

theorem reaches_current (m : Machine) (held : List Reference) :
    m.heap.Reaches (m.roots held) m.current := .root (m.current_mem_roots held) rfl

/-- Anything that is reached may be held. -/
theorem of_held (hm : m.Rooted held)
    (hs : ∀ r ∈ held', ∀ i, r.target? = some i → m.heap.Reaches (m.roots held) i) :
    m.Rooted held' := by
  refine Heap.Rooted.of_roots hm fun r hr i ht => ?_
  rcases mem_roots.1 hr with rfl | rfl | rfl | hr
  · exact .root (mem_roots.2 (.inl rfl)) ht
  · exact .root (mem_roots.2 (.inr (.inl rfl))) ht
  · exact .root (mem_roots.2 (.inr (.inr (.inl rfl)))) ht
  · exact hs r hr i ht

theorem of_covers (hm : m.Rooted held) (hc : Reference.Covers held held') : m.Rooted held' := by
  refine hm.of_held fun r hr i ht => ?_
  obtain ⟨r', hr', ht'⟩ := hc r hr i ht
  exact reaches hr' ht'

theorem mono (hm : m.Rooted held) (hs : held' ⊆ held) : m.Rooted held' :=
  hm.of_covers (.of_subset hs)

/-- Registers may change within what they and pending computations hold. -/
theorem of_roots (hm : m.Rooted held) {k : Machine} (hheap : k.heap = m.heap)
    (hs : k.roots held' ⊆ m.roots held) : k.Rooted held' := by
  rw [Machine.Rooted, hheap]
  exact Heap.Rooted.of_roots hm fun r hr i ht => .root (hs hr) ht

theorem start (sink : Sink) : (Machine.start sink).Rooted [] := by
  intro id hid
  have hglobals : id = globals := by
    induction hid with
    | root hr ht =>
      rcases mem_roots.1 hr with rfl | rfl | rfl | hr
      · cases ht
        rfl
      · cases ht
        rfl
      · cases ht
      · cases hr
    | next _ hf hl ih =>
      subst ih
      cases hf
      rcases hl with hp | ⟨v, hv, -⟩
      · cases hp
      · cases hv
  subst hglobals
  exact ⟨⟨[], none⟩, rfl, fun _ => rfl, fun p hp => by cases hp⟩

theorem define (hm : m.Rooted held) (owner : FrameId) (name : String) {v : Value}
    (hv : ∀ i, v.closure? = some i → m.heap.Reaches (m.roots held) i) :
    { m with heap := m.heap.define owner name v }.Rooted held :=
  Heap.Rooted.define hm owner name hv

theorem defineHost (hm : m.Rooted held) (name : String) (arity : Nat) (key : String) :
    (m.defineHost name arity key).Rooted held :=
  Heap.Rooted.define (Heap.Rooted.makeFunction hm (.host name arity key)) globals name
    fun i hi => by cases hi

/-- The end of a block takes nothing away that can still be reached. -/
theorem leave (setting : Setting) {frame previous : FrameId} (flow : Option Flow)
    (hm : m.Rooted ((flow.map (·.references)).getD [] ++ .frame frame :: .frame previous :: held)) :
    (m.leave setting held frame previous flow).Rooted
      ((flow.map (·.references)).getD [] ++ held) := by
  have hexit : m.heap.Rooted (m.exitRoots held previous flow) := by
    refine Heap.Rooted.of_roots hm fun r hr i ht => .root ?_ ht
    simp only [exitRoots, mem_roots, List.mem_append, List.mem_cons] at hr ⊢
    tauto
  have hagree := m.agree_leave setting held frame previous flow
  generalize m.leave setting held frame previous flow = k at hagree ⊢
  obtain ⟨hheap⟩ := hagree
  refine Heap.Rooted.of_roots (hexit.of_agree hheap) fun r hr i ht => .root ?_ ht
  simp only [exitRoots, mem_roots, List.mem_append] at hr ⊢
  tauto

end Machine.Rooted

/-! ### Step lemmas -/

namespace Watched.KeepsRooted

variable {α β : Type} {before before' held : List Reference} {refs refs' : α → List Reference}
  {refs₂ : β → List Reference} {x : Watched α}

/-- An operation of the machine is at no moment in between. -/
theorem step {x : Eval α} (h : ∀ m, m.Rooted (before ++ held) → (x m).Rooted held refs) :
    KeepsRooted before held refs (Semantics.watched.step x) := by
  intro m hm
  refine ⟨fun a ha => ?_, h m hm⟩
  cases ha

theorem weaken (h : KeepsRooted before held refs x)
    (hb : Reference.Covers (before' ++ held) before)
    (hr : ∀ a, Reference.Covers (refs a ++ held) (refs' a)) : KeepsRooted before' held refs' x := by
  intro m hm
  obtain ⟨hmoments, hend⟩ := h m (hm.of_covers hb.append)
  exact ⟨hmoments, hend.imp (fun a _ hk => hk.of_covers (hr a).append) fun _ hk => hk⟩

theorem holding {v : Value} (h : KeepsRooted [] (.value v :: held) refs x) :
    KeepsRooted [.value v] held refs x := by
  intro m hm
  obtain ⟨hmoments, hend⟩ := h m hm
  refine ⟨hmoments, hend.imp (fun a _ hk => hk.mono fun r hr => ?_)
    fun _ hk => hk.mono (List.subset_cons_self _ _)⟩
  simp only [List.mem_append, List.mem_cons] at hr ⊢
  tauto

theorem pure (a : α) (hr : Reference.Covers (before ++ held) (refs a)) :
    KeepsRooted before held refs (pure a) := by
  intro m hm
  refine ⟨fun b hb => ?_, hm.of_covers hr.append⟩
  cases hb

theorem bind {f : α → Watched β} (h : KeepsRooted before held refs x)
    (hf : ∀ a, KeepsRooted (refs a) held refs₂ (f a)) :
    KeepsRooted before held refs₂ (x >>= f) := by
  intro m hm
  refine Recording.bind_cases
    (Q := fun r => (∀ a : Moment, a ∈ r.1 → a.Rooted) ∧ r.2.Rooted held refs)
    (P := fun r => (∀ a : Moment, a ∈ r.1 → a.Rooted) ∧ r.2.Rooted held refs₂) (h m hm)
    (fun t a k hx => ?_) (fun t e k hx => ?_) fun t hx => ?_
  · obtain ⟨hmoments, hend⟩ := hx
    obtain ⟨hmoments', hend'⟩ := hf a k hend
    refine ⟨fun b hb => ?_, hend'⟩
    rcases List.mem_append.1 hb with hb | hb
    · exact hmoments b hb
    · exact hmoments' b hb
  · exact ⟨hx.1, hx.2⟩
  · exact ⟨hx.1, trivial⟩

theorem fail (e : Error) :
    KeepsRooted before held refs (Semantics.watched.step (Eval.fail e)) :=
  step fun _ hm => hm.mono (List.subset_append_right _ _)

theorem ofExcept (line : Nat) (r : Except RuntimeFault α)
    (hr : ∀ a, r = .ok a → Reference.Covers (before ++ held) (refs a)) :
    KeepsRooted before held refs (Semantics.watched.step (Eval.ofExcept line r)) := by
  cases r with
  | ok a => exact pure a (hr a rfl)
  | error fault => exact fail (.runtime fault line)

theorem lookup (name : Token) : KeepsRooted [] held (fun v => [.value v])
    (Semantics.watched.step (Eval.lookup name)) := by
  refine step fun m hm => ?_
  unfold Eval.lookup
  cases hv : m.heap.lookup m.current name.lexeme with
  | none => exact hm
  | some v =>
    refine hm.of_held fun r hr i ht => ?_
    rcases List.mem_cons.1 hr with rfl | hr
    · exact (Machine.Rooted.reaches_current m _).closure_of_lookup hv ht
    · exact Machine.Rooted.reaches hr ht

theorem assign (name : Token) (v : Value) : KeepsRooted [.value v] held (fun _ => [.value v])
    (Semantics.watched.step (Eval.assign name v)) := by
  refine step fun m hm => ?_
  unfold Eval.assign
  cases m.heap.resolve m.current name.lexeme with
  | none => exact hm.mono (List.subset_append_right _ _)
  | some owner =>
    exact hm.define owner name.lexeme fun i hi => Machine.Rooted.reaches List.mem_cons_self hi

theorem define (name : String) (v : Value) : KeepsRooted [.value v] held (fun _ => [])
    (Semantics.watched.step (Eval.change (·.define name v))) := by
  refine step fun m hm => ?_
  have hdefine := hm.define m.current name fun i hi => Machine.Rooted.reaches List.mem_cons_self hi
  exact hdefine.mono (List.subset_append_right _ _)

theorem declare (decl : FunctionDecl) : KeepsRooted [] held (fun _ => [])
    (Semantics.watched.step (Eval.declare decl)) := by
  refine step fun m hm => ?_
  have hmake := Heap.Rooted.makeFunction hm (.closure decl m.current)
  refine hmake.define m.current decl.name.lexeme fun i hi => ?_
  -- the new function keeps the current frame
  cases hi
  exact .root (m.current_mem_roots held) rfl

theorem remember (v : Value) : KeepsRooted [.value v] held (fun v => [.value v])
    (Semantics.watched.remember v) := by
  refine step fun m hm => ?_
  unfold Eval.remember
  split
  · exact hm
  · refine hm.of_roots rfl fun r hr => ?_
    simp only [Machine.mem_roots, List.mem_append, List.mem_singleton] at hr ⊢
    tauto

theorem newFrame (parent : FrameId) (bindings : List (String × Value)) :
    KeepsRooted (.frame parent :: bindings.map fun b => .value b.2) held (fun id => [.frame id])
      (Semantics.watched.step (Eval.newFrame parent bindings)) := by
  refine step fun m hm => ?_
  have hpush := Heap.Rooted.push hm (Frame.parent_foldl_bind ⟨[], some parent⟩ bindings)
    fun i hi => ?_
  · refine hpush.of_roots fun r hr i ht => .root ?_ ht
    simp only [Machine.mem_roots, List.mem_append, List.mem_cons] at hr ⊢
    tauto
  · rcases Frame.leadsTo_foldl_bind hi with (hp | ⟨v, hv, -⟩) | ⟨b, hb, hc⟩
    · exact Machine.Rooted.reaches List.mem_cons_self hp
    · cases hv
    · exact Machine.Rooted.reaches
        (List.mem_append_left _ (List.mem_cons_of_mem _ (List.mem_map.2 ⟨b, hb, rfl⟩))) hc

theorem current : KeepsRooted [] held (fun id => [.frame id])
    (Semantics.watched.step Eval.current) := by
  refine step fun m hm => hm.of_roots rfl fun r hr => ?_
  simp only [Machine.mem_roots, List.mem_append, List.mem_singleton] at hr ⊢
  tauto

theorem print (line : String) : KeepsRooted [] held (fun _ => [])
    (Semantics.watched.print line) := by
  intro m hm
  refine ⟨fun a ha => ?_, ?_⟩
  · obtain rfl := List.mem_singleton.1 ha
    intro held m hstate
    cases hstate
  · change (Eval.print line m).Rooted held _
    unfold Eval.print
    dsimp only
    split
    · exact hm.of_roots rfl (List.Subset.refl _)
    · exact hm.of_roots rfl (List.Subset.refl _)

theorem call (setting : Setting) (line : Nat) {x : Watched α} (h : KeepsRooted before held refs x) :
    KeepsRooted before held refs (Semantics.watched.call setting line x) := by
  intro m hm
  refine Semantics.recording_call_cases
    (P := fun r => (∀ a : Moment, a ∈ r.1 → a.Rooted) ∧ r.2.Rooted held refs)
    (fun _ => ⟨fun a ha => ?_, hm.mono (List.subset_append_right _ _)⟩) fun _ => ?_
  · obtain rfl := List.mem_singleton.1 ha
    intro held m hstate
    cases hstate
  · obtain ⟨hmoments, hend⟩ := h { m with callDepth := m.callDepth + 1 } hm
    have hbody : (x.erase { m with callDepth := m.callDepth + 1 }).Rooted held refs := hend
    have hcounted : (Eval.counted x.erase m).Rooted held refs := by
      rw [Eval.counted_apply]
      exact hbody.andThen (fun _ _ hk => hk) fun _ hk => hk
    exact ⟨hmoments, hcounted⟩

theorem inFrame (setting : Setting) (frame : FrameId) {x : FrameId → Watched Flow}
    (h : ∀ previous, KeepsRooted [] (.frame frame :: .frame previous :: held) Flow.references
      (x previous)) :
    KeepsRooted [.frame frame] held Flow.references
      (Semantics.watched.inFrame setting held frame x) := by
  intro m hm
  have hstart : { m with current := frame }.Rooted
      (Reference.frame frame :: .frame m.current :: held) := by
    refine hm.of_roots rfl fun r hr => ?_
    simp only [Machine.mem_roots, List.mem_append, List.mem_cons] at hr ⊢
    tauto
  obtain ⟨hmoments, hend⟩ := h m.current { m with current := frame } hstart
  have hbody : ((x m.current).erase { m with current := frame }).Rooted
      (.frame frame :: .frame m.current :: held) Flow.references := hend
  refine ⟨hmoments, hbody.andThen (fun flow k hk => ?_) fun k hk => ?_⟩
  · exact Machine.Rooted.leave setting (some flow) hk
  · exact Machine.Rooted.leave setting none hk

theorem part (h : KeepsRooted before held refs x) :
    KeepsRooted before held refs (Semantics.watched.part before held refs x) := by
  intro m hm
  obtain ⟨hmoments, hend⟩ := h m hm
  refine ⟨fun a ha => ?_, hend⟩
  rcases List.mem_cons.1 ha with rfl | ha
  · intro held' k hstate
    cases hstate
    exact hm
  · rcases List.mem_append.1 ha with ha | ha
    · exact hmoments a ha
    · intro held' k hstate
      generalize (x m).2 = o at hend ha
      cases o with
      | done b k' =>
        obtain rfl := List.mem_singleton.1 ha
        cases hstate
        exact hend
      | failed e k' =>
        obtain rfl := List.mem_singleton.1 ha
        cases hstate
        exact hend
      | outOfFuel => cases ha

end Watched.KeepsRooted

/-- The value of a host function is covered by its arguments. -/
theorem Host.KeepsToArguments.covers {host : Host} (hhost : host.KeepsToArguments) {key : String}
    {args : List Value} {held : List Reference} {v : Value}
    (hv : (host key args).mapError RuntimeFault.native = .ok v) :
    Reference.Covers (args.map .value ++ held) [.value v] := by
  intro r hr i ht
  obtain rfl := List.mem_singleton.1 hr
  cases hres : host key args with
  | error message =>
    rw [hres] at hv
    cases hv
  | ok w =>
    rw [hres] at hv
    cases hv
    obtain ⟨a, ha, hc⟩ := hhost key args v i hres ht
    exact ⟨_, List.mem_append_left _ (List.mem_map.2 ⟨a, ha, rfl⟩), hc⟩

theorem watched_relates_rooted {setting : Setting} (hhost : setting.host.KeepsToArguments) :
    Relates .watched .plain setting setting fun before held refs x _ =>
      x.KeepsRooted before held refs where
  weaken h hb hr := h.weaken hb hr
  holding h := h.holding
  pure a hr := .pure a hr
  bind hx hf := hx.bind hf
  exhausted := .step fun _ _ => trivial
  fail _ _ _ := .fail _
  operator line _ hr _ := .ofExcept line _ fun v hv => .value_of_closure?_eq_none (hr v hv)
  host line _ _ := .ofExcept line _ fun _ hv => hhost.covers hv
  lookup name := .lookup name
  assign name v := .assign name v
  define name v := .define name v
  declare decl := .declare decl
  remember v := .remember v
  newFrame parent bindings := .newFrame parent bindings
  current := .current
  print line := .print line
  call line _ _ hx := .call setting line hx
  inFrame frame _ _ hx := .inFrame setting frame hx
  part hx := hx.part

/-! ### Scripts and sessions -/

/-- The states in which a machine that has run nothing can be after calls of its host: to run
scripts, statements or single statements, however they end, and to lend functions. -/
inductive Machine.Hosted (setting : Setting) : Machine → Prop
  | start (sink : Sink) : Hosted setting (Machine.start sink)
  | defineHost {m : Machine} (name : String) (arity : Nat) (key : String) :
      Hosted setting m → Hosted setting (m.defineHost name arity key)
  | run {m k : Machine} {fuel : Nat} {source : String} {r : Report} :
      Hosted setting m → m.runScript setting fuel source = some (r, k) → Hosted setting k
  | interpret {m k : Machine} {fuel : Nat} {ss : List Stmt} :
      Hosted setting m → (executeAll setting fuel [] ss m).final? = some k → Hosted setting k
  | execute {m k : Machine} {fuel : Nat} {s : Stmt} :
      Hosted setting m → (Scriptlet.execute setting fuel [] s m).final? = some k →
      Hosted setting k

/-- Every frame that can be reached has a scope chain, so a name that is bound globally can be read
and assigned. -/
structure Machine.ScopesEnd (held : List Reference) (m : Machine) : Prop where
  chain : ∀ id, m.heap.Reaches (m.roots held) id → ∃ ids, m.heap.ScopeChain id ids
  lookup : ∀ name : Token, m.hasGlobal name.lexeme → ∃ v, Eval.lookup name m = .done v m
  assign : ∀ (name : Token) (v : Value), m.hasGlobal name.lexeme →
    ∃ k, Eval.assign name v m = .done () k

namespace Machine

variable {setting : Setting} {fuel : Nat} {m k : Machine} {held : List Reference}

theorem Rooted.scopesEnd (hm : m.Rooted held) : m.ScopesEnd held := by
  obtain ⟨ids, hcurrent, -⟩ := hm.exists_scopeChain (Rooted.reaches_current m held)
  refine ⟨fun id hid => ?_, fun name hname => ?_, fun name v hname => ?_⟩
  · obtain ⟨ids, hc, -⟩ := hm.exists_scopeChain hid
    exact ⟨ids, hc⟩
  · obtain ⟨-, v, -, hv⟩ := hcurrent.exists_lookup hname
    exact ⟨v, by rw [Eval.lookup, hv]⟩
  · obtain ⟨owner, -, howner, -⟩ := hcurrent.exists_lookup hname
    exact ⟨_, by rw [Eval.assign, howner]⟩

theorem Rooted.forget (hm : m.Rooted held) : m.forget.Rooted held := by
  refine Heap.Rooted.of_roots hm fun r hr i ht => ?_
  rcases mem_roots.1 hr with rfl | rfl | rfl | hr
  · exact .root (mem_roots.2 (.inl rfl)) ht
  · exact .root (m.current_mem_roots held) ht
  · cases ht
  · exact reaches (m := m) hr ht

theorem Rooted.foldl_report (hm : m.Rooted held) (es : List Error) :
    (es.foldl report m).Rooted held := by
  induction es generalizing m with
  | nil => exact hm
  | cons e es ih => exact ih (m := m.report e) hm

/-- Statements keep a machine rooted, at every moment and at the end. -/
theorem Rooted.executeAll (hhost : setting.host.KeepsToArguments) (hm : m.Rooted [])
    (fuel : Nat) (ss : List Stmt) :
    (∀ a ∈ ((watched setting fuel).executeAll [] ss m).1, a.Rooted) ∧
      (Scriptlet.executeAll setting fuel [] ss m).Rooted [] Flow.references := by
  rw [← watched_executeAll_snd]
  exact ((watched_relates_rooted hhost).ofFuel fuel).executeAll [] ss m hm

theorem Rooted.execute (hhost : setting.host.KeepsToArguments) (hm : m.Rooted [])
    (fuel : Nat) (s : Stmt) :
    (∀ a ∈ ((watched setting fuel).execute [] s m).1, a.Rooted) ∧
      (Scriptlet.execute setting fuel [] s m).Rooted [] Flow.references := by
  have herase : ((watched setting fuel).execute [] s m).2 = Scriptlet.execute setting fuel [] s m :=
    congrFun ((erase_watched setting fuel).execute [] s) m
  rw [← herase]
  exact ((watched_relates_rooted hhost).ofFuel fuel).execute [] s m hm

theorem Rooted.of_final? {o : Outcome Flow} (ho : o.Rooted [] Flow.references)
    (hk : o.final? = some k) : k.Rooted [] := by
  cases o with
  | done flow j =>
    cases hk
    have hj : k.Rooted (flow.references ++ []) := ho
    exact hj.mono (List.nil_subset _)
  | failed e j =>
    cases hk
    exact ho
  | outOfFuel => cases hk

/-- A report tells nothing of the machine. -/
theorem rooted_of_isReport {a : Moment} (ha : a.isReport = true) : a.Rooted := by
  intro held k hstate
  cases a with
  | report line fits => cases hstate
  | start | stop | print | refused => cases ha

/-- A script keeps a machine rooted at every moment. -/
theorem Rooted.scriptMoments (hhost : setting.host.KeepsToArguments) (hm : m.Rooted [])
    (fuel : Nat) (source : String) : ∀ a ∈ m.scriptMoments setting fuel source, a.Rooted := by
  intro a ha
  unfold Machine.scriptMoments at ha
  split at ha
  · exact rooted_of_isReport (isReport_of_mem_reportMoments ha)
  · rename_i tokens _
    have hrun := (hm.forget.foldl_report (Program.ofTokens tokens).errors).executeAll hhost fuel
      (Program.ofTokens tokens).statements
    rcases mem_programMoments ha with ha | hreport
    · exact hrun.1 a ha
    · exact rooted_of_isReport hreport

theorem Rooted.runScript (hhost : setting.host.KeepsToArguments) (hm : m.Rooted [])
    {source : String} {r : Report} (hrun : m.runScript setting fuel source = some (r, k)) :
    k.Rooted [] := by
  unfold Machine.runScript at hrun
  split at hrun
  · cases hrun
    exact hm.forget
  · rename_i tokens _
    have hend := ((hm.forget.foldl_report (Program.ofTokens tokens).errors).executeAll hhost fuel
      (Program.ofTokens tokens).statements).2
    unfold runProgram at hrun
    split at hrun
    · rename_i flow j heq
      cases hrun
      rw [heq] at hend
      have hj : j.Rooted [] := Rooted.of_final? hend rfl
      exact hj.forget
    · rename_i e j heq
      cases hrun
      rw [heq] at hend
      have hj : j.Rooted [] := hend
      exact Rooted.forget (m := j.report e) hj
    · cases hrun

/-- **Between the calls of its host a machine is rooted.** -/
theorem Hosted.rooted (hhost : setting.host.KeepsToArguments) (hm : m.Hosted setting) :
    m.Rooted [] := by
  induction hm with
  | start sink => exact .start sink
  | defineHost name arity key _ ih => exact ih.defineHost name arity key
  | run _ hrun ih => exact ih.runScript hhost hrun
  | interpret _ hend ih => exact .of_final? (ih.executeAll hhost _ _).2 hend
  | execute _ hend ih => exact .of_final? (ih.execute hhost _ _).2 hend

/-- **Scope chains are finite and end at the global frame.** This holds between the calls of a host
and at every moment of a script, of statements and of a single statement that it runs: each frame
that can be reached from the current frame, from what pending computations hold or through functions
has a scope chain. So no name that is bound globally is ever undefined. -/
theorem scopes_end_globally (hhost : setting.host.KeepsToArguments) {m : Machine}
    (hm : m.Hosted setting) :
    m.ScopesEnd [] ∧
      ∀ fuel held k,
        (∀ source, ∀ a ∈ m.scriptMoments setting fuel source, a.state? = some (held, k) →
          k.ScopesEnd held) ∧
        (∀ ss, ∀ a ∈ ((watched setting fuel).executeAll [] ss m).1, a.state? = some (held, k) →
          k.ScopesEnd held) ∧
        ∀ s, ∀ a ∈ ((watched setting fuel).execute [] s m).1, a.state? = some (held, k) →
          k.ScopesEnd held := by
  have hrooted := hm.rooted hhost
  refine ⟨hrooted.scopesEnd, fun fuel held k => ⟨?_, ?_, ?_⟩⟩
  · intro source a ha hstate
    exact (hrooted.scriptMoments hhost fuel source a ha held k hstate).scopesEnd
  · intro ss a ha hstate
    exact ((hrooted.executeAll hhost fuel ss).1 a ha held k hstate).scopesEnd
  · intro s a ha hstate
    exact ((hrooted.execute hhost fuel s).1 a ha held k hstate).scopesEnd

/-- In a function that a block declares and calls, the frames of the block and of the call are
current one after the other. -/
theorem scopes_end_globally_in_call : ∃ held k,
    (∃ a ∈ (start .unlimited).scriptMoments .standard 20
      "\x7b function f() \x7b return 1; \x7d f(); \x7d", a.state? = some (held, k)) ∧
    k.callDepth = 1 ∧ k.current = 2 ∧ k.ScopesEnd held := by
  have hcall : ((start .unlimited).scriptMoments .standard 20
      "\x7b function f() \x7b return 1; \x7d f(); \x7d").any (fun a =>
        a.state?.any fun x => x.2.callDepth = 1 ∧ x.2.current = 2) = true := by
    decide +kernel
  obtain ⟨a, ha, hstate⟩ := List.any_eq_true.1 hcall
  obtain ⟨⟨held, k⟩, hstate, hregisters⟩ := (Option.any_eq_true _ _).1 hstate
  obtain ⟨hdepth, hcurrent⟩ := of_decide_eq_true hregisters
  have hends := ((scopes_end_globally Host.standard_keepsToArguments (.start .unlimited)).2 20 held
    k).1 _ a ha hstate
  exact ⟨held, k, ⟨a, ha, hstate⟩, hdepth, hcurrent, hends⟩

end Machine

end Scriptlet

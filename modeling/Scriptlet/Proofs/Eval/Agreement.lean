import Scriptlet.Proofs.Eval.Related
import Scriptlet.Proofs.Eval.Rules
import Scriptlet.Proofs.Scope.Release

/-!
# Machines in agreement

Two machines agree when their registers and output are equal and they hold the same contents in
every frame that can still be reached, from the registers or from what pending computations hold.
`Eval.Sim` says of two computations that they keep machines in agreement. The operations of a
machine do, and so does the end of a block, whether or not its frame is released on either side.
-/

namespace Scriptlet

/-! ### Machines that agree -/

/-- The references of a list lead to no frames but those of another. -/
def Reference.Covers (roots roots' : List Reference) : Prop :=
  ∀ r ∈ roots', ∀ i, r.target? = some i → ∃ r' ∈ roots, r'.target? = some i

namespace Reference.Covers

variable {roots roots' : List Reference}

theorem of_subset (hs : roots' ⊆ roots) : Covers roots roots' := fun r hr _ ht => ⟨r, hs hr, ht⟩

theorem nil (roots : List Reference) : Covers roots [] := of_subset (List.nil_subset roots)

/-- A value that keeps no frame is covered by anything. -/
theorem value_of_closure?_eq_none {v : Value} (hv : v.closure? = none) :
    Covers roots [.value v] := by
  intro r hr i ht
  obtain rfl := List.mem_singleton.1 hr
  exact absurd (hv.symm.trans ht) (by simp)

end Reference.Covers

/-- Two machines that differ at most in frames that the roots do not reach. -/
inductive Machine.Agree (roots : List Reference) (m : Machine) : Machine → Prop
  | intro {h : Heap} : m.heap.Agree roots h → Agree roots m { m with heap := h }

namespace Machine.Agree

variable {m m' : Machine} {roots roots' : List Reference}

theorem refl (roots : List Reference) (m : Machine) : Agree roots m m := .intro (.refl roots m.heap)

/-- Machines that agree on what more references reach agree on what fewer reach. -/
theorem of_covers (a : Agree roots m m') (hc : Reference.Covers roots roots') :
    Agree roots' m m' := by
  obtain ⟨hheap⟩ := a
  refine .intro (hheap.of_roots fun r hr i ht => ?_)
  obtain ⟨r', hr', ht'⟩ := hc r hr i ht
  exact .root hr' ht'

theorem mono (a : Agree roots m m') (hs : roots' ⊆ roots) : Agree roots' m m' :=
  a.of_covers (.of_subset hs)

theorem symm (a : Agree roots m m') : Agree roots m' m := by
  obtain ⟨hheap⟩ := a
  exact .intro (m := { m with heap := _ }) hheap.symm

theorem trans {m'' : Machine} (a : Agree roots m m') (b : Agree roots m' m'') :
    Agree roots m m'' := by
  obtain ⟨hheap⟩ := a
  obtain ⟨hheap'⟩ := b
  exact .intro (hheap.trans hheap')

/-- Machines in agreement have the same roots. -/
theorem roots_eq (a : Agree roots m m') (held : List Reference) : m'.roots held = m.roots held := by
  obtain ⟨-⟩ := a
  rfl

theorem sink_eq (a : Agree roots m m') : m'.sink = m.sink := by
  obtain ⟨-⟩ := a
  rfl

theorem heap (a : Agree roots m m') : m.heap.Agree roots m'.heap := by
  obtain ⟨hheap⟩ := a
  exact hheap

end Machine.Agree

theorem Machine.current_mem_roots (m : Machine) (held : List Reference) :
    .frame m.current ∈ m.roots held := by
  simp [Machine.roots]

/-- The roots are the global frame, the current frame, the last value and what is held. -/
theorem Machine.mem_roots {m : Machine} {held : List Reference} {r : Reference} :
    r ∈ m.roots held ↔
      r = .frame Machine.globals ∨ r = .frame m.current ∨ r = .value m.lastValue ∨ r ∈ held := by
  simp [Machine.roots]

/-- What is covered with the held references is covered with the roots. -/
theorem Machine.covers_roots (m : Machine) {before before' held : List Reference}
    (hc : Reference.Covers (before ++ held) before') :
    Reference.Covers (before ++ m.roots held) (before' ++ m.roots held) := by
  intro r hr i ht
  rcases List.mem_append.1 hr with hr | hr
  · obtain ⟨r', hr', ht'⟩ := hc r hr i ht
    refine ⟨r', ?_, ht'⟩
    simp only [List.mem_append, Machine.mem_roots] at hr' ⊢
    tauto
  · exact ⟨r, List.mem_append_right _ hr, ht⟩

/-! ### Computations that keep machines in agreement -/

/-- Two computations that take machines in agreement to machines in agreement, with the same result
or error. Pending computations hold `held`; `before` is held when they start, and `refs` says what
their result holds. -/
def Eval.Sim {α : Type} (before held : List Reference) (refs : α → List Reference)
    (x y : Eval α) : Prop :=
  ∀ m m', Machine.Agree (before ++ m.roots held) m m' →
    Outcome.Rel (fun a n b n' => a = b ∧ Machine.Agree (refs a ++ n.roots held) n n')
      (fun e n e' n' => e = e' ∧ Machine.Agree (n.roots held) n n') (x m) (y m')

namespace Eval.Sim

variable {α β : Type} {before before' held : List Reference}
  {refs refs' : α → List Reference} {refs₂ : β → List Reference} {x y : Eval α}

/-- What a computation starts from may be more than it needs, and its result hold less. -/
theorem weaken (h : Sim before held refs x y) (hb : Reference.Covers (before' ++ held) before)
    (hr : ∀ a, Reference.Covers (refs a ++ held) (refs' a)) : Sim before' held refs' x y := by
  intro m m' hm
  refine (h m m' (hm.of_covers (m.covers_roots hb))).imp (fun a n b n' hD => ⟨hD.1, ?_⟩)
    fun _ _ _ _ hF => hF
  exact hD.2.of_covers (n.covers_roots (hr a))

/-- What a pending computation holds may also be seen as held when it starts. -/
theorem unhold (extra : List Reference) (h : Sim before (extra ++ held) refs x y) :
    Sim (before ++ extra) held (fun a => refs a ++ extra) x y := by
  intro m m' a
  have move (l : List Reference) (n : Machine) :
      l ++ n.roots (extra ++ held) ⊆ l ++ extra ++ n.roots held ∧
        l ++ extra ++ n.roots held ⊆ l ++ n.roots (extra ++ held) := by
    constructor <;> intro r <;> simp only [List.mem_append, Machine.mem_roots] <;> tauto
  refine (h m m' (a.mono (move _ m).1)).imp (fun a n b n' hD => ⟨hD.1, ?_⟩)
    fun e n e' n' hF => ⟨hF.1, ?_⟩
  · exact hD.2.mono (move _ n).2
  · exact hF.2.mono fun r => by simp only [List.mem_append, Machine.mem_roots]; tauto

theorem pure (a : α) (hr : Reference.Covers (before ++ held) (refs a)) :
    Sim before held refs (pure a) (pure a) :=
  fun m _ hm => .done ⟨rfl, hm.of_covers (m.covers_roots hr)⟩

/-- Computations in agreement may be run one after another. -/
theorem bind {f g : α → Eval β} (h : Sim before held refs x y)
    (hf : ∀ a, Sim (refs a) held refs₂ (f a) (g a)) :
    Sim before held refs₂ (x >>= f) (y >>= g) := by
  intro m m' hm
  refine (h m m' hm).bind fun a n b n' hD => ?_
  obtain ⟨rfl, hn⟩ := hD
  exact hf a n n' hn

/-- A result that is not needed any more is no longer held. -/
theorem bind_drop {f g : α → Eval β} (h : Sim before held refs x y)
    (hf : ∀ a, Sim [] held refs₂ (f a) (g a)) : Sim before held refs₂ (x >>= f) (y >>= g) := by
  exact bind (h.weaken (.of_subset (List.subset_append_left _ _)) fun a => .nil _) hf

theorem exhausted : Sim before held refs Eval.exhausted Eval.exhausted := fun _ _ _ => .outOfFuel

theorem fail (e : Error) : Sim before held refs (Eval.fail e) (Eval.fail e) :=
  fun _ _ hm => .failed ⟨rfl, hm.mono (List.subset_append_right _ _)⟩

/-- A result that covers its references is the same on both machines. -/
theorem ofExcept (line : Nat) (r : Except RuntimeFault α)
    (hr : ∀ a, r = .ok a → Reference.Covers (before ++ held) (refs a)) :
    Sim before held refs (Eval.ofExcept line r) (Eval.ofExcept line r) := by
  cases r with
  | ok a => exact pure a (hr a rfl)
  | error fault => exact fail (.runtime fault line)

/-- Reading the registers gives the same on both sides, and the current frame is held. -/
theorem read {f g : Machine → Eval α}
    (h : ∀ m heap, Sim (.frame m.current :: before) held refs (f m) (g { m with heap })) :
    Sim before held refs (Eval.state >>= f) (Eval.state >>= g) := by
  rintro m _ ⟨hh⟩
  refine h m _ m _ (.intro (hh.mono fun r => ?_))
  simp only [List.cons_append, List.mem_cons, List.mem_append, Machine.mem_roots]
  tauto

theorem counted (h : Sim before held refs x y) :
    Sim before held refs (Eval.counted x) (Eval.counted y) := by
  rintro m _ ⟨hh⟩
  rw [counted_apply, counted_apply]
  refine (h { m with callDepth := m.callDepth + 1 } _ (.intro hh)).andThen ?_ ?_
  · rintro a n b _ ⟨rfl, ⟨hn⟩⟩
    exact ⟨rfl, .intro hn⟩
  · rintro e n e' _ ⟨rfl, ⟨hn⟩⟩
    exact ⟨rfl, .intro hn⟩

/-! ### The operations of a machine -/

/-- A name means the same on both machines, and its value is reached by the current frame. -/
theorem lookup (name : Token) :
    Sim before held (fun v => [.value v]) (Eval.lookup name) (Eval.lookup name) := by
  rintro m _ ⟨hh⟩
  have hcur : m.heap.Reaches (before ++ m.roots held) m.current :=
    .root (List.mem_append_right _ (m.current_mem_roots held)) rfl
  unfold Eval.lookup
  rw [← hh.lookup name.lexeme hcur]
  cases hv : m.heap.lookup m.current name.lexeme with
  | none => exact .failed ⟨rfl, .intro (hh.mono (List.subset_append_right _ _))⟩
  | some v =>
    have hheap := hh.cons_of_reaches (v := v) fun i hi => hcur.closure_of_lookup hv hi
    exact .done ⟨rfl, .intro (hheap.mono (List.cons_subset_cons _ (List.subset_append_right _ _)))⟩

/-- A name is assigned to on both machines or on none. -/
theorem assign (name : Token) (v : Value) : Sim [.value v] held (fun _ => [.value v])
    (Eval.assign name v) (Eval.assign name v) := by
  rintro m _ ⟨hh⟩
  have hcur : m.heap.Reaches ([.value v] ++ m.roots held) m.current :=
    .root (List.mem_append_right _ (m.current_mem_roots held)) rfl
  unfold Eval.assign
  rw [← hh.resolve name.lexeme hcur]
  cases m.heap.resolve m.current name.lexeme with
  | none => exact .failed ⟨rfl, .intro (hh.mono (List.subset_append_right _ _))⟩
  | some owner => exact .done ⟨rfl, .intro (hh.define fun i hi => .root List.mem_cons_self hi)⟩

/-- A name is bound on both machines. -/
theorem define (name : String) (v : Value) : Sim [.value v] held (fun _ => [])
    (Eval.change (·.define name v)) (Eval.change (·.define name v)) := by
  rintro m _ ⟨hh⟩
  have hdef : Heap.Agree ([.value v] ++ m.roots held) (m.heap.define m.current name v) _ :=
    hh.define fun i hi => .root List.mem_cons_self hi
  exact .done ⟨rfl, .intro (hdef.mono (List.subset_append_right _ _))⟩

/-- Both machines give a declared function the same number. -/
theorem declare (decl : FunctionDecl) :
    Sim [] held (fun _ => []) (Eval.declare decl) (Eval.declare decl) := by
  rintro m _ ⟨hh⟩
  obtain ⟨hv, hheap⟩ := hh.makeFunction (.closure decl m.current)
  refine .done ⟨rfl, .intro ?_⟩
  change Heap.Agree _ _ (Heap.define _ _ _ (Heap.makeFunction _ _).1)
  rw [← hv]
  refine hheap.define fun i hi => ?_
  -- the new function keeps the current frame
  cases hi
  exact .root (m.current_mem_roots held) rfl

theorem print (line : String) :
    Sim [] held (fun _ => []) (Eval.print line) (Eval.print line) := by
  rintro m _ ⟨hh⟩
  unfold Eval.print
  dsimp only
  split
  · exact .done ⟨rfl, .intro hh⟩
  · exact .failed ⟨rfl, .intro hh⟩

/-- Both machines remember the same value. -/
theorem remember (v : Value) : Sim [.value v] held (fun v => [.value v])
    (Eval.remember v) (Eval.remember v) := by
  rintro m _ ⟨hh⟩
  unfold Eval.remember
  split
  · exact .done ⟨rfl, .intro hh⟩
  · refine .done ⟨rfl, .intro (hh.mono fun r => ?_)⟩
    simp only [List.mem_append, Machine.mem_roots, List.mem_singleton]
    tauto

/-- Both machines give a new frame the same number. -/
theorem newFrame (parent : FrameId) (bindings : List (String × Value)) :
    Sim (.frame parent :: bindings.map fun b => .value b.2) held (fun id => [.frame id])
      (Eval.newFrame parent bindings) (Eval.newFrame parent bindings) := by
  rintro m _ ⟨hh⟩
  have hframe : ∀ i, (bindings.foldl (fun f b => f.bind b.1 b.2)
      (⟨[], some parent⟩ : Frame)).LeadsTo i →
      m.heap.Reaches ((.frame parent :: bindings.map fun b => .value b.2) ++ m.roots held) i := by
    intro i hi
    rcases Frame.leadsTo_foldl_bind hi with (hp | ⟨v, hv, -⟩) | ⟨b, hb, hc⟩
    · exact .root List.mem_cons_self hp
    · cases hv
    · exact .root (List.mem_append_left _ (List.mem_cons_of_mem _ (List.mem_map.2 ⟨b, hb, rfl⟩))) hc
  refine .done ⟨hh.size, .intro ((hh.push hframe).mono ?_)⟩
  exact List.cons_subset_cons _ (List.subset_append_right _ _)

end Eval.Sim

/-! ### The end of a block -/

/-- What is held when a block ends with the given flow, apart from its own frame. -/
def Machine.exitRoots (held : List Reference) (previous : FrameId) (flow : Option Flow)
    (m : Machine) : List Reference :=
  (flow.map (·.references)).getD [] ++ { m with current := previous }.roots held

/-- Leaving a block changes nothing that can still be reached. -/
theorem Machine.agree_leave (setting : Setting) (held : List Reference) (frame previous : FrameId)
    (flow : Option Flow) (m : Machine) :
    Agree (m.exitRoots held previous flow) { m with current := previous }
      (m.leave setting held frame previous flow) := by
  unfold leave
  dsimp only
  split
  · refine .intro (Heap.Agree.trans ?_ (Heap.agree_release _ _ frame))
    exact (Heap.agree_sweep _ _).mono (List.subset_cons_self _ _)
  · exact .refl _ _

/-- Machines in agreement still agree after both have left a block. -/
theorem Machine.Agree.leave {setting setting' : Setting} {held : List Reference}
    {frame previous : FrameId} {m m' : Machine} (flow : Option Flow)
    (hm : Agree ((flow.map (·.references)).getD [] ++
      m.roots (.frame frame :: .frame previous :: held)) m m') :
    Agree ((flow.map (·.references)).getD [] ++
        (m.leave setting held frame previous flow).roots held)
      (m.leave setting held frame previous flow) (m'.leave setting' held frame previous flow) := by
  have hl := m.agree_leave setting held frame previous flow
  rw [hl.roots_eq]
  obtain @⟨h, hh⟩ := hm
  have hr := agree_leave setting' held frame previous flow { m with heap := h }
  refine hl.symm.trans (.trans (.intro (hh.mono fun r => ?_)) hr)
  simp only [exitRoots, List.mem_append, Machine.mem_roots, List.mem_cons]
  tauto

end Scriptlet

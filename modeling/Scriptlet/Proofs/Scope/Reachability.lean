import Scriptlet.Scope.References
import Std.Data.HashSet.Lemmas

/-!
# Reachable frames

A frame is reachable if a chain of parents and of functions bound in frames leads to it from the
roots. Whatever can be looked up from the roots stands in a reachable frame, so two heaps that
agree on the reachable frames cannot be told apart by looking names up, and binding names and
making frames in both keeps them in agreement. Freeing what nothing keeps changes no reachable
frame.
-/

namespace Scriptlet

namespace Reference

/-- The frame a reference leads to: its own, or that of the function it holds. -/
def target? : Reference → Option FrameId
  | frame id => some id
  | value v => v.closure?

end Reference

namespace Frame

/-- The frames a frame leads to: its parent and those of the functions it binds. -/
def LeadsTo (f : Frame) (target : FrameId) : Prop :=
  f.parent = some target ∨ ∃ v ∈ f.values, v.closure? = some target

theorem mem_values_bind {f : Frame} {name : String} {v w : Value}
    (h : w ∈ (f.bind name v).values) : w = v ∨ w ∈ f.values := by
  simp only [values, bind, List.map_cons, List.mem_cons, List.mem_map, List.mem_filter] at h ⊢
  rcases h with h | ⟨b, hb, h⟩
  · exact Or.inl h
  · exact Or.inr ⟨b, hb.1, h⟩

/-- A new binding adds one frame at most to those that a frame leads to. -/
theorem leadsTo_bind {f : Frame} {name : String} {v : Value} {target : FrameId}
    (h : (f.bind name v).LeadsTo target) : f.LeadsTo target ∨ v.closure? = some target := by
  rcases h with h | ⟨w, hw, h⟩
  · exact Or.inl (Or.inl h)
  · rcases mem_values_bind hw with rfl | hw
    · exact Or.inr h
    · exact Or.inl (Or.inr ⟨w, hw, h⟩)

theorem mem_values_of_get? {f : Frame} {name : String} {v : Value} (h : f.get? name = some v) :
    v ∈ f.values := by
  obtain ⟨l₁, l₂, hl, -⟩ := List.lookup_eq_some_iff.1 h
  exact List.mem_map.2 ⟨(name, v), by simp [hl], rfl⟩

/-- A frame made by binding names one after another leads nowhere but to its parent and to the
frames of the values bound. -/
theorem leadsTo_foldl_bind {f : Frame} {bindings : List (String × Value)} {target : FrameId}
    (h : (bindings.foldl (fun f b => f.bind b.1 b.2) f).LeadsTo target) :
    f.LeadsTo target ∨ ∃ b ∈ bindings, b.2.closure? = some target := by
  induction bindings generalizing f with
  | nil => exact Or.inl h
  | cons b bs ih =>
    rcases ih h with h | ⟨c, hc, h⟩
    · rcases leadsTo_bind h with h | h
      · exact Or.inl h
      · exact Or.inr ⟨b, List.mem_cons_self, h⟩
    · exact Or.inr ⟨c, List.mem_cons_of_mem b hc, h⟩

end Frame

namespace Heap

/-- A frame to which the roots lead, directly or through other frames. -/
inductive Reaches (h : Heap) (roots : List Reference) : FrameId → Prop
  | root {r : Reference} {id : FrameId} :
      r ∈ roots → r.target? = some id → Reaches h roots id
  | next {id target : FrameId} {f : Frame} :
      Reaches h roots id → h.get? id = some f → f.LeadsTo target → Reaches h roots target

variable {h h' h'' : Heap} {roots roots' : List Reference} {id target : FrameId}

/-- What is reached from targets that are reached is reached. -/
theorem Reaches.of_roots (hr : ∀ r ∈ roots, ∀ i, r.target? = some i → h.Reaches roots' i)
    (hid : h.Reaches roots id) : h.Reaches roots' id := by
  induction hid with
  | root hmem ht => exact hr _ hmem _ ht
  | next _ hf hl ih => exact .next ih hf hl

theorem Reaches.mono (hs : roots ⊆ roots') (hid : h.Reaches roots id) : h.Reaches roots' id :=
  hid.of_roots fun _ hr _ ht => .root (hs hr) ht

/-- Reachability is a matter of the frames that are reached. -/
theorem Reaches.of_get?_eq (hg : ∀ i, h.Reaches roots i → h.get? i = h'.get? i)
    (hid : h.Reaches roots id) : h'.Reaches roots id := by
  induction hid with
  | root hmem ht => exact .root hmem ht
  | next hi hf hl ih => exact .next ih ((hg _ hi).symm.trans hf) hl

/-- The value of a name is bound in a reachable frame, so its own frame is reachable. -/
theorem Reaches.closure_of_get? {f : Frame} {name : String} {v : Value}
    (hid : h.Reaches roots id) (hf : h.get? id = some f) (hv : f.get? name = some v)
    (hc : v.closure? = some target) : h.Reaches roots target :=
  .next hid hf (Or.inr ⟨v, Frame.mem_values_of_get? hv, hc⟩)

/-- Names are resolved among the reachable frames. -/
theorem Reaches.resolve {name : String} {owner : FrameId} (hid : h.Reaches roots id)
    (ho : h.resolve id name = some owner) : h.Reaches roots owner := by
  fun_induction Heap.resolve h id name with
  | case1 id hf => simp at ho
  | case2 id f hf hb =>
    cases ho
    exact hid
  | case3 id f hf hb p hp hlt ih => exact ih (.next hid hf (Or.inl hp)) ho
  | case4 id f hf hb p hp hlt => simp at ho
  | case5 id f hf hb hp => simp at ho

/-! ### Heaps that agree -/

/-- Two heaps that made the same frames and functions so far and still hold the same contents in
every frame that the roots reach. -/
structure Agree (roots : List Reference) (h h' : Heap) : Prop where
  size : h.size = h'.size
  nextFunction : h.nextFunction = h'.nextFunction
  get? : ∀ id, h.Reaches roots id → h.get? id = h'.get? id

namespace Agree

theorem refl (roots : List Reference) (h : Heap) : Agree roots h h := ⟨rfl, rfl, fun _ _ => rfl⟩

/-- Heaps in agreement reach the same frames. -/
theorem reaches_iff (a : Agree roots h h') : h.Reaches roots id ↔ h'.Reaches roots id := by
  refine ⟨fun hid => hid.of_get?_eq a.get?, fun hid => ?_⟩
  induction hid with
  | root hmem ht => exact .root hmem ht
  | next _ hf hl ih => exact .next ih ((a.get? _ ih).trans hf) hl

theorem symm (a : Agree roots h h') : Agree roots h' h :=
  ⟨a.size.symm, a.nextFunction.symm, fun id hid => (a.get? id (a.reaches_iff.2 hid)).symm⟩

theorem trans (a : Agree roots h h') (b : Agree roots h' h'') : Agree roots h h'' where
  size := a.size.trans b.size
  nextFunction := a.nextFunction.trans b.nextFunction
  get? id hid := (a.get? id hid).trans (b.get? id (a.reaches_iff.1 hid))

theorem of_roots (a : Agree roots' h h')
    (hr : ∀ r ∈ roots, ∀ i, r.target? = some i → h.Reaches roots' i) : Agree roots h h' :=
  ⟨a.size, a.nextFunction, fun id hid => a.get? id (hid.of_roots hr)⟩

theorem mono (a : Agree roots' h h') (hs : roots ⊆ roots') : Agree roots h h' :=
  ⟨a.size, a.nextFunction, fun id hid => a.get? id (hid.mono hs)⟩

/-- A value whose frame is reachable may be added to the roots. -/
theorem cons_of_reaches {v : Value} (a : Agree roots h h')
    (hv : ∀ i, v.closure? = some i → h.Reaches roots i) : Agree (.value v :: roots) h h' := by
  refine a.of_roots fun r hr i ht => ?_
  rcases List.mem_cons.1 hr with rfl | hr
  · exact hv i ht
  · exact .root hr ht

/-- In heaps in agreement a name is found in the same frame. -/
theorem resolve (a : Agree roots h h') (name : String) (hid : h.Reaches roots id) :
    h.resolve id name = h'.resolve id name := by
  fun_induction Heap.resolve h id name with
  | case1 id hf => rw [Heap.resolve, ← a.get? id hid, hf]
  | case2 id f hf hb => rw [Heap.resolve, ← a.get? id hid, hf]; simp [hb]
  | case3 id f hf hb p hp hlt ih =>
    rw [ih (.next hid hf (Or.inl hp)), Heap.resolve.eq_def h' id, ← a.get? id hid, hf]
    simp [hb, hp, hlt]
  | case4 id f hf hb p hp hlt => rw [Heap.resolve, ← a.get? id hid, hf]; simp [hb, hp, hlt]
  | case5 id f hf hb hp => rw [Heap.resolve, ← a.get? id hid, hf]; simp [hb, hp]

/-- In heaps in agreement a name means the same. -/
theorem lookup (a : Agree roots h h') (name : String) (hid : h.Reaches roots id) :
    h.lookup id name = h'.lookup id name := by
  unfold Heap.lookup
  rw [← a.resolve name hid]
  cases ho : h.resolve id name with
  | none => rfl
  | some owner => simp only [Option.bind_some, a.get? owner (hid.resolve ho)]

end Agree

/-- A value found by looking a name up keeps no frame but a reachable one. -/
theorem Reaches.closure_of_lookup {name : String} {v : Value} (hid : h.Reaches roots id)
    (hv : h.lookup id name = some v) (hc : v.closure? = some target) :
    h.Reaches roots target := by
  obtain ⟨owner, ho, hv⟩ := Option.bind_eq_some_iff.1 hv
  obtain ⟨f, hf, hv⟩ := Option.bind_eq_some_iff.1 hv
  exact (hid.resolve ho).closure_of_get? hf hv hc

/-! ### Changes of a heap -/

@[simp] theorem size_push (h : Heap) (f : Frame) : (h.push f).size = h.size + 1 := by
  simp [size, push]

@[simp] theorem size_modify (h : Heap) (id : FrameId) (change : Frame → Frame) :
    (h.modify id change).size = h.size := by
  simp [size, modify]

@[simp] theorem size_define (h : Heap) (id : FrameId) (name : String) (v : Value) :
    (h.define id name v).size = h.size := size_modify h id _

@[simp] theorem get?_makeFunction (h : Heap) (callable : Callable) (id : FrameId) :
    (h.makeFunction callable).2.get? id = h.get? id := rfl

theorem size_vacate (frames : Array (Option Frame)) (ids : List FrameId) :
    (vacate frames ids).size = frames.size := by
  induction ids generalizing frames with
  | nil => rfl
  | cons id ids ih =>
    have step := ih (frames.setIfInBounds id none)
    rwa [Array.size_setIfInBounds] at step

@[simp] theorem size_keep (h : Heap) (p : FrameId → Bool) : (h.keep p).size = h.size :=
  size_vacate _ _

/-- Binding a value whose frame is reachable makes nothing else reachable. -/
theorem Reaches.of_define {owner : FrameId} {name : String} {v : Value}
    (hv : ∀ i, v.closure? = some i → h.Reaches roots i)
    (hid : (h.define owner name v).Reaches roots id) : h.Reaches roots id := by
  induction hid with
  | root hmem ht => exact .root hmem ht
  | @next i target f _ hf hl ih =>
    rw [define, get?_modify] at hf
    split at hf
    · obtain ⟨g, hg, rfl⟩ := Option.map_eq_some_iff.1 hf
      rcases Frame.leadsTo_bind hl with hl | hl
      · exact .next ih hg hl
      · exact hv _ hl
    · exact .next ih hf hl

/-- A reached value may be bound in both heaps. -/
theorem Agree.define {owner : FrameId} {name : String} {v : Value} (a : Agree roots h h')
    (hv : ∀ i, v.closure? = some i → h.Reaches roots i) :
    Agree roots (h.define owner name v) (h'.define owner name v) where
  size := by simpa using a.size
  nextFunction := a.nextFunction
  get? id hid := by
    simp only [Heap.define, get?_modify, a.get? id (hid.of_define hv)]

/-- A new frame that leads to reachable frames only makes nothing but itself reachable. -/
theorem Reaches.of_push {f : Frame} (hf : ∀ i, f.LeadsTo i → h.Reaches roots i)
    (hid : (h.push f).Reaches (.frame h.size :: roots) id) :
    id = h.size ∨ h.Reaches roots id := by
  induction hid with
  | root hmem ht =>
    rcases List.mem_cons.1 hmem with rfl | hmem
    · exact Or.inl (Option.some.inj ht).symm
    · exact Or.inr (.root hmem ht)
  | next _ hg hl ih =>
    rw [get?_push] at hg
    split at hg
    · cases hg
      exact Or.inr (hf _ hl)
    · rename_i hne
      exact Or.inr (.next (ih.resolve_left hne) hg hl)

/-- Both heaps agree on a new frame that leads to reached ones. -/
theorem Agree.push {f : Frame} (a : Agree roots h h')
    (hf : ∀ i, f.LeadsTo i → h.Reaches roots i) :
    Agree (.frame h.size :: roots) (h.push f) (h'.push f) where
  size := by simp [a.size]
  nextFunction := a.nextFunction
  get? id hid := by
    rw [get?_push, get?_push, a.size]
    rcases hid.of_push hf with rfl | hid
    · simp [a.size]
    · rw [a.get? id hid]

theorem Agree.makeFunction (a : Agree roots h h') (callable : Callable) :
    (h.makeFunction callable).1 = (h'.makeFunction callable).1 ∧
      Agree roots (h.makeFunction callable).2 (h'.makeFunction callable).2 := by
  refine ⟨by simp [Heap.makeFunction, a.nextFunction], a.size, ?_, fun id hid => ?_⟩
  · simp [Heap.makeFunction, a.nextFunction]
  · simp only [get?_makeFunction]
    exact a.get? id (hid.of_get?_eq fun i _ => get?_makeFunction h callable i)

/-! ### Freeing what nothing keeps -/

theorem mem_ids_of_get? {f : Frame} (hf : h.get? id = some f) : id ∈ h.ids := by
  rw [mem_ids_iff, allocated, hf]
  rfl

theorem mem_live {f : Frame} (hf : h.get? id = some f) : f ∈ h.live :=
  List.mem_filterMap.2 ⟨id, mem_ids_of_get? hf, hf⟩

/-- Every reachable frame is kept. -/
theorem Reaches.mem_kept (hid : h.Reaches roots id) : id ∈ h.kept roots := by
  simp only [kept, framesInUse, valuesInUse, List.mem_append, List.mem_filterMap,
    List.mem_flatMap]
  cases hid with
  | @root r _ hmem ht =>
    cases r with
    | frame i => exact Or.inl (Or.inl ⟨_, hmem, ht⟩)
    | value v => exact Or.inr ⟨v, Or.inr ⟨_, hmem, rfl⟩, ht⟩
  | next _ hf hl =>
    rcases hl with hp | ⟨v, hv, hc⟩
    · exact Or.inl (Or.inr ⟨_, mem_live hf, hp⟩)
    · exact Or.inr ⟨v, Or.inl ⟨_, mem_live hf, hv⟩, hc⟩

/-- One round of freeing leaves every reachable frame as it is. -/
theorem agree_keep {p : FrameId → Bool} (hp : ∀ i ∈ h.kept roots, p i = true) :
    Agree roots h (h.keep p) where
  size := (size_keep h p).symm
  nextFunction := rfl
  get? id hid := by rw [get?_keep, if_pos (hp id hid.mem_kept)]

/-- A round of freeing, with membership in a list in place of a table. -/
theorem sweep_go_succ (roots : List Reference) (n : Nat) (h : Heap) :
    sweep.go roots (n + 1) h =
      if h.ids.all (h.kept roots).contains then h
      else sweep.go roots n (h.keep (h.kept roots).contains) := by
  have hcontains : (Std.HashSet.ofList (h.kept roots)).contains = (h.kept roots).contains :=
    funext fun _ => Std.HashSet.contains_ofList
  rw [← hcontains]
  rfl

/-- Sweeping leaves what is reached as it is. -/
theorem agree_sweep_go (n : Nat) (h : Heap) : Agree roots h (sweep.go roots n h) := by
  induction n generalizing h with
  | zero => exact .refl roots h
  | succ n ih =>
    rw [sweep_go_succ]
    split
    · exact .refl roots h
    · exact (agree_keep fun i hi => List.contains_iff_mem.2 hi).trans (ih _)

/-- Freeing what nothing keeps leaves every reachable frame as it is. -/
theorem agree_sweep (roots : List Reference) (h : Heap) : Agree roots h (h.sweep roots) :=
  agree_sweep_go _ h

end Heap

end Scriptlet

import Mathlib.Tactic
import Scriptlet.Machine
import Scriptlet.Proofs.Scope.Reachability

/-!
# Scope chains

The frames that are met by following parents from a frame. In a `Rooted` heap all frames that the
roots reach are allocated, parents are older than their children, and only the global frame has no
parent. So every chain that starts at a reachable frame meets no frame twice and ends at the global
frame, and a name is looked up by searching that chain from its start. The operations on heaps keep
them rooted.
-/

namespace Scriptlet

/-- Binding names does not change the parent. -/
theorem Frame.parent_foldl_bind (f : Frame) (bindings : List (String × Value)) :
    (bindings.foldl (fun f b => f.bind b.1 b.2) f).parent = f.parent := by
  induction bindings generalizing f with
  | nil => rfl
  | cons b bs ih => exact ih (f.bind b.1 b.2)

namespace Heap

/-- The frames met from a frame on, up to one without a parent. None of them is freed. -/
inductive Chain (h : Heap) : FrameId → List FrameId → Prop
  | last {id : FrameId} {f : Frame} : h.get? id = some f → f.parent = none → Chain h id [id]
  | link {id p : FrameId} {f : Frame} {ids : List FrameId} :
      h.get? id = some f → f.parent = some p → Chain h p ids → Chain h id (id :: ids)

/-- The chain along which names are looked up from a frame on: it meets no frame twice, ends at the
global frame, and a name means its first binding on it. -/
structure ScopeChain (h : Heap) (id : FrameId) (ids : List FrameId) : Prop where
  chain : h.Chain id ids
  nodup : ids.Nodup
  last : ids.getLast? = some Machine.globals
  resolve : ∀ name, h.resolve id name = ids.find? (h.binds · name)

/-- All frames that the roots reach are allocated and come after their parents, and none but the
global frame is without one. -/
def Rooted (h : Heap) (roots : List Reference) : Prop :=
  ∀ id, h.Reaches roots id → ∃ f, h.get? id = some f ∧
    (f.parent = none → id = Machine.globals) ∧ ∀ p, f.parent = some p → p < id

variable {h h' : Heap} {roots roots' : List Reference} {id : FrameId}

/-! ### The chains of a rooted heap -/

theorem binds_of_get? {f : Frame} (hf : h.get? id = some f) (name : String) :
    h.binds id name = f.binds name := by
  simp [binds, hf]

theorem resolve_of_last {f : Frame} (hf : h.get? id = some f) (hp : f.parent = none)
    (name : String) : h.resolve id name = if h.binds id name then some id else none := by
  rw [resolve, hf, binds_of_get? hf]
  dsimp only
  rw [hp]

theorem resolve_of_link {f : Frame} {p : FrameId} (hf : h.get? id = some f)
    (hp : f.parent = some p) (hlt : p < id) (name : String) :
    h.resolve id name = if h.binds id name then some id else h.resolve p name := by
  rw [resolve, hf, binds_of_get? hf]
  dsimp only
  rw [hp]
  dsimp only
  rw [if_pos hlt]

/-- A frame without a parent is its own chain. -/
theorem ScopeChain.single {f : Frame} (hf : h.get? id = some f) (hp : f.parent = none)
    (hid : id = Machine.globals) : h.ScopeChain id [id] where
  chain := .last hf hp
  nodup := List.nodup_singleton id
  last := by rw [hid]; rfl
  resolve name := by
    rw [resolve_of_last hf hp, List.find?_singleton]

/-- A frame goes in front of the chain of its parent. -/
theorem ScopeChain.cons {f : Frame} {p : FrameId} {ids : List FrameId} (hf : h.get? id = some f)
    (hp : f.parent = some p) (hlt : p < id) (hc : h.ScopeChain p ids) (hle : ∀ i ∈ ids, i ≤ p) :
    h.ScopeChain id (id :: ids) where
  chain := .link hf hp hc.chain
  nodup := by
    refine List.nodup_cons.2 ⟨fun hmem => ?_, hc.nodup⟩
    exact absurd (hle id hmem) (Nat.not_le.2 hlt)
  last := by
    have hne : ids ≠ [] := by
      rintro rfl
      cases hc.last
    rw [List.getLast?_cons_of_ne_nil hne, hc.last]
  resolve name := by
    rw [resolve_of_link hf hp hlt, List.find?_cons, hc.resolve]
    cases h.binds id name <;> rfl

/-- **Every reachable frame has a scope chain.** -/
theorem Rooted.exists_scopeChain (hr : h.Rooted roots) (hid : h.Reaches roots id) :
    ∃ ids, h.ScopeChain id ids ∧ ∀ i ∈ ids, i ≤ id := by
  induction id using Nat.strong_induction_on with
  | h id ih =>
    obtain ⟨f, hf, hnone, hsome⟩ := hr id hid
    cases hp : f.parent with
    | none => exact ⟨[id], .single hf hp (hnone hp), by simp⟩
    | some p =>
      have hlt : p < id := hsome p hp
      obtain ⟨ids, hc, hle⟩ := ih p hlt (.next hid hf (.inl hp))
      refine ⟨id :: ids, .cons hf hp hlt hc hle, fun i hi => ?_⟩
      rcases List.mem_cons.1 hi with rfl | hi
      · exact Nat.le_refl i
      · exact (hle i hi).trans hlt.le

/-- A name that the global frame binds is found from every frame with a scope chain. -/
theorem ScopeChain.exists_lookup {ids : List FrameId} (hc : h.ScopeChain id ids) {name : String}
    (hname : h.binds Machine.globals name = true) :
    ∃ owner v, h.resolve id name = some owner ∧ h.lookup id name = some v := by
  have hmem : Machine.globals ∈ ids := List.mem_of_getLast? hc.last
  have hsome : (ids.find? (h.binds · name)).isSome = true :=
    List.find?_isSome.2 ⟨_, hmem, hname⟩
  obtain ⟨owner, howner⟩ := Option.isSome_iff_exists.1 hsome
  have hbinds : h.binds owner name = true := List.find?_some (p := (h.binds · name)) howner
  rw [← hc.resolve name] at howner
  cases hf : h.get? owner with
  | none => simp [binds, hf] at hbinds
  | some f =>
    rw [binds_of_get? hf] at hbinds
    obtain ⟨v, hv⟩ := Option.isSome_iff_exists.1 hbinds
    exact ⟨owner, v, howner, by simp [lookup, howner, hf, hv]⟩

/-! ### Operations that keep a heap rooted -/

namespace Rooted

theorem of_roots (hr : h.Rooted roots)
    (hs : ∀ r ∈ roots', ∀ i, r.target? = some i → h.Reaches roots i) : h.Rooted roots' :=
  fun id hid => hr id (hid.of_roots hs)

theorem of_agree (hr : h.Rooted roots) (ha : Agree roots h h') : h'.Rooted roots := by
  intro id hid
  have hid' : h.Reaches roots id := ha.reaches_iff.2 hid
  rw [← ha.get? id hid']
  exact hr id hid'

theorem define (hr : h.Rooted roots) (owner : FrameId) (name : String) {v : Value}
    (hv : ∀ i, v.closure? = some i → h.Reaches roots i) : (h.define owner name v).Rooted roots := by
  intro id hid
  obtain ⟨f, hf, hparent⟩ := hr id (hid.of_define hv)
  rw [Heap.define, get?_modify, hf]
  split
  · exact ⟨f.bind name v, rfl, hparent⟩
  · exact ⟨f, rfl, hparent⟩

/-- A new frame inside a reachable one. -/
theorem push (hr : h.Rooted roots) {f : Frame} {p : FrameId} (hp : f.parent = some p)
    (hf : ∀ i, f.LeadsTo i → h.Reaches roots i) :
    (h.push f).Rooted (.frame h.size :: roots) := by
  intro id hid
  rw [get?_push]
  rcases hid.of_push hf with rfl | hid
  · -- the parent is allocated, so it was made before
    obtain ⟨g, hg, -⟩ := hr p (hf p (.inl hp))
    have hlt : p < h.size := by
      by_contra hle
      rw [h.get?_of_size_le (Nat.not_lt.1 hle)] at hg
      cases hg
    refine ⟨f, if_pos rfl, fun hnone => ?_, fun q hq => ?_⟩
    · rw [hp] at hnone
      cases hnone
    · rw [hp] at hq
      cases hq
      exact hlt
  · obtain ⟨g, hg, hparent⟩ := hr id hid
    have hne : id ≠ h.size := by
      rintro rfl
      rw [h.get?_of_size_le (Nat.le_refl _)] at hg
      cases hg
    exact ⟨g, by rw [if_neg hne, hg], hparent⟩

theorem makeFunction (hr : h.Rooted roots) (callable : Callable) :
    (h.makeFunction callable).2.Rooted roots := by
  intro id hid
  rw [get?_makeFunction]
  exact hr id (hid.of_get?_eq fun i _ => get?_makeFunction h callable i)

end Rooted

end Heap

end Scriptlet

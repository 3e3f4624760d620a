import Mathlib.Tactic
import Scriptlet.Eval
import Scriptlet.Proofs.Scope.Chain
import Scriptlet.Proofs.Scope.Counts

/-!
# What binding a name changes

Frames are shared by the chains of many others, so one new binding may be seen from many frames. It
is seen exactly where the search for its name comes to it: a name means its first binding on a
chain, and a write changes the value of one name in one frame. In a `Forest`, where every frame was
made after the one it is nested in, every frame has a chain.
-/

namespace Scriptlet

namespace Heap

variable {h : Heap} {id owner : FrameId} {ids : List FrameId} {name : String}

/-! ### Forests -/

/-- Every frame was made after the one it is nested in. -/
def Older (h : Heap) : Prop := ∀ i f p, h.get? i = some f → f.parent = some p → p < i

/-- Every frame was made after the one it is nested in, which is not freed. So every chain ends. -/
structure Forest (h : Heap) : Prop where
  older : h.Older
  parent : ∀ i f p, h.get? i = some f → f.parent = some p → h.allocated p

/-- **Every frame of a forest has a chain.** -/
theorem Forest.exists_chain (hforest : h.Forest) (hid : h.allocated id = true) :
    ∃ ids, h.Chain id ids := by
  induction id using Nat.strong_induction_on with
  | h id ih =>
    obtain ⟨f, hf⟩ := allocated_iff.1 hid
    cases hp : f.parent with
    | none => exact ⟨[id], .last hf hp⟩
    | some p =>
      obtain ⟨ids, hids⟩ := ih p (hforest.older id f p hf hp) (hforest.parent id f p hf hp)
      exact ⟨id :: ids, .link hf hp hids⟩

theorem Older.push (ho : h.Older) {f : Frame} (hf : ∀ p, f.parent = some p → h.allocated p) :
    (h.push f).Older := by
  intro i g p hg hp
  rw [get?_push] at hg
  split at hg
  · rename_i hi
    cases hg
    by_contra hle
    have hnone := h.get?_of_size_le (hi ▸ Nat.not_lt.1 hle)
    have hsome := hf p hp
    simp [allocated, hnone] at hsome
  · exact ho i g p hg hp

theorem Forest.empty : Heap.empty.Forest where
  older i f p hf := by cases hf
  parent i f p hf := by cases hf

theorem Forest.push (hforest : h.Forest) {f : Frame}
    (hf : ∀ p, f.parent = some p → h.allocated p) : (h.push f).Forest where
  older := hforest.older.push hf
  parent i g p hg hp := by
    rw [get?_push] at hg
    split at hg
    · cases hg
      exact allocated_push f (hf p hp)
    · exact allocated_push f (hforest.parent i g p hg hp)

theorem Chain.allocated (hc : h.Chain id ids) : h.allocated id = true := by
  cases hc with
  | last hf _ => exact allocated_iff.2 ⟨_, hf⟩
  | link hf _ _ => exact allocated_iff.2 ⟨_, hf⟩

/-! ### Names on a chain -/

/-- The value that a frame itself binds a name to. -/
def bound (h : Heap) (id : FrameId) (name : String) : Option Value :=
  (h.get? id).bind (·.get? name)

theorem binds_eq_isSome (h : Heap) (id : FrameId) (name : String) :
    h.binds id name = (h.bound id name).isSome := by
  unfold binds bound
  cases h.get? id <;> rfl

theorem bound_eq_none_iff : h.bound id name = none ↔ h.binds id name = false := by
  rw [binds_eq_isSome, Option.isSome_eq_false_iff, Option.isNone_iff_eq_none]

theorem allocated_of_binds (hb : h.binds id name = true) : h.allocated id = true := by
  unfold binds at hb
  unfold allocated
  cases hf : h.get? id with
  | none => simp [hf] at hb
  | some f => rfl

/-- The search for a name goes along the chain. -/
theorem resolve_eq_find? (hforest : h.Forest) (hc : h.Chain id ids) (name : String) :
    h.resolve id name = ids.find? (h.binds · name) := by
  induction hc with
  | last hf hp => rw [resolve_of_last hf hp, List.find?_singleton]
  | @link id p f ids hf hp _ ih =>
    rw [resolve_of_link hf hp (hforest.older id f p hf hp), List.find?_cons, ih]
    cases h.binds id name <;> rfl

/-- **A name means its first binding on the chain.** -/
theorem lookup_eq_findSome? (hforest : h.Forest) (hc : h.Chain id ids) (name : String) :
    h.lookup id name = ids.findSome? (h.bound · name) := by
  have hlookup : h.lookup id name = (ids.find? (h.binds · name)).bind (h.bound · name) := by
    rw [lookup, resolve_eq_find? hforest hc]
    rfl
  rw [hlookup]
  clear hlookup hc
  induction ids with
  | nil => rfl
  | cons i ids ih =>
    rw [List.find?_cons, List.findSome?_cons, binds_eq_isSome]
    cases hb : h.bound i name with
    | none => exact ih
    | some v => exact hb

theorem lookup_eq_none_iff (hforest : h.Forest) (hc : h.Chain id ids) :
    h.lookup id name = none ↔ h.resolve id name = none := by
  rw [lookup_eq_findSome? hforest hc, resolve_eq_find? hforest hc, List.findSome?_eq_none_iff,
    List.find?_eq_none]
  simp [bound_eq_none_iff]

/-! ### One binding more -/

section Define

variable {v : Value}

/-- A new binding changes the value of one name in one frame. -/
theorem bound_define (howner : h.allocated owner = true) (x : String) (v : Value) (i : FrameId)
    (y : String) :
    (h.define owner x v).bound i y = if i = owner ∧ y = x then some v else h.bound i y := by
  obtain ⟨f, hf⟩ := allocated_iff.1 howner
  unfold bound
  rw [define, get?_modify]
  by_cases hi : owner = i
  · subst hi
    by_cases hy : y = x
    · subst hy
      simp [hf]
    · simp [hf, hy, f.get?_bind_of_ne v hy]
  · simp [hi, Ne.symm hi]

/-- A new binding leaves the frames nested as they are. -/
theorem exists_get?_define {f' : Frame} {x : String}
    (hf' : (h.define owner x v).get? id = some f') :
    ∃ f, h.get? id = some f ∧ f'.parent = f.parent := by
  rw [define, get?_modify] at hf'
  split at hf'
  · obtain ⟨f, hf, rfl⟩ := Option.map_eq_some_iff.1 hf'
    exact ⟨f, hf, rfl⟩
  · exact ⟨f', hf', rfl⟩

theorem Older.define (ho : h.Older) (owner : FrameId) (x : String) (v : Value) :
    (h.define owner x v).Older := by
  intro i f' p hf' hp
  obtain ⟨f, hf, hparent⟩ := exists_get?_define hf'
  exact ho i f p hf (hparent ▸ hp)

theorem Forest.define (hforest : h.Forest) (owner : FrameId) (x : String) (v : Value) :
    (h.define owner x v).Forest where
  older := hforest.older.define owner x v
  parent i f' p hf' hp := by
    obtain ⟨f, hf, hparent⟩ := exists_get?_define hf'
    rw [Heap.define, allocated_modify]
    exact hforest.parent i f p hf (hparent ▸ hp)

theorem Chain.define (hc : h.Chain id ids) (owner : FrameId) (x : String) (v : Value) :
    (h.define owner x v).Chain id ids := by
  have hget (i : FrameId) (f : Frame) (hf : h.get? i = some f) :
      ∃ f', (h.define owner x v).get? i = some f' ∧ f'.parent = f.parent := by
    rw [Heap.define, get?_modify, hf]
    split
    · exact ⟨f.bind x v, rfl, rfl⟩
    · exact ⟨f, rfl, rfl⟩
  induction hc with
  | last hf hp =>
    obtain ⟨f', hf', hparent⟩ := hget _ _ hf
    exact .last hf' (hparent.trans hp)
  | link hf hp _ ih =>
    obtain ⟨f', hf', hparent⟩ := hget _ _ hf
    exact .link hf' (hparent.trans hp) ih

/-- The search comes to a frame: it is on the chain, and none before it binds the name. -/
def ComesTo (h : Heap) (ids : List FrameId) (name : String) (owner : FrameId) : Prop :=
  ∃ inner outer, ids = inner ++ owner :: outer ∧ ∀ i ∈ inner, h.binds i name = false

theorem comesTo_cons {i : FrameId} : h.ComesTo (i :: ids) name owner ↔
    i = owner ∨ h.binds i name = false ∧ h.ComesTo ids name owner := by
  constructor
  · rintro ⟨inner, outer, heq, hinner⟩
    cases inner with
    | nil => exact .inl (List.cons.inj heq).1
    | cons j inner =>
      obtain ⟨rfl, rfl⟩ := List.cons.inj heq
      obtain ⟨hi, hinner⟩ := List.forall_mem_cons.1 hinner
      exact .inr ⟨hi, inner, outer, rfl, hinner⟩
  · rintro (rfl | ⟨hi, inner, outer, rfl, hinner⟩)
    · exact ⟨[], ids, rfl, by simp⟩
    · exact ⟨i :: inner, outer, rfl, List.forall_mem_cons.2 ⟨hi, hinner⟩⟩

/-- A frame that binds the name is the first to do so if the search comes to it. -/
theorem comesTo_iff_find? (howner : h.binds owner name = true) :
    h.ComesTo ids name owner ↔ ids.find? (h.binds · name) = some owner := by
  rw [List.find?_eq_some_iff_append]
  simp [ComesTo, howner]

theorem findSome?_bound_define (howner : h.allocated owner = true) (x : String) (v : Value)
    (ids : List FrameId) :
    (h.ComesTo ids x owner → ids.findSome? ((h.define owner x v).bound · x) = some v) ∧
    (¬ h.ComesTo ids x owner →
      ids.findSome? ((h.define owner x v).bound · x) = ids.findSome? (h.bound · x)) := by
  induction ids with
  | nil => simp [ComesTo]
  | cons i ids ih =>
    rw [comesTo_cons, List.findSome?_cons, List.findSome?_cons, bound_define howner]
    by_cases hi : i = owner
    · simp [hi]
    · cases hb : h.bound i x with
      | none => simpa [hi, hb, bound_eq_none_iff.1 hb] using ih
      | some w => simp [hi, hb, binds_eq_isSome]

/-- **Where a new binding is seen.** -/
theorem lookup_define (hforest : h.Forest) (hc : h.Chain id ids)
    (howner : h.allocated owner = true) (x y : String) (v : Value) :
    (y = x ∧ h.ComesTo ids x owner → (h.define owner x v).lookup id y = some v) ∧
    (¬ (y = x ∧ h.ComesTo ids x owner) → (h.define owner x v).lookup id y = h.lookup id y) := by
  rw [lookup_eq_findSome? (hforest.define owner x v) (hc.define owner x v),
    lookup_eq_findSome? hforest hc]
  by_cases hy : y = x
  · subst hy
    simpa using findSome?_bound_define howner y v ids
  · simp [hy, bound_define howner]

/-- To replace a binding is to bind no name that was not bound. -/
theorem binds_define (howner : h.binds owner name = true) (v : Value) (i : FrameId) (y : String) :
    (h.define owner name v).binds i y = h.binds i y := by
  rw [binds_eq_isSome, bound_define (allocated_of_binds howner)]
  split
  · rename_i heq
    rw [heq.1, heq.2, howner]
    rfl
  · rw [binds_eq_isSome]

end Define

end Heap

/-! ### Defining and assigning -/

/-- A name that cannot be looked up cannot be assigned to, with the same error at the same line and
nothing changed; one that can be looked up is assigned to. -/
theorem Eval.assign_failed_iff {m : Machine} {ids : List FrameId} (hforest : m.heap.Forest)
    (hc : m.heap.Chain m.current ids) (name : Token) (v : Value) (e : Error) (k : Machine) :
    Eval.assign name v m = .failed e k ↔ Eval.lookup name m = .failed e k := by
  have hnone : m.heap.lookup m.current name.lexeme = none ↔
      m.heap.resolve m.current name.lexeme = none := Heap.lookup_eq_none_iff hforest hc
  unfold Eval.assign Eval.lookup
  cases hr : m.heap.resolve m.current name.lexeme with
  | none => simp [hnone.2 hr]
  | some owner =>
    cases hl : m.heap.lookup m.current name.lexeme with
    | none =>
      rw [hnone.1 hl] at hr
      cases hr
    | some w => simp

theorem Eval.eq_of_lookup_failed {m k : Machine} {name : Token} {e : Error}
    (h : Eval.lookup name m = .failed e k) :
    e = .undefinedVariable name.lexeme name.line ∧ k = m := by
  unfold Eval.lookup at h
  split at h
  · cases h
  · cases h
    exact ⟨rfl, rfl⟩

/-- **What defining and assigning a name change.** In a forest every frame has a chain. If `x` is
defined in `f`, it has the new value in the scope of `g` exactly if `f` is on the chain of `g` and
no frame inside of it binds `x`. If it is assigned to in the scope of `f`, it has the new value
exactly if it means the same binding in the scopes of `f` and `g`, and no frame binds other names
than before. All other names mean what they meant. An assignment fails exactly if the name cannot be
looked up, with the same error, and changes nothing then. -/
theorem define_assign_effect {h : Heap} (hforest : h.Forest) :
    (∀ id, h.allocated id = true → ∃ ids, h.Chain id ids) ∧
    ∀ f fs g gs, h.Chain f fs → h.Chain g gs → ∀ (x y : String) (v : Value),
      let seen := y = x ∧ ∃ inner outer, gs = inner ++ f :: outer ∧ ∀ i ∈ inner, h.binds i x = false
      let same := y = x ∧ gs.find? (h.binds · x) = fs.find? (h.binds · x)
      (seen → (h.define f x v).lookup g y = some v) ∧
      (¬ seen → (h.define f x v).lookup g y = h.lookup g y) ∧
      (∀ h', h.assign f x v = some h' →
        (same → h'.lookup g y = some v) ∧ (¬ same → h'.lookup g y = h.lookup g y) ∧
        ∀ i z, h'.binds i z = h.binds i z) ∧
      (h.assign f x v = none ↔ h.lookup f x = none) ∧
      ∀ (m : Machine) (name : Token), m.heap = h → m.current = f → name.lexeme = x → ∀ e k,
        (Eval.assign name v m = .failed e k ↔ Eval.lookup name m = .failed e k) ∧
        (Eval.lookup name m = .failed e k → e = .undefinedVariable x name.line ∧ k = m) := by
  refine ⟨fun id => hforest.exists_chain, fun f fs g gs hf hg x y v => ?_⟩
  intro seen same
  have hdefine := Heap.lookup_define hforest hg hf.allocated x y v
  refine ⟨hdefine.1, hdefine.2, fun h' hassign => ?_, ?_, ?_⟩
  · obtain ⟨owner, howner, rfl⟩ := Option.map_eq_some_iff.1 hassign
    rw [Heap.resolve_eq_find? hforest hf] at howner
    have hbinds : h.binds owner x = true := List.find?_some (p := (h.binds · x)) howner
    have hsame : same ↔ y = x ∧ h.ComesTo gs x owner := by
      rw [Heap.comesTo_iff_find? hbinds, ← howner]
    have heffect := Heap.lookup_define hforest hg (Heap.allocated_of_binds hbinds) x y v
    rw [← hsame] at heffect
    exact ⟨heffect.1, heffect.2, Heap.binds_define hbinds v⟩
  · rw [Heap.lookup_eq_none_iff hforest hf, Heap.assign, Option.map_eq_none_iff]
  · rintro m name rfl rfl rfl e k
    exact ⟨Eval.assign_failed_iff hforest hf name v e k, Eval.eq_of_lookup_failed⟩

/-- A name of an outer frame, seen from one frame inside and hidden from another. -/
theorem define_assign_effect_shadowed :
    let h := ((Heap.empty.push ⟨[("a", .null)], none⟩).push ⟨[], some 0⟩).push
      ⟨[("a", .boolean true)], some 0⟩
    h.Forest ∧ ∀ v, (h.define 0 "a" v).lookup 1 "a" = some v ∧
      (h.define 0 "a" v).lookup 2 "a" = some (.boolean true) ∧
      ∃ h', h.assign 1 "a" v = some h' ∧ h'.lookup 0 "a" = some v ∧
        h'.lookup 2 "a" = some (.boolean true) := by
  intro h
  have hforest : h.Forest := by
    refine .push (.push (.push .empty ?_) ?_) ?_
    · rintro p ⟨⟩
    · rintro p ⟨⟩
      rfl
    · rintro p ⟨⟩
      rfl
  have houter : h.Chain 0 [0] := .last rfl rfl
  have hplain : h.Chain 1 [1, 0] := .link rfl rfl houter
  have hhiding : h.Chain 2 [2, 0] := .link rfl rfl houter
  have hhidden : h.lookup 2 "a" = some (.boolean true) := by
    rw [Heap.lookup_eq_findSome? hforest hhiding]
    rfl
  have heffect := (define_assign_effect hforest).2
  refine ⟨hforest, fun v => ?_⟩
  have hassign : h.assign 1 "a" v = some (h.define 0 "a" v) := by
    rw [Heap.assign, Heap.resolve_eq_find? hforest hplain]
    rfl
  obtain ⟨hseen, -⟩ := heffect 0 [0] 1 [1, 0] houter hplain "a" "a" v
  obtain ⟨-, -, hsame, -⟩ := heffect 1 [1, 0] 0 [0] hplain houter "a" "a" v
  obtain ⟨-, -, hother, -⟩ := heffect 1 [1, 0] 2 [2, 0] hplain hhiding "a" "a" v
  have hkept := (hother _ hassign).2.1 fun h => absurd h.2 (by decide)
  rw [hhidden] at hkept
  exact ⟨hseen ⟨rfl, [1], [], rfl, by decide⟩, hkept, _, hassign,
    (hsame _ hassign).1 ⟨rfl, by decide⟩, hkept⟩

end Scriptlet

import Scriptlet.Value.Basic

/-!
# Scope frames

A frame binds names to values and may be nested in a parent frame. The heap numbers frames in the
order in which they were made, so a parent has a smaller number than its children and every chain
of parents ends. A name means its binding in the nearest frame of the chain that has one.
-/

namespace Scriptlet

/-- The bindings of one scope and the frame around it. Each name is bound at most once. -/
structure Frame where
  bindings : List (String × Value)
  parent : Option FrameId

namespace Frame

/-- The value a frame binds a name to. -/
def get? (f : Frame) (name : String) : Option Value := f.bindings.lookup name

/-- Whether a frame itself binds a name. -/
def binds (f : Frame) (name : String) : Bool := (f.get? name).isSome

/-- Binds a name, replacing an earlier binding. -/
def bind (f : Frame) (name : String) (v : Value) : Frame :=
  { f with bindings := (name, v) :: f.bindings.filter fun b => b.1 != name }

/-- The values a frame holds, one per binding. -/
def values (f : Frame) : List Value := f.bindings.map (·.2)

@[simp] theorem parent_bind (f : Frame) (name : String) (v : Value) :
    (f.bind name v).parent = f.parent := rfl

@[simp] theorem get?_bind_self (f : Frame) (name : String) (v : Value) :
    (f.bind name v).get? name = some v := by
  simp [bind, get?]

theorem get?_bind_of_ne (f : Frame) {name other : String} (v : Value) (h : other ≠ name) :
    (f.bind name v).get? other = f.get? other := by
  have hne : (other == name) = false := by simpa using h
  simp only [bind, get?, List.lookup_cons, hne]
  induction f.bindings with
  | nil => rfl
  | cons b bs ih =>
    obtain ⟨x, w⟩ := b
    by_cases hb : x = name
    · simp [hb, List.lookup_cons, hne, ih]
    · simp [hb, List.lookup_cons, ih]

end Frame

/-- All frames made so far, by number, and how many functions were made. -/
structure Heap where
  /-- The frames; `none` stands for one that was freed. -/
  frames : Array (Option Frame)
  /-- The numbers of the frames that are not freed, the newest first. -/
  ids : List FrameId
  /-- The identity of the next function. -/
  nextFunction : FunctionId
  mem_ids : ∀ id, id ∈ ids ↔ frames[id]?.join.isSome
  nodup_ids : ids.Nodup

namespace Heap

/-- The heap without frames. -/
def empty : Heap := ⟨#[], [], 0, by simp, .nil⟩

/-- The number of frames made so far. -/
def size (h : Heap) : Nat := h.frames.size

/-- The frame with a number, if it was made and not freed. -/
def get? (h : Heap) (id : FrameId) : Option Frame := h.frames[id]?.join

/-- Whether a frame was made and not freed. -/
def allocated (h : Heap) (id : FrameId) : Bool := (h.get? id).isSome

theorem mem_ids_iff (h : Heap) (id : FrameId) : id ∈ h.ids ↔ h.allocated id := h.mem_ids id

/-- Numbers from the size of the heap on are not given to frames yet. -/
theorem get?_of_size_le (h : Heap) {id : FrameId} (hid : h.size ≤ id) : h.get? id = none := by
  have hn : h.frames[id]? = none := Array.getElem?_eq_none hid
  simp [get?, hn]

/-- Makes a new frame; its number is the old size of the heap. -/
def push (h : Heap) (f : Frame) : Heap :=
  let ids := h.size :: h.ids
  { h with
    frames := h.frames.push (some f)
    ids
    mem_ids := fun id => by
      by_cases hid : id = h.frames.size <;> simp [ids, size, Array.getElem?_push, hid, h.mem_ids id]
    nodup_ids := List.nodup_cons.2
      ⟨by simp [h.mem_ids_iff, allocated, h.get?_of_size_le (Nat.le_refl _)], h.nodup_ids⟩ }

@[simp] theorem get?_push (h : Heap) (f : Frame) (id : FrameId) :
    (h.push f).get? id = if id = h.size then some f else h.get? id := by
  by_cases hid : id = h.frames.size <;> simp [get?, push, size, Array.getElem?_push, hid]

/-- Changes a frame that is allocated. -/
def modify (h : Heap) (id : FrameId) (change : Frame → Frame) : Heap where
  frames := h.frames.modify id (Option.map change)
  ids := h.ids
  nextFunction := h.nextFunction
  mem_ids i := by
    by_cases hi : id = i
    · cases hf : h.frames[i]? <;> simp [Array.getElem?_modify, hi, h.mem_ids i, hf]
    · simp [Array.getElem?_modify, hi, h.mem_ids i]
  nodup_ids := h.nodup_ids

@[simp] theorem get?_modify (h : Heap) (id : FrameId) (change : Frame → Frame) (i : FrameId) :
    (h.modify id change).get? i = if id = i then (h.get? i).map change else h.get? i := by
  by_cases hi : id = i
  · cases hf : h.frames[i]? <;> simp [get?, modify, Array.getElem?_modify, hi, hf]
  · simp [get?, modify, Array.getElem?_modify, hi]

/-- Empties the places with the given numbers. -/
def vacate (frames : Array (Option Frame)) (ids : List FrameId) : Array (Option Frame) :=
  ids.foldl (fun frames id => frames.setIfInBounds id none) frames

theorem join_getElem?_vacate (frames : Array (Option Frame)) (ids : List FrameId) (i : FrameId) :
    (vacate frames ids)[i]?.join = if i ∈ ids then none else frames[i]?.join := by
  induction ids generalizing frames with
  | nil => simp [vacate]
  | cons id ids ih =>
    have step : (vacate frames (id :: ids))[i]?.join =
        (vacate (frames.setIfInBounds id none) ids)[i]?.join := rfl
    rw [step, ih]
    by_cases hi : id = i
    · by_cases hs : i < frames.size <;> simp [hi, hs]
    · simp [hi, Ne.symm hi]

/-- Frees the frames whose numbers do not satisfy a condition. -/
def keep (h : Heap) (p : FrameId → Bool) : Heap where
  frames := vacate h.frames (h.ids.filter fun id => !p id)
  ids := h.ids.filter p
  nextFunction := h.nextFunction
  mem_ids i := by
    rw [join_getElem?_vacate]
    by_cases hi : i ∈ h.ids
    · by_cases hp : p i <;> simp [hi, hp, (h.mem_ids i).1 hi]
    · have hn := mt (h.mem_ids i).2 hi
      simp_all
  nodup_ids := h.nodup_ids.filter p

@[simp] theorem get?_keep (h : Heap) (p : FrameId → Bool) (i : FrameId) :
    (h.keep p).get? i = if p i then h.get? i else none := by
  have hk : (h.keep p).get? i = (vacate h.frames (h.ids.filter fun id => !p id))[i]?.join := rfl
  rw [hk, join_getElem?_vacate]
  by_cases hp : p i
  · simp [hp, get?]
  · by_cases hi : i ∈ h.ids
    · simp [hp, hi]
    · have hn : h.get? i = none := by simpa [mem_ids_iff, allocated] using hi
      simpa [hp, hi, get?] using hn

/-- Makes a function value that runs the given callable. -/
def makeFunction (h : Heap) (callable : Callable) : Value × Heap :=
  (.function h.nextFunction callable, { h with nextFunction := h.nextFunction + 1 })

/-- The nearest frame on the chain of `id` that binds a name. -/
def resolve (h : Heap) (id : FrameId) (name : String) : Option FrameId :=
  match h.get? id with
  | none => none
  | some f =>
    if f.binds name then
      some id
    else
      match f.parent with
      | some p => if p < id then resolve h p name else none
      | none => none
termination_by id

/-- The value a name has in the scope of a frame. -/
def lookup (h : Heap) (id : FrameId) (name : String) : Option Value :=
  (h.resolve id name).bind fun owner => (h.get? owner).bind (·.get? name)

/-- Whether a frame itself binds a name. -/
def binds (h : Heap) (id : FrameId) (name : String) : Bool :=
  ((h.get? id).map (·.binds name)).getD false

/-- Binds a name in a frame, replacing an earlier binding of that frame. -/
def define (h : Heap) (id : FrameId) (name : String) (v : Value) : Heap :=
  h.modify id (·.bind name v)

/-- Replaces the binding that a name has in the scope of a frame; a name without one is not
bound. -/
def assign (h : Heap) (id : FrameId) (name : String) (v : Value) : Option Heap :=
  (h.resolve id name).map fun owner => h.define owner name v

end Heap

end Scriptlet

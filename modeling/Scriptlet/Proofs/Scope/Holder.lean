import Scriptlet.Proofs.Scope.Counts
import Scriptlet.Scope.Holder

/-!
# Holders of frames

What holds after every sequence of operations on frames. Frames and functions are allocated exactly
if something keeps them. And a release is safe: two holders go through the same operations, but
where one releases a frame the other only drops the handle. They stay in agreement on every frame
that a handle or a hold still reaches, so no operation that looks names up or binds them can tell
the two apart. The order of the roots does not matter to a release, and a handle is the only one
under its name, so what is left when it goes is all the other roots.
-/

namespace Scriptlet

/-! ### Tables of names -/

namespace Holder

variable {α : Type} {table : List (String × α)} {name : String} {a : α}

/-- Whether each name has one entry at most. -/
def WellNamed (table : List (String × α)) : Prop := (table.map (·.1)).Nodup

theorem WellNamed.remove (h : WellNamed table) (name : String) :
    WellNamed (remove table name) :=
  h.sublist (List.filter_sublist.map _)

theorem WellNamed.put (h : WellNamed table) (name : String) (a : α) :
    WellNamed (put table name a) := by
  refine List.nodup_cons.2 ⟨?_, h.remove name⟩
  simp

/-- The entry of a name and the entries of the others. -/
theorem WellNamed.perm_of_lookup (h : WellNamed table) (hl : table.lookup name = some a) :
    table.Perm ((name, a) :: Holder.remove table name) := by
  obtain ⟨l₁, l₂, rfl, hl₁⟩ := List.lookup_eq_some_iff.1 hl
  have hl₂ : ∀ e ∈ l₂, e.1 ≠ name := by
    simp only [WellNamed, List.map_append, List.map_cons, List.nodup_append, List.nodup_cons] at h
    rintro e he rfl
    exact h.2.1.1 (List.mem_map_of_mem he)
  have hremove : Holder.remove (l₁ ++ (name, a) :: l₂) name = l₁ ++ l₂ := by
    simp only [Holder.remove, List.filter_append, List.filter_cons, bne_self_eq_false,
      Bool.false_eq_true, if_false]
    rw [List.filter_eq_self.2 fun e he => bne_comm.trans (hl₁ e he),
      List.filter_eq_self.2 fun e he => bne_iff_ne.2 (hl₂ e he)]
  rw [hremove]
  exact List.perm_middle

theorem mem_of_lookup (hl : table.lookup name = some a) : (name, a) ∈ table := by
  obtain ⟨l₁, l₂, rfl, -⟩ := List.lookup_eq_some_iff.1 hl
  simp

theorem remove_of_lookup_none (hl : table.lookup name = none) : remove table name = table := by
  refine List.filter_eq_self.2 fun e he => ?_
  exact bne_comm.trans (List.lookup_eq_none_iff.1 hl e he)

theorem remove_subset (table : List (String × α)) (name : String) : remove table name ⊆ table :=
  List.filter_sublist.subset

theorem put_subset (table : List (String × α)) (name : String) (a : α) :
    put table name a ⊆ (name, a) :: table :=
  List.cons_subset_cons _ (remove_subset table name)

/-! ### Roots -/

section Roots

variable {w : Holder} {frame : String} {id : FrameId} {v : Value}

/-- The roots of a holder are its handles and the values it holds. -/
theorem mem_roots {r : Reference} : r ∈ w.roots ↔
    (∃ e ∈ w.handles, r = .frame e.2) ∨ ∃ e ∈ w.holds, r = .value e.2 := by
  simp [roots, eq_comm]

theorem frame_mem_roots (hl : w.handles.lookup frame = some id) : .frame id ∈ w.roots :=
  mem_roots.2 (Or.inl ⟨_, mem_of_lookup hl, rfl⟩)

theorem value_mem_roots (hl : w.holds.lookup name = some v) : .value v ∈ w.roots :=
  mem_roots.2 (Or.inr ⟨_, mem_of_lookup hl, rfl⟩)

/-- What a holder keeps is kept by another with its handles and holds. -/
theorem roots_subset {w w' : Holder} (extra : List Reference)
    (hhandles : ∀ e ∈ w.handles, .frame e.2 ∈ extra ∨ e ∈ w'.handles)
    (hholds : ∀ e ∈ w.holds, .value e.2 ∈ extra ∨ e ∈ w'.holds) :
    w.roots ⊆ extra ++ w'.roots := by
  intro r hr
  rw [List.mem_append, mem_roots]
  rcases mem_roots.1 hr with ⟨e, he, rfl⟩ | ⟨e, he, rfl⟩
  · rcases hhandles e he with he | he
    · exact Or.inl he
    · exact Or.inr (Or.inl ⟨e, he, rfl⟩)
  · rcases hholds e he with he | he
    · exact Or.inl he
    · exact Or.inr (Or.inr ⟨e, he, rfl⟩)

/-- The handle that goes and the roots that stay. -/
theorem roots_perm_of_lookup (hw : WellNamed w.handles) (hl : w.handles.lookup frame = some id) :
    w.roots.Perm (.frame id :: { w with handles := remove w.handles frame }.roots) :=
  ((hw.perm_of_lookup hl).map _).append_right _

end Roots

theorem handles_hold (w : Holder) (name : Option String) (v : Value) :
    (w.hold name v).handles = w.handles := by
  cases name <;> rfl

theorem hold_roots_subset (w : Holder) (name : Option String) (v : Value) :
    (w.hold name v).roots ⊆ .value v :: w.roots := by
  cases name with
  | none => exact List.subset_cons_self _ _
  | some n =>
    refine roots_subset [.value v] (fun e he => Or.inr he) fun e he => ?_
    rcases List.mem_cons.1 (put_subset _ _ _ he) with rfl | he
    · exact Or.inl (List.mem_singleton_self _)
    · exact Or.inr he

/-- A frame put under a name is kept by its handle. -/
theorem roots_subset_of_put_handle {w w' : Holder} {frame : String} {id : FrameId}
    (hhandles : w'.handles = put w.handles frame id) (hholds : w'.holds = w.holds) :
    w'.roots ⊆ .frame id :: w.roots := by
  refine roots_subset [.frame id] (fun e he => ?_) fun e he => Or.inr (hholds ▸ he)
  rw [hhandles] at he
  rcases List.mem_cons.1 (put_subset _ _ _ he) with rfl | he
  · exact Or.inl (List.mem_singleton_self _)
  · exact Or.inr he

theorem remove_handle_roots_subset (w : Holder) (frame : String) :
    { w with handles := remove w.handles frame }.roots ⊆ w.roots :=
  roots_subset [] (fun _ he => Or.inr (remove_subset _ _ he)) fun _ he => Or.inr he

theorem remove_hold_roots_subset (w : Holder) (name : String) :
    { w with holds := remove w.holds name }.roots ⊆ w.roots :=
  roots_subset [] (fun _ he => Or.inr he) fun _ he => Or.inr (remove_subset _ _ he)

/-! ### What the operations preserve -/

/-- Whether no handle stands twice under one name and all that is referred to is allocated; the
functions allocated are the given ones. -/
structure Sound (w : Holder) (functions : List FunctionId) : Prop where
  wellNamed : WellNamed w.handles
  closed : w.heap.Closed functions w.roots

namespace Sound

variable {w : Holder} {functions : List FunctionId}

/-- Reading an operand makes a value that is covered. -/
theorem operand (hs : w.Sound functions) {o : Operand} {w' : Holder} {v : Value}
    (ho : w.operand o = some (w', v))
    (hnew : ∀ i, w.heap.nextFunction ≤ i → i < w'.heap.nextFunction → i ∈ functions) :
    WellNamed w'.handles ∧ w'.heap.Closed functions (.value v :: w'.roots) := by
  cases o with
  | given g =>
    cases ho
    exact ⟨hs.wellNamed, hs.closed.make g hnew⟩
  | held name =>
    obtain ⟨u, hu, heq⟩ := Option.map_eq_some_iff.1 ho
    cases heq
    refine ⟨hs.wellNamed, hs.closed.mono ?_⟩
    exact List.cons_subset.2 ⟨value_mem_roots hu, List.Subset.refl _⟩

/-- **What one operation preserves.** The functions it makes are given as allocated beforehand. -/
theorem perform (hs : w.Sound functions) (op : Operation)
    (hnew : ∀ i, w.heap.nextFunction ≤ i → i < (w.perform op).1.heap.nextFunction →
      i ∈ functions) : (w.perform op).1.Sound functions := by
  cases op with
  | new name parent =>
    have made : ∀ outer : Option FrameId, (∀ i, outer = some i → w.heap.allocated i) →
        Sound { w with
          heap := w.heap.push ⟨[], outer⟩
          handles := put w.handles name w.heap.size
          made := put w.made name w.heap.size } functions := by
      intro outer houter
      exact ⟨hs.wellNamed.put _ _,
        (hs.closed.push houter).mono (roots_subset_of_put_handle rfl rfl)⟩
    cases parent with
    | none => exact made none fun i hi => by cases hi
    | some p =>
      simp only [Holder.perform, Option.map_some]
      cases hl : w.handles.lookup p with
      | none => exact hs
      | some id =>
        refine made (some id) fun i hi => ?_
        cases hi
        exact hs.closed.handle id (frame_mem_roots hl)
  | define frame name value =>
    simp only [Holder.perform] at hnew ⊢
    cases hl : w.handles.lookup frame with
    | none => exact hs
    | some id =>
      cases ho : w.operand value with
      | none => exact hs
      | some r =>
        obtain ⟨w', v⟩ := r
        rw [hl, ho] at hnew
        obtain ⟨hnamed, hclosed⟩ := hs.operand ho hnew
        exact ⟨hnamed, (hclosed.define id name).mono (List.subset_cons_self _ _)⟩
  | assign frame name value line =>
    simp only [Holder.perform] at hnew ⊢
    cases hl : w.handles.lookup frame with
    | none => exact hs
    | some id =>
      cases ho : w.operand value with
      | none => exact hs
      | some r =>
        obtain ⟨w', v⟩ := r
        simp only [hl, ho, Heap.assign] at hnew ⊢
        cases hr : w'.heap.resolve id name with
        | none =>
          rw [hr] at hnew
          obtain ⟨hnamed, hclosed⟩ := hs.operand ho hnew
          exact ⟨hnamed, hclosed.mono (List.subset_cons_self _ _)⟩
        | some owner =>
          rw [hr] at hnew
          obtain ⟨hnamed, hclosed⟩ := hs.operand ho hnew
          exact ⟨hnamed, (hclosed.define owner name).mono (List.subset_cons_self _ _)⟩
  | get frame name line hold =>
    simp only [Holder.perform]
    cases hl : w.handles.lookup frame with
    | none => exact hs
    | some id =>
      dsimp only
      cases hv : w.heap.lookup id name with
      | none => exact hs
      | some v =>
        have hheld := (hs.closed.cons_value
          (hs.closed.value v (Heap.mem_valuesInUse_of_lookup hv))).mono (hold_roots_subset w hold v)
        cases hold with
        | none => exact hs
        | some n => exact ⟨hs.wellNamed, hheld⟩
  | has frame name =>
    simp only [Holder.perform]
    cases w.handles.lookup frame with
    | none => exact hs
    | some id => exact hs
  | declare frame name hold =>
    simp only [Holder.perform] at hnew ⊢
    cases hl : w.handles.lookup frame with
    | none => exact hs
    | some id =>
      rw [hl] at hnew
      have hframe : ∀ i, (Callable.closure (.trivial name) id).frame? = some i →
          w.heap.allocated i := by
        intro i hi
        cases hi
        exact hs.closed.handle _ (frame_mem_roots hl)
      have hmade := hs.closed.makeFunction hframe
        (hnew _ (Nat.le_refl _) (Nat.lt_succ_self _))
      have hbound := (hmade.define id name).mono (hold_roots_subset w hold _)
      refine ⟨?_, hbound⟩
      dsimp only
      rw [handles_hold]
      exact hs.wellNamed
  | unhold name =>
    exact ⟨hs.wellNamed, hs.closed.mono (remove_hold_roots_subset w name)⟩
  | «alias» frame name =>
    simp only [Holder.perform]
    cases hl : w.handles.lookup frame with
    | none => exact hs
    | some id =>
      have hsub : { w with handles := put w.handles name id }.roots ⊆ .frame id :: w.roots :=
        roots_subset_of_put_handle rfl rfl
      have hroot : .frame id :: w.roots ⊆ w.roots :=
        List.cons_subset.2 ⟨frame_mem_roots hl, List.Subset.refl _⟩
      exact ⟨hs.wellNamed.put _ _, hs.closed.mono (List.Subset.trans hsub hroot)⟩
  | drop frame =>
    exact ⟨hs.wellNamed.remove frame, hs.closed.mono (remove_handle_roots_subset w frame)⟩
  | release frame =>
    simp only [Holder.perform]
    cases w.handles.lookup frame with
    | none => exact hs
    | some id =>
      exact ⟨hs.wellNamed.remove frame,
        (hs.closed.release w.roots id).mono (remove_handle_roots_subset w frame)⟩
  | alive frame =>
    simp only [Holder.perform]
    cases w.made.lookup frame with
    | none => exact hs
    | some id => exact hs

end Sound

end Holder

/-! ### Holders in agreement -/

namespace Holder

/-- Two holders that keep the same under the same names and agree on every frame that is reached
from there. -/
inductive Agree (w : Holder) : Holder → Prop
  | intro {h : Heap} : w.heap.Agree w.roots h → Agree w { w with heap := h }

/-- Holders in agreement agree when they have settled. -/
theorem Agree.settle {w w' : Holder} (hw : w.Agree w') : w.settle.Agree w'.settle := by
  obtain ⟨hh⟩ := hw
  exact .intro ((Heap.agree_sweep _ _).symm.trans (hh.trans (Heap.agree_sweep _ _)))

end Holder

/-- A value given from outside is the same on both sides, and what it keeps can be reached. -/
theorem Heap.Agree.make {roots : List Reference} {h h' : Heap} (a : h.Agree roots h') (g : Given) :
    (h.make g).1 = (h'.make g).1 ∧
      Heap.Agree (.value (h.make g).1 :: roots) (h.make g).2 (h'.make g).2 := by
  cases g with
  | plain literal =>
    refine ⟨rfl, a.cons_of_reaches fun i hi => ?_⟩
    cases literal <;> cases hi
  | function name =>
    have hpush := a.push (f := ⟨[], none⟩) (by simp [Frame.LeadsTo, Frame.values])
    obtain ⟨hv, hheap⟩ := hpush.makeFunction (.closure (.trivial name) h.size)
    simp only [Heap.make, ← a.size]
    refine ⟨hv, hheap.of_roots fun r hr i ht => ?_⟩
    -- the function keeps the frame made with it
    rcases List.mem_cons.1 hr with rfl | hr
    · exact .root List.mem_cons_self ht
    · exact .root (List.mem_cons_of_mem _ hr) ht
  | host name =>
    obtain ⟨hv, hheap⟩ := a.makeFunction (.host name 0 "null")
    refine ⟨hv, hheap.cons_of_reaches fun i hi => ?_⟩
    cases hi

/-- A value among the roots may be bound anywhere. -/
theorem Heap.Agree.bindRoot {roots : List Reference} {h h' : Heap} {v : Value}
    (a : h.Agree (.value v :: roots) h') (owner : FrameId) (name : String) :
    Heap.Agree (.value v :: roots) (h.define owner name v) (h'.define owner name v) :=
  a.define fun _ hi => .root List.mem_cons_self hi

namespace Operation

/-- The operation with a release replaced by a plain drop of the handle. -/
def withoutRelease : Operation → Operation
  | release frame => drop frame
  | op => op

/-- Whether an operation answers if a frame was emptied or is allocated. All other operations answer
from names and handles. -/
def asksForAllocation : Operation → Bool
  | release _ | alive _ => true
  | _ => false

end Operation

/-- Whether an answer is this answer to a yes-or-no question. -/
def Answer.isFlag (b : Bool) : Answer → Bool
  | .flag c => b == c
  | _ => false

namespace Holder

namespace Agree

variable {w : Holder} {h : Heap}

/-- An operand is the same value on both sides, and what it keeps can be reached. -/
theorem operand (hh : w.heap.Agree w.roots h) (o : Operand) :
    w.operand o = none ∧ { w with heap := h }.operand o = none ∨
    ∃ v k k', w.operand o = some ({ w with heap := k }, v) ∧
      { w with heap := h }.operand o = some ({ w with heap := k' }, v) ∧
      k.Agree (.value v :: w.roots) k' := by
  cases o with
  | given g =>
    obtain ⟨hv, hheap⟩ := hh.make g
    refine Or.inr ⟨(w.heap.make g).1, _, _, rfl, ?_, hheap⟩
    rw [hv]
    rfl
  | held name =>
    cases hl : w.holds.lookup name with
    | none => exact Or.inl ⟨by simp [Holder.operand, hl], by simp [Holder.operand, hl]⟩
    | some v =>
      refine Or.inr ⟨v, w.heap, h, by simp [Holder.operand, hl], by simp [Holder.operand, hl],
        hh.mono fun r hr => ?_⟩
      rcases List.mem_cons.1 hr with rfl | hr
      · exact value_mem_roots hl
      · exact hr

/-- Two results of an operation that agree and give the same answer. -/
def Alike (r r' : Holder × Answer) : Prop := r.1.Agree r'.1 ∧ r.2 = r'.2

theorem new (hh : w.heap.Agree w.roots h) (name : String) (parent : Option String) :
    Alike (w.perform (.new name parent)) ({ w with heap := h }.perform (.new name parent)) := by
  have made : ∀ outer : Option FrameId, (∀ i, outer = some i → .frame i ∈ w.roots) →
      Agree { w with
        heap := w.heap.push ⟨[], outer⟩
        handles := put w.handles name w.heap.size
        made := put w.made name w.heap.size } { w with
        heap := h.push ⟨[], outer⟩
        handles := put w.handles name h.size
        made := put w.made name h.size } := by
    intro outer houter
    rw [← hh.size]
    refine .intro ((hh.push fun i hi => ?_).mono (roots_subset_of_put_handle rfl rfl))
    rcases hi with hi | ⟨v, hv, -⟩
    · exact .root (houter i hi) rfl
    · simp [Frame.values] at hv
  cases parent with
  | none => exact ⟨made none (by simp), rfl⟩
  | some p =>
    simp only [Holder.perform, Option.map_some]
    cases hl : w.handles.lookup p with
    | none => exact ⟨.intro hh, rfl⟩
    | some id =>
      refine ⟨made (some id) fun i hi => ?_, rfl⟩
      cases hi
      exact frame_mem_roots hl

theorem define (hh : w.heap.Agree w.roots h) (frame name : String) (value : Operand) :
    Alike (w.perform (.define frame name value))
      ({ w with heap := h }.perform (.define frame name value)) := by
  simp only [Holder.perform]
  cases w.handles.lookup frame with
  | none => exact ⟨.intro hh, rfl⟩
  | some id =>
    rcases operand hh value with ⟨ho, ho'⟩ | ⟨v, k, k', ho, ho', hk⟩
    · rw [ho, ho']
      exact ⟨.intro hh, rfl⟩
    · rw [ho, ho']
      exact ⟨.intro ((hk.bindRoot id name).mono (List.subset_cons_self _ _)), rfl⟩

theorem assign (hh : w.heap.Agree w.roots h) (frame name : String) (value : Operand) (line : Nat) :
    Alike (w.perform (.assign frame name value line))
      ({ w with heap := h }.perform (.assign frame name value line)) := by
  simp only [Holder.perform]
  cases hl : w.handles.lookup frame with
  | none => exact ⟨.intro hh, rfl⟩
  | some id =>
    rcases operand hh value with ⟨ho, ho'⟩ | ⟨v, k, k', ho, ho', hk⟩
    · rw [ho, ho']
      exact ⟨.intro hh, rfl⟩
    · rw [ho, ho']
      have hid : k.Reaches (.value v :: w.roots) id :=
        .root (List.mem_cons_of_mem _ (frame_mem_roots hl)) rfl
      simp only [Heap.assign, ← hk.resolve name hid]
      cases k.resolve id name with
      | none => exact ⟨.intro (hk.mono (List.subset_cons_self _ _)), rfl⟩
      | some owner =>
        exact ⟨.intro ((hk.bindRoot owner name).mono (List.subset_cons_self _ _)), rfl⟩

theorem get (hh : w.heap.Agree w.roots h) (frame name : String) (line : Nat)
    (hold : Option String) :
    Alike (w.perform (.get frame name line hold))
      ({ w with heap := h }.perform (.get frame name line hold)) := by
  simp only [Holder.perform]
  cases hl : w.handles.lookup frame with
  | none => exact ⟨.intro hh, rfl⟩
  | some id =>
    have hid : w.heap.Reaches w.roots id := .root (frame_mem_roots hl) rfl
    simp only [← hh.lookup name hid]
    cases hv : w.heap.lookup id name with
    | none => exact ⟨.intro hh, rfl⟩
    | some v =>
      have hheld := (hh.cons_of_reaches fun i hi => hid.closure_of_lookup hv hi).mono
        (hold_roots_subset w hold v)
      cases hold with
      | none => exact ⟨.intro hh, rfl⟩
      | some n => exact ⟨.intro hheld, rfl⟩

theorem has (hh : w.heap.Agree w.roots h) (frame name : String) :
    Alike (w.perform (.has frame name)) ({ w with heap := h }.perform (.has frame name)) := by
  simp only [Holder.perform]
  cases hl : w.handles.lookup frame with
  | none => exact ⟨.intro hh, rfl⟩
  | some id =>
    refine ⟨.intro hh, ?_⟩
    simp only [Heap.binds, hh.get? id (.root (frame_mem_roots hl) rfl)]

theorem declare (hh : w.heap.Agree w.roots h) (frame name : String) (hold : Option String) :
    Alike (w.perform (.declare frame name hold))
      ({ w with heap := h }.perform (.declare frame name hold)) := by
  simp only [Holder.perform]
  cases hl : w.handles.lookup frame with
  | none => exact ⟨.intro hh, rfl⟩
  | some id =>
    obtain ⟨hv, hheap⟩ := hh.makeFunction (.closure (.trivial name) id)
    -- the function keeps the frame that it is made in, which has a handle
    have hmade : Heap.Agree
        (.value (w.heap.makeFunction (.closure (.trivial name) id)).1 :: w.roots)
        (w.heap.makeFunction (.closure (.trivial name) id)).2
        (h.makeFunction (.closure (.trivial name) id)).2 := by
      refine hheap.cons_of_reaches fun i hi => ?_
      cases hi
      exact .root (frame_mem_roots hl) rfl
    have hbound := (hmade.bindRoot id name).mono (hold_roots_subset w hold _)
    dsimp only
    rw [← hv]
    cases hold with
    | none => exact ⟨.intro hbound, rfl⟩
    | some n => exact ⟨.intro hbound, rfl⟩

/-- A release keeps the holders in agreement, for it leaves all that the other roots reach as it
is. -/
theorem release (hw : WellNamed w.handles) (hh : w.heap.Agree w.roots h) (frame : String) :
    (w.perform (.release frame)).1.Agree ({ w with heap := h }.perform (.drop frame)).1 := by
  simp only [Holder.perform]
  have hdropped := hh.mono (remove_handle_roots_subset w frame)
  cases hl : w.handles.lookup frame with
  | none =>
    rw [remove_of_lookup_none hl]
    exact .intro hh
  | some id =>
    have hperm := roots_perm_of_lookup hw hl
    simp only [Heap.release_congr hperm]
    exact .intro ((Heap.agree_release w.heap _ id).symm.trans hdropped)

/-- **What one operation preserves.** If one of two holders in agreement releases where the other
only drops, they stay in agreement, and they answer alike unless they are asked what is
allocated. -/
theorem perform {w w' : Holder} (hw : WellNamed w.handles) (ha : w.Agree w') (op : Operation) :
    (w.perform op).1.Agree (w'.perform op.withoutRelease).1 ∧
      (op.asksForAllocation = false → (w.perform op).2 = (w'.perform op.withoutRelease).2) := by
  obtain ⟨hh⟩ := ha
  cases op with
  | new name parent => exact (new hh name parent).imp_right fun h _ => h
  | define frame name value => exact (define hh frame name value).imp_right fun h _ => h
  | assign frame name value line => exact (assign hh frame name value line).imp_right fun h _ => h
  | get frame name line hold => exact (get hh frame name line hold).imp_right fun h _ => h
  | has frame name => exact (has hh frame name).imp_right fun h _ => h
  | declare frame name hold => exact (declare hh frame name hold).imp_right fun h _ => h
  | unhold name => exact ⟨.intro (hh.mono (remove_hold_roots_subset w name)), fun _ => rfl⟩
  | «alias» frame name =>
    simp only [Operation.withoutRelease, Holder.perform]
    cases hl : w.handles.lookup frame with
    | none => exact ⟨.intro hh, fun _ => rfl⟩
    | some id =>
      have hsub : { w with handles := put w.handles name id }.roots ⊆ .frame id :: w.roots :=
        roots_subset_of_put_handle rfl rfl
      have hroot : .frame id :: w.roots ⊆ w.roots :=
        List.cons_subset.2 ⟨frame_mem_roots hl, List.Subset.refl _⟩
      exact ⟨.intro (hh.mono (List.Subset.trans hsub hroot)), fun _ => rfl⟩
  | drop frame =>
    exact ⟨.intro (hh.mono (remove_handle_roots_subset w frame)), fun _ => rfl⟩
  | release frame => exact ⟨release hw hh frame, fun hasks => by cases hasks⟩
  | alive frame =>
    simp only [Operation.withoutRelease, Holder.perform]
    refine ⟨?_, fun hasks => by cases hasks⟩
    cases w.made.lookup frame with
    | none => exact .intro hh
    | some id => exact .intro hh

end Agree

/-! ### Sequences of operations -/

/-- The functions that are allocated after an operation: those that were and those it made, less
those that nothing keeps any more. -/
def functionsAfter (w : Holder) (functions : List FunctionId) (op : Operation) : List FunctionId :=
  let next := (w.step op).1
  let made := List.range' w.heap.nextFunction (next.heap.nextFunction - w.heap.nextFunction)
  (functions ++ made).filter fun i => next.heap.functionCount next.roots i != 0

/-- The functions that are allocated after a sequence of operations. -/
def functionsAfterAll (w : Holder) (functions : List FunctionId) :
    List Operation → List FunctionId
  | [] => functions
  | op :: ops => (w.step op).1.functionsAfterAll (w.functionsAfter functions op) ops

theorem nextFunction_sweep (h : Heap) (roots : List Reference) :
    (h.sweep roots).nextFunction = h.nextFunction :=
  (Heap.agree_sweep roots h).nextFunction.symm

/-- One operation keeps a holder sound. -/
theorem Sound.step {w : Holder} {functions : List FunctionId} (hs : w.Sound functions)
    (op : Operation) : (w.step op).1.Sound (w.functionsAfter functions op) := by
  have hgrown : w.Sound (functions ++ List.range' w.heap.nextFunction
      ((w.step op).1.heap.nextFunction - w.heap.nextFunction)) :=
    ⟨hs.wellNamed, hs.closed.mono_functions (List.subset_append_left _ _)⟩
  have hnext : (w.step op).1.heap.nextFunction = (w.perform op).1.heap.nextFunction :=
    nextFunction_sweep _ _
  have hdone := hgrown.perform op fun i hle hlt => by
    refine List.mem_append_right _ (List.mem_range'_1.2 ⟨hle, ?_⟩)
    rw [hnext, Nat.add_sub_of_le (Nat.le_of_lt (Nat.lt_of_le_of_lt hle hlt))]
    exact hlt
  exact ⟨hdone.wellNamed, hdone.closed.sweep.counted⟩

/-- Holders in agreement answer a whole sequence of operations alike. -/
theorem Agree.run {w w' : Holder} {functions : List FunctionId} (hs : w.Sound functions)
    (ha : w.Agree w') {ops : List Operation} {i : Nat} {op : Operation} (hop : ops[i]? = some op)
    (hasks : op.asksForAllocation = false) :
    (w.run ops).2[i]? = (w'.run (ops.map (·.withoutRelease))).2[i]? := by
  induction ops generalizing w w' functions i with
  | nil => simp at hop
  | cons o ops ih =>
    obtain ⟨hnext, hanswer⟩ := ha.perform hs.wellNamed o
    cases i with
    | zero =>
      cases hop
      exact congrArg some (hanswer hasks)
    | succ i => exact ih (hs.step o) hnext.settle hop

/-- A holder of nothing is sound. -/
theorem sound_empty : empty.Sound [] := by
  refine ⟨List.nodup_nil, fun i hi => ?_, fun i f p hf _ => ?_, fun v hv => ?_⟩
  · cases hi
  · cases hf
  · cases hv

/-- **A release is safe.** If every release in a sequence of operations is replaced by a plain drop
of the handle, every operation in it still gives the same answer, but for those that ask what is
allocated. -/
theorem release_like_drop (ops : List Operation) (i : Nat) (op : Operation)
    (hop : ops[i]? = some op) (hasks : op.asksForAllocation = false) :
    (empty.run ops).2[i]? = (empty.run (ops.map (·.withoutRelease))).2[i]? :=
  Agree.run sound_empty (.intro (.refl _ _)) hop hasks

/-- A frame that only its own function keeps is released, while a drop of its handle leaves both
allocated for ever. What is looked up later is the same. -/
theorem release_like_drop_of_released :
    let ops : List Operation := [.new "f" none, .declare "f" "g" none, .release "f", .alive "f",
      .new "k" none, .define "k" "x" (.given (.plain (.string "kept"))), .get "k" "x" 1 none]
    let drops := ops.map (·.withoutRelease)
    (empty.run ops).2[2]?.any (·.isFlag true) = true ∧
      (empty.run ops).2[3]?.any (·.isFlag false) = true ∧
      (empty.run drops).2[3]?.any (·.isFlag true) = true ∧
      (empty.run ops).2[6]? = (empty.run drops).2[6]? :=
  ⟨by decide +kernel, by decide +kernel, by decide +kernel,
    release_like_drop _ 6 (.get "k" "x" 1 none) rfl rfl⟩

/-! ### Allocation by count -/

/-- Whether what is allocated is what something keeps. -/
structure Accounted (w : Holder) (functions : List FunctionId) : Prop
    extends w.Sound functions where
  frame : ∀ id, w.heap.allocated id ↔ 0 < w.heap.frameCount w.roots id
  function : ∀ i, i ∈ functions ↔ 0 < w.heap.functionCount w.roots i

theorem accounted_empty : empty.Accounted [] where
  toSound := sound_empty
  frame id := by simp [empty, Heap.empty, Heap.allocated, Heap.get?, roots, Heap.frameCount,
    Heap.framesInUse, Heap.functionsOf, Heap.valuesInUse, Heap.live]
  function i := by simp [empty, Heap.empty, roots, Heap.functionCount, Heap.valuesInUse, Heap.live]

/-- After one operation, what is allocated is what is counted. -/
theorem Sound.accounted_step {w : Holder} {functions : List FunctionId} (hs : w.Sound functions)
    (op : Operation) : (w.step op).1.Accounted (w.functionsAfter functions op) where
  toSound := hs.step op
  frame := (hs.step op).closed.allocated_iff_frameCount_pos
    (Heap.swept_sweep (w.perform op).1.roots (w.perform op).1.heap)
  function i := by
    constructor
    · intro hi
      have hne := (List.mem_filter.1 hi).2
      exact Nat.pos_of_ne_zero (bne_iff_ne.1 hne)
    · intro hpos
      obtain ⟨v, hv, hi⟩ := Heap.functionCount_pos_iff.1 hpos
      exact ((hs.step op).closed.value v hv).2 i hi

/-- After a sequence of operations, what is allocated is what is counted. -/
theorem Accounted.run {w : Holder} {functions : List FunctionId} (ha : w.Accounted functions)
    (ops : List Operation) : (w.run ops).1.Accounted (w.functionsAfterAll functions ops) := by
  induction ops generalizing w functions with
  | nil => exact ha
  | cons op ops ih => exact ih (ha.toSound.accounted_step op)

/-- A release that answers `true` frees the frame and every function made in it. -/
theorem Sound.freed_of_release {w : Holder} {functions : List FunctionId} (hs : w.Sound functions)
    {frame : String} {id : FrameId} (hl : w.handles.lookup frame = some id)
    (hanswer : (w.step (.release frame)).2 = .flag true) :
    (w.step (.release frame)).1.heap.allocated id = false ∧
      ∀ v ∈ w.heap.valuesInUse w.roots, v.closure? = some id →
        ∀ i, v.functionId? = some i → i ∉ w.functionsAfter functions (.release frame) := by
  have hperm := roots_perm_of_lookup hs.wellNamed hl
  have hstep : w.step (.release frame) = ({ w with
      heap := w.heap.release w.roots id
      handles := remove w.handles frame }.settle, .flag (w.heap.releasable w.roots id)) := by
    simp only [Holder.step, Holder.perform, hl]
  have hr : w.heap.releasable w.roots id = true := by
    rw [hstep] at hanswer
    injection hanswer
  have hcleared : w.heap.release w.roots id = w.heap.clear id := by rw [Heap.release, if_pos hr]
  rw [Heap.releasable_congr hperm] at hr
  have hswept := Heap.swept_sweep { w with handles := remove w.handles frame }.roots
    (w.heap.clear id)
  constructor
  · rw [hstep, hcleared]
    refine Bool.eq_false_iff.2 fun hid => Heap.not_kept_of_releasable hr ?_
    exact hswept.within.kept (List.Subset.refl _) (hswept.allocated id hid)
  · intro v hv hc i hi hmem
    obtain ⟨u, hu, hui⟩ :=
      Heap.functionCount_pos_iff.1 (((hs.accounted_step (.release frame)).function i).1 hmem)
    rw [hstep, hcleared] at hu
    refine Heap.functionId?_ne_of_releasable hr ?_ hc
      (hswept.within.valuesInUse (List.Subset.refl _) hu) (hui.trans hi.symm)
    exact (Heap.valuesInUse_perm_of_roots hperm).mem_iff.1 hv

/-- A release that answers `false` does what dropping the handle does. -/
theorem step_release_of_refused {w : Holder} {frame : String}
    (hanswer : (w.step (.release frame)).2 = .flag false) :
    (w.step (.release frame)).1 = (w.step (.drop frame)).1 := by
  simp only [Holder.step, Holder.perform] at hanswer ⊢
  cases hl : w.handles.lookup frame with
  | none =>
    rw [hl] at hanswer
    cases hanswer
  | some id =>
    rw [hl] at hanswer
    have hr : w.heap.releasable w.roots id = false := by injection hanswer
    simp only [Heap.release, hr, Bool.false_eq_true, if_false]

/-- **Counts are exact.** After any sequence of operations, frames and functions are allocated
exactly if something keeps them, so what is referred to or can be reached is allocated. A release
that answers `true` frees the frame with all functions made in it, and one that answers `false` only
drops the handle and changes no frame that stays. -/
theorem counts_exact (ops : List Operation) :
    let w := (empty.run ops).1
    let functions := empty.functionsAfterAll [] ops
    (∀ id, w.heap.allocated id ↔ 0 < w.heap.frameCount w.roots id) ∧
    (∀ i, i ∈ functions ↔ 0 < w.heap.functionCount w.roots i) ∧
    w.heap.Closed functions w.roots ∧
    (∀ id, w.heap.Reaches w.roots id → w.heap.allocated id) ∧
    ∀ frame id, w.handles.lookup frame = some id →
      ((w.step (.release frame)).2 = .flag true →
        (w.step (.release frame)).1.heap.allocated id = false ∧
        ∀ v ∈ w.heap.valuesInUse w.roots, v.closure? = some id →
          ∀ i, v.functionId? = some i → i ∉ w.functionsAfter functions (.release frame)) ∧
      ((w.step (.release frame)).2 = .flag false →
        (w.step (.release frame)).1 = (w.step (.drop frame)).1 ∧
        ∀ i f, (w.step (.release frame)).1.heap.get? i = some f → w.heap.get? i = some f) := by
  intro w functions
  have ha : w.Accounted functions := accounted_empty.run ops
  refine ⟨ha.frame, ha.function, ha.closed, fun id => ha.closed.reaches, fun frame id hl =>
    ⟨ha.toSound.freed_of_release hl, fun hanswer => ?_⟩⟩
  have hsame := step_release_of_refused hanswer
  refine ⟨hsame, fun i f hf => ?_⟩
  rw [hsame] at hf
  exact (Heap.swept_sweep _ _).get? i f hf

end Holder

end Scriptlet

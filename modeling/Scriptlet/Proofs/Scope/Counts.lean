import Scriptlet.Proofs.Scope.Release
import Scriptlet.Scope.Given

/-!
# Reference counts

A heap is closed if whatever is referred to is allocated: the handles and the parents and functions
of allocated frames lead to allocated frames only. Every operation on a closed heap leaves it
closed, and when what nothing keeps has been freed, a frame is allocated exactly if its count is
positive. A release that empties a frame thereby leaves nothing that keeps the frame or a function
made in it.
-/

namespace Scriptlet

namespace Heap

variable {h : Heap} {roots roots' others : List Reference} {functions functions' : List FunctionId}
  {frame id : FrameId} {v : Value}

/-! ### The order of the roots -/

theorem nodup_eraseDups (l : List FunctionId) : l.eraseDups.Nodup := by
  cases l with
  | nil => simp
  | cons i l =>
    rw [List.eraseDups_cons, List.nodup_cons]
    have : (l.filter fun j => !j == i).length ≤ l.length := List.length_filter_le _ l
    exact ⟨by simp [List.mem_eraseDups], nodup_eraseDups _⟩
termination_by l.length

/-- In which order the roots are given does not matter to the values in use. -/
theorem valuesInUse_perm_of_roots (hr : roots.Perm roots') :
    (h.valuesInUse roots).Perm (h.valuesInUse roots') :=
  (hr.filterMap Reference.value?).append_left _

theorem framesInUse_perm_of_roots (hr : roots.Perm roots') :
    (h.framesInUse roots).Perm (h.framesInUse roots') :=
  (hr.filterMap Reference.frame?).append_right _

/-- The count of a function does not depend on the order of the roots. -/
theorem functionCount_congr (hr : roots.Perm roots') (i : FunctionId) :
    h.functionCount roots i = h.functionCount roots' i :=
  (valuesInUse_perm_of_roots hr).countP_eq _

theorem functionsOf_perm (hr : roots.Perm roots') (frame : FrameId) :
    (h.functionsOf roots frame).Perm (h.functionsOf roots' frame) := by
  refine (List.perm_ext_iff_of_nodup (nodup_eraseDups _) (nodup_eraseDups _)).2 fun i => ?_
  rw [← functionsOf, ← functionsOf, mem_functionsOf, mem_functionsOf]
  simp only [(valuesInUse_perm_of_roots hr).mem_iff]

/-- The count of a frame does not depend on the order of the roots. -/
theorem frameCount_congr (hr : roots.Perm roots') (frame : FrameId) :
    h.frameCount roots frame = h.frameCount roots' frame := by
  rw [frameCount, frameCount, (framesInUse_perm_of_roots hr).count_eq,
    (functionsOf_perm hr frame).length_eq]

theorem selfCaptured_congr (hr : roots.Perm roots') (frame : FrameId) :
    h.selfCaptured roots frame = h.selfCaptured roots' frame := by
  unfold selfCaptured
  simp only [functionCount_congr hr]

/-- Whether a frame may be released does not depend on the order of the roots. -/
theorem releasable_congr (hr : roots.Perm roots') (frame : FrameId) :
    h.releasable roots frame = h.releasable roots' frame := by
  unfold releasable
  rw [selfCaptured_congr hr, frameCount_congr hr]

theorem release_congr (hr : roots.Perm roots') (frame : FrameId) :
    h.release roots frame = h.release roots' frame := by
  unfold release
  rw [releasable_congr hr]

/-! ### What is kept -/

/-- The live frames are those with a number. -/
theorem mem_live_iff {f : Frame} : f ∈ h.live ↔ ∃ i, h.get? i = some f := by
  constructor
  · intro hf
    obtain ⟨i, -, hi⟩ := List.mem_filterMap.1 hf
    exact ⟨i, hi⟩
  · rintro ⟨i, hi⟩
    exact mem_live hi

/-- A value is in use if a frame binds it or it is a root. -/
theorem mem_valuesInUse : v ∈ h.valuesInUse roots ↔
    (∃ i f, h.get? i = some f ∧ v ∈ f.values) ∨ .value v ∈ roots := by
  have hroot : v ∈ roots.filterMap (·.value?) ↔ .value v ∈ roots := by
    rw [List.mem_filterMap]
    constructor
    · rintro ⟨r, hr, hv⟩
      cases r with
      | frame i => cases hv
      | value w =>
        cases hv
        exact hr
    · intro hr
      exact ⟨_, hr, rfl⟩
  rw [valuesInUse, List.mem_append, hroot, List.mem_flatMap]
  simp only [mem_live_iff]
  constructor
  · rintro (⟨f, ⟨i, hi⟩, hv⟩ | hr)
    · exact Or.inl ⟨i, f, hi, hv⟩
    · exact Or.inr hr
  · rintro (⟨i, f, hi, hv⟩ | hr)
    · exact Or.inl ⟨f, ⟨i, hi⟩, hv⟩
    · exact Or.inr hr

/-- A value found by looking a name up is in use. -/
theorem mem_valuesInUse_of_lookup {name : String} (hv : h.lookup id name = some v) :
    v ∈ h.valuesInUse roots := by
  obtain ⟨owner, -, hv⟩ := Option.bind_eq_some_iff.1 hv
  obtain ⟨f, hf, hv⟩ := Option.bind_eq_some_iff.1 hv
  exact mem_valuesInUse_of_frame hf (Frame.mem_values_of_get? hv)

/-- A frame is in use if it is a root or another frame is nested in it. -/
theorem mem_framesInUse : id ∈ h.framesInUse roots ↔
    .frame id ∈ roots ∨ ∃ i f, h.get? i = some f ∧ f.parent = some id := by
  have hroot : id ∈ roots.filterMap (·.frame?) ↔ .frame id ∈ roots := by
    rw [List.mem_filterMap]
    constructor
    · rintro ⟨r, hr, hi⟩
      cases r with
      | frame i =>
        cases hi
        exact hr
      | value w => cases hi
    · intro hr
      exact ⟨_, hr, rfl⟩
  rw [framesInUse, List.mem_append, hroot, List.mem_filterMap]
  simp only [mem_live_iff]
  constructor
  · rintro (hr | ⟨f, ⟨i, hi⟩, hp⟩)
    · exact Or.inl hr
    · exact Or.inr ⟨i, f, hi, hp⟩
  · rintro (hr | ⟨i, f, hi, hp⟩)
    · exact Or.inl hr
    · exact Or.inr ⟨f, ⟨i, hi⟩, hp⟩

/-- A frame is kept if it is in use or a function in use was made in it. -/
theorem mem_kept : id ∈ h.kept roots ↔
    id ∈ h.framesInUse roots ∨ ∃ v ∈ h.valuesInUse roots, v.closure? = some id := by
  rw [kept, List.mem_append, List.mem_filterMap]

/-- A frame is kept exactly if its count is positive. -/
theorem frameCount_pos_iff : 0 < h.frameCount roots id ↔ id ∈ h.kept roots := by
  have hfunctions : 0 < (h.functionsOf roots id).length ↔
      ∃ v ∈ h.valuesInUse roots, v.closure? = some id := by
    rw [List.length_pos_iff_exists_mem]
    simp only [mem_functionsOf]
    constructor
    · rintro ⟨i, v, hv, hc, -⟩
      exact ⟨v, hv, hc⟩
    · rintro ⟨v, hv, hc⟩
      obtain ⟨i, hi⟩ := exists_functionId? hc
      exact ⟨i, v, hv, hc, hi⟩
  rw [frameCount, mem_kept, ← hfunctions, ← List.count_pos_iff]
  omega

/-- A function is counted exactly if a value in use is that function. -/
theorem functionCount_pos_iff {i : FunctionId} : 0 < h.functionCount roots i ↔
    ∃ v ∈ h.valuesInUse roots, v.functionId? = some i := by
  simp [functionCount, List.countP_pos_iff]

/-! ### Smaller heaps -/

/-- Whether a heap has no frames but those of another, with the same parents and no other
bindings. -/
def Within (h' h : Heap) : Prop :=
  ∀ i f', h'.get? i = some f' → ∃ f, h.get? i = some f ∧ f'.parent = f.parent ∧
    f'.values ⊆ f.values

theorem Within.refl (h : Heap) : h.Within h :=
  fun _ f hf => ⟨f, hf, rfl, List.Subset.refl _⟩

theorem Within.trans {h' h'' : Heap} (a : h''.Within h') (b : h'.Within h) : h''.Within h := by
  intro i f'' hf''
  obtain ⟨f', hf', hp', hv'⟩ := a i f'' hf''
  obtain ⟨f, hf, hp, hv⟩ := b i f' hf'
  exact ⟨f, hf, hp'.trans hp, List.Subset.trans hv' hv⟩

/-- Fewer frames and fewer roots leave fewer values in use. -/
theorem Within.valuesInUse {h' : Heap} (a : h'.Within h) (hs : roots' ⊆ roots) :
    h'.valuesInUse roots' ⊆ h.valuesInUse roots := by
  intro v hv
  rw [mem_valuesInUse] at hv ⊢
  rcases hv with ⟨i, f', hf', hv⟩ | hr
  · obtain ⟨f, hf, -, hsub⟩ := a i f' hf'
    exact Or.inl ⟨i, f, hf, hsub hv⟩
  · exact Or.inr (hs hr)

theorem Within.framesInUse {h' : Heap} (a : h'.Within h) (hs : roots' ⊆ roots) :
    h'.framesInUse roots' ⊆ h.framesInUse roots := by
  intro id hid
  rw [mem_framesInUse] at hid ⊢
  rcases hid with hr | ⟨i, f', hf', hp⟩
  · exact Or.inl (hs hr)
  · obtain ⟨f, hf, hparent, -⟩ := a i f' hf'
    exact Or.inr ⟨i, f, hf, hparent ▸ hp⟩

/-- Fewer frames and fewer roots keep fewer frames. -/
theorem Within.kept {h' : Heap} (a : h'.Within h) (hs : roots' ⊆ roots) :
    h'.kept roots' ⊆ h.kept roots := by
  intro id hid
  rw [mem_kept] at hid ⊢
  rcases hid with hf | ⟨v, hv, hc⟩
  · exact Or.inl (a.framesInUse hs hf)
  · exact Or.inr ⟨v, a.valuesInUse hs hv, hc⟩

/-- To free frames leaves part of a heap. -/
theorem within_keep (h : Heap) (p : FrameId → Bool) : (h.keep p).Within h := by
  intro i f hf
  rw [get?_keep] at hf
  split at hf
  · exact ⟨f, hf, rfl, List.Subset.refl _⟩
  · cases hf

/-- To clear a frame leaves part of a heap. -/
theorem within_clear (h : Heap) (frame : FrameId) : (h.clear frame).Within h := by
  intro i f' hf'
  rw [clear, get?_modify] at hf'
  split at hf'
  · obtain ⟨f, hf, rfl⟩ := Option.map_eq_some_iff.1 hf'
    exact ⟨f, hf, rfl, List.nil_subset _⟩
  · exact ⟨f', hf', rfl, List.Subset.refl _⟩

theorem within_release (h : Heap) (roots : List Reference) (frame : FrameId) :
    (h.release roots frame).Within h := by
  unfold release
  split
  · exact within_clear h frame
  · exact .refl h

/-! ### Freeing until all that is left is kept -/

/-- What freeing does: `h'` has some of the frames of `h` as they are, among them all that are
kept, and keeps every frame that it has. -/
structure Swept (roots : List Reference) (h h' : Heap) : Prop where
  get? : ∀ i f, h'.get? i = some f → h.get? i = some f
  kept : ∀ i f, h.get? i = some f → i ∈ h'.kept roots → h'.get? i = some f
  allocated : ∀ i, h'.allocated i → i ∈ h'.kept roots

theorem Swept.within {h' : Heap} (a : Swept roots h h') : h'.Within h :=
  fun i f hf => ⟨f, a.get? i f hf, rfl, List.Subset.refl _⟩

/-- Sweeping frees what nothing keeps, until all that is left is kept. -/
theorem swept_go (n : Nat) (h : Heap) (hn : h.ids.length ≤ n) :
    Swept roots h (sweep.go roots n h) := by
  induction n generalizing h with
  | zero =>
    have hids : h.ids = [] := List.length_eq_zero_iff.1 (Nat.le_zero.1 hn)
    refine ⟨fun _ _ hf => hf, fun _ _ hf _ => hf, fun i hi => ?_⟩
    have hmem := (h.mem_ids_iff i).2 hi
    simp [hids] at hmem
  | succ n ih =>
    rw [sweep_go_succ]
    split
    · rename_i hall
      refine ⟨fun _ _ hf => hf, fun _ _ hf _ => hf, fun i hi => ?_⟩
      exact List.contains_iff_mem.1 (List.all_eq_true.1 hall i ((h.mem_ids_iff i).2 hi))
    · rename_i hall
      -- some frame goes in this round, so the rounds left are enough for the others
      have hlt : (h.keep (h.kept roots).contains).ids.length ≤ n := by
        have hne := mt List.length_filter_eq_length_iff.1 (mt List.all_eq_true.2 hall)
        have hle := List.length_filter_le (h.kept roots).contains h.ids
        show (h.ids.filter _).length ≤ n
        omega
      have hrest := ih _ hlt
      refine ⟨fun i f hf => ?_, fun i f hf hi => ?_, hrest.allocated⟩
      · have hkeep := hrest.get? i f hf
        rw [get?_keep] at hkeep
        split at hkeep
        · exact hkeep
        · cases hkeep
      · have hkept := (hrest.within.trans (within_keep h _)).kept (List.Subset.refl roots) hi
        refine hrest.kept i f ?_ hi
        rw [get?_keep, if_pos (List.contains_iff_mem.2 hkept), hf]

theorem swept_sweep (roots : List Reference) (h : Heap) : Swept roots h (h.sweep roots) :=
  swept_go _ h (Nat.le_refl _)

/-! ### Closed heaps -/

/-- Whether the frame of a function is allocated and the function itself among the given ones. -/
def Covers (h : Heap) (functions : List FunctionId) (v : Value) : Prop :=
  (∀ i, v.closure? = some i → h.allocated i) ∧ ∀ i, v.functionId? = some i → i ∈ functions

/-- Whether everything that is referred to is allocated; the functions allocated are the given
ones. -/
structure Closed (h : Heap) (functions : List FunctionId) (roots : List Reference) : Prop where
  handle : ∀ i, .frame i ∈ roots → h.allocated i
  parent : ∀ i f p, h.get? i = some f → f.parent = some p → h.allocated p
  value : ∀ v ∈ h.valuesInUse roots, h.Covers functions v

/-- A frame is allocated if its number has a frame. -/
theorem allocated_iff : h.allocated id ↔ ∃ f, h.get? id = some f := Option.isSome_iff_exists

theorem allocated_push (f : Frame) (hid : h.allocated id) : (h.push f).allocated id := by
  rw [allocated, get?_push]
  split
  · rfl
  · exact hid

@[simp] theorem allocated_modify (id : FrameId) (change : Frame → Frame) (i : FrameId) :
    (h.modify id change).allocated i = h.allocated i := by
  rw [allocated, get?_modify]
  split
  · exact Option.isSome_map
  · rfl

namespace Closed

/-- What is kept is allocated. -/
theorem kept (hc : h.Closed functions roots) (hid : id ∈ h.kept roots) : h.allocated id := by
  rcases mem_kept.1 hid with hid | ⟨v, hv, hid⟩
  · rcases mem_framesInUse.1 hid with hr | ⟨i, f, hf, hp⟩
    · exact hc.handle id hr
    · exact hc.parent i f id hf hp
  · exact (hc.value v hv).1 id hid

/-- With fewer roots a heap stays closed. -/
theorem mono (hc : h.Closed functions roots) (hs : roots' ⊆ roots) : h.Closed functions roots' where
  handle i hi := hc.handle i (hs hi)
  parent := hc.parent
  value v hv := hc.value v ((Within.refl h).valuesInUse hs hv)

theorem mono_functions (hc : h.Closed functions roots) (hs : functions ⊆ functions') :
    h.Closed functions' roots where
  handle := hc.handle
  parent := hc.parent
  value v hv := ⟨(hc.value v hv).1, fun i hi => hs ((hc.value v hv).2 i hi)⟩

/-- Only the functions with a positive count are needed. -/
theorem counted (hc : h.Closed functions roots) :
    h.Closed (functions.filter fun i => h.functionCount roots i != 0) roots where
  handle := hc.handle
  parent := hc.parent
  value v hv := by
    refine ⟨(hc.value v hv).1, fun i hi => ?_⟩
    have hpos := functionCount_pos_iff.2 ⟨v, hv, hi⟩
    rw [List.mem_filter, bne_iff_ne]
    exact ⟨(hc.value v hv).2 i hi, by omega⟩

/-- A value that is covered may be held from outside. -/
theorem cons_value (hc : h.Closed functions roots) (hv : h.Covers functions v) :
    h.Closed functions (.value v :: roots) where
  handle i hi := by
    rcases List.mem_cons.1 hi with hi | hi
    · cases hi
    · exact hc.handle i hi
  parent := hc.parent
  value w hw := by
    rcases mem_valuesInUse.1 hw with hbound | hr
    · exact hc.value w (mem_valuesInUse.2 (Or.inl hbound))
    · rcases List.mem_cons.1 hr with hr | hr
      · cases hr
        exact hv
      · exact hc.value w (mem_valuesInUse.2 (Or.inr hr))

/-- A new frame closes the heap with itself as a root. -/
theorem push {outer : Option FrameId} (hc : h.Closed functions roots)
    (houter : ∀ i, outer = some i → h.allocated i) :
    (h.push ⟨[], outer⟩).Closed functions (.frame h.size :: roots) where
  handle i hi := by
    rcases List.mem_cons.1 hi with hi | hi
    · cases hi
      simp [allocated]
    · exact allocated_push _ (hc.handle i hi)
  parent i f p hf hp := by
    refine allocated_push _ ?_
    rw [get?_push] at hf
    split at hf
    · cases hf
      exact houter p hp
    · exact hc.parent i f p hf hp
  value v hv := by
    have hold : v ∈ h.valuesInUse roots := by
      rw [mem_valuesInUse] at hv ⊢
      rcases hv with ⟨i, f, hf, hv⟩ | hr
      · rw [get?_push] at hf
        split at hf
        · cases hf
          cases hv
        · exact Or.inl ⟨i, f, hf, hv⟩
      · rcases List.mem_cons.1 hr with hr | hr
        · cases hr
        · exact Or.inr hr
    exact ⟨fun i hi => allocated_push _ ((hc.value v hold).1 i hi), (hc.value v hold).2⟩

/-- A new function closes the heap with itself as a root. -/
theorem makeFunction (hc : h.Closed functions roots) {callable : Callable}
    (hframe : ∀ i, callable.frame? = some i → h.allocated i) (hnew : h.nextFunction ∈ functions) :
    (h.makeFunction callable).2.Closed functions (.value (h.makeFunction callable).1 :: roots) := by
  have hsame : (h.makeFunction callable).2.Closed functions roots :=
    ⟨hc.handle, hc.parent, hc.value⟩
  refine hsame.cons_value ⟨hframe, fun i hi => ?_⟩
  cases hi
  exact hnew

/-- A value held from outside may be bound anywhere. -/
theorem define (hc : h.Closed functions (.value v :: roots)) (owner : FrameId) (name : String) :
    (h.define owner name v).Closed functions (.value v :: roots) where
  handle i hi := by
    rw [Heap.define, allocated_modify]
    exact hc.handle i hi
  parent i f p hf hp := by
    rw [Heap.define, allocated_modify]
    rw [Heap.define, get?_modify] at hf
    split at hf
    · obtain ⟨g, hg, rfl⟩ := Option.map_eq_some_iff.1 hf
      exact hc.parent i g p hg hp
    · exact hc.parent i f p hf hp
  value w hw := by
    have hold : w ∈ h.valuesInUse (.value v :: roots) := by
      rw [mem_valuesInUse] at hw ⊢
      rcases hw with ⟨i, f, hf, hw⟩ | hr
      · rw [Heap.define, get?_modify] at hf
        split at hf
        · obtain ⟨g, hg, rfl⟩ := Option.map_eq_some_iff.1 hf
          rcases Frame.mem_values_bind hw with rfl | hw
          · exact Or.inr List.mem_cons_self
          · exact Or.inl ⟨i, g, hg, hw⟩
        · exact Or.inl ⟨i, f, hf, hw⟩
      · exact Or.inr hr
    refine ⟨fun i hi => ?_, (hc.value w hold).2⟩
    rw [Heap.define, allocated_modify]
    exact (hc.value w hold).1 i hi

/-- A smaller heap that has every frame it keeps is closed, too. -/
theorem within {h' : Heap} (hc : h.Closed functions roots) (hw : h'.Within h)
    (hkept : ∀ i ∈ h'.kept roots, h.allocated i → h'.allocated i) : h'.Closed functions roots := by
  have hall : ∀ i ∈ h'.kept roots, h'.allocated i := fun i hi =>
    hkept i hi (hc.kept (hw.kept (List.Subset.refl roots) hi))
  refine ⟨fun i hi => hall i ?_, fun i f p hf hp => hall p ?_,
    fun v hv => ⟨fun i hi => hall i ?_, ?_⟩⟩
  · exact mem_kept.2 (Or.inl (mem_framesInUse.2 (Or.inl hi)))
  · exact mem_kept.2 (Or.inl (mem_framesInUse.2 (Or.inr ⟨i, f, hf, hp⟩)))
  · exact mem_kept.2 (Or.inr ⟨v, hv, hi⟩)
  · exact (hc.value v (hw.valuesInUse (List.Subset.refl roots) hv)).2

/-- Sweeping keeps a heap closed. -/
theorem sweep (hc : h.Closed functions roots) : (h.sweep roots).Closed functions roots := by
  have hswept := swept_sweep roots h
  refine hc.within hswept.within fun i hi hold => ?_
  obtain ⟨f, hf⟩ := allocated_iff.1 hold
  exact allocated_iff.2 ⟨f, hswept.kept i f hf hi⟩

/-- To release a frame keeps a heap closed, whoever asks. -/
theorem release (hc : h.Closed functions roots) (asking : List Reference) (frame : FrameId) :
    (h.release asking frame).Closed functions roots := by
  unfold Heap.release
  split
  · refine hc.within (within_clear h frame) fun i _ hold => ?_
    rw [clear, allocated_modify]
    exact hold
  · exact hc

theorem make (hc : h.Closed functions roots) (g : Given)
    (hnew : ∀ i, h.nextFunction ≤ i → i < (h.make g).2.nextFunction → i ∈ functions) :
    (h.make g).2.Closed functions (.value (h.make g).1 :: roots) := by
  cases g with
  | plain literal =>
    refine hc.cons_value ⟨fun i hi => ?_, fun i hi => ?_⟩
    · cases literal <;> cases hi
    · cases literal <;> cases hi
  | function name =>
    have hpush : (h.push ⟨[], none⟩).Closed functions (.frame h.size :: roots) :=
      hc.push fun i hi => by cases hi
    have hframe : ∀ i, (Callable.closure (.trivial name) h.size).frame? = some i →
        (h.push ⟨[], none⟩).allocated i := by
      intro i hi
      cases hi
      exact hpush.handle _ List.mem_cons_self
    have hmade := hpush.makeFunction hframe (hnew _ (Nat.le_refl _) (Nat.lt_succ_self _))
    exact hmade.mono (List.cons_subset_cons _ (List.subset_cons_self _ _))
  | host name =>
    exact hc.makeFunction (fun i hi => by cases hi) (hnew _ (Nat.le_refl _) (Nat.lt_succ_self _))

end Closed

/-- Everything the roots reach is allocated. -/
theorem Closed.reaches (hc : h.Closed functions roots) (hid : h.Reaches roots id) :
    h.allocated id :=
  hc.kept hid.mem_kept

/-- **In a closed heap where everything that nothing keeps has been freed, a frame is allocated
exactly if its count is positive.** -/
theorem Closed.allocated_iff_frameCount_pos {h' : Heap} (hc : h'.Closed functions roots)
    (hs : Swept roots h h') (id : FrameId) : h'.allocated id ↔ 0 < h'.frameCount roots id := by
  rw [frameCount_pos_iff]
  exact ⟨hs.allocated id, hc.kept⟩

/-! ### Releases that empty a frame -/

/-- After the release of a frame nothing refers to a function made in it. -/
theorem functionId?_ne_of_releasable (hr : h.releasable (.frame frame :: others) frame = true)
    {v w : Value} (hv : v ∈ h.valuesInUse (.frame frame :: others)) (hc : v.closure? = some frame)
    (hw : w ∈ (h.clear frame).valuesInUse others) : w.functionId? ≠ v.functionId? := by
  intro heq
  obtain ⟨hbound, hroot⟩ := bound_in_releasable hr hv hc heq
  rcases mem_valuesInUse.1 hw with ⟨i, g, hg, hwg⟩ | hw
  · rw [clear, get?_modify] at hg
    split at hg
    · obtain ⟨f, -, rfl⟩ := Option.map_eq_some_iff.1 hg
      cases hwg
    · rename_i hne
      exact hne (hbound i g hg hwg).symm
  · exact hroot hw

/-- After the release of a frame nothing but the handle that asked keeps it. -/
theorem not_kept_of_releasable (hr : h.releasable (.frame frame :: others) frame = true) :
    frame ∉ (h.clear frame).kept others := by
  obtain ⟨-, -, hframes, -⟩ := kept_by_own_of_releasable hr
  intro hkept
  rcases mem_kept.1 hkept with hf | ⟨v, hv, hc⟩
  · exact hframes ((within_clear h frame).framesInUse (List.Subset.refl others) hf)
  · have hold := (within_clear h frame).valuesInUse (List.subset_cons_self (.frame frame) others) hv
    exact functionId?_ne_of_releasable hr hold hc hv rfl

end Heap

end Scriptlet

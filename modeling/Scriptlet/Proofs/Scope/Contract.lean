import Scriptlet.Proofs.Scope.Holder

/-!
# Which frames are released

A release is meant for a frame that only its own functions keep: the frame stores functions made in
it, no other handle and no nested frame refers to it, and every function made in it is bound by the
frame and by nothing else. What `release` compares are counts, and it looks for functions that are
kept by one reference. A function that its frame stores under two names is kept by two, so
`releasable` holds exactly of the frames that only their own functions keep and that store each of
these functions once. The rest of the frames that are meant stay allocated.
-/

namespace Scriptlet

namespace Heap

variable {h : Heap} {others : List Reference} {frame : FrameId}

/-! ### Frames that only their own functions keep -/

/-- Whether all references to the function that a value is are bindings of one frame. -/
def OnlyBoundBy (h : Heap) (others : List Reference) (frame : FrameId) (v : Value) : Prop :=
  ∀ w, w.functionId? = v.functionId? →
    (∀ i g, h.get? i = some g → w ∈ g.values → i = frame) ∧ .value w ∉ others

/-- Whether a frame stores a function made in it and everything that keeps the frame, besides the
handle that asks, is a function made in it that only the frame binds. The other references from
outside are the given ones. -/
structure KeptByOwn (h : Heap) (others : List Reference) (frame : FrameId) : Prop where
  stores : ∃ f, h.get? frame = some f ∧ ∃ v ∈ f.values, v.closure? = some frame
  /-- No other handle refers to the frame, and no frame is nested in it. -/
  alone : frame ∉ h.framesInUse others
  own : ∀ v ∈ h.valuesInUse others, v.closure? = some frame → h.OnlyBoundBy others frame v

/-- Whether a frame stores no function made in it under two names. -/
def StoresOnce (h : Heap) (frame : FrameId) : Prop :=
  ∀ f, h.get? frame = some f → ∀ v ∈ f.values, v.closure? = some frame →
    f.values.countP (fun w => w.functionId? = v.functionId?) = 1

theorem framesInUse_frame_cons (h : Heap) (frame : FrameId) (others : List Reference) :
    h.framesInUse (.frame frame :: others) = frame :: h.framesInUse others := rfl

/-- The references to a function that only one frame binds are the bindings of that frame. -/
theorem functionCount_of_onlyBoundBy {f : Frame} {v : Value} {i : FunctionId}
    (hf : h.get? frame = some f) (hv : h.OnlyBoundBy others frame v) (hi : v.functionId? = some i) :
    h.functionCount others i = f.values.countP fun w => w.functionId? = v.functionId? := by
  have hcount := (valuesInUse_perm others hf).countP_eq fun w => w.functionId? = some i
  rw [List.countP_append] at hcount
  rw [functionCount, hcount, hi, Nat.add_eq_left, List.countP_eq_zero]
  intro w hw hwi
  obtain ⟨hbound, hroot⟩ := hv w ((of_decide_eq_true hwi).trans hi.symm)
  rcases List.mem_append.1 hw with hw | hw
  · obtain ⟨g, hg, hwg⟩ := List.mem_flatMap.1 hw
    obtain ⟨j, hj, hg⟩ := List.mem_filterMap.1 hg
    -- a frame has one number, so what is left without it has no binding of it
    obtain ⟨hne, -⟩ := h.nodup_ids.mem_erase_iff.1 hj
    exact hne (hbound j g hg hwg)
  · obtain ⟨r, hr, hrw⟩ := List.mem_filterMap.1 hw
    cases r with
    | frame j => cases hrw
    | value u =>
      cases hrw
      exact hroot hr

/-! ### Frames that are released -/

theorem KeptByOwn.of_releasable (hr : h.releasable (.frame frame :: others) frame = true) :
    h.KeptByOwn others frame := by
  obtain ⟨f, hf, hframes, -⟩ := kept_by_own_of_releasable hr
  refine ⟨⟨f, hf, ?_⟩, hframes, fun v hv hc w hw => bound_in_releasable hr hv hc hw⟩
  have hpos : 0 < f.values.countP (h.storesOwn (.frame frame :: others) frame) := by
    rw [← selfCaptured_eq hf]
    simp only [releasable, Bool.and_eq_true, bne_iff_ne] at hr
    exact Nat.pos_of_ne_zero hr.1
  obtain ⟨v, hv, hown⟩ := List.countP_pos_iff.1 hpos
  exact ⟨v, hv, (storesOwn_iff.1 hown).1⟩

theorem StoresOnce.of_releasable (hr : h.releasable (.frame frame :: others) frame = true) :
    h.StoresOnce frame := by
  intro f hf v hv hc
  obtain ⟨f', hf', -, hfunctions⟩ := kept_by_own_of_releasable hr
  obtain rfl : f = f' := Option.some.inj (hf.symm.trans hf')
  obtain ⟨i, hi⟩ := exists_functionId? hc
  have hused : v ∈ h.valuesInUse (.frame frame :: others) := mem_valuesInUse_of_frame hf hv
  have howned := hfunctions (mem_functionsOf.2 ⟨v, hused, hc, hi⟩)
  obtain ⟨-, -, -, -, hone⟩ := mem_ownFunctions.1 howned
  have honly : h.OnlyBoundBy others frame v := fun w hw => bound_in_releasable hr hused hc hw
  rw [← functionCount_of_onlyBoundBy hf honly hi]
  exact hone

/-- If only its own functions keep a frame and it stores each of them once, each of them is kept by
one reference. -/
theorem KeptByOwn.functionCount_eq_one (hk : h.KeptByOwn others frame) (hs : h.StoresOnce frame)
    {v : Value} {i : FunctionId} (hv : v ∈ h.valuesInUse others) (hc : v.closure? = some frame)
    (hi : v.functionId? = some i) :
    h.functionCount others i = 1 ∧ ∃ f, h.get? frame = some f ∧ v ∈ f.values := by
  have honly := hk.own v hv hc
  obtain ⟨hbound, hroot⟩ := honly v rfl
  rcases mem_valuesInUse.1 hv with ⟨j, f, hf, hvf⟩ | hr
  · obtain rfl := hbound j f hf hvf
    rw [functionCount_of_onlyBoundBy hf honly hi]
    exact ⟨hs f hf v hvf hc, f, hf, hvf⟩
  · exact absurd hr hroot

theorem releasable_of_keptByOwn (hk : h.KeptByOwn others frame) (hs : h.StoresOnce frame) :
    h.releasable (.frame frame :: others) frame = true := by
  obtain ⟨f, hf, v, hv, hc⟩ := hk.stores
  have hown : h.functionsOf (.frame frame :: others) frame ⊆
      h.ownFunctions (.frame frame :: others) frame f := by
    intro i hi
    obtain ⟨u, hu, huc, hui⟩ := mem_functionsOf.1 hi
    obtain ⟨hone, g, hg, hug⟩ := hk.functionCount_eq_one hs hu huc hui
    obtain rfl : f = g := Option.some.inj (hf.symm.trans hg)
    exact mem_ownFunctions.2 ⟨u, hug, huc, hui, hone⟩
  -- the functions made in the frame are those that its counted bindings store, so the counts agree
  have hlength : (h.functionsOf (.frame frame :: others) frame).length =
      h.selfCaptured (.frame frame :: others) frame := by
    rw [← length_ownFunctions hf]
    refine Nat.le_antisymm ?_ ?_
    · exact ((nodup_eraseDups _).subperm hown).length_le
    · exact ((nodup_ownFunctions _ hf).subperm (ownFunctions_subset hf)).length_le
  have hpos : 0 < h.selfCaptured (.frame frame :: others) frame := by
    obtain ⟨i, hi⟩ := exists_functionId? hc
    rw [← hlength, List.length_pos_iff_exists_mem]
    exact ⟨i, mem_functionsOf.2 ⟨v, mem_valuesInUse_of_frame hf hv, hc, hi⟩⟩
  have halone : (h.framesInUse (.frame frame :: others)).count frame = 1 := by
    rw [framesInUse_frame_cons, List.count_cons_self, List.count_eq_zero_of_not_mem hk.alone]
  simp only [releasable, Bool.and_eq_true, bne_iff_ne, beq_iff_eq, frameCount, halone, hlength]
  exact ⟨by omega, trivial⟩

theorem releasable_iff : h.releasable (.frame frame :: others) frame = true ↔
    h.KeptByOwn others frame ∧ h.StoresOnce frame :=
  ⟨fun hr => ⟨.of_releasable hr, .of_releasable hr⟩, fun ⟨hk, hs⟩ => releasable_of_keptByOwn hk hs⟩

end Heap

namespace Holder

/-- The references from outside that stay when a handle is given up. -/
def rootsWithout (w : Holder) (frame : String) : List Reference :=
  { w with handles := remove w.handles frame }.roots

theorem answer_release {w : Holder} {frame : String} {id : FrameId}
    (hl : w.handles.lookup frame = some id) :
    (w.step (.release frame)).2 = .flag (w.heap.releasable w.roots id) := by
  simp only [step, perform, hl]

/-- **Which frames are released.** After any sequence of operations, a release answers `true`
exactly if there is such a handle, only its own functions keep the frame besides that handle, and
the frame stores none of them twice. -/
theorem release_answers_true_iff (ops : List Operation) (frame : String) :
    let w := (empty.run ops).1
    (w.step (.release frame)).2 = .flag true ↔
      ∃ id, w.handles.lookup frame = some id ∧
        w.heap.KeptByOwn (w.rootsWithout frame) id ∧ w.heap.StoresOnce id := by
  intro w
  have hsound := (accounted_empty.run ops).toSound
  cases hl : w.handles.lookup frame with
  | none => simp [step, perform, hl]
  | some id =>
    have hperm := roots_perm_of_lookup hsound.wellNamed hl
    rw [answer_release hl, Heap.releasable_congr hperm]
    simp only [Answer.flag.injEq, Option.some.injEq, exists_eq_left']
    exact Heap.releasable_iff

/-- A function that its frame stores under two names and that nothing else keeps: only its own
function keeps the frame, but it is not released. -/
theorem not_released_under_two_names :
    let w := (empty.run [.new "F" none, .declare "F" "f" (some "h"), .define "F" "g" (.held "h"),
      .unhold "h"]).1
    w.handles.lookup "F" = some 0 ∧ w.heap.KeptByOwn (w.rootsWithout "F") 0 ∧
      (w.step (.release "F")).2 = .flag false := by
  intro w
  have hl : w.handles.lookup "F" = some 0 := by rfl
  have hids : w.heap.ids = [0] := by decide +kernel
  have hroots : w.rootsWithout "F" = [] := by rfl
  have hstores : (w.heap.get? 0).any (fun f => f.values.any fun v => v.closure? = some 0) = true :=
    by decide +kernel
  obtain ⟨f, hf, hv⟩ := Option.any_eq_true _ _ |>.1 hstores
  obtain ⟨v, hv, hc⟩ := List.any_eq_true.1 hv
  refine ⟨hl, ⟨⟨f, hf, v, hv, of_decide_eq_true hc⟩, ?_, ?_⟩, ?_⟩
  · rw [hroots]
    decide +kernel
  · refine fun v _ _ u _ => ⟨fun i g hg _ => ?_, by simp [hroots]⟩
    have hi := Heap.mem_ids_of_get? hg
    rwa [hids, List.mem_singleton] at hi
  · rw [answer_release hl]
    exact congrArg Answer.flag (by decide +kernel)

end Holder

end Scriptlet

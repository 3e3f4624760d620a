import Mathlib.Data.List.Perm.Subperm
import Scriptlet.Proofs.Scope.Reachability

/-!
# Released frames are unreachable

`release` compares two numbers: the references to a frame, and the bindings of the frame that store
a function made in it which nothing else keeps. If the first is one more than the second, then the
handle that asks and those functions are all that keeps the frame. Hence no root but that handle
reaches it, and emptying it changes nothing that can be reached.
-/

namespace Scriptlet

namespace Heap

variable {h : Heap} {roots others : List Reference} {frame id : FrameId}

/-- Whether a value is a function made in a frame that is kept by one reference only. -/
def storesOwn (h : Heap) (roots : List Reference) (frame : FrameId) (v : Value) : Bool :=
  v.closure? = some frame && v.functionId?.any fun id => h.functionCount roots id = 1

theorem selfCaptured_eq {f : Frame} (hf : h.get? frame = some f) :
    h.selfCaptured roots frame = f.values.countP (h.storesOwn roots frame) := by
  simp only [selfCaptured, hf]
  rfl

theorem storesOwn_iff {v : Value} : h.storesOwn roots frame v = true ↔
    v.closure? = some frame ∧ ∃ i, v.functionId? = some i ∧ h.functionCount roots i = 1 := by
  simp [storesOwn, Option.any_eq_true]

theorem exists_functionId? {v : Value} (hv : v.closure? = some frame) :
    ∃ i, v.functionId? = some i := by
  cases v with
  | function i callable => exact ⟨i, rfl⟩
  | number x => cases hv
  | string s => cases hv
  | boolean b => cases hv
  | null => cases hv

/-! ### The values in use, frame by frame -/

/-- The values in use are those of one allocated frame and the others. -/
theorem valuesInUse_perm (roots : List Reference) {f : Frame} (hf : h.get? id = some f) :
    (h.valuesInUse roots).Perm (f.values ++
      (((h.ids.erase id).filterMap h.get?).flatMap (·.values) ++ roots.filterMap (·.value?))) := by
  have hids := List.perm_cons_erase (mem_ids_of_get? hf)
  have hlive : h.live.Perm (f :: (h.ids.erase id).filterMap h.get?) := by
    have := hids.filterMap h.get?
    rwa [List.filterMap_cons_some hf] at this
  rw [← List.append_assoc]
  exact (hlive.flatMap_right (·.values)).append_right _

/-- A function that is kept once, and bound in a frame, is neither bound in another frame nor held
from outside. -/
theorem eq_of_functionCount_eq_one {f : Frame} {v w : Value} {i : FunctionId}
    (hf : h.get? frame = some f) (hv : v ∈ f.values) (hvi : v.functionId? = some i)
    (hw : w.functionId? = some i) (hone : h.functionCount roots i = 1) :
    (∀ j g, h.get? j = some g → w ∈ g.values → j = frame) ∧ .value w ∉ roots := by
  have hcount := (valuesInUse_perm roots hf).countP_eq fun v => v.functionId? = some i
  rw [functionCount] at hone
  rw [hone, List.countP_append] at hcount
  have hpos : 0 < f.values.countP fun v => v.functionId? = some i :=
    List.countP_pos_iff.2 ⟨v, hv, by simpa using hvi⟩
  -- the count is spent inside the frame, so it is zero over everything else
  have hrest := List.countP_eq_zero.1 (show List.countP (fun v => decide (v.functionId? = some i))
    (((h.ids.erase frame).filterMap h.get?).flatMap (·.values) ++ roots.filterMap (·.value?)) = 0
    by omega)
  refine ⟨fun j g hg hwg => ?_, fun hroot => ?_⟩
  · by_contra hne
    refine hrest w (List.mem_append_left _ (List.mem_flatMap.2 ⟨g, ?_, hwg⟩)) (by simpa using hw)
    exact List.mem_filterMap.2 ⟨j, (List.mem_erase_of_ne hne).2 (mem_ids_of_get? hg), hg⟩
  · exact hrest w (List.mem_append_right _ (List.mem_filterMap.2 ⟨_, hroot, rfl⟩))
      (by simpa using hw)

/-! ### The functions made in a releasable frame -/

/-- The functions stored by the bindings that `selfCaptured` counts. -/
def ownFunctions (h : Heap) (roots : List Reference) (frame : FrameId) (f : Frame) :
    List FunctionId :=
  (f.values.filter (h.storesOwn roots frame)).filterMap (·.functionId?)

theorem mem_ownFunctions {f : Frame} {i : FunctionId} :
    i ∈ h.ownFunctions roots frame f ↔
      ∃ v ∈ f.values, v.closure? = some frame ∧ v.functionId? = some i ∧
        h.functionCount roots i = 1 := by
  simp only [ownFunctions, List.mem_filterMap, List.mem_filter, storesOwn_iff]
  constructor
  · rintro ⟨v, ⟨hv, hc, j, hj, hone⟩, hi⟩
    cases hi.symm.trans hj
    exact ⟨v, hv, hc, hi, hone⟩
  · rintro ⟨v, hv, hc, hi, hone⟩
    exact ⟨v, ⟨hv, hc, i, hi, hone⟩, hi⟩

theorem length_ownFunctions {f : Frame} (hf : h.get? frame = some f) :
    (h.ownFunctions roots frame f).length = h.selfCaptured roots frame := by
  rw [selfCaptured_eq hf, ownFunctions, List.length_filterMap_eq_countP, List.countP_filter]
  refine List.countP_congr fun v _ => ?_
  simp only [Bool.and_eq_true, and_iff_right_iff_imp, storesOwn_iff]
  rintro ⟨-, i, hi, -⟩
  simp [hi]

theorem mem_functionsOf {i : FunctionId} : i ∈ h.functionsOf roots frame ↔
    ∃ v ∈ h.valuesInUse roots, v.closure? = some frame ∧ v.functionId? = some i := by
  simp [functionsOf, List.mem_eraseDups, and_assoc]

theorem mem_valuesInUse_of_frame {f : Frame} {v : Value} (hf : h.get? frame = some f)
    (hv : v ∈ f.values) : v ∈ h.valuesInUse roots :=
  List.mem_append_left _ (List.mem_flatMap.2 ⟨f, mem_live hf, hv⟩)

/-- No function is counted twice. -/
theorem nodup_ownFunctions (roots : List Reference) {f : Frame} (hf : h.get? frame = some f) :
    (h.ownFunctions roots frame f).Nodup := by
  rw [List.nodup_iff_count]
  intro i
  by_cases hi : i ∈ h.ownFunctions roots frame f
  · obtain ⟨-, -, -, -, hone⟩ := mem_ownFunctions.1 hi
    calc (h.ownFunctions roots frame f).count i
        = (f.values.filter (h.storesOwn roots frame)).countP
            (fun v => decide (v.functionId? = some i)) := by
          rw [ownFunctions, List.count_filterMap]
          refine List.countP_congr fun v _ => ?_
          simp
      _ ≤ f.values.countP (fun v => decide (v.functionId? = some i)) :=
          List.filter_sublist.countP_le
      _ ≤ (h.valuesInUse roots).countP (fun v => decide (v.functionId? = some i)) := by
          rw [(valuesInUse_perm roots hf).countP_eq, List.countP_append]
          exact Nat.le_add_right _ _
      _ = 1 := hone
  · rw [List.count_eq_zero_of_not_mem hi]
    exact Nat.zero_le 1

theorem ownFunctions_subset {f : Frame} (hf : h.get? frame = some f) :
    h.ownFunctions roots frame f ⊆ h.functionsOf roots frame := by
  intro i hi
  obtain ⟨v, hv, hc, hi, -⟩ := mem_ownFunctions.1 hi
  exact mem_functionsOf.2 ⟨v, mem_valuesInUse_of_frame hf hv, hc, hi⟩

/-- What keeps a releasable frame: no frame and no handle but the one that asks, and no function but
those that the frame itself stores and that are kept by nothing else. -/
theorem kept_by_own_of_releasable (hr : h.releasable (.frame frame :: others) frame = true) :
    ∃ f, h.get? frame = some f ∧ frame ∉ h.framesInUse others ∧
      h.functionsOf (.frame frame :: others) frame ⊆
        h.ownFunctions (.frame frame :: others) frame f := by
  simp only [releasable, Bool.and_eq_true, bne_iff_ne, beq_iff_eq] at hr
  obtain ⟨hpos, hcount⟩ := hr
  cases hf : h.get? frame with
  | none => simp [selfCaptured, hf] at hpos
  | some f =>
    have hnodup := nodup_ownFunctions (.frame frame :: others) hf
    have hsub := hnodup.subperm (ownFunctions_subset hf)
    have hle := hsub.length_le
    rw [length_ownFunctions hf] at hle
    have hframes : h.framesInUse (.frame frame :: others) = frame :: h.framesInUse others := rfl
    rw [frameCount, hframes, List.count_cons_self] at hcount
    refine ⟨f, rfl, ?_, ?_⟩
    · exact List.count_eq_zero.1 (by omega)
    · exact (hsub.perm_of_length_le (by rw [length_ownFunctions hf]; omega)).symm.subset

/-- A function made in a releasable frame is bound in the frame and nowhere else. -/
theorem bound_in_releasable (hr : h.releasable (.frame frame :: others) frame = true) {v w : Value}
    (hv : v ∈ h.valuesInUse (.frame frame :: others)) (hc : v.closure? = some frame)
    (hw : w.functionId? = v.functionId?) :
    (∀ i g, h.get? i = some g → w ∈ g.values → i = frame) ∧ .value w ∉ others := by
  obtain ⟨f, hf, -, hfunctions⟩ := kept_by_own_of_releasable hr
  obtain ⟨i, hi⟩ := exists_functionId? hc
  obtain ⟨u, hu, -, hui, hone⟩ :=
    mem_ownFunctions.1 (hfunctions (mem_functionsOf.2 ⟨v, hv, hc, hi⟩))
  obtain ⟨hbound, hroot⟩ := eq_of_functionCount_eq_one hf hu hui (hw.trans hi) hone
  exact ⟨hbound, fun h => hroot (List.mem_cons_of_mem _ h)⟩

/-- **A releasable frame is out of reach** of every root but the handle that asks for its
release. -/
theorem not_reaches_of_releasable (hr : h.releasable (.frame frame :: others) frame = true) :
    ¬ h.Reaches others frame := by
  obtain ⟨-, -, hframes, -⟩ := kept_by_own_of_releasable hr
  suffices ∀ i, h.Reaches others i → i ≠ frame from fun hid => this frame hid rfl
  intro i hid
  induction hid with
  | @root r i hmem ht =>
    rintro rfl
    cases r with
    | frame j =>
      exact hframes (List.mem_append_left _ (List.mem_filterMap.2 ⟨_, hmem, ht⟩))
    | value w =>
      have hw : w ∈ h.valuesInUse (.frame i :: others) :=
        List.mem_append_right _ (List.mem_filterMap.2 ⟨_, List.mem_cons_of_mem _ hmem, rfl⟩)
      exact (bound_in_releasable hr hw ht rfl).2 hmem
  | @next i target g _ hg hl ih =>
    rintro rfl
    rcases hl with hp | ⟨w, hw, hc⟩
    · exact hframes (List.mem_append_right _ (List.mem_filterMap.2 ⟨g, mem_live hg, hp⟩))
    · exact ih ((bound_in_releasable hr (mem_valuesInUse_of_frame hg hw) hc rfl).1 i g hg hw)

/-- Emptying a frame that is out of reach changes nothing that can be reached. -/
theorem agree_clear (hn : ¬ h.Reaches roots frame) : Agree roots h (h.clear frame) where
  size := (size_modify h frame _).symm
  nextFunction := rfl
  get? id hid := by
    have hne : frame ≠ id := fun heq => hn (heq ▸ hid)
    rw [clear, get?_modify, if_neg hne]

/-- A release leaves all that the other roots reach as it is. -/
theorem agree_release (h : Heap) (others : List Reference) (frame : FrameId) :
    Agree others h (h.release (.frame frame :: others) frame) := by
  unfold release
  split
  · rename_i hr
    exact agree_clear (not_reaches_of_releasable hr)
  · exact .refl others h

end Heap

end Scriptlet

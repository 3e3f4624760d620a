import Scriptlet.Proofs.Scope.Counts
import Scriptlet.Value.Host

/-!
# Functions without loops

Statements in which no loop occurs, not even in the functions they declare, and heaps in which no
function with a loop is bound. The operations on heaps bind no such function either, unless one is
given to them.
-/

namespace Scriptlet

namespace Stmt

mutual

/-- Whether no loop occurs in a statement. -/
def loopFree : Stmt → Bool
  | .block body => loopFreeEach body
  | .function _ _ body => loopFreeEach body
  | .ifElse _ thenBranch elseBranch => thenBranch.loopFree && loopFreeOption elseBranch
  | .whileLoop _ _ => false
  | .forLoop _ _ _ _ => false
  | _ => true

/-- Whether no loop occurs in statements. -/
def loopFreeEach : List Stmt → Bool
  | [] => true
  | s :: ss => s.loopFree && loopFreeEach ss

/-- Whether no loop occurs in a statement that may be missing. -/
def loopFreeOption : Option Stmt → Bool
  | some s => s.loopFree
  | none => true

end

theorem loopFreeEach_iff {ss : List Stmt} : loopFreeEach ss ↔ ∀ s ∈ ss, s.loopFree := by
  induction ss with
  | nil => simp [loopFreeEach]
  | cons s ss ih => simp [loopFreeEach, ih]

end Stmt

/-- Whether no loop occurs in the body of a function value. -/
def Value.loopFree : Value → Bool
  | .function _ (.closure decl _) => Stmt.loopFreeEach decl.body
  | _ => true

theorem Value.loopFree_of_closure?_eq_none {v : Value} (hv : v.closure? = none) :
    v.loopFree = true := by
  cases v with
  | function id callable =>
    cases callable with
    | closure decl frame => cases hv
    | host name arity key => rfl
  | number _ | string _ | boolean _ | null => rfl

/-- A host hands out no function with a loop unless it is given one. -/
def Host.AddsNoLoops (host : Host) : Prop :=
  ∀ key args v, host key args = .ok v → (∀ a ∈ args, a.loopFree) → v.loopFree

/-- The host functions that come with the project hand out an argument or no declared function. -/
theorem Host.standard_eq_ok {key : String} {args : List Value} {v : Value}
    (h : Host.standard key args = .ok v) : v ∈ args ∨ v.closure? = none := by
  have getD {o : Option Value} (ho : o.getD .null = v) : o = some v ∨ v.closure? = none := by
    cases o with
    | none =>
      subst ho
      exact .inr rfl
    | some a =>
      subst ho
      exact .inl rfl
  unfold standard at h
  split at h
  case h_1 =>
    unfold twice at h
    split at h <;> cases h
    exact .inr rfl
  case h_2 => exact (getD (Except.ok.inj h)).imp_left List.mem_of_head?
  case h_3 => exact (getD (Except.ok.inj h)).imp_left List.mem_of_getLast?
  case h_9 => cases h
  all_goals
    cases h
    exact .inr rfl

theorem Host.standard_addsNoLoops : Host.standard.AddsNoLoops := by
  intro key args v h hargs
  rcases standard_eq_ok h with hmem | hnone
  · exact hargs v hmem
  · exact Value.loopFree_of_closure?_eq_none hnone

namespace Frame

/-- Whether no function with a loop is bound in a frame. -/
def loopFree (f : Frame) : Bool := f.values.all Value.loopFree

theorem loopFree_bind {f : Frame} (hf : f.loopFree) (name : String) {v : Value}
    (hv : v.loopFree) : (f.bind name v).loopFree := by
  refine List.all_eq_true.2 fun w hw => ?_
  rcases mem_values_bind hw with rfl | hw
  · exact hv
  · exact List.all_eq_true.1 hf w hw

theorem loopFree_foldl_bind {f : Frame} (hf : f.loopFree) {bindings : List (String × Value)}
    (hbindings : ∀ b ∈ bindings, b.2.loopFree) :
    (bindings.foldl (fun f b => f.bind b.1 b.2) f).loopFree := by
  induction bindings generalizing f with
  | nil => exact hf
  | cons b bs ih =>
    refine ih (loopFree_bind hf b.1 (hbindings b List.mem_cons_self)) fun c hc => ?_
    exact hbindings c (List.mem_cons_of_mem b hc)

end Frame

namespace Heap

/-- Whether no function with a loop is bound in any frame. -/
def loopFree (h : Heap) : Bool := h.live.all Frame.loopFree

variable {h h' : Heap} {v : Value}

theorem loopFree_iff :
    h.loopFree ↔ ∀ id f, h.get? id = some f → f.loopFree := by
  rw [loopFree, List.all_eq_true]
  constructor
  · intro hlive id f hf
    exact hlive f (mem_live hf)
  · intro hall f hf
    obtain ⟨id, hid⟩ := mem_live_iff.1 hf
    exact hall id f hid

theorem loopFree_define (hh : h.loopFree) (owner : FrameId) (name : String) (hv : v.loopFree) :
    (h.define owner name v).loopFree := by
  rw [loopFree_iff] at hh ⊢
  intro id f hf
  rw [define, get?_modify] at hf
  split at hf
  · obtain ⟨g, hg, rfl⟩ := Option.map_eq_some_iff.1 hf
    exact Frame.loopFree_bind (hh id g hg) name hv
  · exact hh id f hf

theorem loopFree_push (hh : h.loopFree) {f : Frame} (hf : f.loopFree) : (h.push f).loopFree := by
  rw [loopFree_iff] at hh ⊢
  intro id g hg
  rw [get?_push] at hg
  split at hg
  · cases hg
    exact hf
  · exact hh id g hg

theorem loopFree_makeFunction (hh : h.loopFree) (callable : Callable) :
    (h.makeFunction callable).2.loopFree := by
  rw [loopFree_iff] at hh ⊢
  intro id f hf
  exact hh id f hf

theorem Within.loopFree (hw : h'.Within h) (hh : h.loopFree) : h'.loopFree := by
  rw [loopFree_iff] at hh ⊢
  intro id f' hf'
  obtain ⟨f, hf, -, hvalues⟩ := hw id f' hf'
  refine List.all_eq_true.2 fun w hw => ?_
  exact List.all_eq_true.1 (hh id f hf) w (hvalues hw)

theorem loopFree_of_lookup (hh : h.loopFree) {id : FrameId} {name : String}
    (hv : h.lookup id name = some v) : v.loopFree := by
  obtain ⟨owner, -, hv⟩ := Option.bind_eq_some_iff.1 hv
  obtain ⟨f, hf, hv⟩ := Option.bind_eq_some_iff.1 hv
  exact List.all_eq_true.1 (loopFree_iff.1 hh owner f hf) v (Frame.mem_values_of_get? hv)

end Heap

end Scriptlet

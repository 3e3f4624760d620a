import Scriptlet.Program
import Scriptlet.Proofs.Tree.Induction
import Scriptlet.Proofs.Tree.Resemblance

/-!
# Trees without dead code

What stands behind a return in a list of statements is dead: nothing ever comes to it. Without it,
also in blocks and in the functions that are declared, a statement is live. Two statements that are
equal without dead code resemble each other, since a resemblance does not compare what stands behind
a return.
-/

namespace Scriptlet

namespace Stmt

/-- Whether a statement is a return. -/
def isReturn : Stmt → Bool
  | .ret _ _ => true
  | _ => false

mutual

/-- The same statement without dead code, also in the bodies of functions. -/
def live : Stmt → Stmt
  | .block body => .block (liveEach body)
  | .function name params body => .function name params (liveEach body)
  | .ifElse condition thenBranch elseBranch =>
    .ifElse condition thenBranch.live (liveOption elseBranch)
  | .whileLoop condition body => .whileLoop condition body.live
  | .forLoop initializer condition increment body =>
    .forLoop (liveOption initializer) condition increment body.live
  | s => s

/-- The same statements without dead code, up to the first return. -/
def liveEach : List Stmt → List Stmt
  | [] => []
  | s :: ss => s.live :: if s.isReturn then [] else liveEach ss

/-- The same statement without dead code, if there is one. -/
def liveOption : Option Stmt → Option Stmt
  | some s => some s.live
  | none => none

end

theorem liveOption_eq_map (o : Option Stmt) : liveOption o = o.map live := by
  cases o <;> rfl

@[simp] theorem isReturn_live (s : Stmt) : s.live.isReturn = s.isReturn := by
  cases s <;> rfl

theorem isReturn_iff {s : Stmt} : s.isReturn = true ↔ ∃ keyword value, s = .ret keyword value := by
  cases s <;> simp [isReturn]

theorem liveEach_liveEach_of_forall {ss : List Stmt} (h : ∀ s ∈ ss, s.live.live = s.live) :
    liveEach (liveEach ss) = liveEach ss := by
  induction ss with
  | nil => rfl
  | cons s ss ih =>
    obtain ⟨hs, hss⟩ := List.forall_mem_cons.1 h
    rw [liveEach, liveEach, hs, isReturn_live]
    cases s.isReturn with
    | true => rfl
    | false => exact congrArg (s.live :: ·) (ih hss)

@[simp] theorem live_live (s : Stmt) : s.live.live = s.live := by
  induction s using Stmt.tree_induction with
  | expression | print | var | ret => rfl
  | block body ih => exact congrArg block (liveEach_liveEach_of_forall ih)
  | function name params body ih =>
    exact congrArg (function name params) (liveEach_liveEach_of_forall ih)
  | ifElse condition thenBranch elseBranch iht ihe =>
    cases elseBranch with
    | none => simp [live, liveOption, iht]
    | some s => simp [live, liveOption, iht, ihe s rfl]
  | whileLoop condition body ih => exact congrArg (whileLoop condition) ih
  | forLoop initializer condition increment body ihi ihb =>
    cases initializer with
    | none => simp [live, liveOption, ihb]
    | some s => simp [live, liveOption, ihb, ihi s rfl]

/-- No dead code is left. -/
@[simp] theorem liveEach_liveEach (ss : List Stmt) : liveEach (liveEach ss) = liveEach ss :=
  liveEach_liveEach_of_forall fun s _ => s.live_live

/-! ### Statements that are equal without dead code -/

theorem layer_of_live_eq {s s' : Stmt} (h : s.live = s'.live) :
    Layer Eq (fun s s' => s.live = s'.live) (fun ss ss' => liveEach ss = liveEach ss') s s' := by
  have refl : ∀ o : Option Expr, Option.Rel Eq o o := Resemblance.optionRel_refl fun _ => rfl
  cases s with
  | expression e =>
    cases s' <;> simp only [live, reduceCtorEq] at h
    exact .expression (expression.inj h)
  | print e =>
    cases s' <;> simp only [live, reduceCtorEq] at h
    exact .print (print.inj h)
  | var name initializer =>
    cases s' <;> simp only [live, reduceCtorEq] at h
    obtain ⟨rfl, rfl⟩ := var.inj h
    exact .var name (refl _)
  | block body =>
    cases s' <;> simp only [live, reduceCtorEq] at h
    exact .block (block.inj h)
  | function name params body =>
    cases s' <;> simp only [live, reduceCtorEq] at h
    obtain ⟨rfl, rfl, hbody⟩ := function.inj h
    exact .function name params hbody
  | ifElse condition thenBranch elseBranch =>
    cases s' <;> simp only [live, reduceCtorEq, liveOption_eq_map] at h
    obtain ⟨hcondition, hthen, helse⟩ := ifElse.inj h
    exact .ifElse hcondition hthen (Resemblance.optionRel_of_map_eq helse)
  | whileLoop condition body =>
    cases s' <;> simp only [live, reduceCtorEq] at h
    obtain ⟨hcondition, hbody⟩ := whileLoop.inj h
    exact .whileLoop hcondition hbody
  | forLoop initializer condition increment body =>
    cases s' with
    | forLoop initializer' condition' increment' body' =>
      simp only [live, liveOption_eq_map] at h
      obtain ⟨hinitializer, rfl, rfl, hbody⟩ := forLoop.inj h
      cases Resemblance.optionRel_of_map_eq hinitializer with
      | none => exact .forLoop (refl _) (refl _) hbody
      | some hs => exact .forEntry hs (by rw [live, live, hbody])
    | _ => simp [live] at h
  | ret keyword value =>
    cases s' <;> simp only [live, reduceCtorEq] at h
    obtain ⟨rfl, rfl⟩ := ret.inj h
    exact .ret keyword (refl _)

theorem listLayer_of_liveEach_eq {ss ss' : List Stmt} (h : liveEach ss = liveEach ss') :
    ListLayer (fun s s' => s.live = s'.live) (fun ss ss' => liveEach ss = liveEach ss') ss ss' := by
  cases ss with
  | nil =>
    cases ss' with
    | nil => exact .nil
    | cons s' ss' => cases h
  | cons s ss =>
    cases ss' with
    | nil => cases h
    | cons s' ss' =>
      obtain ⟨hs, hss⟩ := List.cons.inj h
      have hreturn : s.isReturn = s'.isReturn := by rw [← isReturn_live s, hs, isReturn_live]
      rw [hreturn] at hss
      cases hr : s'.isReturn with
      | true =>
        obtain ⟨keyword, value, rfl⟩ := isReturn_iff.1 (hreturn.trans hr)
        obtain ⟨keyword', value', rfl⟩ := isReturn_iff.1 hr
        exact .ret hs
      | false =>
        rw [hr] at hss
        exact .cons hs hss

end Stmt

/-- Trees that are equal without dead code resemble each other. -/
def Resemblance.live : Resemblance where
  expr := Eq
  stmt s s' := s.live = s'.live
  body ss ss' := Stmt.liveEach ss = Stmt.liveEach ss'
  expr_layer := same.expr_layer
  stmt_layer := Stmt.layer_of_live_eq
  body_layer := Stmt.listLayer_of_liveEach_eq
  body_refl _ := rfl

/-- The same program without dead code. -/
def Program.live (program : Program) : Program :=
  { program with statements := Stmt.liveEach program.statements }

end Scriptlet

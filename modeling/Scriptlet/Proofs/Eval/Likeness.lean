import Scriptlet.Proofs.Eval.Release
import Scriptlet.Proofs.Eval.Renumber

/-!
# Machines that differ in lines only

Two machines are alike if they agree, on all that can be reached, when the lines of all tokens are
left out of account. A host that makes the same calls on both sees the same output, and the same
reports but for lines: neither lines nor unreachable frames matter to any script.
-/

namespace Scriptlet

variable {f : Nat → Nat} {last : Value}

/-! ### Agreement and renumbering -/

theorem Frame.values_renumber (fr : Frame) :
    (fr.renumber f).values = fr.values.map (Value.renumber f) := by
  simp [values, renumber]

theorem Frame.leadsTo_renumber {fr : Frame} {target : FrameId} :
    (fr.renumber f).LeadsTo target ↔ fr.LeadsTo target := by
  unfold LeadsTo
  rw [parent_renumber, values_renumber]
  simp

theorem Heap.Reaches.of_renumber {h : Heap} {roots : List Reference} {id : FrameId}
    (hid : (h.renumber f).Reaches roots id) : h.Reaches roots id := by
  induction hid with
  | root hmem ht => exact .root hmem ht
  | next _ hf hl ih =>
    rw [get?_renumber] at hf
    obtain ⟨fr, hfr, rfl⟩ := Option.map_eq_some_iff.1 hf
    exact .next ih hfr (Frame.leadsTo_renumber.1 hl)

theorem Heap.Agree.renumber {h h' : Heap} {roots : List Reference} (a : h.Agree roots h')
    (f : Nat → Nat) : (h.renumber f).Agree roots (h'.renumber f) where
  size := by rw [size_renumber, size_renumber, a.size]
  nextFunction := a.nextFunction
  get? id hid := by rw [get?_renumber, get?_renumber, a.get? id hid.of_renumber]

namespace Machine

theorem Agree.renumber {m m' : Machine} {roots : List Reference} (a : Agree roots m m')
    (f : Nat → Nat) (last : Value) : Agree roots (m.renumber f last) (m'.renumber f last) := by
  obtain ⟨hh⟩ := a
  exact .intro (hh.renumber f)

/-! ### Machines without lines -/

/-- The machine with all lines forgotten. -/
def unlined (m : Machine) : Machine := m.renumber (fun _ => 0) .null

theorem unlined_renumber (f : Nat → Nat) (m : Machine) :
    (m.renumber f .null).unlined = m.unlined :=
  renumber_renumber f _ _ _ m

/-- Two machines that agree but for lines. -/
def Alike (m m' : Machine) : Prop := Agree (m.unlined.roots []) m.unlined m'.unlined

variable {m m' m'' : Machine}

/-- Renumbering hides no reference. -/
theorem covers_renumber (f : Nat → Nat) (m : Machine) :
    Reference.Covers (m.roots []) ((m.renumber f .null).roots []) := by
  intro r hr i ht
  rcases Machine.mem_roots.1 hr with rfl | rfl | rfl | hr
  · exact ⟨_, Machine.mem_roots.2 (Or.inl rfl), ht⟩
  · exact ⟨_, Machine.mem_roots.2 (Or.inr (Or.inl rfl)), ht⟩
  · refine ⟨_, Machine.mem_roots.2 (Or.inr (Or.inr (Or.inl rfl))), ?_⟩
    simpa [Machine.renumber, Reference.target?] using ht
  · cases hr

namespace Alike

theorem of_agree (hm : Agree (m.roots []) m m') : Alike m m' :=
  (hm.renumber _ _).of_covers (m.covers_renumber _)

theorem symm (hm : Alike m m') : Alike m' m := by
  have h := Agree.symm hm
  rwa [← hm.roots_eq []] at h

theorem trans (hm : Alike m m') (hm' : Alike m' m'') : Alike m m'' := by
  refine Agree.trans hm ?_
  rw [← Agree.roots_eq hm []]
  exact hm'

theorem sink_eq (hm : Alike m m') : m.sink = m'.sink := (Agree.sink_eq hm).symm

/-- The global frame is the same on both sides, but for lines. -/
theorem globals_eq (hm : Alike m m') :
    (m.heap.get? globals).map (Frame.renumber fun _ => 0) =
      (m'.heap.get? globals).map (Frame.renumber fun _ => 0) := by
  have hroot : .frame globals ∈ m.unlined.roots [] := Machine.mem_roots.2 (Or.inl rfl)
  have h := (Agree.heap hm).get? globals (.root hroot rfl)
  simpa [unlined, renumber] using h

theorem forget (hm : Alike m m') : Alike m.forget m'.forget := by
  have h := Agree.forget hm
  exact h

theorem report (hm : Alike m m') (e : Error) : Alike (m.report e) (m'.report e) := Agree.report hm e

theorem defineHost (hm : Alike m m') (name : String) (arity : Nat) (key : String) :
    Alike (m.defineHost name arity key) (m'.defineHost name arity key) := by
  have hunlined : ∀ n : Machine, (n.defineHost name arity key).unlined =
      n.unlined.defineHost name arity key := by
    intro n
    let made := n.heap.makeFunction (.host name arity key)
    exact (renumber_withHeap n (Heap.define_renumber _ made.2 globals name made.1)).symm
  unfold Alike
  rw [hunlined, hunlined]
  exact Agree.defineHost hm name arity key

end Alike

/-! ### Runs of machines that are alike -/

end Machine

/-- The errors of a program are complaints at its tokens. -/
theorem Program.errors_ne_lex (tokens : List Token) :
    ∀ e ∈ (Program.ofTokens tokens).errors, ∀ fault line, e ≠ .lex fault line := by
  intro e he fault line
  obtain ⟨n, -, rfl⟩ := List.mem_map.1 he
  obtain ⟨site, complaint⟩ := n
  cases site <;> simp [Note.toError]

/-- The report with all lines forgotten. -/
def Report.unlined (r : Report) : Report := r.renumber (fun _ => 0) .null

namespace Machine

/-- Two reports with machines, if there are any, that are the same but for lines. -/
def AlikeAfter : Option (Report × Machine) → Option (Report × Machine) → Prop :=
  Option.Rel fun x y => x.1.unlined = y.1.unlined ∧ Alike x.2 y.2

namespace AlikeAfter

variable {x y z : Option (Report × Machine)}

theorem of_agreeAfter (h : AgreeAfter x y) : AlikeAfter x y := by
  cases h with
  | none => exact .none
  | some h => exact .some ⟨congrArg _ h.1, .of_agree h.2⟩

theorem of_unlined (h : AgreeAfter (x.map (Prod.map Report.unlined unlined))
    (y.map (Prod.map Report.unlined unlined))) : AlikeAfter x y := by
  cases x with
  | none =>
    cases y with
    | none => exact .none
    | some b => cases h
  | some a =>
    cases y with
    | none => cases h
    | some b =>
      cases h with
      | some h => exact .some h

theorem symm (h : AlikeAfter x y) : AlikeAfter y x := by
  cases h with
  | none => exact .none
  | some h => exact .some ⟨h.1.symm, h.2.symm⟩

theorem trans (h : AlikeAfter x y) (h' : AlikeAfter y z) : AlikeAfter x z := by
  cases h with
  | none => exact h'
  | some h =>
    cases h' with
    | some h' => exact .some ⟨h.1.trans h'.1, h.2.trans h'.2⟩

end AlikeAfter

variable {setting : Setting} {m m' : Machine}

theorem Alike.runProgram (hkeeps : setting.host.KeepsToArguments)
    (hlines : setting.host.IgnoresLines) (fuel : Nat) {program : Program}
    (hes : ∀ e ∈ program.errors, ∀ fault line, e ≠ .lex fault line) (hm : Alike m m') :
    AlikeAfter (m.runProgram setting fuel program) (m'.runProgram setting fuel program) := by
  let off : Setting := { setting with releases := false }
  have hoff : ∀ n : Machine,
      AlikeAfter (n.runProgram setting fuel program) (n.runProgram off fuel program) := fun n =>
    .of_agreeAfter ((Agree.refl _ n).runProgram hkeeps fuel program)
  -- without releases, the program without lines runs on both machines without lines
  have hkeeps' : off.host.KeepsToArguments := hkeeps
  have hlines' : off.host.IgnoresLines := hlines
  have hunlined : AgreeAfter (m.unlined.runProgram off fuel (program.renumber fun _ => 0))
      (m'.unlined.runProgram off fuel (program.renumber fun _ => 0)) :=
    Agree.runProgram hkeeps' fuel _ hm
  unfold unlined at hunlined
  rw [runProgram_renumber _ _ hlines' rfl fuel program hes m,
    runProgram_renumber _ _ hlines' rfl fuel program hes m'] at hunlined
  exact (hoff m).trans ((AlikeAfter.of_unlined hunlined).trans (hoff m').symm)

theorem Alike.runScript (hkeeps : setting.host.KeepsToArguments)
    (hlines : setting.host.IgnoresLines) (fuel : Nat) (source : String) (hm : Alike m m') :
    AlikeAfter (m.runScript setting fuel source) (m'.runScript setting fuel source) := by
  unfold Machine.runScript
  split
  · exact .some ⟨rfl, hm.forget.report _⟩
  · exact hm.forget.runProgram hkeeps hlines fuel (Program.errors_ne_lex _)

theorem observe_run (setting : Setting) (fuel : Nat) (source : String) (calls : List HostCall)
    (m : Machine) : m.observe setting fuel (.run source :: calls) =
      (m.runScript setting fuel source).bind fun r =>
        (r.2.observe setting fuel calls).map (Prod.map (r.1 :: ·) id) := by
  unfold observe
  rw [session]
  cases m.runScript setting fuel source with
  | none => rfl
  | some r =>
    simp only [Option.bind_some, Option.map_map]
    rfl

/-- **No host can tell machines apart that are alike,** but for the lines in the reports. -/
theorem Alike.observe (hkeeps : setting.host.KeepsToArguments)
    (hlines : setting.host.IgnoresLines) (fuel : Nat) (calls : List HostCall) (hm : Alike m m') :
    (m.observe setting fuel calls).map (Prod.map (List.map Report.unlined) id) =
      (m'.observe setting fuel calls).map (Prod.map (List.map Report.unlined) id) := by
  induction calls generalizing m m' with
  | nil => simp [Machine.observe, Machine.session, hm.sink_eq]
  | cons call calls ih =>
    cases call with
    | run source =>
      have hrun := hm.runScript hkeeps hlines fuel source
      have hcons : ∀ (r : Report) (o : Option (List Report × Sink)),
          (o.map (Prod.map (r :: ·) id)).map (Prod.map (List.map Report.unlined) id) =
            (o.map (Prod.map (List.map Report.unlined) id)).map
              (Prod.map (r.unlined :: ·) id) := by
        intro r o
        cases o <;> rfl
      rw [observe_run, observe_run]
      generalize m.runScript setting fuel source = x, m'.runScript setting fuel source = y at hrun
      cases hrun with
      | none => rfl
      | some h =>
        obtain ⟨hreport, hnext⟩ := h
        simp only [Option.bind_some]
        rw [hcons, hcons, ih hnext, hreport]
    | defineHost name arity key => exact ih (hm.defineHost name arity key)

end Machine

end Scriptlet

import Scriptlet.Proofs.Eval.Indistinguishable
import Scriptlet.Proofs.Grammar.Language

/-!
# A `for` loop as a `while` loop

A `for` loop does what its initializer does, followed by a `while` loop whose body is a block of the
old body and the increment. That block makes a frame in every round, in which nothing is ever bound:
the body is a block of its own, and the increment is an expression. So this frame is spare, and the
two loops mirror each other round by round.

A condition that is missing counts as true without being evaluated, while the literal in its place
is a result of its own. Only then do the last results differ.
-/

namespace Scriptlet

/-- The statements that a `for` loop with a block as its body stands for. -/
def Stmt.lowered (initializer : Option Stmt) (condition increment : Option Expr)
    (body : List Stmt) : List Stmt :=
  initializer.toList ++ [.whileLoop (condition.getD (.literal (.boolean true)))
    (.block (.block body :: (increment.map Stmt.expression).toList))]

/-! ### Blocks on one side only -/

namespace Eval.Mirrors

variable {α β : Type} {setting : Setting} {T : Resemblance} {last : Prop} {W : Pairing}
  {i j : FrameId} {A : Pairing → α → β → Prop} {P : α → Prop} {x : Eval α} {y : Nat → Eval β}

theorem and_left (h : Mirrors T last W i j A x y) (hP : ∀ m a k, x m = .done a k → P a) :
    Mirrors T last W i j (fun V a b => A V a b ∧ P a) x y := by
  intro m m' hm
  refine (h m m' hm).imp_right fun ⟨o, hy, ho⟩ => ⟨o, hy, ?_⟩
  cases hx : x m with
  | done a k =>
    rw [hx] at ho
    cases ho with
    | done hD => exact .done (hD.imp fun V _ hA hk => ⟨⟨hA, hP m a k hx⟩, hk⟩)
  | failed e k =>
    rw [hx] at ho
    cases ho with
    | failed hF => exact .failed hF
  | outOfFuel =>
    rw [hx] at ho
    cases ho
    exact .outOfFuel

end Eval.Mirrors

section Blocks

open Filter Eval

variable {setting : Setting} {T : Resemblance} {last : Prop} {W : Pairing} {i j : FrameId}
  {A : Pairing → Flow → Flow → Prop}

/-- A block makes its frame, runs in it, and leaves it. -/
theorem execute_block_apply (hoff : setting.releases = false) (n : Nat) (held : List Reference)
    (body : List Stmt) (m : Machine) :
    execute setting (n + 2) held (.block body) m =
      Eval.andThen
        (executeAll setting n (.frame m.heap.size :: .frame m.current :: held) body)
        (fun _ k => { k with current := m.current })
        { m with heap := m.heap.push ⟨[], some m.current⟩, current := m.heap.size } := by
  rw [execute]
  change executeBlock setting (n + 1) held body m.heap.size
    { m with heap := m.heap.push ⟨[], some m.current⟩ } = _
  rw [executeBlock]
  have hleave : Machine.leave setting held m.heap.size m.current =
      fun _ k => { k with current := m.current } := by
    funext flow k
    exact Machine.leave_of_not_releases hoff held _ _ flow k
  rw [← hleave]
  rfl

theorem andThen_id {α : Type} (x : Eval α) (m : Machine) :
    Eval.andThen x (fun _ k => k) m = x m := by
  unfold Eval.andThen
  cases x m <;> rfl

/-- The frame of a block that only the second side runs is spare. -/
theorem Eval.Mirrors.blockRight (hoff : setting.releases = false) (hij : W.Scopes i j)
    {x : Eval Flow} {body : List Stmt} (held : List Reference)
    (h : ∀ V b held, W ≤ V → V.right b j →
      Mirrors T last V i b A x fun n => executeAll setting n held body) :
    Mirrors T last W i j A x fun n => execute setting n held (.block body) := by
  refine .step (fun _ => rfl) (.step (fun _ => rfl) fun m m' hm => ?_)
  have hle := W.le_addRight m'.heap.size j
  have hspare : (W.addRight m'.heap.size j).right m'.heap.size j := Or.inr ⟨rfl, rfl⟩
  have hentered : m.Paired T last (W.addRight m'.heap.size j) i m'.heap.size
      { m' with heap := m'.heap.push ⟨[], some m'.current⟩, current := m'.heap.size } := by
    have hheap := hm.heap.pushRight (hm.heap.lt_size hij).2
    rw [← hm.current'] at hheap hle ⊢
    exact { hm.withHeap hle hheap with current' := rfl }
  have hrun := (h _ _ (.frame m'.heap.size :: .frame m'.current :: held) hle hspare).andThen
    (fun _ k => k) (fun _ k => { k with current := m'.current }) hentered
    fun V _ _ k k' _ hk => { hk with current' := hm.current' }
  rw [andThen_id] at hrun
  refine hrun.imp_right fun ⟨o, hy, ho⟩ => ⟨o, hy.mono fun n hn => ?_, ho.mono hle⟩
  rw [← hn]
  exact execute_block_apply hoff n held body m'

/-- The frame of a block that only the first side runs is spare. -/
theorem Eval.Mirrors.blockLeft (hoff : setting.releases = false) (hij : W.Scopes i j)
    {y : Nat → Eval Flow} {body : List Stmt} (n : Nat) (held : List Reference)
    (h : ∀ n V a held, W ≤ V → V.left a i →
      Mirrors T last V a j A (executeAll setting n held body) y) :
    Mirrors T last W i j A (execute setting n held (.block body)) y := by
  intro m m' hm
  obtain _ | _ | n := n
  · exact Or.inl (by rw [execute]; rfl)
  · left
    rw [execute]
    change executeBlock setting 0 held body m.heap.size
      { m with heap := m.heap.push ⟨[], some m.current⟩ } = _
    rw [executeBlock]
    rfl
  · rw [execute_block_apply hoff]
    have hle := W.le_addLeft m.heap.size i
    have hspare : (W.addLeft m.heap.size i).left m.heap.size i := Or.inr ⟨rfl, rfl⟩
    have hentered : Machine.Paired T last (W.addLeft m.heap.size i) m.heap.size j
        { m with heap := m.heap.push ⟨[], some m.current⟩, current := m.heap.size } m' := by
      have hheap := hm.heap.pushLeft (hm.heap.lt_size hij).1
      rw [← hm.current] at hheap hle ⊢
      exact { hm.withHeap hle hheap with current := rfl }
    have hrun := (h n _ _ (.frame m.heap.size :: .frame m.current :: held) hle hspare).andThen
      (fun _ k => { k with current := m.current }) (fun _ k => k) hentered
      fun V _ _ k k' _ hk => { hk with current := hm.current }
    simp only [andThen_id] at hrun
    rcases hrun with hout | ⟨o, hy, ho⟩
    · exact .inl hout
    · exact .inr ⟨o, hy, ho.mono hle⟩

end Blocks

/-! ### Parts of the loops -/

section Parts

open Eval

variable {setting : Setting} (n : Nat) (held : List Reference)

/-- One round of a `for` loop with a block as its body. -/
def executeRound (setting : Setting) (n : Nat) (held : List Reference) (body : List Stmt)
    (increment : Option Expr) : Eval Flow := do
  match ← execute setting n held (.block body) with
  | .ret v => pure (.ret v)
  | .normal => do
    let _ ← evaluateOr setting n held .null increment
    pure .normal

theorem execute_forLoop_rounds (condition increment : Option Expr) (body : List Stmt) :
    execute setting (n + 1) held (.forLoop none condition increment (.block body)) = (do
      let v ← evaluateOr setting n held (.boolean true) condition
      if v.isTruthy then
        match ← executeRound setting n held body increment with
        | .ret v => pure (.ret v)
        | .normal => execute setting n held (.forLoop none condition increment (.block body))
      else
        pure .normal) := by
  rw [execute_forLoop]
  congr 1
  funext v
  split
  · rw [executeRound, bind_assoc]
    congr 1
    funext flow
    cases flow with
    | normal => rw [bind_assoc]; rfl
    | ret v => rfl
  · rfl

theorem executeAll_singleton (s : Stmt) :
    executeAll setting (n + 2) held [s] = execute setting (n + 1) held s := by
  rw [executeAll]
  conv => rhs; rw [← bind_pure (execute setting (n + 1) held s)]
  congr 1
  funext flow
  cases flow with
  | normal => rw [executeAll]
  | ret v => rfl

/-- A computation that is done has done its parts. -/
theorem bind_eq_done {α β : Type} {x : Eval α} {f : α → Eval β} {m k : Machine} {b : β}
    (h : (x >>= f) m = .done b k) : ∃ a l, x m = .done a l ∧ f a l = .done b k := by
  change Eval.bind x f m = _ at h
  unfold Eval.bind at h
  cases hx : x m with
  | done a l =>
    rw [hx] at h
    exact ⟨a, l, rfl, h⟩
  | failed e l =>
    rw [hx] at h
    cases h
  | outOfFuel =>
    rw [hx] at h
    cases h

/-- An initializer as grammars allow it does not return. -/
theorem flow_eq_normal_of_isClause {s : Stmt} (hs : s.isClause = true) {m k : Machine}
    {flow : Flow} (h : execute setting n held s m = .done flow k) : flow = .normal := by
  cases n with
  | zero =>
    rw [execute] at h
    cases h
  | succ n =>
    cases s with
    | expression e =>
      rw [execute] at h
      obtain ⟨_, _, -, h⟩ := bind_eq_done h
      cases h
      rfl
    | var name initializer =>
      rw [execute_var] at h
      obtain ⟨_, _, -, h⟩ := bind_eq_done h
      cases h
      rfl
    | _ => cases hs

end Parts

/-! ### The loops round by round -/

section Loops

open Eval

variable {setting : Setting} {last : Prop} {W : Pairing} {i j : FrameId} {held : List Reference}

/-- Evaluating `true` changes the last result only. -/
theorem evaluate_true (setting : Setting) (n : Nat) (held : List Reference) :
    evaluate setting (n + 1) held (.literal (.boolean true)) =
      fun m => .done (.boolean true) { m with lastValue := .boolean true } := by
  rw [evaluate_succ]
  rfl

/-- A statement on the second side may stand in a list of its own. -/
theorem singleton_mirrored {A : Pairing → Flow → Flow → Prop} {x : Eval Flow} {s : Stmt}
    (h : Mirrors .same last W i j A x fun k => execute setting k held s) :
    Mirrors .same last W i j A x fun k => executeAll setting k held [s] :=
  .step (fun _ => rfl) (.step (fun k => executeAll_singleton k held s) h.shift)

/-- A statement on the first side may stand in a list of its own. -/
theorem singleton_mirrors {A : Pairing → Flow → Flow → Prop} {y : Nat → Eval Flow} {s : Stmt}
    (h : ∀ n, Mirrors .same last W i j A (execute setting n held s) y) (n : Nat) :
    Mirrors .same last W i j A (executeAll setting n held [s]) y := by
  obtain _ | _ | n := n
  · rw [executeAll]
    exact .exhausted
  · rw [executeAll, execute]
    exact .exhausted
  · rw [executeAll_singleton]
    exact h (n + 1)

variable {initializer : Option Stmt} {condition increment : Option Expr} {body : List Stmt}
  (hhost : setting.host.Parametric) (hoff : setting.releases = false)

include hhost hoff

/-- A block inside frames that correspond up to spare frames. -/
theorem block_mirrored (n : Nat) (held held' : List Reference) (hij : W.Scopes i j)
    (body : List Stmt) :
    Mirrors .same last W i j (Flow.Paired .same)
      (execute setting n held (.block body)) fun k => execute setting k held' (.block body) := by
  cases n with
  | zero =>
    rw [execute]
    exact .exhausted
  | succ n => exact (mirroring hhost hoff .same last n).succ_block held held' hij rfl

/-- An initializer comes to its end on both sides. -/
theorem initializer_mirrored {s : Stmt} (hs : s.isClause = true) (n : Nat)
    (held held' : List Reference) (hij : W.pair i j) :
    Mirrors .same last W i j (fun V flow flow' => Flow.Paired .same V flow flow' ∧ flow = .normal)
      (execute setting n held s) fun k => execute setting k held' s :=
  ((mirroring hhost hoff .same last n).execute held held' hij rfl).and_left
    fun _ _ _ h => flow_eq_normal_of_isClause n held hs h

/-! The `while` loop does what the `for` loop does. -/

theorem condition_mirrored (hlast : last → condition.isSome = true) (n : Nat)
    (held held' : List Reference) (hij : W.Scopes i j) :
    Mirrors .same last W i j (Value.Paired .same)
      (evaluateOr setting n held (.boolean true) condition)
      fun k => evaluate setting k held' (condition.getD (.literal (.boolean true))) := by
  cases condition with
  | some e => exact (mirroring hhost hoff .same last n).evaluate held held' hij rfl
  | none =>
    refine .step (fun k => evaluate_true setting k held') ?_
    refine .of_eq (fun _ _ => rfl) fun m m' hm => .done ⟨W, le_rfl, .boolean true, ?_⟩
    exact { hm with lastValue := fun h => by cases hlast h }

/-- What comes after the old body in a round. -/
theorem increment_mirrored (n : Nat) (held held' : List Reference) (hij : W.Scopes i j) :
    Mirrors .same last W i j (Flow.Paired .same)
      (evaluateOr setting n held .null increment >>= fun _ => pure Flow.normal)
      fun k => executeAll setting k held' (increment.map Stmt.expression).toList := by
  cases increment with
  | none =>
    refine .step (fun k => by rw [Option.map_none, Option.toList_none, executeAll]) ?_
    exact .bind (.pure (A := Value.Paired .same) .null) fun V hV _ _ _ => .pure .normal
  | some e =>
    refine singleton_mirrored (.step (fun k => by rw [execute]) ?_)
    exact .bind ((mirroring hhost hoff .same last n).evaluate held held' hij rfl)
      fun V hV _ _ _ => .pure .normal

theorem round_mirrored (n : Nat) (held held' : List Reference) (hij : W.Scopes i j) :
    Mirrors .same last W i j (Flow.Paired .same)
      (executeRound setting n held body increment)
      fun k => execute setting k held'
        (.block (.block body :: (increment.map Stmt.expression).toList)) := by
  refine .blockRight hoff hij held' fun V b held' hV hb => ?_
  have hib : V.Scopes i b := .right hb (hij.mono hV)
  refine .step (fun k => by rw [executeAll]) ?_
  refine .bind (block_mirrored hhost hoff n held held' hib body) fun U hU flow flow' hflow => ?_
  cases hflow with
  | normal => exact increment_mirrored hhost hoff n held held' (hib.mono hU)
  | ret hv => exact .pure (.ret hv)

theorem forLoop_mirrored (hlast : last → condition.isSome = true) (n : Nat)
    (held held' : List Reference) (hij : W.Scopes i j) :
    Mirrors .same last W i j (Flow.Paired .same)
      (execute setting n held (.forLoop none condition increment (.block body)))
      fun k => execute setting k held' (.whileLoop (condition.getD (.literal (.boolean true)))
        (.block (.block body :: (increment.map Stmt.expression).toList))) := by
  induction n generalizing W i j with
  | zero =>
    rw [execute]
    exact .exhausted
  | succ n ih =>
    refine .step (fun k => by rw [execute]) ?_
    rw [execute_forLoop_rounds]
    refine .bind (condition_mirrored hhost hoff hlast n held held' hij) fun V hV v v' hv => ?_
    rw [hv.isTruthy]
    split
    · refine .bind (round_mirrored hhost hoff n held held' (hij.mono hV)) ?_
      intro U hU flow flow' h
      cases h with
      | normal => exact ih (hij.mono (hV.trans hU))
      | ret hv => exact .pure (.ret hv)
    · exact .pure .normal

theorem lowered_mirrored (hlast : last → condition.isSome = true)
    (hinit : ∀ s ∈ initializer, s.isClause = true) (n : Nat) (held held' : List Reference)
    (hij : W.pair i j) :
    Mirrors .same last W i j (Flow.Paired .same)
      (execute setting n held (.forLoop initializer condition increment (.block body)))
      fun k => executeAll setting k held' (Stmt.lowered initializer condition increment body) := by
  cases initializer with
  | none => exact singleton_mirrored (forLoop_mirrored hhost hoff hlast n held held' (.pair hij))
  | some s =>
    cases n with
    | zero =>
      rw [execute]
      exact .exhausted
    | succ n =>
      refine .step (fun k => by
        rw [Stmt.lowered, Option.toList_some, List.singleton_append, executeAll]) ?_
      rw [execute]
      refine .bind (initializer_mirrored hhost hoff (hinit s rfl) n held held' hij)
        fun V hV flow flow' h => ?_
      obtain ⟨hflow, rfl⟩ := h
      cases hflow
      exact singleton_mirrored
        (forLoop_mirrored hhost hoff hlast n held held' (.pair (hV.1 _ _ hij)))

/-! The `for` loop does what the `while` loop does. Running out of fuel is not mirrored, so the fuel
of the first side is taken apart, and the lemmas above do not apply with the sides exchanged. -/

theorem condition_mirrors (hlast : last → condition.isSome = true) (n : Nat)
    (held held' : List Reference) (hij : W.Scopes i j) :
    Mirrors .same last W i j (Value.Paired .same)
      (evaluate setting n held (condition.getD (.literal (.boolean true))))
      fun k => evaluateOr setting k held' (.boolean true) condition := by
  cases condition with
  | some e => exact (mirroring hhost hoff .same last n).evaluate held held' hij rfl
  | none =>
    cases n with
    | zero =>
      rw [evaluate]
      exact .exhausted
    | succ n =>
      rw [Option.getD_none, evaluate_true]
      refine .of_eq (fun _ _ => rfl) fun m m' hm => .done ⟨W, le_rfl, .boolean true, ?_⟩
      exact { hm with lastValue := fun h => by cases hlast h }

theorem increment_mirrors (n : Nat) (held held' : List Reference) (hij : W.Scopes i j) :
    Mirrors .same last W i j (Flow.Paired .same)
      (executeAll setting n held (increment.map Stmt.expression).toList)
      fun k => evaluateOr setting k held' .null increment >>= fun _ => pure Flow.normal := by
  cases increment with
  | none =>
    cases n <;> rw [Option.map_none, Option.toList_none, executeAll]
    · exact .exhausted
    · exact .pure .normal
  | some e =>
    refine singleton_mirrors (fun n => ?_) n
    cases n with
    | zero =>
      rw [execute]
      exact .exhausted
    | succ n =>
      rw [execute]
      exact .bind ((mirroring hhost hoff .same last n).evaluate held held' hij rfl)
        fun V hV _ _ _ => .pure .normal

theorem round_mirrors (n : Nat) (held held' : List Reference) (hij : W.Scopes i j) :
    Mirrors .same last W i j (Flow.Paired .same)
      (execute setting n held (.block (.block body :: (increment.map Stmt.expression).toList)))
      fun k => executeRound setting k held' body increment := by
  refine .blockLeft hoff hij n held fun n V a held hV ha => ?_
  have haj : V.Scopes a j := .left ha (hij.mono hV)
  cases n with
  | zero =>
    rw [executeAll]
    exact .exhausted
  | succ n =>
    rw [executeAll]
    refine .bind (block_mirrored hhost hoff n held held' haj body) fun U hU flow flow' hflow => ?_
    cases hflow with
    | normal => exact increment_mirrors hhost hoff n held held' (haj.mono hU)
    | ret hv => exact .pure (.ret hv)

theorem forLoop_mirrors (hlast : last → condition.isSome = true) (n : Nat)
    (held held' : List Reference) (hij : W.Scopes i j) :
    Mirrors .same last W i j (Flow.Paired .same)
      (execute setting n held (.whileLoop (condition.getD (.literal (.boolean true)))
        (.block (.block body :: (increment.map Stmt.expression).toList))))
      fun k => execute setting k held' (.forLoop none condition increment (.block body)) := by
  induction n generalizing W i j with
  | zero =>
    rw [execute]
    exact .exhausted
  | succ n ih =>
    refine .step (fun k => execute_forLoop_rounds k held' condition increment body) ?_
    rw [execute]
    refine .bind (condition_mirrors hhost hoff hlast n held held' hij) fun V hV v v' hv => ?_
    rw [hv.isTruthy]
    split
    · refine .bind (round_mirrors hhost hoff n held held' (hij.mono hV)) ?_
      intro U hU flow flow' h
      cases h with
      | normal => exact ih (hij.mono (hV.trans hU))
      | ret hv => exact .pure (.ret hv)
    · exact .pure .normal

theorem lowered_mirrors (hlast : last → condition.isSome = true)
    (hinit : ∀ s ∈ initializer, s.isClause = true) (n : Nat) (held held' : List Reference)
    (hij : W.pair i j) :
    Mirrors .same last W i j (Flow.Paired .same)
      (executeAll setting n held (Stmt.lowered initializer condition increment body))
      fun k => execute setting k held'
        (.forLoop initializer condition increment (.block body)) := by
  have hloop (n : Nat) {V : Pairing} (hV : V.pair i j) :
      Mirrors .same last V i j (Flow.Paired .same)
        (executeAll setting n held (Stmt.lowered none condition increment body))
        fun k => execute setting k held' (.forLoop none condition increment (.block body)) :=
    singleton_mirrors (fun n => forLoop_mirrors hhost hoff hlast n held held' (.pair hV)) n
  cases initializer with
  | none => exact hloop n hij
  | some s =>
    cases n with
    | zero =>
      rw [executeAll]
      exact .exhausted
    | succ n =>
      refine .step (fun k => by rw [execute]) ?_
      rw [Stmt.lowered, Option.toList_some, List.singleton_append, executeAll]
      refine .bind (initializer_mirrored hhost hoff (hinit s rfl) n held held' hij)
        fun V hV flow flow' h => ?_
      obtain ⟨-, rfl⟩ := h
      exact hloop n (hV.1 _ _ hij)

end Loops

/-- **A `for` loop means its `while` loop.** On every machine that a host can come to, a `for` loop
with a block as its body ends if and only if its initializer, followed by the `while` loop that it
stands for, does. Both have the same output and the same flow or error, no host can tell the
machines apart afterwards, and if the loop has a condition, the last results are the same. -/
theorem for_means_while {setting : Setting} (hhost : setting.host.Parametric) {m : Machine}
    (hm : m.Hosted setting) {initializer : Option Stmt}
    (hinit : ∀ s ∈ initializer, s.isClause = true) (condition increment : Option Expr)
    (body : List Stmt) :
    SameRuns setting .same (condition.isSome = true)
      (fun n => execute setting n [] (.forLoop initializer condition increment (.block body)) m)
      fun n => executeAll setting n [] (Stmt.lowered initializer condition increment body) m := by
  have hkeeps := hhost.keepsToArguments
  have hoff : setting.withoutReleases.host.Parametric := hhost
  refine sameRuns_of_mirrors hhost hm (steady_execute hkeeps _) (steady_executeAll hkeeps _)
    (fun n => ?_) fun n => ?_
  · exact lowered_mirrored hoff rfl id hinit n [] [] m.selfPairing_current
  · exact lowered_mirrors hoff rfl id hinit n [] [] m.selfPairing_current

/-- A loop with all its parts, whose body runs once. -/
theorem for_means_while_once :
    let i : Token := ⟨.mark .identifier, "i", 1⟩
    let initializer : Option Stmt := some (.var i (some (.literal (.boolean true))))
    let increment : Option Expr := some (.assign i (.literal (.boolean false)))
    let body : List Stmt := [.print (.var i)]
    (∀ s ∈ initializer, s.isClause = true) ∧
      ((execute .standard 10 [] (.forLoop initializer (some (.var i)) increment (.block body))
        (.start .unlimited)).final?.any fun k => k.sink.written.size = 5) = true ∧
      SameRuns .standard .same True
        (fun n => execute .standard n []
          (.forLoop initializer (some (.var i)) increment (.block body)) (.start .unlimited))
        fun n => executeAll .standard n []
          (Stmt.lowered initializer (some (.var i)) increment body) (.start .unlimited) := by
  intro i initializer increment body
  have hinit : ∀ s ∈ initializer, s.isClause = true := by
    intro s hs
    obtain rfl := Option.some.inj hs
    rfl
  refine ⟨hinit, by decide +kernel, ?_⟩
  have hsame : ((some (Expr.var i)).isSome = true) = True := eq_self true
  rw [← hsame]
  exact for_means_while Host.standard_parametric (.start .unlimited) hinit _ increment body

end Scriptlet

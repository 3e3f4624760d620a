import Scriptlet.Proofs.Eval.Semantics

/-!
# Runs with a record

A `Recording` is a computation that writes down entries in its course. A `Scribe` says which entries
belong to the steps of evaluation, and `Semantics.recording` carries evaluation out with them.
Whatever a scribe writes down, without the record this is plain evaluation (`erase_recording`), so
what a record tells is told of the run itself.
-/

namespace Scriptlet

/-- A computation that writes down entries in its course. -/
def Recording (ε α : Type) := Machine → List ε × Outcome α

namespace Recording

variable {ε α β : Type}

/-- Ends at once with a result. -/
protected def pure (a : α) : Recording ε α := fun m => ([], .done a m)

/-- One computation and then another that depends on its result. -/
protected def bind (x : Recording ε α) (f : α → Recording ε β) : Recording ε β := fun m =>
  match x m with
  | (t, .done a k) => (t ++ (f a k).1, (f a k).2)
  | (t, .failed e k) => (t, .failed e k)
  | (t, .outOfFuel) => (t, .outOfFuel)

instance : Monad (Recording ε) where
  pure := Recording.pure
  bind := Recording.bind

/-- A computation with the entries that follow from where it starts and how it ends. -/
def noting (entries : Machine → Outcome α → List ε) (x : Eval α) : Recording ε α := fun m =>
  (entries m (x m), x m)

/-- A computation without its record. -/
def erase (x : Recording ε α) : Eval α := fun m => (x m).2

theorem erase_bind (x : Recording ε α) (f : α → Recording ε β) :
    (x >>= f).erase = x.erase >>= fun a => (f a).erase := by
  funext m
  change (Recording.bind x f m).2 = Eval.bind (fun m => (x m).2) (fun a m => (f a m).2) m
  unfold Recording.bind Eval.bind
  dsimp only
  rcases x m with ⟨t, _ | _ | _⟩ <;> rfl

/-- One computation after another goes on where the first is done, and otherwise ends with it. What
is known of the first one is known in each case. -/
theorem bind_cases {Q : List ε × Outcome α → Prop} {P : List ε × Outcome β → Prop}
    {x : Recording ε α} {f : α → Recording ε β} {m : Machine} (hx : Q (x m))
    (done : ∀ t a k, Q (t, .done a k) → P (t ++ (f a k).1, (f a k).2))
    (failed : ∀ t e k, Q (t, .failed e k) → P (t, .failed e k))
    (outOfFuel : ∀ t, Q (t, .outOfFuel) → P (t, .outOfFuel)) : P ((x >>= f) m) := by
  change P (Recording.bind x f m)
  unfold Recording.bind
  generalize x m = r at hx
  rcases r with ⟨t, ⟨a, k⟩ | ⟨e, k⟩ | _⟩
  · exact done t a k hx
  · exact failed t e k hx
  · exact outOfFuel t hx

end Recording

/-- The entries that belong to the steps of evaluation. -/
structure Scribe (ε : Type) where
  /-- Of an operation of the machine, from how it ends. -/
  step : {α : Type} → Outcome α → List ε
  /-- Of remembering the value that an expression has got. -/
  remember : Value → Outcome Value → List ε
  /-- Of a line of output. -/
  print : String → Machine → Outcome Unit → List ε
  /-- Of a call from the given line that is refused. -/
  refused : Nat → Machine → List ε
  /-- Of a call that is not refused, from the count of active calls, the record of what it runs and
  how that ends. -/
  call : {α : Type} → Nat → List ε → Outcome α → List ε
  /-- Of a part of a script, from its references, where it starts, its record and how it ends. -/
  part : {α : Type} → List Reference → List Reference → (α → List Reference) → Machine →
    List ε → Outcome α → List ε

/-- Evaluation with the entries of a scribe. -/
def Semantics.recording {ε : Type} (w : Scribe ε) : Semantics (Recording ε) where
  step x := .noting (fun _ => w.step) x
  remember v := .noting (fun _ => w.remember v) (Eval.remember v)
  print line := .noting (w.print line) (Eval.print line)
  call setting line x m :=
    let inside := x { m with callDepth := m.callDepth + 1 }
    (if setting.callLimit ≤ m.callDepth then w.refused line m
      else w.call (m.callDepth + 1) inside.1 inside.2,
      plain.call setting line x.erase m)
  inFrame setting held frame body m :=
    ((body m.current { m with current := frame }).1,
      plain.inFrame setting held frame (fun previous => (body previous).erase) m)
  part before held refs x m := (w.part before held refs m (x m).1 (x m).2, (x m).2)

variable {ε : Type}

/-- A call is refused, or it runs as one more active call. -/
theorem Semantics.recording_call_cases {w : Scribe ε} {α : Type}
    {P : List ε × Outcome α → Prop} {setting : Setting} {line : Nat} {x : Recording ε α}
    {m : Machine}
    (refused : setting.callLimit ≤ m.callDepth →
      P (w.refused line m, .failed (.runtime .stackOverflow line) m))
    (run : m.callDepth < setting.callLimit →
      P (w.call (m.callDepth + 1) (x { m with callDepth := m.callDepth + 1 }).1
          (x { m with callDepth := m.callDepth + 1 }).2,
        Eval.counted x.erase m)) :
    P ((recording w).call setting line x m) := by
  by_cases hlimit : setting.callLimit ≤ m.callDepth
  · simpa only [recording, if_pos hlimit, plain_call_of_le hlimit] using refused hlimit
  · have hlt := Nat.not_le.1 hlimit
    simpa only [recording, if_neg hlimit, plain_call_of_lt hlt] using run hlt

/-! ### The evaluator behind the record -/

/-- Every step, without what is recorded of it, is the step of plain evaluation. -/
theorem recording_relates_plain (w : Scribe ε) (setting : Setting) :
    Relates (.recording w) .plain setting setting fun _ _ _ x y => x.erase = y where
  weaken h _ _ := h
  holding h := h
  pure _ _ := rfl
  bind {_ _ _ _ _ _ x _ f _} hx hf := by
    rw [Recording.erase_bind, hx]
    exact congrArg _ (funext hf)
  exhausted := rfl
  fail _ _ _ := rfl
  operator _ _ _ _ := rfl
  host _ _ _ := rfl
  lookup _ := rfl
  assign _ _ := rfl
  define _ _ := rfl
  declare _ := rfl
  remember _ := rfl
  newFrame _ _ := rfl
  current := rfl
  print _ := rfl
  call line _ _ hx := by
    subst hx
    rfl
  inFrame frame x y hx := by
    obtain rfl : (fun previous => (x previous).erase) = y := funext hx
    rfl
  part hx := hx

/-- **Without its record, recorded evaluation is the evaluator.** -/
theorem erase_recording (w : Scribe ε) (setting : Setting) (n : Nat) :
    Evaluator.Related (fun _ _ _ x y => x.erase = y) (.ofFuel (.recording w) setting n)
      (.direct setting n) := by
  rw [← Evaluator.ofFuel_plain]
  exact (recording_relates_plain w setting).ofFuel n

end Scriptlet

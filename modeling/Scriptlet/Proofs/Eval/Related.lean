import Scriptlet.Machine

/-!
# Computations that end alike

To compare two runs of a script step by step, `Outcome.Rel` relates how two computations end: both
with results, both with errors, or both for lack of fuel. It passes through the ways in which
computations are put together.
-/

namespace Scriptlet

variable {α β γ δ : Type}

/-- Two computations that end in the same way, with related results or errors and related states. -/
inductive Outcome.Rel (D : α → Machine → β → Machine → Prop)
    (F : Error → Machine → Error → Machine → Prop) : Outcome α → Outcome β → Prop
  | done {a : α} {m : Machine} {b : β} {m' : Machine} :
    D a m b m' → Rel D F (.done a m) (.done b m')
  | failed {e : Error} {m : Machine} {e' : Error} {m' : Machine} :
      F e m e' m' → Rel D F (.failed e m) (.failed e' m')
  | outOfFuel : Rel D F .outOfFuel .outOfFuel

namespace Outcome.Rel

variable {D D₁ : α → Machine → β → Machine → Prop} {D₂ : γ → Machine → δ → Machine → Prop}
  {F F₁ : Error → Machine → Error → Machine → Prop}

theorem imp {x : Outcome α} {y : Outcome β} (h : Rel D F x y)
    (hD : ∀ a m b m', D a m b m' → D₁ a m b m') (hF : ∀ e m e' m', F e m e' m' → F₁ e m e' m') :
    Rel D₁ F₁ x y := by
  cases h with
  | done h => exact .done (hD _ _ _ _ h)
  | failed h => exact .failed (hF _ _ _ _ h)
  | outOfFuel => exact .outOfFuel

theorem bind {x : Eval α} {y : Eval β} {f : α → Eval γ} {g : β → Eval δ} {m m' : Machine}
    (h : Rel D F (x m) (y m')) (hf : ∀ a n b n', D a n b n' → Rel D₂ F (f a n) (g b n')) :
    Rel D₂ F ((x >>= f) m) ((y >>= g) m') := by
  change Rel D₂ F (Eval.bind x f m) (Eval.bind y g m')
  unfold Eval.bind
  generalize x m = o, y m' = o' at h
  cases h with
  | done h => exact hf _ _ _ _ h
  | failed h => exact .failed h
  | outOfFuel => exact .outOfFuel

theorem andThen {x : Eval α} {y : Eval β} {exit : Option α → Machine → Machine}
    {exit' : Option β → Machine → Machine} {m m' : Machine} (h : Rel D F (x m) (y m'))
    (hD : ∀ a n b n', D a n b n' → D₁ a (exit (some a) n) b (exit' (some b) n'))
    (hF : ∀ e n e' n', F e n e' n' → F₁ e (exit none n) e' (exit' none n')) :
    Rel D₁ F₁ (Eval.andThen x exit m) (Eval.andThen y exit' m') := by
  unfold Eval.andThen
  generalize x m = o, y m' = o' at h
  cases h with
  | done h => exact .done (hD _ _ _ _ h)
  | failed h => exact .failed (hF _ _ _ _ h)
  | outOfFuel => exact .outOfFuel

end Outcome.Rel

end Scriptlet

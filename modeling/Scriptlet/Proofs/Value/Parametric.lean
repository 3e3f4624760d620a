import Mathlib.Data.List.Forall2
import Scriptlet.Proofs.Eval.Release
import Scriptlet.Value.Host
import Scriptlet.Value.Operators

/-!
# Values up to what functions run

No operator looks into a function, and a host sees of a function no more than its identity, its text
and how many arguments it takes. So operators and hosts give related results on values that are
related by any relation of the callables in them that keeps these.
-/

namespace Scriptlet

/-- The same plain values, or functions of one identity with related callables. -/
inductive Value.Rel (C : Callable → Callable → Prop) : Value → Value → Prop
  | number (x : Float) : Rel C (.number x) (.number x)
  | string (s : String) : Rel C (.string s) (.string s)
  | boolean (b : Bool) : Rel C (.boolean b) (.boolean b)
  | null : Rel C .null .null
  | function (id : FunctionId) {c c' : Callable} : C c c' → Rel C (.function id c) (.function id c')

/-- The same errors, or related results. -/
inductive ExceptRel {ε α β : Type} (R : α → β → Prop) : Except ε α → Except ε β → Prop
  | ok {a : α} {b : β} : R a b → ExceptRel R (.ok a) (.ok b)
  | error (e : ε) : ExceptRel R (.error e) (.error e)

/-- Whether related callables have the same text and take equally many arguments. -/
def Callable.KeepsFace (C : Callable → Callable → Prop) : Prop :=
  ∀ c c', C c c' → c.text = c'.text ∧ c.arity = c'.arity

theorem ExceptRel.mapError {ε ε' α β : Type} {R : α → β → Prop} {x : Except ε α} {y : Except ε β}
    (h : ExceptRel R x y) (f : ε → ε') : ExceptRel R (x.mapError f) (y.mapError f) := by
  cases h with
  | ok h => exact .ok h
  | error e => exact .error (f e)

namespace Value

variable {C D : Callable → Callable → Prop} {a a' b b' v w : Value}

namespace Rel

theorem imp (hCD : ∀ c c', C c c' → D c c') (h : Rel C v w) : Rel D v w := by
  cases h with
  | number x => exact .number x
  | string s => exact .string s
  | boolean b => exact .boolean b
  | null => exact .null
  | function id h => exact .function id (hCD _ _ h)

theorem refl_of (hv : ∀ id c, v = .function id c → C c c) : Rel C v v := by
  cases v with
  | number x => exact .number x
  | string s => exact .string s
  | boolean b => exact .boolean b
  | null => exact .null
  | function id c => exact .function id (hv id c rfl)

theorem ofLiteral (l : Literal) : Rel C (.ofLiteral l) (.ofLiteral l) := by
  cases l with
  | number x => exact .number x
  | string s => exact .string s
  | boolean b => exact .boolean b
  | null => exact .null

theorem isNull (h : Rel C v w) : v.isNull = w.isNull := by
  cases h <;> rfl

theorem isTruthy (h : Rel C v w) : v.isTruthy = w.isTruthy := by
  cases h <;> rfl

theorem typeName (h : Rel C v w) : v.typeName = w.typeName := by
  cases h <;> rfl

theorem text (hC : Callable.KeepsFace C) (h : Rel C v w) : v.text = w.text := by
  cases h with
  | function id h => exact (hC _ _ h).1
  | number x | string s | boolean b | null => rfl

theorem same (h : Rel C a a') (h' : Rel C b b') : a.same b = a'.same b' := by
  cases h <;> cases h' <;> rfl

/-! ### Operators -/

theorem withNumbers {operator : String} {op : Float → Float → Value}
    (hop : ∀ x y, Rel C (op x y) (op x y)) (h : Rel C a a') (h' : Rel C b b') :
    ExceptRel (Rel C) (withNumbers operator op a b) (withNumbers operator op a' b') := by
  cases h with
  | number x =>
    cases h' with
    | number y => exact .ok (hop x y)
    | string _ | boolean _ | null | function _ _ => exact .error _
  | string _ | boolean _ | null | function _ _ => exact .error _

theorem add (h : Rel C a a') (h' : Rel C b b') :
    ExceptRel (Rel C) (Value.add a b) (Value.add a' b') := by
  cases h with
  | number x =>
    cases h' with
    | number y => exact .ok (.number _)
    | string t => exact .ok (.string _)
    | boolean _ | null | function _ _ => exact .error _
  | string s =>
    cases h' with
    | number y => exact .ok (.string _)
    | string t => exact .ok (.string _)
    | boolean _ | null | function _ _ => exact .error _
  | boolean _ | null | function _ _ => exact .error _

theorem applyUnary (operator : Token) (h : Rel C v w) :
    ExceptRel (Rel C) (v.applyUnary operator) (w.applyUnary operator) := by
  unfold Value.applyUnary
  split
  · cases h with
    | number x => exact .ok (.number _)
    | string _ | boolean _ | null | function _ _ => exact .error _
  · rw [h.isTruthy]
    exact .ok (.boolean _)
  · exact .error _

theorem applyBinary (operator : Token) (h : Rel C a a') (h' : Rel C b b') :
    ExceptRel (Rel C) (Value.applyBinary operator a b) (Value.applyBinary operator a' b') := by
  unfold Value.applyBinary
  rw [h.same h']
  split
  case h_1 => exact h.add h'
  case h_9 | h_10 => exact .ok (.boolean _)
  case h_11 => exact .error _
  case h_2 | h_3 | h_4 => exact h.withNumbers (fun _ _ => .number _) h'
  all_goals exact h.withNumbers (fun _ _ => .boolean _) h'

theorem shortCircuits (operator : Token) (h : Rel C v w) :
    shortCircuits operator v = shortCircuits operator w := by
  simp only [Value.shortCircuits, h.isTruthy]

end Rel

end Value

/-! ### Hosts -/

/-- Whether a host makes no use of a function but to pass it on, to compare its identity and to ask
for its text and how many arguments it takes. -/
def Host.Parametric (host : Host) : Prop :=
  ∀ C, Callable.KeepsFace C → ∀ key args args', List.Forall₂ (Value.Rel C) args args' →
    ExceptRel (Value.Rel C) (host key args) (host key args')

/-- A host that does not look into functions hands out none but those that it is given. -/
theorem Host.Parametric.keepsToArguments {host : Host} (h : host.Parametric) :
    host.KeepsToArguments := by
  intro key args v frame hv hc
  -- callables are related to themselves, if their frame comes from an argument
  let C : Callable → Callable → Prop := fun c c' =>
    c = c' ∧ ∀ i, c.frame? = some i → ∃ a ∈ args, a.closure? = some i
  have hargs : ∀ l : List Value, (∀ a ∈ l, a ∈ args) → List.Forall₂ (Value.Rel C) l l := by
    intro l hl
    refine List.forall₂_same.2 fun a ha => .refl_of ?_
    rintro id c rfl
    exact ⟨rfl, fun i hi => ⟨_, hl _ ha, hi⟩⟩
  have hface : Callable.KeepsFace C := by
    rintro c _ ⟨rfl, -⟩
    exact ⟨rfl, rfl⟩
  have hres := h C hface key args args (hargs args fun _ ha => ha)
  rw [hv] at hres
  cases hres with
  | ok hrel =>
    cases hrel with
    | function id hC => exact hC.2 frame hc
    | number _ | string _ | boolean _ | null => cases hc

namespace Host

variable {C : Callable → Callable → Prop} {args args' : List Value}

theorem allSame_rel (h : List.Forall₂ (Value.Rel C) args args') : allSame args = allSame args' := by
  induction h with
  | nil => rfl
  | cons hv hargs ih =>
    cases hargs with
    | nil => rfl
    | cons hw hrest => rw [allSame, allSame, hv.same hw, ih]

theorem map_rel {α : Type} {f : Value → α} (hf : ∀ v w, Value.Rel C v w → f v = f w)
    (h : List.Forall₂ (Value.Rel C) args args') : args.map f = args'.map f := by
  rw [← List.forall₂_eq_eq_eq, List.forall₂_map_left_iff, List.forall₂_map_right_iff]
  exact h.imp hf

/-- The host functions that come with the project do not look into functions. -/
theorem standard_parametric : Host.standard.Parametric := by
  intro C hC key args args' h
  have hgetD : ∀ {o o' : Option Value}, Option.Rel (Value.Rel C) o o' →
      Value.Rel C (o.getD .null) (o'.getD .null) := by
    rintro o o' (h | _)
    · exact h
    · exact .null
  unfold standard
  split
  case h_1 =>
    cases h with
    | nil => exact .error _
    | cons hv _ =>
      cases hv with
      | number x => exact .ok (.number _)
      | string _ | boolean _ | null | function _ _ => exact .error _
  case h_2 =>
    refine .ok (hgetD ?_)
    cases h with
    | nil => exact .none
    | cons hv _ => exact .some hv
  case h_3 =>
    refine .ok (hgetD ?_)
    have hreverse := List.rel_reverse h
    rw [← List.head?_reverse, ← List.head?_reverse]
    generalize args.reverse = l, args'.reverse = l' at hreverse
    cases hreverse with
    | nil => exact .none
    | cons hv _ => exact .some hv
  case h_4 => rw [h.length_eq]; exact .ok (.number _)
  case h_5 => rw [map_rel (fun _ _ hv => hv.typeName) h]; exact .ok (.string _)
  case h_6 => rw [map_rel (fun _ _ hv => hv.text hC) h]; exact .ok (.string _)
  case h_7 =>
    have hmap := map_rel (fun _ _ hv => hv.isTruthy) h
    have hall : args.all Value.isTruthy = args'.all Value.isTruthy := by
      simpa [List.all_map] using congrArg (List.all · id) hmap
    rw [hall]
    exact .ok (.boolean _)
  case h_8 => rw [allSame_rel h]; exact .ok (.boolean _)
  case h_9 => rw [h.length_eq]; exact .error _
  case h_10 => exact .ok .null

end Host

end Scriptlet

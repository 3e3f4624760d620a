import Scriptlet.Proofs.Scope.Reachability
import Scriptlet.Proofs.Tree.Renumber
import Scriptlet.Scope.Given
import Scriptlet.Value.Host
import Scriptlet.Value.Operators

/-!
# Renumbered values and frames

The lines in the declarations of functions are all that a value knows of lines. No operator looks at
them, and neither does the search for a name.
-/

namespace Scriptlet

variable (f g : Nat → Nat)

/-- The same callable with its tokens on other lines. -/
def Callable.renumber : Callable → Callable
  | closure decl frame => closure (decl.renumber f) frame
  | host name arity key => host name arity key

namespace Callable

@[simp] theorem arity_renumber (c : Callable) : (c.renumber f).arity = c.arity := by
  cases c <;> simp [renumber, arity, FunctionDecl.renumber]

@[simp] theorem frame?_renumber (c : Callable) : (c.renumber f).frame? = c.frame? := by
  cases c <;> rfl

@[simp] theorem text_renumber (c : Callable) : (c.renumber f).text = c.text := by
  cases c <;> rfl

@[simp] theorem renumber_renumber (c : Callable) :
    (c.renumber f).renumber g = c.renumber (g ∘ f) := by
  cases c <;> simp [renumber]

@[simp] theorem renumber_id : renumber id = id := by
  funext c
  cases c <;> simp [renumber]

end Callable

/-- The same value with its tokens on other lines. -/
def Value.renumber : Value → Value
  | function id callable => function id (callable.renumber f)
  | v => v

namespace Value

@[simp] theorem closure?_renumber (v : Value) : (v.renumber f).closure? = v.closure? := by
  cases v <;> simp [renumber, closure?]

@[simp] theorem isNull_renumber (v : Value) : (v.renumber f).isNull = v.isNull := by
  cases v <;> rfl

@[simp] theorem isTruthy_renumber (v : Value) : (v.renumber f).isTruthy = v.isTruthy := by
  cases v <;> rfl

@[simp] theorem typeName_renumber (v : Value) : (v.renumber f).typeName = v.typeName := by
  cases v <;> rfl

@[simp] theorem text_renumber (v : Value) : (v.renumber f).text = v.text := by
  cases v <;> simp [renumber, text]

@[simp] theorem same_renumber (v w : Value) : (v.renumber f).same (w.renumber f) = v.same w := by
  cases v <;> cases w <;> rfl

@[simp] theorem renumber_ofLiteral (l : Literal) : (ofLiteral l).renumber f = ofLiteral l := by
  cases l <;> rfl

@[simp] theorem renumber_renumber (v : Value) :
    (v.renumber f).renumber g = v.renumber (g ∘ f) := by
  cases v <;> simp [renumber]

@[simp] theorem renumber_id : renumber id = id := by
  funext v
  cases v <;> simp [renumber]

/-! ### Operators -/

/-- Operands are added whatever the lines. -/
theorem add_renumber (a b : Value) :
    add (a.renumber f) (b.renumber f) = (add a b).map (renumber f) := by
  cases a <;> cases b <;> rfl

theorem withNumbers_renumber {operator : String} {op : Float → Float → Value}
    (hop : ∀ x y, (op x y).renumber f = op x y) (a b : Value) :
    withNumbers operator op (a.renumber f) (b.renumber f) =
      (withNumbers operator op a b).map (renumber f) := by
  cases a with
  | number x =>
    cases b with
    | number y => exact congrArg Except.ok (hop x y).symm
    | string _ | boolean _ | null | function _ _ => rfl
  | string _ | boolean _ | null | function _ _ => rfl

/-- A prefix operator does the same whatever its line. -/
theorem applyUnary_renumber (operator : Token) (v : Value) :
    (v.renumber f).applyUnary (operator.renumber f) =
      (v.applyUnary operator).map (renumber f) := by
  unfold applyUnary
  simp only [Token.kind_renumber, Token.lexeme_renumber, isTruthy_renumber]
  split
  · cases v <;> rfl
  · rfl
  · rfl

/-- An operator between values does the same whatever its line. -/
theorem applyBinary_renumber (operator : Token) (a b : Value) :
    applyBinary (operator.renumber f) (a.renumber f) (b.renumber f) =
      (applyBinary operator a b).map (renumber f) := by
  unfold applyBinary
  simp only [Token.kind_renumber, Token.lexeme_renumber, same_renumber]
  split
  case h_1 => exact add_renumber f a b
  case h_9 | h_10 | h_11 => rfl
  all_goals exact withNumbers_renumber f (fun _ _ => rfl) a b

@[simp] theorem shortCircuits_renumber (operator : Token) (v : Value) :
    shortCircuits (operator.renumber f) (v.renumber f) = shortCircuits operator v := by
  simp only [shortCircuits, isTruthy_renumber]
  rfl

end Value

/-! ### Host functions -/

/-- Whether a host takes no notice of the lines in the functions it is given. -/
def Host.IgnoresLines (host : Host) : Prop :=
  ∀ (f : Nat → Nat) (key : String) (args : List Value),
    host key (args.map (Value.renumber f)) = (host key args).map (Value.renumber f)

/-- Which values are the same is no matter of lines. -/
theorem Host.allSame_renumber (args : List Value) :
    allSame (args.map (Value.renumber f)) = allSame args := by
  induction args with
  | nil => rfl
  | cons v args ih =>
    cases args with
    | nil => rfl
    | cons w rest =>
      simp only [List.map_cons, allSame, Value.same_renumber] at ih ⊢
      rw [ih]

/-- The host functions that come with the project take no notice of lines. -/
theorem Host.standard_ignoresLines : Host.standard.IgnoresLines := by
  intro f key args
  have hgetD : ∀ o : Option Value, (o.map (Value.renumber f)).getD .null =
      (o.getD .null).renumber f := by
    intro o
    cases o <;> rfl
  unfold standard
  split
  case h_1 =>
    unfold twice
    cases args with
    | nil => rfl
    | cons v args => cases v <;> rfl
  case h_2 => rw [List.head?_map, hgetD]; rfl
  case h_3 => rw [List.getLast?_map, hgetD]; rfl
  case h_4 | h_9 => rw [List.length_map]; rfl
  case h_5 | h_6 | h_7 =>
    simp only [List.map_map, List.all_map, Function.comp_def, Value.typeName_renumber,
      Value.text_renumber, Value.isTruthy_renumber]
    rfl
  case h_8 => rw [allSame_renumber]; rfl
  case h_10 => rfl

/-! ### Frames -/

/-- The same frame with all tokens in it on other lines. -/
def Frame.renumber (fr : Frame) : Frame :=
  { fr with bindings := fr.bindings.map fun b => (b.1, b.2.renumber f) }

namespace Frame

@[simp] theorem parent_renumber (fr : Frame) : (fr.renumber f).parent = fr.parent := rfl

@[simp] theorem get?_renumber (fr : Frame) (name : String) :
    (fr.renumber f).get? name = (fr.get? name).map (Value.renumber f) := by
  unfold get? renumber
  dsimp only
  induction fr.bindings with
  | nil => rfl
  | cons b bs ih =>
    obtain ⟨x, v⟩ := b
    simp only [List.map_cons, List.lookup_cons]
    cases name == x with
    | true => rfl
    | false => exact ih

@[simp] theorem binds_renumber (fr : Frame) (name : String) :
    (fr.renumber f).binds name = fr.binds name := by
  simp [binds]

@[simp] theorem bind_renumber (fr : Frame) (name : String) (v : Value) :
    (fr.renumber f).bind name (v.renumber f) = (fr.bind name v).renumber f := by
  simp [renumber, bind, List.filter_map, Function.comp_def]

theorem foldl_bind_renumber (bindings : List (String × Value)) (fr : Frame) :
    (bindings.map fun b => (b.1, b.2.renumber f)).foldl (fun fr b => fr.bind b.1 b.2)
      (fr.renumber f) = (bindings.foldl (fun fr b => fr.bind b.1 b.2) fr).renumber f := by
  induction bindings generalizing fr with
  | nil => rfl
  | cons b bs ih =>
    simp only [List.map_cons, List.foldl_cons, bind_renumber]
    exact ih (fr.bind b.1 b.2)

@[simp] theorem renumber_renumber (fr : Frame) :
    (fr.renumber f).renumber g = fr.renumber (g ∘ f) := by
  simp [renumber]

@[simp] theorem renumber_id : renumber id = id := by
  funext fr
  simp [renumber]

end Frame

namespace Heap

/-- Two heaps are equal if they have the same frames and numbers. -/
theorem eq_of_frames_eq {h h' : Heap} (hf : h.frames = h'.frames) (hi : h.ids = h'.ids)
    (hn : h.nextFunction = h'.nextFunction) : h = h' := by
  cases h
  cases h'
  cases hf
  cases hi
  cases hn
  rfl

/-- The same heap with all tokens in it on other lines. -/
def renumber (h : Heap) : Heap where
  frames := h.frames.map (Option.map (Frame.renumber f))
  ids := h.ids
  nextFunction := h.nextFunction
  mem_ids id := by
    rw [h.mem_ids id, Array.getElem?_map]
    cases h.frames[id]? with
    | none => rfl
    | some o => cases o <;> rfl
  nodup_ids := h.nodup_ids

@[simp] theorem size_renumber (h : Heap) : (h.renumber f).size = h.size := by
  simp [renumber, size]

@[simp] theorem get?_renumber (h : Heap) (id : FrameId) :
    (h.renumber f).get? id = (h.get? id).map (Frame.renumber f) := by
  unfold get? renumber
  dsimp only
  rw [Array.getElem?_map]
  cases h.frames[id]? with
  | none => rfl
  | some o => cases o <;> rfl

/-- In which frame a name is found is no matter of lines. -/
@[simp] theorem resolve_renumber (h : Heap) (id : FrameId) (name : String) :
    (h.renumber f).resolve id name = h.resolve id name := by
  fun_induction Heap.resolve h id name with
  | case1 id hf => rw [resolve, get?_renumber, hf]; rfl
  | case2 id fr hf hb => rw [resolve, get?_renumber, hf]; simp [hb]
  | case3 id fr hf hb p hp hlt ih => rw [resolve, get?_renumber, hf]; simp [hb, hp, hlt, ih]
  | case4 id fr hf hb p hp hlt => rw [resolve, get?_renumber, hf]; simp [hb, hp, hlt]
  | case5 id fr hf hb hp => rw [resolve, get?_renumber, hf]; simp [hb, hp]

@[simp] theorem lookup_renumber (h : Heap) (id : FrameId) (name : String) :
    (h.renumber f).lookup id name = (h.lookup id name).map (Value.renumber f) := by
  unfold lookup
  rw [resolve_renumber]
  cases h.resolve id name with
  | none => rfl
  | some owner =>
    simp only [Option.bind_some, get?_renumber]
    cases h.get? owner with
    | none => rfl
    | some fr => exact Frame.get?_renumber f fr name

/-- A frame is added with the lines of its functions. -/
theorem push_renumber (h : Heap) (fr : Frame) :
    (h.renumber f).push (fr.renumber f) = (h.push fr).renumber f := by
  refine eq_of_frames_eq ?_ ?_ rfl
  · simp [push, renumber]
  · simp [push, renumber, size]

/-- A name is bound to the function with its new lines. -/
theorem define_renumber (h : Heap) (id : FrameId) (name : String) (v : Value) :
    (h.renumber f).define id name (v.renumber f) = (h.define id name v).renumber f := by
  refine eq_of_frames_eq (Array.ext_getElem? fun i => ?_) rfl rfl
  simp only [define, modify, renumber, Array.getElem?_map, Array.getElem?_modify]
  split
  · cases h.frames[i]? with
    | none => rfl
    | some o =>
      cases o with
      | none => rfl
      | some fr => simp
  · rfl

@[simp] theorem renumber_renumber (h : Heap) : (h.renumber f).renumber g = h.renumber (g ∘ f) := by
  refine eq_of_frames_eq ?_ rfl rfl
  simp [renumber, Function.comp_def]

@[simp] theorem renumber_id (h : Heap) : h.renumber id = h := by
  refine eq_of_frames_eq ?_ rfl rfl
  simp [renumber]

end Heap

end Scriptlet

import Mathlib.Order.Basic
import Scriptlet.Proofs.Tree.Resemblance
import Scriptlet.Proofs.Value.Parametric

/-!
# Heaps that correspond frame by frame

Two machines that run trees which resemble each other make frames with different numbers, and one of
them may put an empty frame where the other has none. A pairing says which frames correspond, and
which frames of either heap are spare: they stay empty for ever, so that a search for a name passes
through them. Frames that correspond bind the same names to corresponding values, and their parents
correspond up to spare frames. The operations on a heap keep it so, for a pairing that grows as
frames are made.
-/

namespace Scriptlet

/-- The frames of two heaps that correspond, and the spare frames of either with their parents. -/
structure Pairing where
  pair : FrameId → FrameId → Prop
  left : FrameId → FrameId → Prop
  right : FrameId → FrameId → Prop

namespace Pairing

/-- A pairing grows by frames that were not in it. -/
instance : Preorder Pairing where
  le W V := (∀ i j, W.pair i j → V.pair i j) ∧ (∀ i p, W.left i p → V.left i p) ∧
    ∀ j q, W.right j q → V.right j q
  le_refl _ := ⟨fun _ _ h => h, fun _ _ h => h, fun _ _ h => h⟩
  le_trans _ _ _ a b := ⟨fun i j h => b.1 i j (a.1 i j h), fun i p h => b.2.1 i p (a.2.1 i p h),
    fun j q h => b.2.2 j q (a.2.2 j q h)⟩

/-- Frames that correspond once the spare frames in front of them are passed. -/
inductive Scopes (W : Pairing) : FrameId → FrameId → Prop
  | pair {i j : FrameId} : W.pair i j → Scopes W i j
  | left {i p j : FrameId} : W.left i p → Scopes W p j → Scopes W i j
  | right {i j q : FrameId} : W.right j q → Scopes W i q → Scopes W i j

/-- The pairing with two more frames that correspond. -/
def addPair (W : Pairing) (a b : FrameId) : Pairing :=
  { W with pair := fun i j => W.pair i j ∨ i = a ∧ j = b }

/-- The pairing with one more spare frame of the first heap. -/
def addLeft (W : Pairing) (a p : FrameId) : Pairing :=
  { W with left := fun i q => W.left i q ∨ i = a ∧ q = p }

/-- The pairing with one more spare frame of the second heap. -/
def addRight (W : Pairing) (b q : FrameId) : Pairing :=
  { W with right := fun j p => W.right j p ∨ j = b ∧ p = q }

variable {W V : Pairing} {i j : FrameId}

theorem le_addPair (W : Pairing) (a b : FrameId) : W ≤ W.addPair a b :=
  ⟨fun _ _ h => Or.inl h, fun _ _ h => h, fun _ _ h => h⟩

theorem le_addLeft (W : Pairing) (a p : FrameId) : W ≤ W.addLeft a p :=
  ⟨fun _ _ h => h, fun _ _ h => Or.inl h, fun _ _ h => h⟩

theorem le_addRight (W : Pairing) (b q : FrameId) : W ≤ W.addRight b q :=
  ⟨fun _ _ h => h, fun _ _ h => h, fun _ _ h => Or.inl h⟩

theorem Scopes.mono (hle : W ≤ V) (h : W.Scopes i j) : V.Scopes i j := by
  induction h with
  | pair h => exact .pair (hle.1 _ _ h)
  | left h _ ih => exact .left (hle.2.1 _ _ h) ih
  | right h _ ih => exact .right (hle.2.2 _ _ h) ih

end Pairing

variable {T : Resemblance} {W V : Pairing}

/-! ### Values and frames that correspond -/

/-- Functions with bodies that resemble each other, made in frames that correspond. -/
inductive Callable.Paired (T : Resemblance) (W : Pairing) : Callable → Callable → Prop
  | closure (name : Token) (params : List Token) {body body' : List Stmt} {i j : FrameId} :
      T.body body body' → W.Scopes i j →
      Paired T W (.closure ⟨name, params, body⟩ i) (.closure ⟨name, params, body'⟩ j)
  | host (name : String) (arity : Nat) (key : String) :
      Paired T W (.host name arity key) (.host name arity key)

theorem Callable.Paired.keepsFace : KeepsFace (Callable.Paired T W) := by
  rintro _ _ (_ | _) <;> exact ⟨rfl, rfl⟩

theorem Callable.Paired.mono (hle : W ≤ V) {c c' : Callable} (h : c.Paired T W c') :
    c.Paired T V c' := by
  cases h with
  | closure name params hbody hscopes => exact .closure name params hbody (hscopes.mono hle)
  | host name arity key => exact .host name arity key

/-- Values that correspond. -/
abbrev Value.Paired (T : Resemblance) (W : Pairing) : Value → Value → Prop :=
  Value.Rel (Callable.Paired T W)

theorem Value.Rel.mono (hle : W ≤ V) {v w : Value} (h : v.Paired T W w) : v.Paired T V w :=
  h.imp fun _ _ hc => hc.mono hle

/-- The same name bound to values that correspond. -/
def BindingPaired (T : Resemblance) (W : Pairing) (b b' : String × Value) : Prop :=
  b.1 = b'.1 ∧ b.2.Paired T W b'.2

theorem BindingPaired.mono (hle : W ≤ V) {b b' : String × Value} (h : BindingPaired T W b b') :
    BindingPaired T V b b' :=
  ⟨h.1, h.2.mono hle⟩

/-- Names bound to arguments that correspond. -/
theorem BindingPaired.zip (names : List String) {args args' : List Value}
    (h : List.Forall₂ (Value.Paired T W) args args') :
    List.Forall₂ (BindingPaired T W) (names.zip args) (names.zip args') := by
  induction h generalizing names with
  | nil => cases names <;> exact .nil
  | cons hv _ ih =>
    cases names with
    | nil => exact .nil
    | cons name names => exact .cons ⟨rfl, hv⟩ (ih names)

/-- Two frames that correspond: the frame with number `i` of the first heap and that with number `j`
of the second. -/
structure Frame.Paired (T : Resemblance) (W : Pairing) (i j : FrameId) (f f' : Frame) : Prop where
  bindings : List.Forall₂ (BindingPaired T W) f.bindings f'.bindings
  parent : Option.Rel (fun p q => p < i ∧ q < j ∧ W.Scopes p q) f.parent f'.parent

namespace Frame.Paired

variable {i j : FrameId} {f f' : Frame} {v v' : Value}

theorem mono (hle : W ≤ V) (h : f.Paired T W i j f') : f.Paired T V i j f' where
  bindings := h.bindings.imp fun _ _ hb => hb.mono hle
  parent := by
    obtain ⟨-, hp⟩ := h
    generalize f.parent = o, f'.parent = o' at hp
    cases hp with
    | none => exact .none
    | some hp => exact .some ⟨hp.1, hp.2.1, hp.2.2.mono hle⟩

theorem get? (h : f.Paired T W i j f') (name : String) :
    Option.Rel (Value.Paired T W) (f.get? name) (f'.get? name) := by
  obtain ⟨hb, -⟩ := h
  unfold Frame.get?
  generalize f.bindings = l, f'.bindings = l' at hb
  induction hb with
  | nil => exact .none
  | @cons b b' bs bs' hb _ ih =>
    obtain ⟨x, v⟩ := b
    obtain ⟨_, v'⟩ := b'
    obtain ⟨rfl, hv⟩ := hb
    rw [List.lookup_cons, List.lookup_cons]
    cases name == x with
    | true => exact .some hv
    | false => exact ih

theorem binds (h : f.Paired T W i j f') (name : String) : f.binds name = f'.binds name := by
  have hget := h.get? name
  unfold Frame.binds
  generalize f.get? name = o, f'.get? name = o' at hget
  cases hget <;> rfl

theorem bind (h : f.Paired T W i j f') (name : String) (hv : v.Paired T W v') :
    (f.bind name v).Paired T W i j (f'.bind name v') where
  bindings := by
    refine .cons ⟨rfl, hv⟩ (List.rel_filter ?_ h.bindings)
    rintro b b' ⟨hname, -⟩
    dsimp only
    rw [hname]
  parent := h.parent

theorem foldl_bind {bs bs' : List (String × Value)} (h : f.Paired T W i j f')
    (hbs : List.Forall₂ (BindingPaired T W) bs bs') :
    (bs.foldl (fun f b => f.bind b.1 b.2) f).Paired T W i j
      (bs'.foldl (fun f b => f.bind b.1 b.2) f') := by
  induction hbs generalizing f f' with
  | nil => exact h
  | cons hb _ ih =>
    obtain ⟨hname, hv⟩ := hb
    rw [List.foldl_cons, List.foldl_cons, hname]
    exact ih (h.bind _ hv)

end Frame.Paired

/-! ### Heaps that correspond -/

/-- Two heaps that made the same functions so far, with frames that correspond as the pairing
says. -/
structure Heap.Paired (T : Resemblance) (W : Pairing) (h h' : Heap) : Prop where
  nextFunction : h.nextFunction = h'.nextFunction
  pair : ∀ i j, W.pair i j → ∃ f f', h.get? i = some f ∧ h'.get? j = some f' ∧ f.Paired T W i j f'
  left : ∀ i p, W.left i p → h.get? i = some ⟨[], some p⟩ ∧ p < i ∧ ∀ j, ¬ W.pair i j
  right : ∀ j q, W.right j q → h'.get? j = some ⟨[], some q⟩ ∧ q < j ∧ ∀ i, ¬ W.pair i j
  functional : ∀ i j j', W.pair i j → W.pair i j' → j = j'
  injective : ∀ i i' j, W.pair i j → W.pair i' j → i = i'

theorem Heap.lt_size_of_get? {h : Heap} {id : FrameId} {f : Frame} (hf : h.get? id = some f) :
    id < h.size := by
  by_contra hid
  rw [h.get?_of_size_le (Nat.le_of_not_lt hid)] at hf
  cases hf

namespace Heap.Paired

variable {h h' : Heap} {i j : FrameId} {v v' : Value}

theorem lt_size (a : h.Paired T W h') (hij : W.Scopes i j) : i < h.size ∧ j < h'.size := by
  induction hij with
  | pair hij =>
    obtain ⟨f, f', hf, hf', -⟩ := a.pair _ _ hij
    exact ⟨lt_size_of_get? hf, lt_size_of_get? hf'⟩
  | left hi _ ih => exact ⟨lt_size_of_get? (a.left _ _ hi).1, ih.2⟩
  | right hj _ ih => exact ⟨ih.1, lt_size_of_get? (a.right _ _ hj).1⟩

theorem resolve_left (a : h.Paired T W h') {p : FrameId} (hi : W.left i p) (name : String) :
    h.resolve i name = h.resolve p name := by
  obtain ⟨hf, hlt, -⟩ := a.left i p hi
  rw [resolve, hf]
  simp [Frame.binds, Frame.get?, hlt]

theorem resolve_right (a : h.Paired T W h') {q : FrameId} (hj : W.right j q) (name : String) :
    h'.resolve j name = h'.resolve q name := by
  obtain ⟨hf, hlt, -⟩ := a.right j q hj
  rw [resolve, hf]
  simp [Frame.binds, Frame.get?, hlt]

/-- A name is resolved to frames that correspond. -/
theorem resolve (a : h.Paired T W h') (hij : W.Scopes i j) (name : String) :
    Option.Rel W.pair (h.resolve i name) (h'.resolve j name) := by
  -- each step passes a spare frame or goes to the parents of two frames that correspond
  induction hn : i + j using Nat.strongRecOn generalizing i j with
  | ind n ih =>
    subst hn
    cases hij with
    | pair hij =>
      obtain ⟨f, f', hf, hf', hff⟩ := a.pair i j hij
      rw [Heap.resolve, Heap.resolve, hf, hf']
      dsimp only
      rw [hff.binds name]
      split
      · exact .some hij
      · have hparent := hff.parent
        generalize f.parent = o, f'.parent = o' at hparent
        cases hparent with
        | none => exact .none
        | some hp =>
          obtain ⟨hlt, hlt', hscopes⟩ := hp
          dsimp only
          rw [if_pos hlt, if_pos hlt']
          exact ih _ (Nat.add_lt_add hlt hlt') hscopes rfl
    | left hi hpj =>
      rw [a.resolve_left hi]
      exact ih _ (Nat.add_lt_add_right (a.left _ _ hi).2.1 j) hpj rfl
    | right hj hiq =>
      rw [a.resolve_right hj]
      exact ih _ (Nat.add_lt_add_left (a.right _ _ hj).2.1 i) hiq rfl

/-- A name has values that correspond. -/
theorem lookup (a : h.Paired T W h') (hij : W.Scopes i j) (name : String) :
    Option.Rel (Value.Paired T W) (h.lookup i name) (h'.lookup j name) := by
  have hresolve := a.resolve hij name
  unfold Heap.lookup
  generalize h.resolve i name = o, h'.resolve j name = o' at hresolve
  cases hresolve with
  | none => exact .none
  | some howner =>
    obtain ⟨f, f', hf, hf', hff⟩ := a.pair _ _ howner
    simp only [Option.bind_some, hf, hf']
    exact hff.get? name

theorem define (a : h.Paired T W h') (hij : W.pair i j) (name : String) (hv : v.Paired T W v') :
    (h.define i name v).Paired T W (h'.define j name v') where
  nextFunction := a.nextFunction
  pair i' j' hij' := by
    obtain ⟨f, f', hf, hf', hff⟩ := a.pair i' j' hij'
    rw [Heap.define, Heap.define, get?_modify, get?_modify]
    by_cases hi : i = i'
    · subst hi
      obtain rfl := a.functional _ _ _ hij hij'
      rw [if_pos rfl, if_pos rfl, hf, hf']
      exact ⟨_, _, rfl, rfl, hff.bind name hv⟩
    · have hj : j ≠ j' := by
        rintro rfl
        exact hi (a.injective _ _ _ hij hij')
      rw [if_neg hi, if_neg hj]
      exact ⟨f, f', hf, hf', hff⟩
  left i' p hi' := by
    obtain ⟨hf, hlt, hnone⟩ := a.left i' p hi'
    have hne : i ≠ i' := by
      rintro rfl
      exact hnone j hij
    rw [Heap.define, get?_modify, if_neg hne]
    exact ⟨hf, hlt, hnone⟩
  right j' q hj' := by
    obtain ⟨hf, hlt, hnone⟩ := a.right j' q hj'
    have hne : j ≠ j' := by
      rintro rfl
      exact hnone i hij
    rw [Heap.define, get?_modify, if_neg hne]
    exact ⟨hf, hlt, hnone⟩
  functional := a.functional
  injective := a.injective

theorem makeFunction (a : h.Paired T W h') {c c' : Callable} (hc : c.Paired T W c') :
    (h.makeFunction c).1.Paired T W (h'.makeFunction c').1 ∧
      (h.makeFunction c).2.Paired T W (h'.makeFunction c').2 := by
  refine ⟨?_, congrArg (· + 1) a.nextFunction, a.pair, a.left, a.right, a.functional,
    a.injective⟩
  unfold Heap.makeFunction
  rw [a.nextFunction]
  exact .function _ hc

/-- Frames that are made on both sides correspond. -/
theorem push (a : h.Paired T W h') {f f' : Frame} (hff : f.Paired T W h.size h'.size f') :
    (h.push f).Paired T (W.addPair h.size h'.size) (h'.push f') := by
  have hle := W.le_addPair h.size h'.size
  have hsize : ∀ i j, W.pair i j → i ≠ h.size ∧ j ≠ h'.size := fun i j hij =>
    ⟨Nat.ne_of_lt (a.lt_size (.pair hij)).1, Nat.ne_of_lt (a.lt_size (.pair hij)).2⟩
  refine ⟨a.nextFunction, ?_, ?_, ?_, ?_, ?_⟩
  · rintro i j (hij | ⟨rfl, rfl⟩)
    · obtain ⟨g, g', hg, hg', hgg⟩ := a.pair i j hij
      refine ⟨g, g', ?_, ?_, hgg.mono hle⟩
      · rw [get?_push, if_neg (hsize i j hij).1, hg]
      · rw [get?_push, if_neg (hsize i j hij).2, hg']
    · exact ⟨f, f', by simp, by simp, hff.mono hle⟩
  · intro i p hi
    obtain ⟨hf, hlt, hnone⟩ := a.left i p hi
    have hne : i ≠ h.size := Nat.ne_of_lt (lt_size_of_get? hf)
    refine ⟨by rw [get?_push, if_neg hne, hf], hlt, ?_⟩
    rintro j (hij | ⟨rfl, -⟩)
    · exact hnone j hij
    · exact hne rfl
  · intro j q hj
    obtain ⟨hf, hlt, hnone⟩ := a.right j q hj
    have hne : j ≠ h'.size := Nat.ne_of_lt (lt_size_of_get? hf)
    refine ⟨by rw [get?_push, if_neg hne, hf], hlt, ?_⟩
    rintro i (hij | ⟨-, rfl⟩)
    · exact hnone i hij
    · exact hne rfl
  · rintro i j j' (hij | ⟨rfl, rfl⟩) (hij' | ⟨hi, rfl⟩)
    · exact a.functional i j j' hij hij'
    · exact absurd hi (hsize i j hij).1
    · exact absurd rfl (hsize _ j' hij').1
    · rfl
  · rintro i i' j (hij | ⟨rfl, rfl⟩) (hij' | ⟨rfl, hj⟩)
    · exact a.injective i i' j hij hij'
    · exact absurd hj (hsize i j hij).2
    · exact absurd rfl (hsize i' _ hij').2
    · rfl

/-- A frame without bindings that is made on the first side only is spare. -/
theorem pushLeft (a : h.Paired T W h') {p : FrameId} (hp : p < h.size) :
    (h.push ⟨[], some p⟩).Paired T (W.addLeft h.size p) h' := by
  have hle := W.le_addLeft h.size p
  refine ⟨a.nextFunction, ?_, ?_, a.right, a.functional, a.injective⟩
  · intro i j hij
    obtain ⟨g, g', hg, hg', hgg⟩ := a.pair i j hij
    refine ⟨g, g', ?_, hg', hgg.mono hle⟩
    rw [get?_push, if_neg (Nat.ne_of_lt (lt_size_of_get? hg)), hg]
  · rintro i q (hi | ⟨rfl, rfl⟩)
    · obtain ⟨hf, hlt, hnone⟩ := a.left i q hi
      exact ⟨by rw [get?_push, if_neg (Nat.ne_of_lt (lt_size_of_get? hf)), hf], hlt, hnone⟩
    · exact ⟨by simp, hp, fun j hij => absurd (a.lt_size (.pair hij)).1 (Nat.lt_irrefl _)⟩

/-- A frame without bindings that is made on the second side only is spare. -/
theorem pushRight (a : h.Paired T W h') {q : FrameId} (hq : q < h'.size) :
    h.Paired T (W.addRight h'.size q) (h'.push ⟨[], some q⟩) := by
  have hle := W.le_addRight h'.size q
  refine ⟨a.nextFunction, ?_, a.left, ?_, a.functional, a.injective⟩
  · intro i j hij
    obtain ⟨g, g', hg, hg', hgg⟩ := a.pair i j hij
    refine ⟨g, g', hg, ?_, hgg.mono hle⟩
    rw [get?_push, if_neg (Nat.ne_of_lt (lt_size_of_get? hg')), hg']
  · rintro j p (hj | ⟨rfl, rfl⟩)
    · obtain ⟨hf, hlt, hnone⟩ := a.right j p hj
      exact ⟨by rw [get?_push, if_neg (Nat.ne_of_lt (lt_size_of_get? hf)), hf], hlt, hnone⟩
    · exact ⟨by simp, hq, fun i hij => absurd (a.lt_size (.pair hij)).2 (Nat.lt_irrefl _)⟩

end Heap.Paired

end Scriptlet

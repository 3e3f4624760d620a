import Scriptlet.Error

/-!
# Grammar rules

A rule reads tokens from the front of a list. It ends with a result or a fatal complaint, leaves an
end part of the list, and may note complaints on the way that do not stop it. Rules know nothing of
what was read before them, and what they leave is always an end part of what they were given, a
shorter one exactly when they say so: these laws are part of the type.
-/

namespace Scriptlet

/-- A complaint at a token, or at the end of the tokens for `none`. -/
structure Note where
  site : Option Token
  complaint : Complaint

/-- What a rule makes of a token list. -/
structure Step (α : Type) where
  /-- What was read, or the complaint that stopped the rule. -/
  result : Except Note α
  /-- The tokens left. -/
  rest : List Token
  /-- The complaints that did not stop the rule, in order. -/
  notes : List Note
  /-- Whether any token was read. -/
  moved : Bool

/-- A step that follows earlier notes and, possibly, tokens that were read earlier. -/
@[inline] def Step.after {α : Type} (notes : List Note) (moved : Bool) (s : Step α) : Step α :=
  { s with notes := notes ++ s.notes, moved := moved || s.moved }

/-- A rule of the grammar. -/
structure Rule (α : Type) where
  run : List Token → Step α
  /-- What a rule leaves is an end part of what it was given. -/
  suffix : ∀ ts, (run ts).rest <:+ ts
  /-- A rule that says it read something leaves less. -/
  moved_iff : ∀ ts, (run ts).moved = true ↔ (run ts).rest.length < ts.length

namespace Rule

variable {α β σ : Type}

/-- Reads nothing and succeeds. -/
@[inline] protected def pure (a : α) : Rule α where
  run ts := ⟨.ok a, ts, [], false⟩
  suffix _ := List.suffix_rfl
  moved_iff _ := by simp

/-- Lengths decrease along two end parts if they decrease along one of them. -/
theorem length_lt_iff {rest middle ts : List Token} (h₁ : rest <:+ middle) (h₂ : middle <:+ ts) :
    rest.length < ts.length ↔ middle.length < ts.length ∨ rest.length < middle.length := by
  have := h₁.length_le
  have := h₂.length_le
  omega

/-- Reads one thing and then another that may depend on it. -/
@[inline] protected def bind (r : Rule α) (f : α → Rule β) : Rule β where
  run ts :=
    match r.run ts with
    | ⟨.error e, rest, notes, moved⟩ => ⟨.error e, rest, notes, moved⟩
    | ⟨.ok a, rest, notes, moved⟩ => ((f a).run rest).after notes moved
  suffix ts := by
    have hr := r.suffix ts
    split
    · rename_i heq
      rwa [heq] at hr
    · rename_i a rest notes moved heq
      rw [heq] at hr
      exact ((f a).suffix rest).trans hr
  moved_iff ts := by
    have hr := r.suffix ts
    have hm := r.moved_iff ts
    split
    · rename_i heq
      rwa [heq] at hm
    · rename_i a rest notes moved heq
      rw [heq] at hr hm
      have hf := (f a).suffix rest
      simp only [Step.after, Bool.or_eq_true, hm, (f a).moved_iff rest]
      exact (length_lt_iff hf hr).symm

instance : Monad Rule where
  pure := Rule.pure
  bind := Rule.bind

/-- Fails with a complaint at the next token. -/
@[inline] def fail (c : Complaint) : Rule α where
  run ts := ⟨.error ⟨ts.head?, c⟩, ts, [], false⟩
  suffix _ := List.suffix_rfl
  moved_iff _ := by simp

/-- Notes a complaint and goes on. -/
@[inline] def note (n : Note) : Rule Unit where
  run ts := ⟨.ok (), ts, [n], false⟩
  suffix _ := List.suffix_rfl
  moved_iff _ := by simp

/-- Notes a complaint at the next token and goes on. -/
@[inline] def noteHere (c : Complaint) : Rule Unit where
  run ts := ⟨.ok (), ts, [⟨ts.head?, c⟩], false⟩
  suffix _ := List.suffix_rfl
  moved_iff _ := by simp

/-- The next token, left in place. -/
@[inline] def peek? : Rule (Option Token) where
  run ts := ⟨.ok ts.head?, ts, [], false⟩
  suffix _ := List.suffix_rfl
  moved_iff _ := by simp

/-- Whether the next token is the given mark. -/
@[inline] def nextIs (m : Mark) : Rule Bool where
  run ts := ⟨.ok (ts.head?.any (·.is m)), ts, [], false⟩
  suffix _ := List.suffix_rfl
  moved_iff _ := by simp

/-- Drops the next token. -/
@[inline] def skip : Rule Unit where
  run ts := ⟨.ok (), ts.tail, [], !ts.isEmpty⟩
  suffix ts := List.tail_suffix ts
  moved_iff ts := by cases ts <;> simp

/-- Takes the next token if it is one of the given marks. -/
def acceptAny (marks : List Mark) : Rule (Option Token) where
  run
    | [] => ⟨.ok none, [], [], false⟩
    | t :: ts =>
      if marks.any fun m => t.is m then
        ⟨.ok (some t), ts, [], true⟩
      else
        ⟨.ok none, t :: ts, [], false⟩
  suffix
    | [] => List.suffix_rfl
    | t :: ts => by
      show (if _ then _ else _ : Step (Option Token)).rest <:+ _
      split
      · exact List.suffix_cons t ts
      · exact List.suffix_rfl
  moved_iff
    | [] => by simp
    | t :: ts => by
      show (if _ then _ else _ : Step (Option Token)).moved = true ↔
        (if _ then _ else _ : Step (Option Token)).rest.length < _
      split <;> simp

/-- Takes the next token if it is the given mark. -/
@[inline] def accept (m : Mark) : Rule (Option Token) := acceptAny [m]

/-- Takes the next token, which has to be the given mark. -/
def expect (m : Mark) (what : Expectation) : Rule Token := do
  match ← accept m with
  | some t => pure t
  | none => fail (.expected what)

/-- The steps of `iterate`. -/
def iterateRun (round : σ → Rule (σ × Bool)) (s : σ) (ts : List Token) : Step σ :=
  match h : (round s).run ts with
  | ⟨.error e, rest, notes, moved⟩ => ⟨.error e, rest, notes, moved⟩
  | ⟨.ok (s', more), rest, notes, moved⟩ =>
    if hm : more ∧ moved then
      have : rest.length < ts.length := by
        have hr := (round s).moved_iff ts
        rw [h] at hr
        exact hr.1 hm.2
      (iterateRun round s' rest).after notes moved
    else
      ⟨.ok s', rest, notes, moved⟩
termination_by ts.length

theorem iterateRun_suffix (round : σ → Rule (σ × Bool)) (s : σ) (ts : List Token) :
    (iterateRun round s ts).rest <:+ ts := by
  have hr := (round s).suffix ts
  have hm := (round s).moved_iff ts
  rw [iterateRun]
  split
  · rename_i heq
    rwa [heq] at hr
  · rename_i s' more rest notes moved heq
    rw [heq] at hr hm
    split
    · rename_i h
      have : rest.length < ts.length := hm.1 h.2
      exact (iterateRun_suffix round s' rest).trans hr
    · exact hr
termination_by ts.length

theorem iterateRun_moved_iff (round : σ → Rule (σ × Bool)) (s : σ) (ts : List Token) :
    (iterateRun round s ts).moved = true ↔ (iterateRun round s ts).rest.length < ts.length := by
  have hr := (round s).suffix ts
  have hm := (round s).moved_iff ts
  rw [iterateRun]
  split
  · rename_i heq
    rwa [heq] at hm
  · rename_i s' more rest notes moved heq
    rw [heq] at hr hm
    split
    · rename_i h
      have : rest.length < ts.length := hm.1 h.2
      simp only [Step.after, Bool.or_eq_true, hm, iterateRun_moved_iff round s' rest]
      exact (length_lt_iff (iterateRun_suffix round s' rest) hr).symm
    · exact hm
termination_by ts.length

/-- Repeats a rule that turns a state into a new one and says whether to go on. A round that reads
nothing is the last. -/
def iterate (round : σ → Rule (σ × Bool)) (s : σ) : Rule σ where
  run := iterateRun round s
  suffix := iterateRun_suffix round s
  moved_iff := iterateRun_moved_iff round s

end Rule

end Scriptlet

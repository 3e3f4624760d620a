import Scriptlet.Proofs.Grammar.Cursor
import Scriptlet.Proofs.Grammar.Completeness

/-!
# The machine on its tape

Where the machine stands, what may happen on its way, and what each of its operations does there. A
`Trail` is a trace in which every look is in range, the index of the next token only grows and stays
within the text, the nesting stays within its limit, every rule is left at the depth it was entered
at, and every declaration that is entered in the text takes a token.
-/

namespace Scriptlet

open Cursor (Event End)

/-- A token list with an end token: the text in front of the first one, and what follows it. -/
structure Tape where
  text : List Token
  last : Token
  more : List Token
  isText : ∀ t ∈ text, t.kind ≠ .mark .eof
  ends : last.kind = .mark .eof

/-- The same registers one token further on. -/
def Cursor.next (c : Cursor) : Cursor := { c with current := c.current + 1 }

/-- The machine has just passed the given token. -/
def Cursor.Behind (c : Cursor) (t : Token) : Prop := c.tokens[c.current - 1]? = some t

namespace Tape

variable (T : Tape)

/-- All tokens of a tape. -/
def tokens : List Token := T.text ++ T.last :: T.more

/-- The end of the text is a token of the tape. -/
theorem length_text_lt : T.text.length < T.tokens.length := by
  rw [tokens, List.length_append, List.length_cons]
  omega

/-- The machine stands in front of an end part of the text. -/
structure Stands (c : Cursor) (ts : List Token) : Prop where
  tokens : c.tokens = T.tokens
  left : ∃ front, T.text = front ++ ts ∧ c.current = front.length

namespace Stands

variable {T} {c : Cursor} {ts : List Token} {t : Token}

/-- What is ahead is what the cursor has not passed. -/
theorem current_eq (h : T.Stands c ts) : c.current + ts.length = T.text.length := by
  obtain ⟨front, htext, hcurrent⟩ := h.left
  rw [htext, hcurrent, List.length_append]

theorem current_le (h : T.Stands c ts) : c.current ≤ T.text.length := by
  have := h.current_eq
  omega

/-- The token that comes next is the first one left, or the end token. -/
theorem getElem? (h : T.Stands c ts) : c.tokens[c.current]? = some (ts.head?.getD T.last) := by
  obtain ⟨front, htext, hcurrent⟩ := h.left
  rw [h.tokens, Tape.tokens, htext, hcurrent, List.append_assoc,
    List.getElem?_append_right (Nat.le_refl _), Nat.sub_self]
  cases ts <;> rfl

/-- What is ahead is the text from the cursor on. -/
theorem drop_eq (h : T.Stands c ts) : T.text.drop c.current = ts := by
  obtain ⟨front, htext, hcurrent⟩ := h.left
  rw [htext, hcurrent, List.drop_left]

/-- Past a token, the cursor stands before the next. -/
theorem next (h : T.Stands c (t :: ts)) : T.Stands c.next ts := by
  obtain ⟨front, htext, hcurrent⟩ := h.left
  refine ⟨h.tokens, front ++ [t], ?_, ?_⟩
  · rw [htext, List.append_assoc]
    rfl
  · rw [Cursor.next, hcurrent, List.length_append]
    rfl

theorem behind (h : T.Stands c (t :: ts)) : c.next.Behind t := h.getElem?

/-- The cursor is at the end exactly if nothing is ahead. -/
theorem is_eof (h : T.Stands c ts) : (ts.head?.getD T.last).is .eof = ts.isEmpty := by
  obtain ⟨front, htext, -⟩ := h.left
  cases ts with
  | nil => exact Token.is_eq_true_iff.2 T.ends
  | cons t ts =>
    have ht : t ∈ T.text := by simp [htext]
    exact Bool.eq_false_iff.2 fun heof => T.isText t ht (Token.is_eq_true_iff.1 heof)

/-- A complaint at the next token is one at the first one left, or at the end. -/
theorem atToken (h : T.Stands c ts) (complaint : Complaint) :
    complaint.atToken (ts.head?.getD T.last) = Note.toError T.last.line ⟨ts.head?, complaint⟩ := by
  rw [Complaint.atToken, h.is_eof]
  cases ts <;> rfl

theorem congr {c' : Cursor} (h : T.Stands c ts) (htokens : c'.tokens = c.tokens)
    (hcurrent : c'.current = c.current) : T.Stands c' ts := by
  obtain ⟨front, htext, hfront⟩ := h.left
  exact ⟨htokens.trans h.tokens, front, htext, hcurrent.trans hfront⟩

end Stands

/-- What may happen on the tape. Of each round of a program a property `R` of the index, the
statements and the errors so far holds. -/
def Fine (R : Nat → List Stmt → List Error → Prop) : Event → Prop
  | .look index => index ≤ T.text.length
  | .set current depth => current ≤ T.text.length ∧ depth ≤ maxNesting
  | .rule entered left => left = entered
  | .declaration entered left => entered ≠ T.text.length → entered < left
  | .round current stmts errors => R current stmts errors

/-- What may happen while the index of the next token goes from one place on to another. -/
inductive Trail (R : Nat → List Stmt → List Error → Prop) : Nat → Nat → List Event → Prop
  | refl (i : Nat) : Trail R i i []
  | stay {i j : Nat} {e : Event} {trace : List Event} (hfine : T.Fine R e)
      (hstay : e.current? = none) (onward : Trail R i j trace) : Trail R i j (e :: trace)
  | set {i j current depth : Nat} {trace : List Event} (hfine : T.Fine R (.set current depth))
      (hle : i ≤ current) (onward : Trail R current j trace) :
      Trail R i j (.set current depth :: trace)

namespace Trail

variable {T} {R : Nat → List Stmt → List Error → Prop} {i j k : Nat} {trace trace' : List Event}

/-- One stretch of a trace after another. -/
theorem append (h : T.Trail R i j trace) (h' : T.Trail R j k trace') :
    T.Trail R i k (trace ++ trace') := by
  induction h with
  | refl => exact h'
  | stay hfine hstay _ ih => exact .stay hfine hstay (ih h')
  | set hfine hle _ ih => exact .set hfine hle (ih h')

theorem fine (h : T.Trail R i j trace) : ∀ e ∈ trace, T.Fine R e := by
  induction h with
  | refl => simp
  | stay hfine _ _ ih => exact List.forall_mem_cons.2 ⟨hfine, ih⟩
  | set hfine _ _ ih => exact List.forall_mem_cons.2 ⟨hfine, ih⟩

/-- No look of a trail goes back behind where it started. -/
theorem le_of_mem (h : T.Trail R i j trace) :
    ∀ current ∈ trace.filterMap Event.current?, i ≤ current := by
  induction h with
  | refl => simp
  | stay _ hstay _ ih => rwa [List.filterMap_cons_none hstay]
  | set _ hle _ ih =>
    exact List.forall_mem_cons.2 ⟨hle, fun current hmem => Nat.le_trans hle (ih current hmem)⟩

/-- The cursor only moves on. -/
theorem pairwise_le (h : T.Trail R i j trace) :
    (trace.filterMap Event.current?).Pairwise (· ≤ ·) := by
  induction h with
  | refl => simp
  | stay _ hstay _ ih => rwa [List.filterMap_cons_none hstay]
  | set _ _ onward ih => exact List.pairwise_cons.2 ⟨onward.le_of_mem, ih⟩

end Trail

end Tape

/-! ### How computations end -/

namespace Reading

variable {α β : Type} (T : Tape) (R : Nat → List Stmt → List Error → Prop)

/-- A computation leads from some values of the registers to others, and only what may happen
happens on the way. -/
def Ends (x : Reading α) (c : Cursor) (e : End α) (c' : Cursor) : Prop :=
  ∃ trace, x c = ⟨trace, e, c'⟩ ∧ T.Trail R c.current c'.current trace

variable {T R}

namespace Ends

variable {x : Reading α} {f : α → Reading β} {c c' c'' : Cursor} {a : α} {ts : List Token}
  {t : Token}

/-- A reading goes on where the one before is done. -/
theorem bind {e : End β} (hx : Ends T R x c (.done a) c') (hf : Ends T R (f a) c' e c'') :
    Ends T R (x >>= f) c e c'' := by
  obtain ⟨trace, hx, htrail⟩ := hx
  obtain ⟨trace', hf, htrail'⟩ := hf
  refine ⟨trace ++ trace', ?_, htrail.append htrail'⟩
  show Reading.bind x f c = _
  simp only [Reading.bind, hx, hf]

/-- A reading that fails ends what it is part of. -/
theorem bind_failed {e : Error} (hx : Ends T R x c (.failed e) c') :
    Ends T R (x >>= f) c (.failed e) c' := by
  obtain ⟨trace, hx, htrail⟩ := hx
  refine ⟨trace, ?_, htrail⟩
  show Reading.bind x f c = _
  simp only [Reading.bind, hx]

theorem pure (a : α) (c : Cursor) : Ends T R (pure a) c (.done a) c := ⟨[], rfl, .refl _⟩

theorem fail (e : Error) (c : Cursor) : Ends T R (fail e : Reading α) c (.failed e) c :=
  ⟨[], rfl, .refl _⟩

theorem record (e : Error) (c : Cursor) :
    Ends T R (record e) c (.done ()) { c with errors := c.errors ++ [e] } := ⟨[], rfl, .refl _⟩

theorem registers (c : Cursor) : Ends T R registers c (.done c) c := ⟨[], rfl, .refl _⟩

theorem emit_round {stmts : List Stmt} {errors : List Error} {current : Nat}
    (h : R current stmts errors) (c : Cursor) :
    Ends T R (emit (.round current stmts errors)) c (.done ()) c := ⟨_, rfl, .stay h rfl (.refl _)⟩

/-- A look at a token of the text is in range. -/
theorem tokenAt {index : Nat} (h : c.tokens[index]? = some t) (hindex : index ≤ T.text.length) :
    Ends T R (tokenAt index) c (.done t) c := by
  refine ⟨[.look index], ?_, .stay hindex rfl (.refl _)⟩
  simp only [Reading.tokenAt, h]

theorem peek (h : T.Stands c ts) : Ends T R peek c (.done (ts.head?.getD T.last)) c :=
  (registers c).bind (tokenAt h.getElem? h.current_le)

theorem previous (h : T.Stands c ts) (ht : c.Behind t) : Ends T R previous c (.done t) c :=
  (registers c).bind (tokenAt ht (Nat.le_trans (Nat.sub_le _ _) h.current_le))

theorem isAtEnd (h : T.Stands c ts) : Ends T R isAtEnd c (.done ts.isEmpty) c := by
  rw [← h.is_eof]
  exact (peek h).bind (.pure _ c)

theorem check (h : T.Stands c ts) (m : Mark) :
    Ends T R (check m) c (.done (ts.head?.any (·.is m))) c := by
  refine (isAtEnd h).bind ?_
  cases ts with
  | nil => exact .pure false c
  | cons t ts => exact (peek h).bind (.pure (t.is m) c)

/-- To advance over a token is within the nesting that is allowed. -/
theorem advance (h : T.Stands c (t :: ts)) (hdepth : c.depth ≤ maxNesting) :
    Ends T R advance c (.done t) c.next := by
  have hset : Ends T R (set (c.current + 1) c.depth) c (.done ()) c.next :=
    ⟨_, rfl, .set ⟨h.next.current_le, hdepth⟩ (Nat.le_succ _) (.refl _)⟩
  exact (isAtEnd h).bind ((registers c).bind (hset.bind (previous h.next h.behind)))

/-- At the end there is nothing to go on to. -/
theorem advance_nil (h : T.Stands c []) : ∃ t, Ends T R Reading.advance c (.done t) c := by
  have hlt : c.current - 1 < c.tokens.length := by
    have := h.current_le
    have := T.length_text_lt
    rw [h.tokens]
    omega
  refine ⟨c.tokens[c.current - 1], ?_⟩
  exact (isAtEnd h).bind (previous h (List.getElem?_eq_getElem hlt))

/-- A mark that stands ahead is taken. -/
theorem accept_true (h : T.Stands c (t :: ts)) (hdepth : c.depth ≤ maxNesting) {m : Mark}
    (hm : t.is m = true) : Ends T R (accept m) c (.done true) c.next := by
  have hcheck := check (R := R) h m
  rw [List.head?_cons, Option.any_some, hm] at hcheck
  exact hcheck.bind ((advance h hdepth).bind (.pure true c.next))

/-- A mark that does not stand ahead leaves the cursor in place. -/
theorem accept_false (h : T.Stands c ts) {m : Mark} (hm : ts.head?.any (·.is m) = false) :
    Ends T R (accept m) c (.done false) c := by
  have hcheck := check (R := R) h m
  rw [hm] at hcheck
  exact hcheck.bind (.pure false c)

/-- A failure is written at the token ahead, or at the end. -/
theorem failHere (h : T.Stands c ts) (complaint : Complaint) :
    Ends T R (failHere complaint : Reading α) c
      (.failed (Note.toError T.last.line ⟨ts.head?, complaint⟩)) c := by
  rw [← h.atToken]
  exact (peek h).bind (.fail _ c)

theorem recordHere (h : T.Stands c ts) (complaint : Complaint) :
    Ends T R (recordHere complaint) c (.done ())
      { c with errors := c.errors ++ [Note.toError T.last.line ⟨ts.head?, complaint⟩] } := by
  rw [← h.atToken]
  exact (peek h).bind (.record _ c)

theorem asRule {e : End α} (hx : Ends T R x c e c') (hdepth : c'.depth = c.depth) :
    Ends T R (asRule x) c e c' := by
  obtain ⟨trace, hrun, htrail⟩ := hx
  refine ⟨trace ++ [.rule c.depth c'.depth], ?_, ?_⟩
  · simp only [Reading.asRule, hrun]
  · exact htrail.append (.stay hdepth rfl (.refl _))

/-- One more level of nesting, and back when it is over. -/
theorem deepened {e : End α} (hx : Ends T R x { c with depth := c.depth + 1 } e c')
    (hdepth : c.depth < maxNesting) (hdepth' : c'.depth = c.depth + 1)
    (htext : c.current ≤ T.text.length) (htext' : c'.current ≤ T.text.length) :
    Ends T R (deepened x) c e { c' with depth := c.depth } := by
  obtain ⟨trace, hrun, htrail⟩ := hx
  refine ⟨.set c.current (c.depth + 1) :: (trace ++ [.set c'.current c.depth]), ?_, ?_⟩
  · simp only [Reading.deepened, hrun, hdepth', Nat.add_sub_cancel]
  · refine .set ⟨htext, hdepth⟩ (Nat.le_refl _) (htrail.append ?_)
    exact .set ⟨htext', Nat.le_of_lt hdepth⟩ (Nat.le_refl _) (.refl _)

theorem recovering_done {x : Reading Stmt} {s : Stmt} (hx : Ends T R x c (.done s) c')
    (fuel : Nat) : Ends T R (recovering fuel x) c (.done (some s)) c' := by
  obtain ⟨trace, hrun, htrail⟩ := hx
  refine ⟨trace, ?_, htrail⟩
  simp only [Reading.recovering, hrun]

/-- After a failure, a declaration is given up and reading is resumed. -/
theorem recovering_failed {x : Reading Stmt} {e : Error} {fuel : Nat}
    (hx : Ends T R x c (.failed e) c')
    (hsync : Ends T R (synchronize fuel) { c' with errors := c'.errors ++ [e] } (.done ()) c'') :
    Ends T R (recovering fuel x) c (.done none) c'' := by
  obtain ⟨trace, hrun, htrail⟩ := hx
  obtain ⟨trace', hrun', htrail'⟩ : Ends T R (do
      Reading.record e
      synchronize fuel
      Pure.pure (none : Option Stmt)) c' (.done none) c'' :=
    (record e c').bind (hsync.bind (.pure none c''))
  refine ⟨trace ++ trace', ?_, htrail.append htrail'⟩
  simp only [Reading.recovering, hrun, hrun']

/-- A declaration takes a token unless the text is over. -/
theorem asDeclaration {e : End α} (hx : Ends T R x c e c')
    (htakes : c.current ≠ T.text.length → c.current < c'.current) :
    Ends T R (asDeclaration x) c e c' := by
  obtain ⟨trace, hrun, htrail⟩ := hx
  refine ⟨trace ++ [.declaration c.current c'.current], ?_, ?_⟩
  · simp only [Reading.asDeclaration, hrun]
  · exact htrail.append (.stay htakes rfl (.refl _))

end Ends

end Reading

end Scriptlet

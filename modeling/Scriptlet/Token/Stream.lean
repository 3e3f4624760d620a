import Scriptlet.Token.Scan

/-!
# Tokens on demand

A `Scanner` stands somewhere in a text and gives its items one at a time. After the end token it
gives nothing any more.
-/

namespace Scriptlet

/-- A place in a text: the line it is on and the text ahead, which is `none` once the end token has
been given. -/
structure Scanner where
  line : Nat
  ahead : Option (List Char)

namespace Scanner

/-- A scanner at the front of a script. -/
def ofSource (source : String) : Scanner := ⟨1, some source.toList⟩

/-- The scanner once the end token has been given. -/
def finished (line : Nat) : Scanner := ⟨line, none⟩

/-- The next item of a text that starts on the given line, and the scanner behind it. -/
def advance (line : Nat) : List Char → Item × Scanner
  | [] => (.ok (.endOfText line), finished line)
  | c :: cs =>
    let b := bite c cs
    let after := line + b.text.count '\n'
    match b.piece with
    | .blank => advance after b.rest
    | .token kind => (.ok ⟨kind, String.ofList b.text, line⟩, ⟨after, some b.rest⟩)
    | .fault fault => (.error (.lex fault line), ⟨after, some b.rest⟩)
termination_by cs => cs.length
decreasing_by exact bite_rest_lt c cs

/-- The next item, if there is one, and the scanner behind it. -/
def next (s : Scanner) : Option Item × Scanner :=
  match s.ahead with
  | none => (none, s)
  | some cs => Prod.map some id (advance s.line cs)

/-- The answer to the call of `next` that follows the given number of earlier calls. -/
def answer (s : Scanner) : Nat → Option Item
  | 0 => s.next.1
  | n + 1 => s.next.2.answer n

/-- The items that a scanner has still to give. -/
def pending (s : Scanner) : List Item :=
  match s.ahead with
  | none => []
  | some cs => items s.line cs

/-- What a scanner gives next is the first item that it has still to give. -/
theorem advance_pending (line : Nat) (cs : List Char) :
    items line cs = (advance line cs).1 :: (advance line cs).2.pending := by
  fun_induction advance line cs with
  | case1 line => simp [items, pending, finished]
  | case2 line c cs b after hb ih => rw [items, hb]; exact ih
  | case3 line c cs b after kind hb => rw [items, hb]; rfl
  | case4 line c cs b after fault hb => rw [items, hb]; rfl

theorem next_eq (s : Scanner) : s.next.1 = s.pending.head? ∧ s.next.2.pending = s.pending.tail := by
  obtain ⟨line, _ | cs⟩ := s
  · exact ⟨rfl, rfl⟩
  · simp [next, pending, advance_pending line cs]

/-- A scanner gives its pending items in order, and then nothing any more. -/
theorem answer_eq_getElem? (s : Scanner) (n : Nat) : s.answer n = s.pending[n]? := by
  induction n generalizing s with
  | zero => rw [answer, s.next_eq.1, List.head?_eq_getElem?]
  | succ n ih => rw [answer, ih, s.next_eq.2, List.getElem?_tail]

@[simp] theorem pending_ofSource (source : String) :
    (ofSource source).pending = scanItems source := rfl

end Scanner

end Scriptlet

import Mathlib.Data.List.Basic

/-!
# Texts in prefix form

A form is an atom or a list of forms, and its text puts the items of a list in parentheses with
spaces between them. If no atom can be mistaken for a part of a list, a form can be read off the
front of a text: its text determines it and where it ends (`Form.text_append_inj`).
-/

namespace Scriptlet

/-- An atom or a list. -/
inductive Form
  | atom (text : String)
  | list (items : List Form)

namespace Form

/-- How a form is written. -/
def text : Form → List Char
  | .atom s => s.toList
  | .list [] => ['(', ')']
  | .list (x :: xs) => '(' :: (x.text ++ (xs.flatMap (fun y => ' ' :: y.text) ++ [')']))

/-- Forms, each after a space. -/
def textEach (xs : List Form) : List Char := xs.flatMap fun y => ' ' :: y.text

/-- The characters that end a word. -/
def isDelimiter (c : Char) : Bool := c = ' ' || c = '(' || c = ')' || c = '"'

/-- The texts of atoms: words, and anything without a quote in quotes. -/
inductive IsAtom : List Char → Prop
  | word {c : Char} {cs : List Char} : (∀ d ∈ c :: cs, isDelimiter d = false) → IsAtom (c :: cs)
  | quoted {cs : List Char} : '"' ∉ cs → IsAtom ('"' :: (cs ++ ['"']))

/-- The forms whose atoms can be told from lists. -/
inductive Readable : Form → Prop
  | atom {s : String} : IsAtom s.toList → Readable (.atom s)
  | list {xs : List Form} : (∀ x ∈ xs, Readable x) → Readable (.list xs)

theorem Readable.node {head : String} {items : List Form} (hhead : IsAtom head.toList)
    (hitems : ∀ x ∈ items, x.Readable) : (Form.list (.atom head :: items)).Readable :=
  .list (List.forall_mem_cons.2 ⟨.atom hhead, hitems⟩)

/-- What may stand behind a form: nothing, the next form of a list, or the end of the list. -/
def Closes (cs : List Char) : Prop := ∀ c ∈ cs.head?, c = ' ' ∨ c = ')'

variable {cs ds rest rest' : List Char}

@[simp] theorem closes_nil : Closes [] := by simp [Closes]

@[simp] theorem closes_cons {c : Char} : Closes (c :: cs) ↔ c = ' ' ∨ c = ')' := by simp [Closes]

theorem closes_textEach (xs : List Form) (rest : List Char) :
    Closes (textEach xs ++ ')' :: rest) := by
  cases xs <;> simp [textEach]

/-! ### Atoms -/

/-- A run of characters of one class ends where the class does. -/
theorem append_inj_of_stop {p : Char → Bool} (hcs : ∀ c ∈ cs, p c = false)
    (hds : ∀ c ∈ ds, p c = false) (hrest : ∀ c ∈ rest.head?, p c = true)
    (hrest' : ∀ c ∈ rest'.head?, p c = true) (h : cs ++ rest = ds ++ rest') :
    cs = ds ∧ rest = rest' := by
  induction cs generalizing ds with
  | nil =>
    cases ds with
    | nil => exact ⟨rfl, h⟩
    | cons d ds =>
      rw [List.nil_append] at h
      have hd := hrest d (by rw [h]; rfl)
      rw [hds d List.mem_cons_self] at hd
      cases hd
  | cons c cs ih =>
    cases ds with
    | nil =>
      rw [List.nil_append] at h
      have hc := hrest' c (by rw [← h]; rfl)
      rw [hcs c List.mem_cons_self] at hc
      cases hc
    | cons d ds =>
      obtain ⟨hcd, htail⟩ := List.cons.inj h
      obtain ⟨heq, hrest⟩ := ih (fun e he => hcs e (List.mem_cons_of_mem c he))
        (fun e he => hds e (List.mem_cons_of_mem d he)) htail
      exact ⟨by rw [hcd, heq], hrest⟩

theorem IsAtom.exists_cons (h : IsAtom cs) :
    ∃ c cs', cs = c :: cs' ∧ c ≠ '(' ∧ c ≠ ')' := by
  cases h with
  | @word c cs h =>
    have hc := h c List.mem_cons_self
    refine ⟨c, cs, rfl, ?_, ?_⟩ <;> rintro rfl <;> cases hc
  | quoted h => exact ⟨'"', _, rfl, by decide, by decide⟩

theorem IsAtom.append_inj (h : IsAtom cs) (h' : IsAtom ds) (hrest : Closes rest)
    (hrest' : Closes rest') (heq : cs ++ rest = ds ++ rest') : cs = ds ∧ rest = rest' := by
  have hstop {rest : List Char} (hrest : Closes rest) : ∀ c ∈ rest.head?, isDelimiter c = true := by
    intro c hc
    rcases hrest c hc with rfl | rfl <;> rfl
  cases h with
  | @word c cs h =>
    cases h' with
    | word h' => exact append_inj_of_stop h h' (hstop hrest) (hstop hrest') heq
    | quoted h' =>
      obtain ⟨rfl, -⟩ := List.cons.inj heq
      cases h '"' List.mem_cons_self
  | @quoted cs h =>
    cases h' with
    | word h' =>
      obtain ⟨rfl, -⟩ := List.cons.inj heq
      cases h' '"' List.mem_cons_self
    | @quoted ds h' =>
      have hne {cs : List Char} (hcs : '"' ∉ cs) : ∀ c ∈ cs, decide (c = '"') = false :=
        fun c hc => decide_eq_false fun hq => hcs (hq ▸ hc)
      have heq : cs ++ '"' :: rest = ds ++ '"' :: rest' := by simpa using heq
      obtain ⟨rfl, htail⟩ := append_inj_of_stop (hne h) (hne h') (by simp) (by simp) heq
      exact ⟨rfl, (List.cons.inj htail).2⟩

/-! ### Lists -/

theorem text_list (xs : List Form) : (list xs).text = '(' :: ((textEach xs).tail ++ [')']) := by
  cases xs <;> simp [text, textEach]

theorem Readable.exists_cons {x : Form} (h : x.Readable) :
    ∃ c cs, x.text = c :: cs ∧ c ≠ ')' := by
  cases h with
  | atom h =>
    obtain ⟨c, cs, hcs, -, hclose⟩ := h.exists_cons
    exact ⟨c, cs, by rw [text, hcs], hclose⟩
  | list => exact ⟨'(', _, text_list _, by decide⟩

/-- A form can be read off the front of a text. -/
def ReadsOff (x : Form) : Prop :=
  ∀ {y : Form} {rest rest' : List Char}, y.Readable → Closes rest → Closes rest' →
    x.text ++ rest = y.text ++ rest' → x = y ∧ rest = rest'

theorem textEach_append_inj {xs ys : List Form} (hxs : ∀ x ∈ xs, x.ReadsOff)
    (hys : ∀ y ∈ ys, y.Readable) (h : textEach xs ++ ')' :: rest = textEach ys ++ ')' :: rest') :
    xs = ys ∧ rest = rest' := by
  induction xs generalizing ys with
  | nil =>
    cases ys with
    | nil => exact ⟨rfl, (List.cons.inj h).2⟩
    | cons y ys => simp [textEach] at h
  | cons x xs ih =>
    cases ys with
    | nil => simp [textEach] at h
    | cons y ys =>
      obtain ⟨hx, hxs⟩ := List.forall_mem_cons.1 hxs
      obtain ⟨hy, hys⟩ := List.forall_mem_cons.1 hys
      have h : x.text ++ (textEach xs ++ ')' :: rest) =
          y.text ++ (textEach ys ++ ')' :: rest') := by
        simpa [textEach] using h
      obtain ⟨hhead, htail⟩ := hx hy (closes_textEach xs rest) (closes_textEach ys rest') h
      obtain ⟨heq, hrest⟩ := ih hxs hys htail
      exact ⟨by rw [hhead, heq], hrest⟩

theorem list_append_inj {xs ys : List Form} (hxs : ∀ x ∈ xs, x.Readable)
    (hread : ∀ x ∈ xs, x.ReadsOff) (hys : ∀ y ∈ ys, y.Readable)
    (h : (list xs).text ++ rest = (list ys).text ++ rest') : xs = ys ∧ rest = rest' := by
  have h : (textEach xs).tail ++ ')' :: rest = (textEach ys).tail ++ ')' :: rest' := by
    simpa [text_list] using h
  cases xs with
  | nil =>
    cases ys with
    | nil => exact ⟨rfl, (List.cons.inj h).2⟩
    | cons y ys =>
      obtain ⟨c, cs, hcs, hc⟩ := (hys y List.mem_cons_self).exists_cons
      have h : ')' :: rest = c :: (cs ++ (textEach ys ++ ')' :: rest')) := by
        simpa [textEach, hcs] using h
      exact absurd (List.cons.inj h).1.symm hc
  | cons x xs =>
    cases ys with
    | nil =>
      obtain ⟨c, cs, hcs, hc⟩ := (hxs x List.mem_cons_self).exists_cons
      have h : c :: (cs ++ (textEach xs ++ ')' :: rest)) = ')' :: rest' := by
        simpa [textEach, hcs] using h
      exact absurd (List.cons.inj h).1 hc
    | cons y ys => exact textEach_append_inj hread hys (congrArg (List.cons ' ') h)

theorem text_atom_ne_list {s : String} (hs : IsAtom s.toList) (xs : List Form) :
    (atom s).text ++ rest ≠ (list xs).text ++ rest' := by
  obtain ⟨c, cs, hcs, hopen, -⟩ := hs.exists_cons
  rw [text, hcs, text_list]
  exact fun h => hopen (List.cons.inj h).1

/-- The text of a form determines it and where it ends. -/
theorem text_append_inj {x : Form} (h : x.Readable) : x.ReadsOff := by
  induction h with
  | atom hs =>
    intro y rest rest' hy hrest hrest' heq
    cases hy with
    | atom hs' =>
      rw [text, text] at heq
      obtain ⟨hs, hrest⟩ := hs.append_inj hs' hrest hrest' heq
      exact ⟨congrArg atom (String.toList_inj.1 hs), hrest⟩
    | list => exact absurd heq (text_atom_ne_list hs _)
  | list hxs ih =>
    intro y rest rest' hy hrest hrest' heq
    cases hy with
    | atom hs' => exact absurd heq.symm (text_atom_ne_list hs' _)
    | list hys =>
      obtain ⟨hitems, hrest⟩ := list_append_inj hxs ih hys heq
      exact ⟨congrArg list hitems, hrest⟩

/-- Readable forms with one text are one form. -/
theorem eq_of_text_eq {x y : Form} (hx : x.Readable) (hy : y.Readable) (h : x.text = y.text) :
    x = y :=
  (text_append_inj hx hy closes_nil closes_nil (by rw [h])).1

end Form

end Scriptlet

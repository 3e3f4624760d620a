import Scriptlet.Proofs.Tree.Printed

/-!
# Legible trees

In the trees of scripts names are words that are not reserved, operators are their symbols, strings
hold no quote, and numbers are finite and have no sign. The form of such a tree can be read off its
text: its atoms are words and quoted strings.
-/

namespace Scriptlet

/-! ### Tokens -/

/-- A token with the given mark, written as such a token is. -/
structure Token.WrittenAs (m : Mark) (t : Token) : Prop where
  kind_eq : t.kind = .mark m
  written : Kind.Written (.mark m) t.lexeme.toList

/-- How all tokens with a mark are written, if they are written alike. -/
def Mark.text? (m : Mark) : Option String := m.symbol?.or m.word?

namespace Token.WrittenAs

variable {m m' : Mark} {t t' : Token} {s : String}

theorem lexeme_eq (h : t.WrittenAs m) (hs : m.text? = some s) : t.lexeme = s := by
  obtain ⟨-, hwritten⟩ := h
  generalize hcs : t.lexeme.toList = cs at hwritten
  unfold Mark.text? at hs
  cases hwritten with
  | symbol hsymbol =>
    rw [hsymbol] at hs
    cases hs
    exact String.toList_inj.1 hcs
  | @reserved m s' hword =>
    have hsymbol : m.symbol? = none := by cases m <;> cases hword <;> rfl
    rw [hsymbol, hword] at hs
    cases hs
    exact String.toList_inj.1 hcs
  | name => cases hs

theorem isWord (h : t.WrittenAs .identifier) :
    IsWord t.lexeme.toList ∧ t.lexeme ∉ reservedWords := by
  obtain ⟨-, hwritten⟩ := h
  generalize hcs : t.lexeme.toList = cs at hwritten
  have hlexeme : t.lexeme = String.ofList cs := by rw [← hcs, String.ofList_toList]
  rw [hlexeme]
  cases hwritten with
  | symbol h => cases h
  | reserved h => cases h
  | name hword hreserved => exact ⟨hword, hreserved⟩

/-- The text of a token determines it but for its line. -/
theorem renumber_eq (h : t.WrittenAs m) (h' : t'.WrittenAs m') (hl : t.lexeme = t'.lexeme) :
    t.renumber (fun _ => 0) = t'.renumber fun _ => 0 := by
  have hkind : t.kind = t'.kind := by
    rw [h.kind_eq, h'.kind_eq]
    exact h.written.unique (hl ▸ h'.written)
  unfold Token.renumber
  rw [hkind, hl]

theorem renumber_eq_of_text? (h : t.WrittenAs m) (h' : t'.WrittenAs m) (hs : m.text? = some s) :
    t.renumber (fun _ => 0) = t'.renumber fun _ => 0 :=
  h.renumber_eq h' ((h.lexeme_eq hs).trans (h'.lexeme_eq hs).symm)

end Token.WrittenAs

/-! ### Legible trees -/

/-- The literals of scripts whose numbers are finite. -/
inductive Literal.Legible : Literal → Prop
  | number {x : Float} : Decimal.SignClear x → x.isFinite = true → Legible (.number x)
  | string {contents : String} : '"' ∉ contents.toList → Legible (.string contents)
  | boolean (b : Bool) : Legible (.boolean b)
  | null : Legible .null

/-- The operators of binary nodes. -/
def binaryMarks : List Mark :=
  [.bangEqual, .equalEqual, .greater, .greaterEqual, .less, .lessEqual, .minus, .plus, .star,
    .slash]

/-- The operators of nodes that may leave their right operand unevaluated. -/
def logicalMarks : List Mark := [.kwOr, .kwAnd]

/-- The operators of unary nodes. -/
def unaryMarks : List Mark := [.bang, .minus]

/-- The expressions of scripts whose numbers are finite. -/
inductive Expr.Legible : Expr → Prop
  | literal {value : Literal} : value.Legible → Legible (.literal value)
  | var {name : Token} : name.WrittenAs .identifier → Legible (.var name)
  | assign {name : Token} {value : Expr} : name.WrittenAs .identifier → Legible value →
      Legible (.assign name value)
  | unary {operator : Token} {operand : Expr} {m : Mark} : m ∈ unaryMarks →
      operator.WrittenAs m → Legible operand → Legible (.unary operator operand)
  | binary {left right : Expr} {operator : Token} {m : Mark} : m ∈ binaryMarks →
      operator.WrittenAs m → Legible left → Legible right → Legible (.binary left operator right)
  | logical {left right : Expr} {operator : Token} {m : Mark} : m ∈ logicalMarks →
      operator.WrittenAs m → Legible left → Legible right → Legible (.logical left operator right)
  | group {inner : Expr} : Legible inner → Legible (.group inner)
  | call {callee : Expr} {paren : Token} {arguments : List Expr} : Legible callee →
      paren.WrittenAs .rightParen → (∀ a ∈ arguments, Legible a) →
      Legible (.call callee paren arguments)

/-- The statements of scripts whose numbers are finite. -/
inductive Stmt.Legible : Stmt → Prop
  | expression {e : Expr} : e.Legible → Legible (.expression e)
  | print {e : Expr} : e.Legible → Legible (.print e)
  | var {name : Token} {initializer : Option Expr} : name.WrittenAs .identifier →
      (∀ e ∈ initializer, e.Legible) → Legible (.var name initializer)
  | block {body : List Stmt} : (∀ s ∈ body, Legible s) → Legible (.block body)
  | function {name : Token} {params : List Token} {body : List Stmt} :
      name.WrittenAs .identifier → (∀ p ∈ params, p.WrittenAs .identifier) →
      (∀ s ∈ body, Legible s) → Legible (.function name params body)
  | ifElse {condition : Expr} {thenBranch : Stmt} {elseBranch : Option Stmt} : condition.Legible →
      Legible thenBranch → (∀ s ∈ elseBranch, Legible s) →
      Legible (.ifElse condition thenBranch elseBranch)
  | whileLoop {condition : Expr} {body : Stmt} : condition.Legible → Legible body →
      Legible (.whileLoop condition body)
  | forLoop {initializer : Option Stmt} {condition increment : Option Expr} {body : Stmt} :
      (∀ s ∈ initializer, Legible s) → (∀ e ∈ condition, e.Legible) →
      (∀ e ∈ increment, e.Legible) → Legible body →
      Legible (.forLoop initializer condition increment body)
  | ret {keyword : Token} {value : Option Expr} : keyword.WrittenAs .kwReturn →
      (∀ e ∈ value, e.Legible) → Legible (.ret keyword value)

/-! ### Their atoms can be read -/

namespace Form

theorem isDelimiter_eq_false_iff {c : Char} :
    isDelimiter c = false ↔ c ≠ ' ' ∧ c ≠ '(' ∧ c ≠ ')' ∧ c ≠ '"' := by
  simp [isDelimiter, and_assoc]

theorem isDelimiter_of_isLetter {c : Char} (h : IsLetter c) : isDelimiter c = false := by
  rw [isDelimiter_eq_false_iff]
  refine ⟨?_, ?_, ?_, ?_⟩ <;> rintro rfl <;> exact absurd h (by decide)

theorem isDelimiter_of_isDigit {c : Char} (h : IsDigit c) : isDelimiter c = false := by
  rw [isDelimiter_eq_false_iff]
  refine ⟨?_, ?_, ?_, ?_⟩ <;> rintro rfl <;> exact absurd h (by decide)

theorem isAtom_of_all {c : Char} {cs : List Char}
    (h : (c :: cs).all (fun d => !isDelimiter d) = true) : IsAtom (c :: cs) :=
  .word fun d hd => by simpa using List.all_eq_true.1 h d hd

theorem isAtom_of_isNumeral {cs ds : List Char} (hcs : IsNumeral cs)
    (hds : ∀ d ∈ ds, isDelimiter d = false) : IsAtom (cs ++ ds) := by
  obtain ⟨c, cs, rfl, -, -⟩ := Scan.exists_cons_of_isNumeral hcs
  refine .word fun d hd => ?_
  rcases List.mem_append.1 (List.cons_append ▸ hd) with hd | hd
  · exact isDelimiter_of_isDigit (hcs.2 d hd)
  · exact hds d hd

theorem isAtom_of_isWord {cs : List Char} (h : IsWord cs) : IsAtom cs := by
  cases cs with
  | nil => cases h
  | cons c cs =>
    refine .word fun d hd => ?_
    rcases List.mem_cons.1 hd with rfl | hd
    · exact isDelimiter_of_isLetter h.1
    · exact (h.2 d hd).elim isDelimiter_of_isLetter isDelimiter_of_isDigit

theorem isAtom_of_denotes {cs : List Char} {q : ℚ} (h : Decimal.Denotes cs q) : IsAtom cs := by
  cases h with
  | whole hds =>
    have hatom := isAtom_of_isNumeral hds (List.forall_mem_nil _)
    rwa [List.append_nil] at hatom
  | decimal hds hfs =>
    exact isAtom_of_isNumeral hds (List.forall_mem_cons.2 ⟨rfl, fun c hc =>
      isDelimiter_of_isDigit (hfs.2 c hc)⟩)

theorem isAtom_of_text? {m : Mark} {s : String}
    (hm : m ∈ unaryMarks ++ binaryMarks ++ logicalMarks) (hs : m.text? = some s) :
    IsAtom s.toList := by
  cases m <;> first
    | exact absurd hm (by decide)
    | cases hs; exact isAtom_of_all rfl

end Form

namespace Literal

/-- What the first character of a literal tells about it. -/
inductive Shape
  | number
  | string
  | boolean (value : Bool)
  | null

/-- The shape of a literal. -/
def shape : Literal → Literal.Shape
  | .number _ => .number
  | .string _ => .string
  | .boolean b => .boolean b
  | .null => .null

/-- The shape of the literals whose text starts with a character. -/
def shapeOf (c : Char) : Literal.Shape :=
  if IsDigit c then .number
  else if c = '"' then .string
  else if c = 't' then .boolean true
  else if c = 'f' then .boolean false
  else .null

variable {v w : Literal}

theorem exists_denotes {x : Float} (hsign : Decimal.SignClear x) (hfinite : x.isFinite = true) :
    ∃ q, Decimal.Denotes (Literal.number x).render.toList q := by
  obtain ⟨v, hv⟩ := Decimal.Parts.exists_finite hfinite
  have hparts : Decimal.Parts.ofFloat x = ⟨false, .finite v⟩ := by
    rw [← Decimal.negative_of_signClear hsign, ← hv]
  obtain ⟨q, hq, -⟩ := Decimal.exists_denotes_numberText hparts
  exact ⟨q, hq⟩

theorem toList_render_string (contents : String) :
    (string contents).render.toList = '"' :: (contents.toList ++ ['"']) := by
  simp [render]

namespace Legible

theorem exists_cons (h : v.Legible) : ∃ c cs, v.render.toList = c :: cs ∧ shapeOf c = v.shape := by
  cases h with
  | @number x hsign hfinite =>
    obtain ⟨q, hq⟩ := exists_denotes hsign hfinite
    generalize (Literal.number x).render.toList = cs at hq
    cases hq with
    | whole hds =>
      obtain ⟨d, ds, rfl, hd, -⟩ := Scan.exists_cons_of_isNumeral hds
      exact ⟨d, ds, rfl, if_pos hd⟩
    | decimal hds hfs =>
      obtain ⟨d, ds, rfl, hd, -⟩ := Scan.exists_cons_of_isNumeral hds
      exact ⟨d, _, rfl, if_pos hd⟩
  | string => exact ⟨'"', _, toList_render_string _, rfl⟩
  | boolean b => cases b <;> exact ⟨_, _, rfl, rfl⟩
  | null => exact ⟨_, _, rfl, rfl⟩

theorem isAtom (h : v.Legible) : Form.IsAtom v.render.toList := by
  cases h with
  | number hsign hfinite =>
    obtain ⟨q, hq⟩ := exists_denotes hsign hfinite
    exact Form.isAtom_of_denotes hq
  | string h =>
    rw [toList_render_string]
    exact .quoted h
  | boolean b => cases b <;> exact Form.isAtom_of_all rfl
  | null => exact Form.isAtom_of_all rfl

/-- Legible literals with one text are one literal. -/
theorem eq_of_render_eq (hv : v.Legible) (hw : w.Legible) (h : v.render = w.render) : v = w := by
  obtain ⟨c, cs, hcs, hc⟩ := hv.exists_cons
  obtain ⟨d, ds, hds, hd⟩ := hw.exists_cons
  rw [h, hds] at hcs
  obtain ⟨rfl, -⟩ := List.cons.inj hcs
  have hshape := hc.symm.trans hd
  cases hv with
  | number hsign hfinite =>
    cases hw with
    | number hsign' hfinite' =>
      rw [Decimal.eq_of_numberText_eq hsign hsign' hfinite hfinite' h]
    | _ => cases hshape
  | string hs =>
    cases hw with
    | string hs' =>
      have htext := congrArg String.toList h
      rw [toList_render_string, toList_render_string] at htext
      rw [String.toList_inj.1 (List.append_cancel_right (List.cons.inj htext).2)]
    | _ => cases hshape
  | boolean b =>
    cases hw with
    | boolean b' =>
      cases hshape
      rfl
    | _ => cases hshape
  | null =>
    cases hw with
    | null => rfl
    | _ => cases hshape

/-- No literal is written like a name. -/
theorem render_ne_name (h : v.Legible) {t : Token} (ht : t.WrittenAs .identifier) :
    v.render ≠ t.lexeme := by
  intro heq
  obtain ⟨hword, hreserved⟩ := ht.isWord
  rw [← heq] at hword hreserved
  cases h with
  | number hsign hfinite =>
    obtain ⟨c, cs, hcs, hc⟩ := (Legible.number hsign hfinite).exists_cons
    rw [hcs] at hword
    have hdigit : ¬ IsDigit c := Scan.not_isDigit_of_isLetter hword.1
    unfold shapeOf at hc
    rw [if_neg hdigit] at hc
    split_ifs at hc <;> cases hc
  | string =>
    rw [toList_render_string] at hword
    exact absurd hword.1 (by decide)
  | boolean b => cases b <;> exact hreserved (by decide)
  | null => exact hreserved (by decide)

end Legible

end Literal

/-! ### Legible trees have readable forms -/

namespace Token.WrittenAs

variable {m : Mark} {t : Token}

theorem readable_name (h : t.WrittenAs .identifier) : (Form.atom t.lexeme).Readable :=
  .atom (Form.isAtom_of_isWord h.isWord.1)

theorem isAtom_operator (h : t.WrittenAs m) (hm : m ∈ unaryMarks ++ binaryMarks ++ logicalMarks) :
    Form.IsAtom t.lexeme.toList := by
  have htext : ∀ m ∈ unaryMarks ++ binaryMarks ++ logicalMarks, m.text?.isSome = true := by decide
  obtain ⟨s, hs⟩ := Option.isSome_iff_exists.1 (htext m hm)
  rw [h.lexeme_eq hs]
  exact Form.isAtom_of_text? hm hs

end Token.WrittenAs

namespace Expr.Legible

theorem readable {e : Expr} (h : e.Legible) : e.form.Readable := by
  induction h with
  | literal h =>
    rw [form]
    exact .atom h.isAtom
  | var h =>
    rw [form]
    exact h.readable_name
  | assign h _ ih =>
    rw [form]
    exact .node (Form.isAtom_of_all rfl) (by simp [ih, h.readable_name])
  | unary hm hop _ ih =>
    rw [form]
    exact .node (hop.isAtom_operator (by simp [hm])) (by simp [ih])
  | binary hm hop _ _ ihl ihr =>
    rw [form]
    exact .node (hop.isAtom_operator (by simp [hm])) (by simp [ihl, ihr])
  | logical hm hop _ _ ihl ihr =>
    rw [form]
    exact .node (hop.isAtom_operator (by simp [hm])) (by simp [ihl, ihr])
  | group _ ih =>
    rw [form]
    exact .node (Form.isAtom_of_all rfl) (by simp [ih])
  | call _ _ _ ihcallee ihargs =>
    rw [form]
    exact .node (Form.isAtom_of_all rfl) (by simpa [ihcallee] using ihargs)

variable {e : Option Expr}

theorem forall_readable (h : ∀ x ∈ e, x.Legible) :
    ∀ x ∈ (e.map Expr.form).toList, x.Readable := by
  cases e with
  | none => simp
  | some e => simpa using (h e rfl).readable

theorem readable_clauseForm (h : ∀ x ∈ e, x.Legible) : (clauseForm e).Readable := by
  cases e with
  | none => exact .atom (Form.isAtom_of_all rfl)
  | some e => exact (h e rfl).readable

end Expr.Legible

theorem Stmt.Legible.readable {s : Stmt} (h : s.Legible) : s.form.Readable := by
  induction h with
  | expression he =>
    rw [form]
    exact .node (Form.isAtom_of_all rfl) (by simp [he.readable])
  | print he =>
    rw [form]
    exact .node (Form.isAtom_of_all rfl) (by simp [he.readable])
  | var hname hinit =>
    rw [form]
    exact .node (Form.isAtom_of_all rfl)
      (List.forall_mem_cons.2 ⟨hname.readable_name, Expr.Legible.forall_readable hinit⟩)
  | block _ ih =>
    rw [form]
    exact .node (Form.isAtom_of_all rfl) (by simpa using ih)
  | function hname hparams _ ih =>
    rw [form]
    have hparams : (Form.list _).Readable :=
      .list (List.forall_mem_map.2 fun p hp => (hparams p hp).readable_name)
    exact .node (Form.isAtom_of_all rfl) (by simpa [hname.readable_name, hparams] using ih)
  | ifElse hcond _ _ ihthen ihelse =>
    rw [form_ifElse]
    exact .node (Form.isAtom_of_all rfl) (by simpa [hcond.readable, ihthen] using ihelse)
  | whileLoop hcond _ ih =>
    rw [form]
    exact .node (Form.isAtom_of_all rfl) (by simp [hcond.readable, ih])
  | @forLoop initializer _ _ _ _ hcond hincr _ ihinit ih =>
    have hinit : ((initializer.map form).getD (.atom "_")).Readable := by
      cases initializer with
      | none => exact .atom (Form.isAtom_of_all rfl)
      | some s => exact ihinit s rfl
    have hclauses := And.intro (Expr.Legible.readable_clauseForm hcond)
      (Expr.Legible.readable_clauseForm hincr)
    rw [form_forLoop]
    exact .node (Form.isAtom_of_all rfl) (by simp [hinit, hclauses, ih])
  | ret _ hvalue =>
    rw [form]
    exact .node (Form.isAtom_of_all rfl) (Expr.Legible.forall_readable hvalue)

end Scriptlet

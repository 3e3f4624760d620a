import Scriptlet.Proofs.Grammar.Invariant

/-!
# Loop headers

The first clause of a loop header is a variable declaration or an expression, if there is one, also
in what is read off tokens that are malformed elsewhere. So no header holds a `return` of its own,
neither among the statements of a program nor in a function that one of them declares.
-/

namespace Scriptlet

/-- The statements whose loop headers, outside of function bodies, start with a clause or with
nothing. -/
inductive Stmt.PlainHeaders : Stmt → Prop
  | expression (e : Expr) : PlainHeaders (.expression e)
  | print (e : Expr) : PlainHeaders (.print e)
  | var (name : Token) (initializer : Option Expr) : PlainHeaders (.var name initializer)
  | function (name : Token) (params : List Token) (body : List Stmt) :
      PlainHeaders (.function name params body)
  | block {body : List Stmt} : (∀ s ∈ body, PlainHeaders s) → PlainHeaders (.block body)
  | ifElse (condition : Expr) {thenBranch : Stmt} {elseBranch : Option Stmt} :
      PlainHeaders thenBranch → (∀ s ∈ elseBranch, PlainHeaders s) →
      PlainHeaders (.ifElse condition thenBranch elseBranch)
  | whileLoop (condition : Expr) {body : Stmt} : PlainHeaders body →
      PlainHeaders (.whileLoop condition body)
  | forLoop {initializer : Option Stmt} (condition increment : Option Expr) {body : Stmt} :
      (∀ s ∈ initializer, s.isClause = true) → PlainHeaders body →
      PlainHeaders (.forLoop initializer condition increment body)
  | ret (keyword : Token) (value : Option Expr) : PlainHeaders (.ret keyword value)

namespace Stmt

mutual

/-- The functions that a statement declares, at any depth, also inside of other functions. -/
def declared : Stmt → List FunctionDecl
  | .block body => declaredEach body
  | .function name params body => ⟨name, params, body⟩ :: declaredEach body
  | .ifElse _ thenBranch elseBranch => thenBranch.declared ++ declaredOption elseBranch
  | .whileLoop _ body => body.declared
  | .forLoop initializer _ _ body => declaredOption initializer ++ body.declared
  | _ => []

/-- The functions that statements declare. -/
def declaredEach : List Stmt → List FunctionDecl
  | [] => []
  | s :: ss => s.declared ++ declaredEach ss

/-- The functions that a statement declares, if there is one. -/
def declaredOption : Option Stmt → List FunctionDecl
  | some s => s.declared
  | none => []

end

variable {decl : FunctionDecl}

theorem mem_declaredEach {ss : List Stmt} :
    decl ∈ declaredEach ss ↔ ∃ s ∈ ss, decl ∈ s.declared := by
  induction ss with
  | nil => simp [declaredEach]
  | cons s ss ih => simp [declaredEach, ih]

theorem mem_declaredOption {o : Option Stmt} :
    decl ∈ declaredOption o ↔ ∃ s ∈ o, decl ∈ s.declared := by
  cases o <;> simp [declaredOption]

/-- The loop headers of a statement are plain, and so are those of all functions in it. -/
def PlainThroughout (s : Stmt) : Prop :=
  s.PlainHeaders ∧ ∀ decl ∈ s.declared, ∀ t ∈ decl.body, PlainHeaders t

namespace PlainThroughout

variable {s : Stmt} {body : List Stmt} {o : Option Stmt}

theorem of_declared_eq_nil (h : s.PlainHeaders) (hnil : s.declared = []) : s.PlainThroughout :=
  ⟨h, by simp [hnil]⟩

theorem each (h : ∀ s ∈ body, PlainThroughout s) :
    ∀ decl ∈ declaredEach body, ∀ t ∈ decl.body, PlainHeaders t := by
  intro decl hdecl
  obtain ⟨s, hs, hdecl⟩ := mem_declaredEach.1 hdecl
  exact (h s hs).2 decl hdecl

theorem option (h : ∀ s ∈ o, PlainThroughout s) :
    ∀ decl ∈ declaredOption o, ∀ t ∈ decl.body, PlainHeaders t := by
  intro decl hdecl
  obtain ⟨s, hs, hdecl⟩ := mem_declaredOption.1 hdecl
  exact (h s hs).2 decl hdecl

end PlainThroughout

open PlainThroughout

/-- A statement that is read is plain throughout if its parts are. -/
theorem plainThroughout_treeInvariant :
    TreeInvariant (fun _ => True) (fun _ => True) PlainThroughout where
  literal _ _ := trivial
  name _ _ := trivial
  assign _ _ := trivial
  unary _ _ _ _ := trivial
  node _ _ _ _ _ := trivial
  group _ := trivial
  call _ _ _ _ := trivial
  expression _ := of_declared_eq_nil (.expression _) rfl
  print _ := of_declared_eq_nil (.print _) rfl
  var _ _ _ := of_declared_eq_nil (.var _ _) rfl
  block hbody := ⟨.block fun s hs => (hbody s hs).1, each hbody⟩
  function _ _ _ hbody :=
    ⟨.function _ _ _, List.forall_mem_cons.2 ⟨fun s hs => (hbody s hs).1, each hbody⟩⟩
  ifElse _ hthen helse :=
    ⟨.ifElse _ hthen.1 fun s hs => (helse s hs).1,
      List.forall_mem_append.2 ⟨hthen.2, option helse⟩⟩
  whileLoop _ hbody := ⟨.whileLoop _ hbody.1, hbody.2⟩
  forLoop hinit _ _ hbody :=
    ⟨.forLoop _ _ (fun s hs => (hinit s hs).2) hbody.1,
      List.forall_mem_append.2 ⟨option fun s hs => (hinit s hs).1, hbody.2⟩⟩
  ret _ _ _ := of_declared_eq_nil (.ret _ _) rfl

end Stmt

theorem Program.plainThroughout_of_mem {tokens : List Token} {s : Stmt}
    (hs : s ∈ (Program.ofTokens tokens).statements) : s.PlainThroughout :=
  Stmt.plainThroughout_treeInvariant.of_mem (fun _ _ => trivial) hs

/-- Loop headers are plain in all statements that are read, whatever the tokens are. -/
theorem Program.plainHeaders_of_mem {tokens : List Token} {s : Stmt}
    (hs : s ∈ (Program.ofTokens tokens).statements) : s.PlainHeaders :=
  (plainThroughout_of_mem hs).1

/-- So they are in the bodies of all functions that a program declares. -/
theorem Program.plainHeaders_of_mem_declared {tokens : List Token} {decl : FunctionDecl}
    (h : decl ∈ Stmt.declaredEach (Program.ofTokens tokens).statements) :
    ∀ t ∈ decl.body, t.PlainHeaders :=
  Stmt.PlainThroughout.each (fun _ => plainThroughout_of_mem) decl h

end Scriptlet

import Scriptlet.Proofs.Grammar.Invariant
import Scriptlet.Proofs.Token.LongestMatch
import Scriptlet.Proofs.Tree.Determined

/-!
# The printed form of a script

Trees that are read off scanned tokens are legible, with or without complaints on the way: every
rule takes its names, operators and literals from tokens of the right kinds. So the printed form of
a statement determines it, but for the placeholder of a missing clause, which is also a name.
-/

namespace Scriptlet

/-- Whether the value of a number literal is finite. -/
def Kind.isFinite : Kind → Bool
  | .number x => x.isFinite
  | _ => true

/-- A token that is written as its kind says and whose value, if it is a number, is finite. -/
structure Token.Legible (t : Token) : Prop where
  written : t.kind.Written t.lexeme.toList
  isFinite : t.kind.isFinite = true

theorem Token.Legible.writtenAs {t : Token} {m : Mark} (h : t.Legible) (hk : t.kind = .mark m) :
    t.WrittenAs m :=
  ⟨hk, hk ▸ h.written⟩

/-! ### What is read off legible tokens -/

theorem Literal.legible_of_spells {t : Token} {value : Literal} (ht : t.Legible)
    (h : value.symbol.Spells t) : value.Legible := by
  obtain ⟨hwritten, hfinite⟩ := ht
  generalize t.lexeme.toList = cs at hwritten
  cases value with
  | number x =>
    have hk : t.kind = .number x := h
    rw [hk] at hwritten hfinite
    exact .number (by cases hwritten <;> exact Decimal.signClear_ofDigits _ _) hfinite
  | string contents =>
    have hk : t.kind = .string contents := h
    rw [hk] at hwritten
    cases hwritten with
    | string hquote => exact .string (by rwa [String.toList_ofList])
  | boolean b => exact .boolean b
  | null => exact .null

theorem Expr.Legible.node {t : Tier} {left right : Expr} {operator : Token} {m : Mark}
    (hm : m ∈ t.marks) (hop : operator.WrittenAs m) (hleft : left.Legible)
    (hright : right.Legible) : (t.node left operator right).Legible := by
  cases t with
  | or | and =>
    exact .logical ((by decide : _ ⊆ logicalMarks) hm) hop hleft hright
  | equality | comparison | sum | product =>
    exact .binary ((by decide : _ ⊆ binaryMarks) hm) hop hleft hright

theorem Expr.Legible.writtenAs_of_var {name : Token} (h : (Expr.var name).Legible) :
    name.WrittenAs .identifier := by
  cases h with
  | var hname => exact hname

/-- Every node that is built from legible tokens and parts is legible. -/
theorem legible_treeInvariant : TreeInvariant Token.Legible Expr.Legible Stmt.Legible where
  literal ht h := .literal (Literal.legible_of_spells ht h)
  name ht hk := .var (ht.writtenAs hk)
  assign hname := .assign hname.writtenAs_of_var
  unary hm ht hk := .unary hm (ht.writtenAs hk)
  node hm ht hk := .node hm (ht.writtenAs hk)
  group := .group
  call hcallee ht hk := .call hcallee (ht.writtenAs hk)
  expression := .expression
  print := .print
  var ht hk := .var (ht.writtenAs hk)
  block := .block
  function ht hk hparams :=
    .function (ht.writtenAs hk) fun p hp => (hparams p hp).1.writtenAs (hparams p hp).2
  ifElse := .ifElse
  whileLoop := .whileLoop
  forLoop hinit := .forLoop fun s hs => (hinit s hs).1
  ret ht hk := .ret (ht.writtenAs hk)

/-! ### Scripts -/

namespace Program

variable {source source' : String} {tokens tokens' : List Token} {s s' : Stmt}

/-- The statements of a script with finite numbers are legible, whatever else is wrong with it. -/
theorem legible_of_mem (hscan : scan source = .ok tokens)
    (hfinite : ∀ t ∈ tokens, t.kind.isFinite = true)
    (hs : s ∈ (ofTokens tokens).statements) : s.Legible := by
  have hbody : ∀ t ∈ body tokens, t.Legible := by
    intro t ht
    have hmem : t ∈ tokens := (List.takeWhile_prefix _).subset ht
    have heof : ¬ t.kind = .mark .eof := by
      have hp := List.mem_takeWhile_imp (p := fun t : Token => !t.is .eof) ht
      simpa [← Token.is_eq_true_iff] using hp
    have hitem : .ok t ∈ items 1 source.toList := by
      change _ ∈ scanItems source
      rw [mapM_id_eq_ok_iff.1 hscan]
      exact List.mem_map_of_mem hmem
    rcases written_of_mem_items hitem with hwritten | ⟨hkind, -⟩
    · exact ⟨hwritten, hfinite t hmem⟩
    · exact absurd hkind heof
  exact legible_treeInvariant.of_mem hbody hs

/-- **The printed form determines the tree but for underscores.** Take any two statements that are
read off scripts that scan and whose numbers are finite, with or without errors. They are printed as
the same text exactly if they are the same up to the lines of their tokens, once the clauses of loop
headers that are the name `_` are left out: a missing clause is printed as that name. -/
theorem print_determines_tree (hscan : scan source = .ok tokens)
    (hscan' : scan source' = .ok tokens') (hfinite : ∀ t ∈ tokens, t.kind.isFinite = true)
    (hfinite' : ∀ t ∈ tokens', t.kind.isFinite = true) (hs : s ∈ (ofTokens tokens).statements)
    (hs' : s' ∈ (ofTokens tokens').statements) :
    s.render = s'.render ↔
      s.cleared.renumber (fun _ => 0) = s'.cleared.renumber fun _ => 0 := by
  have hlegible := legible_of_mem hscan hfinite hs
  have hlegible' := legible_of_mem hscan' hfinite' hs'
  have hform : s.render = s'.render ↔ s.form = s'.form := by
    rw [← String.toList_inj, Stmt.toList_render, Stmt.toList_render]
    exact ⟨Form.eq_of_text_eq hlegible.readable hlegible'.readable, congrArg Form.text⟩
  rw [hform]
  refine ⟨hlegible.renumber_cleared_eq hlegible', fun h => ?_⟩
  have hforms := congrArg Stmt.form h
  simpa using hforms

/-- Whether a loop has a condition in its header. -/
def isConditioned : Stmt → Bool
  | .forLoop _ condition _ _ => condition.isSome
  | _ => false

theorem isConditioned_renumber (f : Nat → Nat) (s : Stmt) :
    isConditioned (s.renumber f) = isConditioned s := by
  cases s with
  | forLoop initializer condition => simp [isConditioned]
  | ifElse => simp [isConditioned]
  | _ => rw [Stmt.renumber]; rfl

/-- Whether a script is one statement with finite numbers that is printed as the given text, with a
condition in its header or without. -/
def printsAs (source printed : String) (conditioned : Bool) : Bool :=
  (scan source).toOption.any fun tokens => tokens.all (·.kind.isFinite) &&
    ((ofTokens tokens).statements.map fun s => (s.render, isConditioned s)) =
      [(printed, conditioned)]

theorem exists_of_printsAs {printed : String} {conditioned : Bool}
    (h : printsAs source printed conditioned = true) : ∃ tokens s, scan source = .ok tokens ∧
      (∀ t ∈ tokens, t.kind.isFinite = true) ∧ s ∈ (ofTokens tokens).statements ∧
        s.render = printed ∧ isConditioned s = conditioned := by
  obtain ⟨tokens, htokens, h⟩ := (Option.any_eq_true _ _).1 h
  obtain ⟨hfinite, h⟩ := Bool.and_eq_true_iff.1 h
  have hmap := of_decide_eq_true h
  obtain ⟨s, hs, hprinted⟩ := List.mem_map.1 (hmap ▸ List.mem_singleton_self _)
  cases hscan : scan source with
  | error e =>
    rw [hscan] at htokens
    cases htokens
  | ok tokens' =>
    rw [hscan] at htokens
    cases htokens
    cases hprinted
    exact ⟨tokens, s, rfl, List.all_eq_true.1 hfinite, hs, rfl, rfl⟩

/-- Two loops on different lines, one of them with an underscore for its condition. -/
theorem print_determines_tree_loops : ∃ tokens tokens' s s',
    scan "for(;;) print 1.5 + f(\"a b\");" = .ok tokens ∧
      scan "for(;_;)\nprint 1.5 + f(\"a b\");" = .ok tokens' ∧
      s ∈ (ofTokens tokens).statements ∧ s' ∈ (ofTokens tokens').statements ∧
      s.cleared.renumber (fun _ => 0) = s'.cleared.renumber fun _ => 0 := by
  have hfirst : printsAs "for(;;) print 1.5 + f(\"a b\");"
      "(for _ _ _ (print (+ 1.5 (call f \"a b\"))))" false = true := by decide +kernel
  have hsecond : printsAs "for(;_;)\nprint 1.5 + f(\"a b\");"
      "(for _ _ _ (print (+ 1.5 (call f \"a b\"))))" true = true := by decide +kernel
  obtain ⟨tokens, s, hscan, hfinite, hs, hprint, -⟩ := exists_of_printsAs hfirst
  obtain ⟨tokens', s', hscan', hfinite', hs', hprint', -⟩ := exists_of_printsAs hsecond
  exact ⟨tokens, tokens', s, s', hscan, hscan', hs, hs',
    (print_determines_tree hscan hscan' hfinite hfinite' hs hs').1 (hprint.trans hprint'.symm)⟩

/-- A loop without a condition and one whose condition is the name `_` are printed alike. -/
theorem underscore_printed_as_missing : ∃ tokens tokens' s s',
    scan "for(;;) \x7b\x7d" = .ok tokens ∧ scan "for(;_;) \x7b\x7d" = .ok tokens' ∧
      (∀ t ∈ tokens, t.kind.isFinite = true) ∧ (∀ t ∈ tokens', t.kind.isFinite = true) ∧
      s ∈ (ofTokens tokens).statements ∧ s' ∈ (ofTokens tokens').statements ∧
      s.render = s'.render ∧ s.renumber (fun _ => 0) ≠ s'.renumber fun _ => 0 := by
  have hfirst : printsAs "for(;;) \x7b\x7d" "(for _ _ _ (block))" false = true := by
    decide +kernel
  have hsecond : printsAs "for(;_;) \x7b\x7d" "(for _ _ _ (block))" true = true := by
    decide +kernel
  obtain ⟨tokens, s, hscan, hfinite, hs, hprint, hmissing⟩ := exists_of_printsAs hfirst
  obtain ⟨tokens', s', hscan', hfinite', hs', hprint', hpresent⟩ := exists_of_printsAs hsecond
  refine ⟨tokens, tokens', s, s', hscan, hscan', hfinite, hfinite', hs, hs',
    hprint.trans hprint'.symm, fun heq => ?_⟩
  have hconditioned := congrArg isConditioned heq
  rw [isConditioned_renumber, isConditioned_renumber, hmissing, hpresent] at hconditioned
  cases hconditioned

end Program

end Scriptlet

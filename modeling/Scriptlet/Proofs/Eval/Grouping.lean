import Scriptlet.Proofs.Eval.Indistinguishable
import Scriptlet.Proofs.Tree.Ungrouped

/-!
# Parentheses do not matter to a run

Statements run as they do without the parentheses in them, also where they declare functions that
are called much later: the bodies of the functions on both machines resemble each other.
-/

namespace Scriptlet

/-- **Parentheses are transparent.** On every machine that a host can come to, statements and the
same statements without any parentheses end alike or not at all: with the same output, the same
error or flow, the same last result, and machines that no host can tell apart. -/
theorem grouping_transparent {setting : Setting} (hhost : setting.host.Parametric) {m : Machine}
    (hm : m.Hosted setting) (ss : List Stmt) :
    SameRuns setting .grouping True (fun n => executeAll setting n [] ss m)
      fun n => executeAll setting n [] (ss.map Stmt.ungrouped) m := by
  have hss : Resemblance.grouping.body ss (ss.map Stmt.ungrouped) := by
    simp [Resemblance.grouping]
  exact sameRuns_of_resembles hhost hm hss hss.symm

/-- A function with parentheses in its body that is declared and then called. -/
theorem grouping_transparent_in_function :
    let name : Token := ⟨.mark .identifier, "f", 1⟩
    let paren : Token := ⟨.mark .rightParen, ")", 1⟩
    let keyword : Token := ⟨.mark .kwReturn, "return", 1⟩
    let ss : List Stmt :=
      [.function name [] [.ret keyword (some (.group (.literal (.boolean true))))],
        .print (.call (.group (.var name)) paren [])]
    (executeAll .standard 10 [] ss (.start .unlimited)).final?.isSome = true ∧
      SameRuns .standard .grouping True (fun n => executeAll .standard n [] ss (.start .unlimited))
        fun n => executeAll .standard n [] (ss.map Stmt.ungrouped) (.start .unlimited) := by
  refine ⟨by decide +kernel, ?_⟩
  exact grouping_transparent Host.standard_parametric (.start .unlimited) _

end Scriptlet

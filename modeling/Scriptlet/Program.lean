import Scriptlet.Grammar.Stmt

/-!
# Programs

`Program.ofTokens` reads a token list as statements. Only the tokens before the first end token
count; an end token that is missing stands on the line of the last token.
-/

namespace Scriptlet

/-- The statements that could be read and the errors met on the way, both in order. -/
structure Program where
  statements : List Stmt
  errors : List Error

/-- An error at the place of a note; the end of the tokens has the given line. -/
def Note.toError (endLine : Nat) : Note → Error
  | ⟨some t, c⟩ => .parse (some t.lexeme) c t.line
  | ⟨none, c⟩ => .parse none c endLine

namespace Program

/-- The rules with the full nesting allowance. -/
def grammar : Grammar := .ofDepth maxNesting

/-- The tokens before the first end token. -/
def body (tokens : List Token) : List Token := tokens.takeWhile fun t => !t.is .eof

/-- The line of the first end token, or of the last token if there is none. -/
def endLine (tokens : List Token) : Nat :=
  match tokens.find? fun t => t.is .eof with
  | some t => t.line
  | none => (tokens.getLast?.map (·.line)).getD 1

/-- Declarations until the tokens are used up. -/
def rule : Rule (List Stmt) := grammar.declarations fun _ => true

/-- Reads a token list as a program. -/
def ofTokens (tokens : List Token) : Program :=
  let step := rule.run (body tokens)
  let last := endLine tokens
  { statements := step.result.toOption.getD []
    errors := step.notes.map (·.toError last) }

end Program

end Scriptlet

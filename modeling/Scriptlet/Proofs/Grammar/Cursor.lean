import Scriptlet.Program

/-!
# Reading with a cursor

The grammar once more, for a machine with registers: the index of the next token, the number of
rules that are entered and not left, and the errors so far. Nothing is safe by construction here. A
token is looked at by its index, which may be out of range; a loop goes on until it ends by itself
or its fuel runs out; and the depth is counted up and down by hand. All that happens is recorded, so
that it can be said what happens in the course of reading.
-/

namespace Scriptlet

/-- The registers of a machine that reads tokens. -/
structure Cursor where
  tokens : List Token
  /-- The index of the next token. -/
  current : Nat
  /-- The number of rules that are entered and not left. -/
  depth : Nat
  /-- The errors so far, in order. -/
  errors : List Error

namespace Cursor

/-- Something that happens in the course of reading. -/
inductive Event
  /-- The token at an index is looked at. -/
  | look (index : Nat)
  /-- The registers get new values. -/
  | set (current depth : Nat)
  /-- A rule is over that was entered at one depth and is left at another. -/
  | rule (entered left : Nat)
  /-- A declaration is over that was entered at one index and is left at another. -/
  | declaration (entered left : Nat)
  /-- Another declaration of a program is about to be read. So far there are these statements, the
  last first, and these errors. -/
  | round (current : Nat) (statements : List Stmt) (errors : List Error)

/-- The index of the next token, for an event that sets it. -/
def Event.current? : Event → Option Nat
  | .set current _ => some current
  | _ => none

/-- The index of the next token, for a round of a program. -/
def Event.start? : Event → Option Nat
  | .round current _ _ => some current
  | _ => none

/-- How reading ends. -/
inductive End (α : Type)
  | done (a : α)
  | failed (e : Error)
  | outOfRange
  | outOfFuel

end Cursor

/-- What reading comes to. -/
structure Outcome.Reading (α : Type) where
  trace : List Cursor.Event
  ending : Cursor.End α
  cursor : Cursor

/-- A computation of a machine that reads tokens. -/
def Reading (α : Type) := Cursor → Outcome.Reading α

namespace Reading

variable {α β σ : Type}

/-- Ends at once with a result. -/
protected def pure (a : α) : Reading α := fun c => ⟨[], .done a, c⟩

/-- One computation and then another that depends on its result. -/
protected def bind (x : Reading α) (f : α → Reading β) : Reading β := fun c =>
  match x c with
  | ⟨trace, .done a, c⟩ => ⟨trace ++ (f a c).trace, (f a c).ending, (f a c).cursor⟩
  | ⟨trace, .failed e, c⟩ => ⟨trace, .failed e, c⟩
  | ⟨trace, .outOfRange, c⟩ => ⟨trace, .outOfRange, c⟩
  | ⟨trace, .outOfFuel, c⟩ => ⟨trace, .outOfFuel, c⟩

instance : Monad Reading where
  pure := Reading.pure
  bind := Reading.bind

/-! ### Registers -/

/-- The registers. -/
def registers : Reading Cursor := fun c => ⟨[], .done c, c⟩

/-- Sets the registers for the next token and the depth. -/
def set (current depth : Nat) : Reading Unit := fun c =>
  ⟨[.set current depth], .done (), { c with current, depth }⟩

/-- Records that something happens. -/
def emit (e : Cursor.Event) : Reading Unit := fun c => ⟨[e], .done (), c⟩

/-- Ends for lack of fuel. -/
def exhausted : Reading α := fun c => ⟨[], .outOfFuel, c⟩

/-- Ends with an error. -/
def fail (e : Error) : Reading α := fun c => ⟨[], .failed e, c⟩

/-- Adds an error to those so far. -/
def record (e : Error) : Reading Unit := fun c =>
  ⟨[], .done (), { c with errors := c.errors ++ [e] }⟩

/-! ### Tokens -/

/-- The token at an index. -/
def tokenAt (index : Nat) : Reading Token := fun c =>
  match c.tokens[index]? with
  | some t => ⟨[.look index], .done t, c⟩
  | none => ⟨[.look index], .outOfRange, c⟩

/-- The next token. -/
def peek : Reading Token := do
  let c ← registers
  tokenAt c.current

/-- The token before the next one. -/
def previous : Reading Token := do
  let c ← registers
  tokenAt (c.current - 1)

/-- Whether the next token is an end token. -/
def isAtEnd : Reading Bool := do
  let t ← peek
  pure (t.is .eof)

/-- Goes on to the next token, unless it is an end token. -/
def advance : Reading Token := do
  if ← isAtEnd then
    previous
  else
    let c ← registers
    set (c.current + 1) c.depth
    previous

/-- Whether the next token is the given mark. -/
def check (m : Mark) : Reading Bool := do
  if ← isAtEnd then
    pure false
  else
    let t ← peek
    pure (t.is m)

/-- Takes the next token if it is the given mark. -/
def accept (m : Mark) : Reading Bool := do
  if ← check m then
    let _ ← advance
    pure true
  else
    pure false

/-- Takes the next token if it is one of the given marks. -/
def acceptAny : List Mark → Reading Bool
  | [] => pure false
  | m :: marks => do
    if ← accept m then
      pure true
    else
      acceptAny marks

end Reading

/-- The error of a complaint at a token. -/
def Complaint.atToken (c : Complaint) (t : Token) : Error :=
  if t.is .eof then .parse none c t.line else .parse (some t.lexeme) c t.line

namespace Reading

variable {α β σ : Type}

/-- Fails with a complaint at the next token. -/
def failHere (c : Complaint) : Reading α := do
  let t ← peek
  fail (c.atToken t)

/-- Records a complaint at the next token and goes on. -/
def recordHere (c : Complaint) : Reading Unit := do
  let t ← peek
  record (c.atToken t)

/-- Takes the next token, which has to be the given mark. -/
def consume (m : Mark) (what : Expectation) : Reading Token := do
  if ← check m then
    advance
  else
    failHere (.expected what)

/-! ### Rules -/

/-- Records the depth before and after a rule, however it ends. -/
def asRule (x : Reading α) : Reading α := fun c =>
  let r := x c
  ⟨r.trace ++ [.rule c.depth r.cursor.depth], r.ending, r.cursor⟩

/-- Counts one more level while a rule runs, however it ends. -/
def deepened (x : Reading α) : Reading α := fun c =>
  let r := x { c with depth := c.depth + 1 }
  ⟨.set c.current (c.depth + 1) :: (r.trace ++ [.set r.cursor.current (r.cursor.depth - 1)]),
    r.ending, { r.cursor with depth := r.cursor.depth - 1 }⟩

/-- Runs a rule one level deeper, if the nesting allows it. -/
def nested (x : Reading α) : Reading α := do
  let c ← registers
  if maxNesting ≤ c.depth then
    failHere .tooDeep
  else
    deepened x

/-- Repeats a computation that turns a state into a new one and says whether to go on. -/
def loop (round : σ → Reading (σ × Bool)) : Nat → σ → Reading σ
  | 0, _ => exhausted
  | fuel + 1, s => do
    let p ← round s
    if p.2 then
      loop round fuel p.1
    else
      pure p.1

/-- Drops tokens until a semicolon has just been dropped or a statement starts. -/
def settle : Nat → Reading Unit
  | 0 => exhausted
  | fuel + 1 => do
    if ← isAtEnd then
      pure ()
    else
      let before ← previous
      let next ← peek
      if before.is .semicolon || Grammar.statementMarks.any fun m => next.is m then
        pure ()
      else
        let _ ← advance
        settle fuel

/-- Drops the offending token and goes on to where a statement may start. -/
def synchronize (fuel : Nat) : Reading Unit := do
  let _ ← advance
  settle fuel

/-- Turns a failure into an error so far, and goes on behind the malformed part. -/
def recovering (fuel : Nat) (x : Reading Stmt) : Reading (Option Stmt) := fun c =>
  match x c with
  | ⟨trace, .done s, c⟩ => ⟨trace, .done (some s), c⟩
  | ⟨trace, .failed e, c⟩ =>
    let r := (do
      record e
      synchronize fuel
      pure none) c
    ⟨trace ++ r.trace, r.ending, r.cursor⟩
  | ⟨trace, .outOfRange, c⟩ => ⟨trace, .outOfRange, c⟩
  | ⟨trace, .outOfFuel, c⟩ => ⟨trace, .outOfFuel, c⟩

/-- Records the index before and after a declaration. -/
def asDeclaration (x : Reading α) : Reading α := fun c =>
  let r := x c
  ⟨r.trace ++ [.declaration c.current r.cursor.current], r.ending, r.cursor⟩

end Reading

/-! ### The grammar -/

/-- The rules that a rule may enter one level deeper. -/
structure Reading.Rules where
  expression : Reading Expr
  operand : Reading Expr
  declaration : Reading (Option Stmt)
  statement : Reading Stmt

namespace Reading.Rules

variable (fuel : Nat) (deeper : Rules)

/-- Things with commas between them, of which there should not be too many. -/
def commaList {α : Type} (excess : Complaint) (item : Reading α) : Reading (List α) :=
  loop (fun items => do
    if maxArity ≤ items.length then
      recordHere excess
    let x ← item
    let more ← accept .comma
    pure (items ++ [x], more)) fuel []

/-- Operands joined by the operators of one level, grouped to the left. -/
def chain (marks : List Mark) (node : Expr → Token → Expr → Expr) (operand : Reading Expr) :
    Reading Expr := asRule do
  let first ← operand
  loop (fun left => do
    if ← acceptAny marks then
      let operator ← previous
      let right ← operand
      pure (node left operator right, true)
    else
      pure (left, false)) fuel first

/-- A primary expression that is no keyword. -/
def plainPrimary : Reading Expr := do
  let t ← peek
  match t.kind with
  | .number x => do
    let _ ← advance
    pure (.literal (.number x))
  | .string contents => do
    let _ ← advance
    pure (.literal (.string contents))
  | .mark _ =>
    if ← accept .identifier then
      let name ← previous
      pure (.var name)
    else if ← accept .leftParen then
      let inner ← deeper.expression
      let _ ← consume .rightParen .parenAfterExpression
      pure (.group inner)
    else
      failHere (.expected .expression)

/-- Literals, names and expressions in parentheses. -/
def primary : Reading Expr := do
  if ← accept .kwFalse then
    pure (.literal (.boolean false))
  else if ← accept .kwTrue then
    pure (.literal (.boolean true))
  else if ← accept .kwNull then
    pure (.literal .null)
  else
    plainPrimary deeper

/-- The arguments of a call up to its closing parenthesis. -/
def arguments : Reading (List Expr) := do
  if ← check .rightParen then
    pure []
  else
    commaList fuel .tooManyArguments deeper.expression

/-- The rest of a call behind its opening parenthesis. -/
def finishCall (callee : Expr) : Reading Expr := asRule do
  let args ← arguments fuel deeper
  let paren ← consume .rightParen .parenAfterArguments
  pure (.call callee paren args)

/-- A primary expression and the calls that follow it. -/
def call : Reading Expr := asRule do
  let first ← asRule (primary deeper)
  loop (fun callee => do
    if ← accept .leftParen then
      let e ← finishCall fuel deeper callee
      pure (e, true)
    else
      pure (callee, false)) fuel first

/-- A call behind any number of unary operators. -/
def unary : Reading Expr := asRule do
  if ← acceptAny [.bang, .minus] then
    let operator ← previous
    let operand ← deeper.operand
    pure (.unary operator operand)
  else
    call fuel deeper

/-- The levels of binary operators, from products out to `or`. -/
def operators : Reading Expr :=
  chain fuel [.kwOr] .logical <|
  chain fuel [.kwAnd] .logical <|
  chain fuel [.bangEqual, .equalEqual] .binary <|
  chain fuel [.greater, .greaterEqual, .less, .lessEqual] .binary <|
  chain fuel [.minus, .plus] .binary <|
  chain fuel [.star, .slash] .binary <|
  unary fuel deeper

/-- An expression, possibly the target of an assignment. -/
def assignment : Reading Expr := asRule do
  let target ← operators fuel deeper
  if ← accept .equal then
    let equals ← previous
    let value ← deeper.expression
    match target with
    | .var name => pure (.assign name value)
    | _ => do
      record (Complaint.invalidTarget.atToken equals)
      pure target
  else
    pure target

/-- One more declaration of a block, unless it ends. -/
def blockRound (stmts : List Stmt) : Reading (List Stmt × Bool) := do
  if ← check .rightBrace then
    pure (stmts, false)
  else if ← isAtEnd then
    pure (stmts, false)
  else
    match ← deeper.declaration with
    | some s => pure (s :: stmts, true)
    | none => pure (stmts, true)

/-- The rest of a block behind its opening brace. -/
def block : Reading (List Stmt) := asRule do
  let body ← List.reverse <$> loop (blockRound deeper) fuel []
  let _ ← consume .rightBrace .braceAfterBlock
  pure body

/-- The parameters of a function up to the closing parenthesis. -/
def parameters : Reading (List Token) := do
  if ← check .rightParen then
    pure []
  else
    commaList fuel .tooManyParameters (consume .identifier .parameterName)

/-- A function declaration behind its keyword. -/
def function : Reading Stmt := asRule do
  let name ← consume .identifier .functionName
  let _ ← consume .leftParen .parenAfterFunctionName
  let params ← parameters fuel
  let _ ← consume .rightParen .parenAfterParameters
  let _ ← consume .leftBrace .braceBeforeBody
  let body ← block fuel deeper
  pure (.function name params body)

/-- A variable declaration behind its keyword. -/
def variableDeclaration : Reading Stmt := asRule do
  let name ← consume .identifier .variableName
  let initializer ← do
    if ← accept .equal then
      some <$> deeper.expression
    else
      pure none
  let _ ← consume .semicolon .semicolonAfterVariable
  pure (.var name initializer)

/-- An expression and its semicolon. -/
def expressionStatement : Reading Stmt := asRule do
  let e ← deeper.expression
  let _ ← consume .semicolon .semicolonAfterExpression
  pure (.expression e)

/-- An expression, unless the given mark comes next. -/
def optionalExpression (stop : Mark) : Reading (Option Expr) := do
  if ← check stop then
    pure none
  else
    some <$> deeper.expression

/-- The first clause of a loop header with its semicolon. -/
def forInitializer : Reading (Option Stmt) := do
  if ← accept .semicolon then
    pure none
  else if ← accept .kwVar then
    some <$> variableDeclaration deeper
  else
    some <$> expressionStatement deeper

/-- A counting loop behind its keyword. -/
def forStatement : Reading Stmt := asRule do
  let _ ← consume .leftParen .parenAfterFor
  let initializer ← forInitializer deeper
  let condition ← optionalExpression deeper .semicolon
  let _ ← consume .semicolon .semicolonAfterLoopCondition
  let increment ← optionalExpression deeper .rightParen
  let _ ← consume .rightParen .parenAfterForClauses
  let body ← deeper.statement
  pure (.forLoop initializer condition increment body)

/-- A conditional behind its keyword. -/
def ifStatement : Reading Stmt := asRule do
  let _ ← consume .leftParen .parenAfterIf
  let condition ← deeper.expression
  let _ ← consume .rightParen .parenAfterIfCondition
  let thenBranch ← deeper.statement
  if ← accept .kwElse then
    let elseBranch ← deeper.statement
    pure (.ifElse condition thenBranch (some elseBranch))
  else
    pure (.ifElse condition thenBranch none)

/-- A print statement behind its keyword. -/
def printStatement : Reading Stmt := asRule do
  let e ← deeper.expression
  let _ ← consume .semicolon .semicolonAfterValue
  pure (.print e)

/-- A return statement behind its keyword. -/
def returnStatement : Reading Stmt := asRule do
  let keyword ← previous
  let value ← optionalExpression deeper .semicolon
  let _ ← consume .semicolon .semicolonAfterReturn
  pure (.ret keyword value)

/-- A conditional loop behind its keyword. -/
def whileStatement : Reading Stmt := asRule do
  let _ ← consume .leftParen .parenAfterWhile
  let condition ← deeper.expression
  let _ ← consume .rightParen .parenAfterCondition
  let body ← deeper.statement
  pure (.whileLoop condition body)

/-- A statement that is no declaration. -/
def plainStatement : Reading Stmt := do
  if ← accept .kwFor then
    forStatement deeper
  else if ← accept .kwIf then
    ifStatement deeper
  else if ← accept .kwPrint then
    printStatement deeper
  else if ← accept .kwReturn then
    returnStatement deeper
  else if ← accept .kwWhile then
    whileStatement deeper
  else if ← accept .leftBrace then
    .block <$> block fuel deeper
  else
    expressionStatement deeper

/-- A declaration or a statement. -/
def anyDeclaration : Reading Stmt := do
  if ← accept .kwFunction then
    function fuel deeper
  else if ← accept .kwVar then
    variableDeclaration deeper
  else
    deeper.statement

/-- The rules one level further out than the given ones. -/
def outer : Rules where
  expression := asRule (nested (assignment fuel deeper))
  operand := asRule (nested (unary fuel deeper))
  declaration := asDeclaration (asRule (recovering fuel (nested (anyDeclaration fuel deeper))))
  statement := asRule (nested (plainStatement fuel deeper))

/-- The rules that may call each other and go around loops as long as the fuel lasts. -/
def ofFuel : Nat → Rules
  | 0 => ⟨exhausted, exhausted, exhausted, exhausted⟩
  | n + 1 => outer n (ofFuel n)

end Reading.Rules

/-! ### Programs -/

namespace Cursor

open Reading

/-- The tokens with an end token supplied if the last one is none. -/
def closed (tokens : List Token) : List Token :=
  match tokens.getLast? with
  | some t => if t.is .eof then tokens else tokens ++ [.endOfText t.line]
  | none => [.endOfText 1]

/-- A machine that has read nothing yet. -/
def start (tokens : List Token) : Cursor := ⟨closed tokens, 0, 0, []⟩

/-- One more declaration of a program, unless it ends. -/
def parseRound (declaration : Reading (Option Stmt)) (stmts : List Stmt) :
    Reading (List Stmt × Bool) := do
  if ← isAtEnd then
    pure (stmts, false)
  else
    let c ← registers
    emit (.round c.current stmts c.errors)
    match ← declaration with
    | some s => pure (s :: stmts, true)
    | none => pure (stmts, true)

/-- Declarations up to the first end token. -/
def parseAll (fuel : Nat) : Reading Program := do
  let stmts ← loop (parseRound (Rules.ofFuel fuel).declaration) fuel []
  let c ← registers
  pure ⟨stmts.reverse, c.errors⟩

/-- Reads a token list as a program, from the first token on. -/
def parse (fuel : Nat) (tokens : List Token) : Outcome.Reading Program :=
  parseAll fuel (start tokens)

end Cursor

end Scriptlet

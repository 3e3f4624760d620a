import Scriptlet.Token.Basic

/-!
# Errors

What can go wrong with a script, as causes: while its text is split into tokens, while the tokens
are read as statements, and while the statements run. `Error.message` is the one place where the
wording stands.
-/

namespace Scriptlet

/-- Why a piece of text is no token. -/
inductive LexFault
  | unexpected (c : Char)
  | openString
  deriving DecidableEq

/-- The greatest number of parameters of a function and of arguments of a call. -/
def maxArity : Nat := 255

/-- The greatest depth of declarations, statements, expressions and unary operands inside each
other. -/
def maxNesting : Nat := 512

/-- What the grammar required next and did not find. -/
inductive Expectation
  | functionName
  | parenAfterFunctionName
  | parameterName
  | parenAfterParameters
  | braceBeforeBody
  | variableName
  | semicolonAfterVariable
  | parenAfterFor
  | semicolonAfterLoopCondition
  | parenAfterForClauses
  | parenAfterIf
  | parenAfterIfCondition
  | parenAfterWhile
  | parenAfterCondition
  | semicolonAfterValue
  | semicolonAfterReturn
  | semicolonAfterExpression
  | braceAfterBlock
  | parenAfterArguments
  | parenAfterExpression
  | expression
  deriving DecidableEq

/-- The name of an expectation inside a message. -/
def Expectation.text : Expectation → String
  | functionName => "function name"
  | parenAfterFunctionName => "'(' after function name"
  | parameterName => "parameter name"
  | parenAfterParameters => "')' after parameters"
  | braceBeforeBody => "'\x7b' before function body"
  | variableName => "variable name"
  | semicolonAfterVariable => "';' after variable declaration"
  | parenAfterFor => "'(' after 'for'"
  | semicolonAfterLoopCondition => "';' after loop condition"
  | parenAfterForClauses => "')' after for clauses"
  | parenAfterIf => "'(' after 'if'"
  | parenAfterIfCondition => "')' after if condition"
  | parenAfterWhile => "'(' after 'while'"
  | parenAfterCondition => "')' after condition"
  | semicolonAfterValue => "';' after value"
  | semicolonAfterReturn => "';' after return value"
  | semicolonAfterExpression => "';' after expression"
  | braceAfterBlock => "'\x7d' after block"
  | parenAfterArguments => "')' after arguments"
  | parenAfterExpression => "')' after expression"
  | expression => "expression"

/-- What is wrong at a token. -/
inductive Complaint
  | expected (what : Expectation)
  | tooManyParameters
  | tooManyArguments
  | invalidTarget
  | tooDeep
  deriving DecidableEq

/-- Why evaluation stopped. -/
inductive RuntimeFault
  | undefinedVariable (name : String)
  | operandNotNumber (operator : String)
  | operandsNotNumbers (operator : String)
  | operandsNotAddable
  | invalidUnary (operator : String)
  | invalidBinary (operator : String)
  | notCallable
  | wrongArity (expected got : Nat)
  | stackOverflow
  /-- A host function failed with a message of its own. -/
  | native (message : String)
  deriving DecidableEq

/-- An error with its place. -/
inductive Error
  | lex (fault : LexFault) (line : Nat)
  /-- The grammar is violated at the token with the given text, or at the end for `none`. -/
  | parse (site : Option String) (complaint : Complaint) (line : Nat)
  | runtime (fault : RuntimeFault) (line : Nat)
  /-- The output could not be written. -/
  | sinkFull
  deriving DecidableEq

/-- The wording of a fault in the text. -/
def LexFault.message : LexFault → String
  | unexpected c => "Unexpected character: " ++ c.toString
  | openString => "Unterminated string."

/-- The wording of a violation of the grammar. -/
def Complaint.message : Complaint → String
  | expected what => "Expect " ++ what.text ++ "."
  | tooManyParameters => "Can't have more than " ++ toString maxArity ++ " parameters."
  | tooManyArguments => "Can't have more than " ++ toString maxArity ++ " arguments."
  | invalidTarget => "Invalid assignment target."
  | tooDeep => "Too much nesting."

/-- The wording of a failed evaluation. -/
def RuntimeFault.message : RuntimeFault → String
  | undefinedVariable name => "Undefined variable '" ++ name ++ "'."
  | operandNotNumber operator => "Operand of '" ++ operator ++ "' must be a number."
  | operandsNotNumbers operator => "Operands of '" ++ operator ++ "' must be numbers."
  | operandsNotAddable => "Operands must be two numbers or two strings."
  | invalidUnary operator => "Invalid unary operator '" ++ operator ++ "'."
  | invalidBinary operator => "Invalid binary operator '" ++ operator ++ "'."
  | notCallable => "Can only call functions."
  | wrongArity expected got =>
    "Expected " ++ toString expected ++ " arguments but got " ++ toString got ++ "."
  | stackOverflow => "Stack overflow."
  | native message => message

namespace Error

/-- The error of using a name that is bound nowhere in scope. -/
abbrev undefinedVariable (name : String) (line : Nat) : Error :=
  runtime (.undefinedVariable name) line

/-- The text of an error as it is reported. -/
def message : Error → String
  | lex fault line => "[line " ++ toString line ++ "] Error: " ++ fault.message
  | parse (some lexeme) complaint _ => "Error at '" ++ lexeme ++ "': " ++ complaint.message
  | parse none complaint _ => "Error at end: " ++ complaint.message
  | runtime fault _ => fault.message
  | sinkFull => "sink full"

/-- The line an error refers to, if it refers to one. -/
def line? : Error → Option Nat
  | lex _ line => some line
  | parse _ _ line => some line
  | runtime _ line => some line
  | sinkFull => none

/-- Whether an error was found before anything ran. -/
def isStatic : Error → Bool
  | lex _ _ => true
  | parse _ _ _ => true
  | runtime _ _ => false
  | sinkFull => false

end Error

end Scriptlet

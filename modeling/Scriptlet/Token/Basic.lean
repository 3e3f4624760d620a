/-!
# Tokens

A token is a kind, the text it was written as, and the line it starts on. Kinds are payload-free
marks (punctuation, keywords, names, the end of the text) or literals that carry their value.
Comparing kinds or tokens looks past the carried value.
-/

namespace Scriptlet

/-- The kinds of token that carry no value. -/
inductive Mark
  | leftParen
  | rightParen
  | leftBrace
  | rightBrace
  | comma
  | dot
  | minus
  | plus
  | semicolon
  | slash
  | star
  | bang
  | bangEqual
  | equal
  | equalEqual
  | greater
  | greaterEqual
  | less
  | lessEqual
  | identifier
  | kwAnd
  | kwElse
  | kwFalse
  | kwFor
  | kwFunction
  | kwIf
  | kwNull
  | kwOr
  | kwPrint
  | kwReturn
  | kwTrue
  | kwVar
  | kwWhile
  | eof
  deriving DecidableEq

namespace Mark

/-- The name under which a mark is listed. -/
def name : Mark → String
  | leftParen => "LEFT_PAREN"
  | rightParen => "RIGHT_PAREN"
  | leftBrace => "LEFT_BRACE"
  | rightBrace => "RIGHT_BRACE"
  | comma => "COMMA"
  | dot => "DOT"
  | minus => "MINUS"
  | plus => "PLUS"
  | semicolon => "SEMICOLON"
  | slash => "SLASH"
  | star => "STAR"
  | bang => "BANG"
  | bangEqual => "BANG_EQUAL"
  | equal => "EQUAL"
  | equalEqual => "EQUAL_EQUAL"
  | greater => "GREATER"
  | greaterEqual => "GREATER_EQUAL"
  | less => "LESS"
  | lessEqual => "LESS_EQUAL"
  | identifier => "IDENTIFIER"
  | kwAnd => "AND"
  | kwElse => "ELSE"
  | kwFalse => "FALSE"
  | kwFor => "FOR"
  | kwFunction => "FUNCTION"
  | kwIf => "IF"
  | kwNull => "NULL"
  | kwOr => "OR"
  | kwPrint => "PRINT"
  | kwReturn => "RETURN"
  | kwTrue => "TRUE"
  | kwVar => "VAR"
  | kwWhile => "WHILE"
  | eof => "EOF"

/-- Every mark once. -/
def all : List Mark :=
  [leftParen, rightParen, leftBrace, rightBrace, comma, dot, minus, plus, semicolon, slash, star,
    bang, bangEqual, equal, equalEqual, greater, greaterEqual, less, lessEqual, identifier, kwAnd,
    kwElse, kwFalse, kwFor, kwFunction, kwIf, kwNull, kwOr, kwPrint, kwReturn, kwTrue, kwVar,
    kwWhile, eof]

/-- The mark listed under a name. -/
def ofName? (s : String) : Option Mark := all.find? fun m => m.name = s

/-- The reserved words and their marks. -/
def keywords : List (String × Mark) :=
  [("and", kwAnd), ("else", kwElse), ("false", kwFalse), ("for", kwFor), ("function", kwFunction),
    ("if", kwIf), ("null", kwNull), ("or", kwOr), ("print", kwPrint), ("return", kwReturn),
    ("true", kwTrue), ("var", kwVar), ("while", kwWhile)]

/-- The mark of a word: its own if it is reserved, `identifier` otherwise. -/
def ofWord (s : String) : Mark := (keywords.lookup s).getD identifier

end Mark

/-- The kind of a token. -/
inductive Kind
  | mark (m : Mark)
  /-- A string literal with its contents. -/
  | string (contents : String)
  /-- A number literal with its value. -/
  | number (value : Float)

namespace Kind

/-- The name under which a kind is listed. -/
def name : Kind → String
  | mark m => m.name
  | string _ => "STRING"
  | number _ => "NUMBER"

/-- Equality of kinds that looks past the carried value. -/
def same : Kind → Kind → Bool
  | mark m, mark n => m = n
  | string _, string _ => true
  | number _, number _ => true
  | _, _ => false

/-- Whether a kind is the given mark. -/
def isMark (m : Mark) : Kind → Bool
  | mark n => n = m
  | _ => false

@[simp] theorem isMark_eq_true_iff {m : Mark} {k : Kind} : k.isMark m = true ↔ k = mark m := by
  cases k <;> simp [isMark]

end Kind

/-- A token of a script. -/
structure Token where
  kind : Kind
  /-- The text the token was written as. -/
  lexeme : String
  /-- The line the token starts on; the first line is 1. -/
  line : Nat

namespace Token

/-- Equality of tokens: same kind up to the carried value, same text, same line. -/
def same (s t : Token) : Bool := s.kind.same t.kind && s.lexeme == t.lexeme && s.line == t.line

/-- Whether a token is the given mark. -/
def is (m : Mark) (t : Token) : Bool := t.kind.isMark m

@[simp] theorem is_eq_true_iff {m : Mark} {t : Token} : t.is m = true ↔ t.kind = .mark m := by
  simp [is]

/-- The token that ends a token list. -/
def endOfText (line : Nat) : Token := ⟨.mark .eof, "", line⟩

end Token

end Scriptlet

import Scriptlet.Decimal.Reading
import Scriptlet.Error

/-!
# Splitting a text into tokens

`bite` takes one piece off the front of a text: something to skip, a token, or a fault. `items`
takes bites until the text is used up and ends with one end token; a fault does not stop it.
`scan` is all the tokens, or the first fault. A bite loses nothing (`bite_text_append_rest`) and is
never empty (`bite_rest_lt`), which is what makes the splitting end.
-/

namespace Scriptlet

/-- What stands at the front of a text. -/
inductive Piece
  /-- A blank, a line break or a comment. -/
  | blank
  | token (kind : Kind)
  | fault (fault : LexFault)

/-- A piece, the text it covers, and the text after it. -/
structure Bite where
  piece : Piece
  text : List Char
  rest : List Char

/-- A token, or a fault with its line. -/
abbrev Item := Except Error Token

/-- The token of an item. -/
def Item.token? : Item → Option Token
  | .ok t => some t
  | .error _ => none

/-- The error of an item. -/
def Item.error? : Item → Option Error
  | .ok _ => none
  | .error e => some e

namespace Scan

/-- Blanks and line breaks. -/
def isBlank (c : Char) : Bool := c = ' ' || c = '\r' || c = '\t' || c = '\n'

/-- Characters that are a token of their own whatever follows. -/
def single? : Char → Option Mark
  | '(' => some .leftParen
  | ')' => some .rightParen
  | '{' => some .leftBrace
  | '}' => some .rightBrace
  | ',' => some .comma
  | '.' => some .dot
  | '-' => some .minus
  | '+' => some .plus
  | ';' => some .semicolon
  | '*' => some .star
  | _ => none

/-- Characters that are one token alone and another before `=`. -/
def paired? : Char → Option (Mark × Mark)
  | '!' => some (.bang, .bangEqual)
  | '=' => some (.equal, .equalEqual)
  | '<' => some (.less, .lessEqual)
  | '>' => some (.greater, .greaterEqual)
  | _ => none

/-- The characters a word starts with: ASCII letters and the underscore. -/
def isWordStart (c : Char) : Bool := c.isAlpha || c = '_'

/-- The characters a word goes on with: ASCII letters, digits and the underscore. -/
def isWordPart (c : Char) : Bool := c.isAlphanum || c = '_'

/-- The bite at a character of a pair: two characters if `=` follows, one otherwise. -/
def pairBite (c : Char) (alone double : Mark) : List Char → Bite
  | '=' :: cs => ⟨.token (.mark double), [c, '='], cs⟩
  | cs => ⟨.token (.mark alone), [c], cs⟩

/-- The bite at a slash: a comment up to the end of the line if another slash follows. -/
def slashBite : List Char → Bite
  | '/' :: cs => ⟨.blank, '/' :: '/' :: cs.takeWhile (· != '\n'), cs.dropWhile (· != '\n')⟩
  | cs => ⟨.token (.mark .slash), ['/'], cs⟩

/-- The bite at a quote: everything up to the next quote, or a fault that covers all the rest. -/
def quoteBite (cs : List Char) : Bite :=
  let contents := cs.takeWhile (· != '"')
  match cs.dropWhile (· != '"') with
  | quote :: rest =>
    ⟨.token (.string (String.ofList contents)), '"' :: contents ++ [quote], rest⟩
  | [] => ⟨.fault .openString, '"' :: contents, []⟩

/-- The bite at a digit: digits, then a point and digits if both follow. -/
def numberBite (c : Char) (cs : List Char) : Bite :=
  let integer := c :: cs.takeWhile Char.isDigit
  match cs.dropWhile Char.isDigit with
  | '.' :: d :: more =>
    if d.isDigit then
      let fraction := d :: more.takeWhile Char.isDigit
      ⟨.token (.number (Decimal.ofDigits integer fraction)), integer ++ '.' :: fraction,
        more.dropWhile Char.isDigit⟩
    else
      ⟨.token (.number (Decimal.ofDigits integer [])), integer, '.' :: d :: more⟩
  | rest => ⟨.token (.number (Decimal.ofDigits integer [])), integer, rest⟩

/-- The bite at the start of a word: a keyword or a name. -/
def wordBite (c : Char) (cs : List Char) : Bite :=
  let word := c :: cs.takeWhile isWordPart
  ⟨.token (.mark (.ofWord (String.ofList word))), word, cs.dropWhile isWordPart⟩

end Scan

open Scan in
/-- Takes one piece off the front of the text `c :: cs`. -/
def bite (c : Char) (cs : List Char) : Bite :=
  if isBlank c then ⟨.blank, [c], cs⟩
  else if c = '/' then slashBite cs
  else if c = '"' then quoteBite cs
  else if c.isDigit then numberBite c cs
  else if isWordStart c then wordBite c cs
  else
    match single? c, paired? c with
    | some m, _ => ⟨.token (.mark m), [c], cs⟩
    | none, some (alone, double) => pairBite c alone double cs
    | none, none => ⟨.fault (.unexpected c), [c], cs⟩

namespace Scan

theorem pairBite_text_append_rest (c : Char) (alone double : Mark) (cs : List Char) :
    (pairBite c alone double cs).text ++ (pairBite c alone double cs).rest = c :: cs := by
  unfold pairBite
  split <;> simp

theorem pairBite_text_ne_nil (c : Char) (alone double : Mark) (cs : List Char) :
    (pairBite c alone double cs).text ≠ [] := by
  unfold pairBite
  split <;> simp

theorem slashBite_text_append_rest (cs : List Char) :
    (slashBite cs).text ++ (slashBite cs).rest = '/' :: cs := by
  unfold slashBite
  split <;> simp

theorem slashBite_text_ne_nil (cs : List Char) : (slashBite cs).text ≠ [] := by
  unfold slashBite
  split <;> simp

theorem quoteBite_text_append_rest (cs : List Char) :
    (quoteBite cs).text ++ (quoteBite cs).rest = '"' :: cs := by
  have h := List.takeWhile_append_dropWhile (p := (· != '"')) (l := cs)
  unfold quoteBite
  split
  · rename_i quote rest hd
    rw [hd] at h
    simp [h]
  · rename_i hd
    rw [hd] at h
    simpa using h

theorem quoteBite_text_ne_nil (cs : List Char) : (quoteBite cs).text ≠ [] := by
  unfold quoteBite
  split <;> simp

theorem numberBite_text_append_rest (c : Char) (cs : List Char) :
    (numberBite c cs).text ++ (numberBite c cs).rest = c :: cs := by
  have h := List.takeWhile_append_dropWhile (p := Char.isDigit) (l := cs)
  unfold numberBite
  split
  · rename_i d more hd
    rw [hd] at h
    split <;> simp [h]
  · simp [h]

theorem numberBite_text_ne_nil (c : Char) (cs : List Char) : (numberBite c cs).text ≠ [] := by
  unfold numberBite
  split
  · split <;> simp
  · simp

theorem wordBite_text_append_rest (c : Char) (cs : List Char) :
    (wordBite c cs).text ++ (wordBite c cs).rest = c :: cs := by
  simp [wordBite]

end Scan

open Scan in
/-- A bite loses nothing: the text it covers and the text after it make up the text it was taken
from. -/
theorem bite_text_append_rest (c : Char) (cs : List Char) :
    (bite c cs).text ++ (bite c cs).rest = c :: cs := by
  unfold bite
  split
  · simp
  split
  · rename_i h
    rw [h, slashBite_text_append_rest]
  split
  · rename_i h
    rw [h, quoteBite_text_append_rest]
  split
  · exact numberBite_text_append_rest c cs
  split
  · exact wordBite_text_append_rest c cs
  split
  · simp
  · exact pairBite_text_append_rest c _ _ cs
  · simp

open Scan in
/-- A bite covers at least one character. -/
theorem bite_text_ne_nil (c : Char) (cs : List Char) : (bite c cs).text ≠ [] := by
  unfold bite
  split
  · simp
  split
  · exact slashBite_text_ne_nil cs
  split
  · exact quoteBite_text_ne_nil cs
  split
  · exact numberBite_text_ne_nil c cs
  split
  · simp [wordBite]
  split
  · simp
  · exact pairBite_text_ne_nil c _ _ cs
  · simp

/-- What is left after a bite is shorter than the text it was taken from. -/
theorem bite_rest_lt (c : Char) (cs : List Char) :
    (bite c cs).rest.length < (c :: cs).length := by
  have h := congrArg List.length (bite_text_append_rest c cs)
  have := List.length_pos_iff.2 (bite_text_ne_nil c cs)
  rw [List.length_append] at h
  omega

/-- The tokens and faults of a text whose first line has the given number, closed by the end
token. -/
def items (line : Nat) : List Char → List Item
  | [] => [.ok (.endOfText line)]
  | c :: cs =>
    let b := bite c cs
    match b.piece with
    | .blank => items (line + b.text.count '\n') b.rest
    | .token kind =>
      .ok ⟨kind, String.ofList b.text, line⟩ :: items (line + b.text.count '\n') b.rest
    | .fault fault => .error (.lex fault line) :: items (line + b.text.count '\n') b.rest
termination_by cs => cs.length
decreasing_by all_goals exact bite_rest_lt c cs

/-- The tokens and faults of a script, in order. -/
def scanItems (source : String) : List Item := items 1 source.toList

/-- The tokens of a script, or its first fault. -/
def scan (source : String) : Except Error (List Token) := (scanItems source).mapM id

end Scriptlet

import Scriptlet.Token.Scan

/-!
# Scanning byte by byte

The scanner once more, for a machine with registers: the index of the first byte of the lexeme at
hand, the index of the next byte, a count of lines, and what has been recognized and not been given
yet. Nothing is safe by construction here. A byte is looked at by its index and a stretch of the
script is cut out between two indices, which may be out of range or inside a character; a search for
a byte jumps over whatever is in between; a loop goes on until it ends by itself or its fuel runs
out; and lines are counted by hand, at a line break and for all the contents of a string.
-/

namespace Scriptlet

/-- The registers of a machine that scans bytes. -/
structure ByteScanner where
  /-- The index of the first byte of the lexeme at hand. -/
  start : Nat
  /-- The index of the next byte. -/
  current : Nat
  line : Nat
  /-- What has been recognized and not been given yet. -/
  pending : Option Kind

namespace ByteScanner

/-- What keeps a computation of the machine from having a result. -/
inductive Stop
  | fault (e : Error)
  /-- There is no such byte, or no such stretch of text. -/
  | outOfRange
  | outOfFuel

/-- A computation of the machine. -/
abbrev Scanning := EStateM Stop ByteScanner

/-- The registers before anything is scanned. -/
def initial : ByteScanner := ⟨0, 0, 1, none⟩

/-- The bytes of a script. -/
def bytes (source : String) : List UInt8 := source.toUTF8.data.toList

/-- The text between two indices, if both are character boundaries and in order. -/
def slice? (source : String) (start stop : Nat) : Option String :=
  if h : String.Pos.Raw.IsValid source ⟨start⟩ ∧ String.Pos.Raw.IsValid source ⟨stop⟩ ∧
      start ≤ stop then
    some (source.extract ⟨⟨start⟩, h.1⟩ ⟨⟨stop⟩, h.2.1⟩)
  else
    none

variable (source : String)

/-! ### Bytes and stretches of text -/

/-- A value that has to be there. -/
def inRange {α : Type} : Option α → Scanning α
  | some a => pure a
  | none => throw .outOfRange

/-- The byte at an index. -/
def byteAt (index : Nat) : Scanning UInt8 := inRange (bytes source)[index]?

/-- The bytes from an index on. -/
def bytesFrom (index : Nat) : Scanning (List UInt8) :=
  inRange (if index ≤ (bytes source).length then some ((bytes source).drop index) else none)

/-- The text between two indices. -/
def slice (start stop : Nat) : Scanning String := inRange (slice? source start stop)

/-- Whether all bytes have been passed. -/
def isAtEnd : Scanning Bool := do
  let r ← get
  pure ((bytes source).length ≤ r.current)

/-- Passes the next byte. -/
def advance : Scanning UInt8 := do
  let r ← get
  let b ← byteAt source r.current
  set { r with current := r.current + 1 }
  pure b

/-- The next byte, or zero at the end. -/
def peek : Scanning UInt8 := do
  if ← isAtEnd source then
    pure 0
  else
    let r ← get
    byteAt source r.current

/-- The byte after the next one, or zero if there is none. -/
def peekNext : Scanning UInt8 := do
  let r ← get
  if (bytes source).length ≤ r.current + 1 then
    pure 0
  else
    byteAt source (r.current + 1)

/-- Passes the next byte if it is the given character. -/
def accept (expected : Char) : Scanning Bool := do
  if ← isAtEnd source then
    pure false
  else if .ofUInt8 (← peek source) = expected then
    let _ ← advance source
    pure true
  else
    pure false

/-- Passes bytes as long as they satisfy a condition. -/
def skipWhile (p : Char → Bool) : Nat → Scanning Unit
  | 0 => throw .outOfFuel
  | fuel + 1 => do
    if p (.ofUInt8 (← peek source)) then
      let _ ← advance source
      skipWhile p fuel
    else
      pure ()

/-! ### Lexemes -/

/-- Notes what has been recognized. -/
def recognize (kind : Kind) : Scanning Unit := modify fun r => { r with pending := some kind }

/-- The text of the lexeme at hand. -/
def lexeme : Scanning String := do
  let r ← get
  slice source r.start r.current

/-- Two marks, the second one if the given character comes next. -/
def pair (alone double : Mark) : Scanning Unit := do
  if ← accept source '=' then
    recognize (.mark double)
  else
    recognize (.mark alone)

/-- What stands behind a slash: a comment up to the next line break, which is left to be counted, or
to the end. -/
def slash : Scanning Unit := do
  if ← accept source '/' then
    let r ← get
    let rest ← bytesFrom source r.current
    match rest.idxOf? ('\n').toUInt8 with
    | some distance => set { r with current := r.current + distance }
    | none => set { r with current := (bytes source).length }
  else
    recognize (.mark .slash)

/-- A string behind its opening quote. All line breaks in it are counted at once. -/
def string : Scanning Unit := do
  let r ← get
  let rest ← bytesFrom source r.current
  match rest.idxOf? ('"').toUInt8 with
  | none =>
    set { r with line := r.line + rest.count ('\n').toUInt8, current := (bytes source).length }
    throw (.fault (.lex .openString r.line))
  | some close =>
    let inside ← inRange (if close ≤ rest.length then some (rest.take close) else none)
    let line := r.line + inside.count ('\n').toUInt8
    set { r with line, current := r.current + (close + 1) }
    let r ← get
    let contents ← slice source (r.start + 1) (r.current - 1)
    recognize (.string contents)

/-- Passes a point and the digits behind it, if both come next. -/
def fraction (fuel : Nat) : Scanning Unit := do
  if .ofUInt8 (← peek source) = '.' then
    if (Char.ofUInt8 (← peekNext source)).isDigit then
      let _ ← advance source
      skipWhile source Char.isDigit fuel
    else
      pure ()
  else
    pure ()

/-- A number behind its first digit. -/
def number (fuel : Nat) : Scanning Unit := do
  skipWhile source Char.isDigit fuel
  fraction source fuel
  let text ← lexeme source
  recognize (.number ((Decimal.read? text).getD 0))

/-- A word behind its first character. -/
def word (fuel : Nat) : Scanning Unit := do
  skipWhile source Scan.isWordPart fuel
  let text ← lexeme source
  recognize (.mark (.ofWord text))

/-- A character that starts nothing. It is passed as a whole, however many bytes it has. -/
def unexpected : Scanning Unit := do
  let r ← get
  let rest ← slice source r.start (bytes source).length
  let c := rest.toList.head?.getD '\x00'
  set { r with current := r.start + c.utf8Size }
  throw (.fault (.lex (.unexpected c) r.line))

/-- Recognizes what starts with the next byte, if it is a token. -/
def scanToken (fuel : Nat) : Scanning Unit := do
  let c := Char.ofUInt8 (← advance source)
  if c = ' ' ∨ c = '\r' ∨ c = '\t' then
    pure ()
  else if c = '\n' then
    modify fun r => { r with line := r.line + 1 }
  else if c = '/' then
    slash source
  else if c = '"' then
    string source
  else if c.isDigit then
    number source fuel
  else if Scan.isWordStart c then
    word source fuel
  else
    match Scan.single? c, Scan.paired? c with
    | some m, _ => recognize (.mark m)
    | none, some (alone, double) => pair source alone double
    | none, none => unexpected source

/-! ### Items -/

/-- Runs a computation up to its end or its fault, if it has one. -/
def attempt (x : Scanning Unit) : Scanning (Except Error Unit) :=
  tryCatch (Except.ok <$> x) fun
    | .fault e => pure (.error e)
    | stop => throw stop

/-- Gives what has been recognized as a token of the given line, if anything has been. -/
def take? (line : Nat) : Scanning (Option Token) := do
  let r ← get
  match r.pending with
  | none => pure none
  | some kind =>
    set { r with pending := none }
    let text ← lexeme source
    pure (some ⟨kind, text, line⟩)

/-- What a round gives that starts at the next byte: a fault, a token of the line it starts on, or
nothing. -/
def round (fuel : Nat) : Scanning (Option Item) := do
  let r ← get
  set { r with start := r.current, pending := none }
  match ← attempt (scanToken source fuel) with
  | .error e => pure (some (.error e))
  | .ok () => Option.map .ok <$> take? source r.line

/-- The next item, unless the end token has been given. A round that gives nothing is followed by
another one. -/
def next : Nat → Scanning (Option Item)
  | 0 => throw .outOfFuel
  | fuel + 1 => do
    let r ← get
    if (bytes source).length < r.current then
      pure none
    else if r.current = (bytes source).length then
      set { r with current := r.current + 1 }
      pure (some (.ok (.endOfText r.line)))
    else
      match ← round source fuel with
      | some item => pure (some item)
      | none => next fuel

/-- The answer to the call of `next` that follows the given number of earlier calls. -/
def answer (fuel : Nat) : Nat → Scanning (Option Item)
  | 0 => next source fuel
  | n + 1 => do
    let _ ← next source fuel
    answer fuel n

/-- All the tokens that are still to come, or the first fault. -/
def collect (fuel : Nat) : Nat → Scanning (List Token)
  | 0 => throw .outOfFuel
  | rounds + 1 => do
    match ← next source fuel with
    | none => pure []
    | some (.error e) => throw (.fault e)
    | some (.ok t) => (t :: ·) <$> collect fuel rounds

end ByteScanner

end Scriptlet

/-!
# Text as bytes

Splits bytes into encoded characters and parts that encode none. A faulty part is as long as the
bytes from its first one on could still begin a character, so it has one to three bytes; at the end
of the input it is unfinished rather than wrong.
-/

namespace Scriptlet

namespace Utf8

/-- An interval of byte values, ends included. -/
structure Range where
  low : UInt8
  high : UInt8

/-- Whether a byte lies in an interval. -/
def Range.contains (r : Range) (b : UInt8) : Bool := r.low ≤ b && b ≤ r.high

/-- The bytes that continue a character. -/
def tail : Range := ⟨0x80, 0xBF⟩

/-- Where the bytes after a first byte have to lie; `none` if no character begins with it. The
narrower intervals exclude overlong forms, surrogates and what lies beyond the last character. -/
def followers (lead : UInt8) : Option (List Range) :=
  if lead ≤ 0x7F then some []
  else if lead ≤ 0xC1 then none
  else if lead ≤ 0xDF then some [tail]
  else if lead = 0xE0 then some [⟨0xA0, 0xBF⟩, tail]
  else if lead = 0xED then some [⟨0x80, 0x9F⟩, tail]
  else if lead ≤ 0xEF then some [tail, tail]
  else if lead = 0xF0 then some [⟨0x90, 0xBF⟩, tail, tail]
  else if lead ≤ 0xF3 then some [tail, tail, tail]
  else if lead = 0xF4 then some [⟨0x80, 0x8F⟩, tail, tail]
  else none

/-- The bits that a first byte gives to its character, which has the given number of further
bytes. -/
def leadBits (lead : UInt8) : Nat → Nat
  | 0 => lead.toNat
  | 1 => lead.toNat - 0xC0
  | 2 => lead.toNat - 0xE0
  | _ => lead.toNat - 0xF0

/-- A part of the input, with the number of its bytes after the first. -/
inductive Part
  | char (c : Char) (more : Nat)
  /-- Bytes that begin no character. -/
  | invalid (more : Nat)
  /-- Bytes that begin a character which the end of the input cuts off. -/
  | incomplete (more : Nat)

/-- How many bytes a part has after its first one. -/
def Part.more : Part → Nat
  | char _ n => n
  | invalid n => n
  | incomplete n => n

/-- Reads the bytes after a first one as far as they lie in their intervals. `bits` is the value of
the bytes read so far and `more` their number. -/
def follow : List Range → List UInt8 → (bits more : Nat) → Part
  | [], _, bits, more => .char (.ofNat bits) more
  | _ :: _, [], _, more => .incomplete more
  | r :: rs, b :: bs, bits, more =>
    if r.contains b then
      follow rs bs (bits * 64 + (b.toNat - 0x80)) (more + 1)
    else
      .invalid more

/-- The first part of an input that begins with the byte `lead`. -/
def firstPart (lead : UInt8) (rest : List UInt8) : Part :=
  match followers lead with
  | some ranges => follow ranges rest (leadBits lead ranges.length) 0
  | none => .invalid 0

/-- The parts of an input. -/
def parts : List UInt8 → List Part
  | [] => []
  | b :: bs => firstPart b bs :: parts (bs.drop (firstPart b bs).more)
termination_by bytes => bytes.length

/-- What keeps bytes from being text, at the index of the first byte of the fault. -/
inductive Fault
  | invalid (index size : Nat)
  | incomplete (index : Nat)

namespace Fault

/-- The wording of a fault. -/
def message : Fault → String
  | invalid index size =>
    "invalid utf-8 sequence of " ++ toString size ++ " bytes from index " ++ toString index
  | incomplete index => "incomplete utf-8 byte sequence from index " ++ toString index

end Fault

/-- The characters of parts that stand at an index, or the first fault. -/
def charsOf (index : Nat) : List Part → Except Fault (List Char)
  | [] => .ok []
  | .char c more :: ps => (charsOf (index + (more + 1)) ps).map (c :: ·)
  | .invalid more :: _ => .error (.invalid index (more + 1))
  | .incomplete _ :: _ => .error (.incomplete index)

/-- The text that bytes encode, or the first fault. -/
def decode (bytes : List UInt8) : Except Fault String :=
  (charsOf 0 (parts bytes)).map String.ofList

/-- The text that bytes encode, with a replacement character for each faulty part. -/
def decodeLossy (bytes : List UInt8) : String :=
  .ofList ((parts bytes).map fun
    | .char c _ => c
    | .invalid _ => '\ufffd'
    | .incomplete _ => '\ufffd')

end Utf8

end Scriptlet

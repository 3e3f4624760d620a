/-!
# Output sinks

Where a script's output goes: the bytes written so far, and how many more fit if there is a limit.
A write that does not fit stores what fits and fails.
-/

namespace Scriptlet

/-- The bytes written to an output and the room left in it; `none` is room without end. -/
structure Sink where
  written : ByteArray
  room : Option Nat

namespace Sink

/-- A sink without limit. -/
def unlimited : Sink := ⟨.empty, none⟩

/-- A sink that takes the given number of bytes. -/
def limited (room : Nat) : Sink := ⟨.empty, some room⟩

/-- Writes bytes as far as they fit, and tells whether all did. -/
def write (s : Sink) (bytes : ByteArray) : Sink × Bool :=
  match s.room with
  | none => (⟨s.written ++ bytes, none⟩, true)
  | some room =>
    (⟨s.written ++ bytes.extract 0 room, some (room - bytes.size)⟩, decide (bytes.size ≤ room))

/-- Writes a line of text and its line break. -/
def writeLine (s : Sink) (line : String) : Sink × Bool := s.write (line ++ "\n").toUTF8

end Sink

end Scriptlet

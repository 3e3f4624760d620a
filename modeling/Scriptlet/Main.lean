import Scriptlet.Command

/-!
# The program

Reads what a command needs, carries it out, and writes what it leaves behind.
-/

namespace Scriptlet

namespace Terminal

/-- More fuel than any run that ends can use. -/
def plenty : Nat := Nat.pow 2 62

/-- Reads a stream to its end. -/
partial def readAll (stream : IO.FS.Stream) (read : ByteArray) : IO ByteArray := do
  let chunk ← stream.read 65536
  if chunk.isEmpty then return read else readAll stream (read ++ chunk)

/-- Reads a line with its line break, or what is left of the input. -/
partial def readLine (stream : IO.FS.Stream) (read : ByteArray) : IO ByteArray := do
  let chunk ← stream.read 1
  let read := read ++ chunk
  if chunk.isEmpty || chunk.toList = [0x0A] then return read else readLine stream read

/-- What a path leads to. -/
def openPath (path : String) : IO Entry := do
  try
    return .file (← IO.FS.readBinFile path).toList
  catch
    | .noFileOrDirectory .. => return .absent .noSuchFile
    | .inappropriateType _ code details =>
      if code = 21 then return .folder
      else if code = 20 then return .absent .notFolder
      else throw (.inappropriateType none code details)
    | e => throw e

/-- Reads the file of a command, or the standard input if it has none. -/
def surroundings (file : Option String) : IO Surroundings := do
  match file with
  | none => return { Surroundings.empty with stdin := (← readAll (← IO.getStdin) .empty).toList }
  | some path =>
    let entry ← openPath path
    return { Surroundings.empty with entry := fun _ => entry }

/-- Writes what a run leaves behind and gives its exit code. -/
def finish (t : Transcript) : IO UInt32 := do
  let stdout ← IO.getStdout
  let stderr ← IO.getStderr
  stdout.write t.stdout
  stdout.flush
  stderr.write t.stderr
  return t.code.toUInt32

/-- Asks for lines and runs each as it comes. -/
partial def converse (m : Machine) : IO UInt32 := do
  let stdin ← IO.getStdin
  let stdout ← IO.getStdout
  stdout.write "> ".toUTF8
  stdout.flush
  let line ← readLine stdin .empty
  if line.isEmpty then return 0
  match Command.runLine plenty line.toList m with
  | none => throw (.userError "out of fuel")
  | some (.error f) => finish (.failed .empty f)
  | some (.ok m) =>
    stdout.write m.sink.written
    converse { m with sink := .unlimited }

/-- Carries out an invocation. -/
def carryOut (i : Invocation) (s : Surroundings) : IO UInt32 :=
  match i.perform plenty s with
  | some t => finish t
  | none => throw (.userError "out of fuel")

end Terminal

end Scriptlet

open Scriptlet Terminal in
/-- The program. -/
def main (args : List String) : IO UInt32 := do
  let i := Invocation.ofArguments args
  match i with
  | .command .repl => converse (.start .unlimited)
  | .command (.tokenize _ file) => carryOut i (← surroundings file)
  | .command (.parse file) => carryOut i (← surroundings file)
  | .command (.run file) => carryOut i (← surroundings file)
  | _ => carryOut i .empty

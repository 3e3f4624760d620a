import Scriptlet.Error
import Scriptlet.Files
import Scriptlet.Text.Quoted
import Scriptlet.Text.Utf8

/-!
# Transcripts

What the program can read, why reading can fail, and what a run of the program leaves behind. The
exit code is 65 after an error in the text or the grammar of a script, 70 after an error while it
ran, 1 if the script could not be read, and 2 if the arguments make no sense.
-/

namespace Scriptlet

/-- What the program can read. -/
structure Surroundings where
  stdin : List UInt8
  /-- What a path leads to. -/
  entry : String → Entry

/-- Nothing to read. -/
def Surroundings.empty : Surroundings := ⟨[], fun _ => .absent .noSuchFile⟩

/-- Why the program could not get at a script. -/
inductive Failure
  | notOpened (path : String) (fault : OpenFault)
  /-- A folder has no contents to read. -/
  | notMapped (path : String)
  | notText (path : String) (fault : Utf8.Fault)
  | stdinNotText
  | lineNotText

namespace Failure

/-- What the program could not do. -/
def context : Failure → String
  | notOpened path _ => "Failed to open file " ++ quoted path
  | notMapped path => "Failed to map file " ++ quoted path
  | notText path _ => "File " ++ quoted path ++ " is not valid UTF-8"
  | stdinNotText => "Failed to read stdin"
  | lineNotText => "Failed to read line"

/-- What kept it from that. -/
def cause : Failure → String
  | notOpened _ fault => fault.message
  | notMapped _ => "No such device (os error 19)"
  | notText _ fault => fault.message
  | stdinNotText => "stream did not contain valid UTF-8"
  | lineNotText => "stream did not contain valid UTF-8"

/-- The lines in which the program tells of a failure. -/
def lines (f : Failure) : List String :=
  ["Error: " ++ f.context, "", "Caused by:", "    " ++ f.cause]

end Failure

/-- The bytes of lines of text, each with its line break. -/
def lineBytes (lines : List String) : ByteArray :=
  lines.foldl (fun written line => written ++ (line ++ "\n").toUTF8) .empty

/-- What a run of the program leaves behind. -/
structure Transcript where
  stdout : ByteArray
  stderr : ByteArray
  code : Nat

namespace Transcript

/-- What is left after a script was looked at without running it. -/
def ofScript (lines : List String) (errors : List Error) : Transcript :=
  ⟨lineBytes lines, lineBytes (errors.map Error.message), if errors.isEmpty then 0 else 65⟩

/-- What is left after a script could not be read. -/
def failed (stdout : ByteArray) (f : Failure) : Transcript := ⟨stdout, lineBytes f.lines, 1⟩

end Transcript

end Scriptlet

import Scriptlet.Invocation
import Scriptlet.Session
import Scriptlet.Token.Listing
import Scriptlet.Transcript
import Scriptlet.Tree.Printer

/-!
# Commands

What the program does for each command, as a function of its arguments and of what it can read. A
script that cannot be read ends a command before anything of it is used; at the prompt each line is
a script of its own.
-/

namespace Scriptlet

namespace Command

/-- The text of a script. -/
def source (s : Surroundings) : Option String → Except Failure String
  | none => (Utf8.decode s.stdin).mapError fun _ => .stdinNotText
  | some path =>
    match s.entry path with
    | .absent fault => .error (.notOpened path fault)
    | .folder => .error (.notMapped path)
    | .file bytes => (Utf8.decode bytes).mapError (.notText path)

/-- Lists the tokens of a script. -/
def tokenizeSource (json : Bool) (source : String) : Transcript :=
  let tokens := (scanItems source).filterMap Item.token?
  let errors := (scanItems source).filterMap Item.error?
  .ofScript (tokens.map fun t => if json then t.json else t.listing) errors

/-- Prints the statements of a script. -/
def parseSource (source : String) : Transcript :=
  match scan source with
  | .error e => .ofScript [] [e]
  | .ok tokens =>
    let program := Program.ofTokens tokens
    .ofScript (program.statements.map Stmt.render) program.errors

/-- The line that says where a script was when it failed. -/
def lineNote (e : Error) : Option String :=
  if e.isStatic then none else e.line?.map fun n => "[line " ++ toString n ++ "]"

/-- The exit code after a run. -/
def exitCode (r : Report) : Nat :=
  if r.errors.any Error.isStatic then 65 else if r.isOk then 0 else 70

/-- Runs a script; the answer is `none` if the fuel runs out. -/
def runSource (fuel : Nat) (source : String) : Option Transcript :=
  ((Machine.start .unlimited).runScript .standard fuel source).map fun (r, m) =>
    ⟨m.sink.written, lineBytes (r.errors.filterMap lineNote), exitCode r⟩

/-- The lines of a byte sequence, each with its line break. -/
def lines : List UInt8 → List (List UInt8)
  | [] => []
  | b :: bs =>
    if b = 0x0A then
      [b] :: lines bs
    else
      match lines bs with
      | [] => [[b]]
      | l :: ls => (b :: l) :: ls

/-- Writes the prompt. -/
def prompt (m : Machine) : Machine := { m with sink := (m.sink.write "> ".toUTF8).1 }

/-- What becomes of one line of input: the machine after it, or a failure. -/
def runLine (fuel : Nat) (line : List UInt8) (m : Machine) : Option (Except Failure Machine) :=
  match Utf8.decode line with
  | .error _ => some (.error .lineNotText)
  | .ok source => (m.runScript .standard fuel source).map fun (_, m) => .ok m

/-- Runs one line after another on the same machine, with a prompt before each and one before the
end of the input. -/
def runLines (fuel : Nat) (m : Machine) : List (List UInt8) → Option Transcript
  | [] => some ⟨(prompt m).sink.written, .empty, 0⟩
  | l :: ls =>
    match runLine fuel l (prompt m) with
    | none => none
    | some (.error f) => some (.failed (prompt m).sink.written f)
    | some (.ok m) => runLines fuel m ls

/-- Applies a command to the text of a script. -/
def withSource (s : Surroundings) (file : Option String) (f : String → Option Transcript) :
    Option Transcript :=
  match source s file with
  | .ok text => f text
  | .error e => some (.failed .empty e)

/-- Carries a command out; the answer is `none` if the fuel runs out. -/
def perform (fuel : Nat) (s : Surroundings) : Command → Option Transcript
  | tokenize json file => withSource s file fun text => some (tokenizeSource json text)
  | parse file => withSource s file fun text => some (parseSource text)
  | run file => withSource s file (runSource fuel)
  | repl => runLines fuel (.start .unlimited) (lines s.stdin)

end Command

namespace Invocation

/-- How the program is used. -/
def usage : List String :=
  ["jslox scripting language interpreter", "", "Usage: jslox [OPTIONS] <COMMAND>", "", "Commands:",
    "  tokenize  Tokenizes input, printing each token",
    "  parse     Parses input and prints each statement in prefix form",
    "  run       Runs input as a program (stdin when no file is given)",
    "  repl      Starts an interactive prompt",
    "  help      Print this message or the help of the given subcommand(s)", "", "Options:",
    "      --log      Enable logging to jslox.log", "  -h, --help     Print help",
    "  -V, --version  Print version"]

/-- Carries out what the arguments ask for; the answer is `none` if the fuel runs out. -/
def perform (fuel : Nat) (s : Surroundings) : Invocation → Option Transcript
  | command c => c.perform fuel s
  | version => some ⟨lineBytes ["jslox 0.1.0"], .empty, 0⟩
  | help => some ⟨lineBytes usage, .empty, 0⟩
  | malformed => some ⟨.empty, lineBytes usage, 2⟩

end Invocation

end Scriptlet

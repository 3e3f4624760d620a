/-!
# Invocations

What the arguments of the program ask for. A command comes after the general options and before its
own; `--` ends the options, so that what follows it is a file name whatever it looks like. The
option `--log` may stand on either side of the command; it changes nothing in the answer.
-/

namespace Scriptlet

/-- What the program can do. Without a file it reads the standard input. -/
inductive Command
  | tokenize (json : Bool) (file : Option String)
  | parse (file : Option String)
  | run (file : Option String)
  | repl
  deriving DecidableEq

/-- What the arguments come to. -/
inductive Invocation
  | command (c : Command)
  | version
  | help
  | malformed
  deriving DecidableEq

/-- The options and the file of a command, as far as they have been read. -/
structure Arguments where
  log : Bool
  json : Bool
  file : Option String

namespace Arguments

/-- No arguments. -/
def none : Arguments := ⟨false, false, .none⟩

/-- Which arguments a command takes besides the general ones. -/
structure Shape where
  json : Bool
  file : Bool

/-- Takes a file name, unless there is one already or it is empty. -/
def takeFile? (shape : Shape) (a : Arguments) (name : String) : Option Arguments :=
  if shape.file && a.file.isNone && name != "" then some { a with file := name } else .none

/-- Takes an option that may be given once. -/
def takeOption? (shape : Shape) (a : Arguments) (name : String) : Option Arguments :=
  if name = "--log" && !a.log then some { a with log := true }
  else if name = "--json" && shape.json && !a.json then some { a with json := true }
  else .none

/-- Whether an argument has the form of an option; a single dash is a file name. -/
def isOption (arg : String) : Bool := arg.startsWith "-" && arg != "-"

/-- Whether an argument asks for help. -/
def asksHelp (arg : String) : Bool := arg = "--help" || arg.startsWith "-h"

/-- Whether an argument asks for the version. -/
def asksVersion (arg : String) : Bool := arg = "--version" || arg.startsWith "-V"

/-- Reads the arguments after a command. -/
def read (shape : Shape) (make : Arguments → Command) (a : Arguments) : List String → Invocation
  | [] => .command (make a)
  | arg :: rest =>
    if arg = "--" then
      match rest.foldlM (takeFile? shape) a with
      | some a => .command (make a)
      | .none => .malformed
    else if asksHelp arg then
      .help
    else
      match if isOption arg then takeOption? shape a arg else takeFile? shape a arg with
      | some a => read shape make a rest
      | .none => .malformed

end Arguments

namespace Invocation

/-- The names of the commands. -/
def commandNames : List String := ["tokenize", "parse", "run", "repl", "help"]

/-- Reads the arguments of `help`: nothing, or the name of one command. -/
def ofHelp : List String → Invocation
  | [] => .help
  | [name] => if name ∈ commandNames then .help else .malformed
  | _ => .malformed

/-- Reads a command and its arguments. -/
def ofCommand (name : String) (rest : List String) : Invocation :=
  match name with
  | "tokenize" => Arguments.none.read ⟨true, true⟩ (fun a => .tokenize a.json a.file) rest
  | "parse" => Arguments.none.read ⟨false, true⟩ (fun a => .parse a.file) rest
  | "run" => Arguments.none.read ⟨false, true⟩ (fun a => .run a.file) rest
  | "repl" => Arguments.none.read ⟨false, false⟩ (fun _ => .repl) rest
  | "help" => ofHelp rest
  | _ => .malformed

/-- Reads arguments up to the command; `logged` tells whether `--log` was given. -/
def ofTail (logged : Bool) : List String → Invocation
  | [] => .malformed
  | arg :: rest =>
    if Arguments.asksHelp arg then .help
    else if Arguments.asksVersion arg then .version
    else if arg = "--log" && !logged then ofTail true rest
    else if Arguments.isOption arg then .malformed
    else ofCommand arg rest

/-- Reads the arguments of the program. -/
def ofArguments (args : List String) : Invocation := ofTail false args

end Invocation

end Scriptlet

/-
# The command line

| arguments | what happens |
| --- | --- |
| `tokenize FILE` | lists the tokens, with `--json` as a document |
| `parse FILE` | prints the statements |
| `evaluate FILE` | prints the value of the one expression in the file |
| `run FILE` | runs the file |
| `repl` or none | runs standard input line by line in one session |

`--log` may stand anywhere and only makes a log file. Exit codes are 0, 1 for a file that cannot be
read, 64 for arguments that mean nothing, 65 for a source that is wrong and 70 for one that failed.
-/

import Lox.Session
import Lox.Token.Record
import Lox.Tree.Printer

namespace Lox

/-- What the program is asked to do. -/
inductive Command where
  | tokenize (file : String) (asDocument : Bool)
  | parse (file : String)
  | evaluate (file : String)
  | run (file : String)
  | repl
deriving DecidableEq, Repr

/-- A command, and whether a log file is wanted. -/
structure Invocation where
  command : Command
  log : Bool
deriving DecidableEq, Repr

/-- What the program leaves behind. -/
structure Transcript where
  exit : Nat
  stdout : String
  stderr : String
deriving DecidableEq, Repr

namespace Command

/-- The file that the command reads. -/
def file? : Command → Option String
  | tokenize file _ => some file
  | parse file => some file
  | evaluate file => some file
  | run file => some file
  | repl => none

end Command

namespace Invocation

/-- The arguments behind a command, sorted: the flags met and the plain arguments in order. -/
structure Sorted where
  log : Bool
  json : Bool
  plain : List String

/-- Whether an argument is a flag: it begins with a dash and is not the dash alone. -/
def isFlag (arg : String) : Bool :=
  match arg.toList with
  | '-' :: _ :: _ => true
  | _ => false

/-- Sorts arguments. Each flag may come once, and a double dash ends the flags. -/
def sort : Sorted → List String → Option Sorted
  | s, [] => some s
  | s, "--" :: rest => some { s with plain := s.plain ++ rest }
  | s, "--log" :: rest => if s.log then none else sort { s with log := true } rest
  | s, "--json" :: rest => if s.json then none else sort { s with json := true } rest
  | s, arg :: rest =>
    if isFlag arg then none else sort { s with plain := s.plain ++ [arg] } rest

/-- A command by its name and the arguments behind it. A file has a name that is not empty. -/
def command? (name : String) (args : Sorted) : Option Command :=
  match name, args.json, args.plain with
  | "repl", false, [] => some .repl
  | _, _, [""] => none
  | "tokenize", json, [file] => some (.tokenize file json)
  | "parse", false, [file] => some (.parse file)
  | "evaluate", false, [file] => some (.evaluate file)
  | "run", false, [file] => some (.run file)
  | _, _, _ => none

/-- Reads the arguments from the command on. -/
def ofCommand? (log : Bool) : List String → Option Invocation
  | [] => some ⟨.repl, log⟩
  | ["--"] => some ⟨.repl, log⟩
  | name :: rest =>
    (sort ⟨false, false, []⟩ rest).bind fun args =>
      (command? name args).map fun command => ⟨command, log || args.log⟩

/-- Reads the arguments of the program. -/
def ofArgs? : List String → Option Invocation
  | "--log" :: rest => ofCommand? true rest
  | args => ofCommand? false args

end Invocation

namespace Transcript

/-- The transcript of a run that printed `stdout` and left some reports (`report`). -/
def ofReports (exit : Nat) (stdout : String) (reports : List Report) : Transcript :=
  ⟨exit, stdout, Report.listText reports⟩

/-- The program gives up with an error and what caused it. -/
def givenUp (error cause : String) : Transcript :=
  ⟨1, "", "Error: " ++ error ++ "\n\nCaused by:\n    " ++ cause ++ "\n"⟩

/-- The arguments mean nothing. -/
def usage : Transcript := ⟨64, "", ""⟩

/-- The texts, each on lines of its own. -/
def lines (texts : List String) : String := String.join (texts.map (· ++ "\n"))

/-- Lists the tokens of a source (`tokenize`). -/
def tokenize (source : String) (asDocument : Bool) : Transcript :=
  let errors := lexicalErrors source
  let listing :=
    if asDocument then [(Token.listDocument (tokens source)).render .indented]
    else (tokens source).map Token.text
  .ofReports (if errors.isEmpty then 0 else 65) (lines listing) (errors.map LexicalError.report)

/-- Prints the statements of a source that has no errors (`parse`). -/
def parse (source : String) : Transcript :=
  let program := Program.ofSource source 0
  if program.diagnostics.isEmpty then ⟨0, lines (program.statements.map Stmt.text), ""⟩
  else .ofReports 65 "" (program.diagnostics.map Diagnostic.report)

/-- Prints the value of a source that is one expression (`evaluate`). -/
def evaluate (clock : Nat → Float) (fuel : Nat) (source : String) : Option Transcript :=
  (Evaluation.ofSource clock fuel source).map fun
    | .rejected diagnostics => .ofReports 65 "" (diagnostics.map Diagnostic.report)
    | .value v heap => ⟨0, lines [heap.text v], ""⟩
    | .failed f => .ofReports 70 "" [f.report]

/-- Runs a source in a new session (`run_file`). -/
def run (clock : Nat → Float) (fuel : Nat) (source : String) : Option Transcript :=
  ((Session.start .unlimited).run clock fuel source).map fun (outcome, _) =>
    .ofReports outcome.exitCode outcome.text outcome.reports

/-- Runs one line in a session. -/
def step (clock : Nat → Float) (fuel : Nat) (session : Session) (line : String) :
    Option (Transcript × Session) :=
  (session.run clock fuel line).map fun (outcome, session) =>
    (.ofReports 0 outcome.text outcome.reports, session)

/-- Runs lines one after the other in a session and collects what they print and report. -/
def runLines (clock : Nat → Float) (fuel : Nat) (session : Session) :
    List String → Option Transcript
  | [] => some ⟨0, "", ""⟩
  | line :: rest =>
    (step clock fuel session line).bind fun (first, session) =>
      (runLines clock fuel session rest).map fun more =>
        ⟨more.exit, first.stdout ++ more.stdout, first.stderr ++ more.stderr⟩

/-- A line without the carriage return at its end. -/
def chomp (line : List Char) : String :=
  match line.reverse with
  | '\r' :: rest => String.ofList rest.reverse
  | _ => String.ofList line

/-- The lines of a text, each without its line end; the last one may lack it. `read` holds the
characters of the current line in reverse. -/
def splitLines (read : List Char) : List Char → List String
  | [] => if read.isEmpty then [] else [String.ofList read.reverse]
  | c :: cs =>
    if c == '\n' then chomp read.reverse :: splitLines [] cs else splitLines (c :: read) cs

/-- Runs standard input line by line (`repl`). -/
def repl (clock : Nat → Float) (fuel : Nat) (stdin : String) : Option Transcript :=
  runLines clock fuel (.start .unlimited) (splitLines [] stdin.toList)

/-- Answers a command whose file holds the given bytes, if it could be opened. There is no answer if
the fuel does not last. -/
def ofCommand (clock : Nat → Float) (fuel : Nat) (contents : Option ByteArray) (stdin : String)
    (command : Command) : Option Transcript :=
  match command.file? with
  | none => repl clock fuel stdin
  | some file =>
    match contents with
    | none =>
      some (givenUp ("Failed to open file " ++ Text.quoted file)
        "No such file or directory (os error 2)")
    | some bytes =>
      match Text.Utf8.decode bytes with
      | .error e =>
        some (givenUp ("File " ++ Text.quoted file ++ " is not valid UTF-8") e.message)
      | .ok source =>
        match command with
        | .tokenize _ asDocument => some (tokenize source asDocument)
        | .parse _ => some (parse source)
        | .evaluate _ => evaluate clock fuel source
        | .run _ => run clock fuel source
        | .repl => repl clock fuel stdin

end Transcript

end Lox

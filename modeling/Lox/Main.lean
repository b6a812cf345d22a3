/-
# The program

Reads the arguments, the file and standard input, and leaves what the command line says.
-/

import Lox.CommandLine
import Std.Time.DateTime.Timestamp

namespace Lox

/-- More fuel than any run can use up in a lifetime. -/
def endlessFuel : Nat := Nat.pow 10 15

/-- The clock that the runs are given: the present time, read once when the program starts, and a
millisecond more with each reading. The native `clock` asks for the time anew at each call; here all
readings are fixed beforehand, because a run is a function of its source and its clock. -/
def presentClock : IO (Nat → Float) := do
  let now ← Std.Time.Timestamp.now
  let millis := now.toMillisecondsSinceUnixEpoch.val.toNat
  return fun readings => (millis + readings).toFloat / 1000.0

/-- The bytes of a file, if it can be opened (`read_file`). -/
def contents? (name : String) : IO (Option ByteArray) := do
  try
    return some (← IO.FS.readBinFile name)
  catch _ => return none

/-- Shows the text of a transcript. -/
def Transcript.show (t : Transcript) : IO Unit := do
  IO.print t.stdout
  (← IO.getStdout).flush
  IO.eprint t.stderr

/-- Runs standard input line by line, showing each answer before the next line is read. -/
partial def interact (clock : Nat → Float) (session : Session) : IO UInt32 := do
  let line ← (← IO.getStdin).getLine
  if line.isEmpty then return 0
  match (Transcript.splitLines [] line.toList).head? with
  | none => interact clock session
  | some line =>
    match Transcript.step clock endlessFuel session line with
    | none => return 1
    | some (t, session) =>
      t.show
      interact clock session

/-- Answers the arguments. -/
def answer (invocation : Invocation) : IO UInt32 := do
  if invocation.log then IO.FS.writeFile "app.log" ""
  let clock ← presentClock
  match invocation.command.file? with
  | none => interact clock (.start .unlimited)
  | some file =>
    match Transcript.ofCommand clock endlessFuel (← contents? file) "" invocation.command with
    | none => return 1
    | some t =>
      t.show
      return UInt32.ofNat t.exit

end Lox

/-- The command line program. -/
def main (args : List String) : IO UInt32 := do
  match Lox.Invocation.ofArgs? args with
  | none =>
    IO.eprintln
      "usage: [--log] [tokenize FILE [--json] | parse FILE | evaluate FILE | run FILE | repl]"
    return UInt32.ofNat Lox.Transcript.usage.exit
  | some invocation => Lox.answer invocation

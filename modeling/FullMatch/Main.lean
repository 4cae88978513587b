import FullMatch.Console.Command

/-!
# Command line

Reads the arguments and, in a session, one line after another; writes what the library answers.
-/

namespace FullMatch.Console

/-- Writes to both streams. -/
def emit (output : Output) : IO Unit := do
  IO.print output.stdout
  (← IO.getStdout).flush
  IO.eprint output.stderr

/-- The next line of the input, which begins with the bytes `read`, in reverse; none at its end. -/
partial def readLine (input : IO.FS.Stream) (read : List UInt8) : IO (Option Text.Line) := do
  match (← input.read 1).toList with
  | [] => return if read.isEmpty then none else some ⟨read.reverse, false⟩
  | b :: _ =>
    if b = Text.lineFeed then return some ⟨read.reverse, true⟩ else readLine input (b :: read)

/-- Goes on with a session until it ends or the input does. -/
partial def converse (strategy : Strategy) (input : IO.FS.Stream) (session : Session) :
    IO UInt32 := do
  match session with
  | .ended exit => return UInt32.ofNat exit
  | _ =>
    match ← readLine input [] with
    | none => return 0
    | some line =>
      let (next, output) := session.step strategy line.text?
      emit output
      converse strategy input next

/-- Shows the outcome of a command. -/
def conclude (outcome : Outcome) : IO UInt32 := do
  emit ⟨outcome.stdout, outcome.stderr⟩
  return UInt32.ofNat outcome.exit

/-- Carries out a command. -/
def Command.execute : Command → IO UInt32
  | .test strategy verbose pattern texts => conclude (Console.test strategy verbose pattern texts)
  | .explain pattern => conclude (Console.explain pattern)
  | .session strategy => do
    emit (.out (Session.prompt .asking))
    converse strategy (← IO.getStdin) .asking

end FullMatch.Console

/-- Carries out the command that the arguments ask for. -/
def main (args : List String) : IO UInt32 := do
  match FullMatch.Console.Command.ofArgs? args with
  | some command => command.execute
  | none =>
    IO.eprint FullMatch.Console.Command.usage
    return 2

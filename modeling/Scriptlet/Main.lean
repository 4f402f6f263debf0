import Scriptlet.Command

/-!
# The command line

Runs a script file, a source text given as an argument, or an interactive session on the standard
streams.
-/

namespace Scriptlet

namespace Command

/-- What the command line asks for. -/
structure Options where
  script : Option String := none
  source : Option String := none
  printResult : Bool := false

/-- Reads the arguments, or gives the one that is not understood. -/
def Options.ofArguments (o : Options) : List String → Except String Options
  | [] => .ok o
  | "-p" :: rest | "--print-result" :: rest => { o with printResult := true }.ofArguments rest
  | "-e" :: source :: rest | "--eval" :: source :: rest =>
    { o with source := some source }.ofArguments rest
  | argument :: rest =>
    if argument.startsWith "--eval=" then
      { o with source := some (argument.drop 7).toString }.ofArguments rest
    else if argument.startsWith "-" ∨ o.script.isSome then .error argument
    else { o with script := some argument }.ofArguments rest

/-- More fuel than a run can use up. -/
def plenty : Nat := 0x4000000000000000

/-- A host whose clock starts at the present time. -/
def presentHost : IO Host := do
  let now ← IO.monoMsNow
  return { clock := fun k => .ofInt (now + k) }

/-- Writes what a run wrote, and gives its exit status. -/
def emit (transcript : Option Transcript) : IO UInt32 := do
  match transcript with
  | none => return 1
  | some t =>
    IO.print t.stdout
    IO.eprint t.stderr
    return t.code

/-- The fault that a failed read reports; what is not known more closely counts as missing. -/
def ReadFault.ofError : IO.Error → ReadFault
  | .permissionDenied .. => .denied
  | .inappropriateType _ 21 _ => .directory
  | .inappropriateType .. => .notDirectory
  | .invalidArgument .. => .nameTooLong
  | _ => .missing

/-- Reads a script. -/
def readScript (path : String) : IO (Except ReadFault ByteArray) := do
  try
    return .ok (← IO.FS.readBinFile path)
  catch e => return .error (.ofError e)

/-- Runs the lines of standard input as they come. -/
partial def interact (host : Host) (input : IO.FS.Stream) (σ : State) : IO UInt32 := do
  let line ← input.getLine
  if line.isEmpty then return 0
  match interactiveLine host plenty (String.join (inputLines line)) σ with
  | none => return 1
  | some (t, σ) =>
    let _ ← emit (some t)
    interact host input σ

/-- Does what the options ask for. -/
def perform (o : Options) : IO UInt32 := do
  let host ← presentHost
  match o.source, o.script with
  | some source, _ => emit (script host plenty o.printResult source)
  | none, some path =>
    emit (scriptFile host plenty o.printResult path (← readScript path))
  | none, none => interact host (← IO.getStdin) .start

end Command

end Scriptlet

def main (arguments : List String) : IO UInt32 := do
  match Scriptlet.Command.Options.ofArguments {} arguments with
  | .ok options => Scriptlet.Command.perform options
  | .error argument =>
    IO.eprintln ("error: unexpected argument '" ++ argument ++ "' found")
    return 2

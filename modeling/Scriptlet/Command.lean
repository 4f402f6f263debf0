import Scriptlet.Session
import Scriptlet.Text.Space

/-!
# The command

What the command writes and the status it exits with, as functions of its input: a script, or the
lines of an interactive session.
-/

namespace Scriptlet

/-- What a process writes and its exit status. -/
structure Transcript where
  stdout : String
  stderr : String
  code : UInt32
deriving DecidableEq

namespace Command

/-- The exit status of a script with an error. -/
def failedScript : UInt32 := 65

/-- The exit status if the script cannot be read. -/
def unreadableScript : UInt32 := 74

/-- A text on a line of its own. -/
def lineOf (s : String) : String := s ++ "\n"

/-- The error messages of a unit, one a line. -/
def messages (r : Report) : String := String.join (r.errors.map fun e => lineOf e.message)

/-- The text of a unit's result on a line of its own, if it ran. -/
def resultLine (r : Report) : String := r.result.elim "" lineOf

/-! ## Scripts -/

/-- Why a script cannot be read. -/
inductive ReadFault where
  | missing
  | denied
  | notDirectory
  | directory
  | nameTooLong
  | notText
deriving DecidableEq

def ReadFault.text : ReadFault → String
  | .missing => "No such file or directory (os error 2)"
  | .denied => "Permission denied (os error 13)"
  | .notDirectory => "Not a directory (os error 20)"
  | .directory => "Is a directory (os error 21)"
  | .nameTooLong => "File name too long (os error 36)"
  | .notText => "stream did not contain valid UTF-8"

/-- The source text in a file. -/
def decode (contents : ByteArray) : Except ReadFault String :=
  match String.fromUTF8? contents with
  | some source => .ok source
  | none => .error .notText

/-- Runs a source text, and reports its last value if asked to. -/
def script (host : Host) (fuel : Nat) (printResult : Bool) (source : String) :
    Option Transcript :=
  (run host fuel source .start).map fun (r, _) =>
    { stdout := r.output ++ if printResult then resultLine r else ""
      stderr := messages r
      code := if r.errors.isEmpty then 0 else failedScript }

/-- What happens if a script cannot be read. -/
def unreadable (path : String) (fault : ReadFault) : Transcript where
  stdout := ""
  stderr := lineOf ("Failed to read the input file '" ++ path ++ "': " ++ fault.text)
  code := unreadableScript

/-- Runs the script in a file. -/
def scriptFile (host : Host) (fuel : Nat) (printResult : Bool) (path : String)
    (contents : Except ReadFault ByteArray) : Option Transcript :=
  match contents.bind decode with
  | .ok source => script host fuel printResult source
  | .error fault => some (unreadable path fault)

/-! ## Interactive sessions -/

/-- Runs one line of an interactive session. -/
def interactiveLine (host : Host) (fuel : Nat) (line : String) (σ : State) :
    Option (Transcript × State) :=
  if isSpaceOnly line then some (⟨"", "", 0⟩, σ)
  else (run host fuel line σ).map fun (r, σ) => (⟨r.output ++ resultLine r, messages r, 0⟩, σ)

/-- The lines of an input; a carriage return before the line break belongs to it, and an input
that ends with a line break has no line behind it. -/
def inputLines (input : String) : List String :=
  let pieces := input.splitOn "\n"
  let ended := pieces.dropLast.map fun s =>
    if s.endsWith "\r" then (s.dropEnd 1).toString else s
  ended ++ pieces.getLast?.toList.filter (! ·.isEmpty)

/-- An interactive session from its lines on. -/
def interactiveFrom (host : Host) (fuel : Nat) : List String → State → Option Transcript
  | [], _ => some ⟨"", "", 0⟩
  | line :: lines, σ =>
    match interactiveLine host fuel line σ with
    | none => none
    | some (t, σ) => (interactiveFrom host fuel lines σ).map fun t' =>
      ⟨t.stdout ++ t'.stdout, t.stderr ++ t'.stderr, t'.code⟩

/-- An interactive session on a given input. -/
def interactive (host : Host) (fuel : Nat) (input : String) : Option Transcript :=
  interactiveFrom host fuel (inputLines input) .start

end Command

end Scriptlet

import Lisplet.Engine
import Lisplet.Text.Typed

/-! The command line: it tells the version, runs a file, or answers lines of input one
after the other. -/

namespace Lisplet.CommandLine

inductive Job where
  | version
  /-- Runs a file; the program in it sees the arguments. -/
  | script (file : String) (args : List String)
  | interactive
deriving DecidableEq, Inhabited

def Job.ofArgs : List String → Job
  | ["--version"] => version
  | ["-v"] => version
  | [] => interactive
  | file :: args => script file args

def versionText : String := "mal v0.1.0"

def prompt : String := "user> "

/-- An engine that knows the arguments as `*ARGV*`. -/
def startUp (fuel : Nat) (args : List String) : Run Engine := do
  let engine ← Engine.new fuel
  engine.set "*ARGV*" .value (.list (args.map .str))
  return engine

/-- Loads a file; gives the complaint if that fails. -/
def runScript (fuel : Nat) (engine : Engine) (file : String) : Run (Option String) := do
  match ← (engine.call fuel Prelude.loadFileName [.str file]).attempt with
  | .ok _ => return none
  | .error e => some <$> Engine.complaint e

/-- Prints the answer to a line of input. -/
def answer (fuel : Nat) (engine : Engine) (line : String) : Run Unit :=
  if Text.allBlank line then return ()
  else do
    let text ← engine.rep fuel line
    Run.print (text ++ "\n")

/-- Answers lines, with a prompt in front of each and one where they end. -/
def interact (fuel : Nat) (engine : Engine) : List String → Run Unit
  | [] => Run.print prompt
  | line :: lines => do
    Run.print prompt
    answer fuel engine line
    interact fuel engine lines

/-- Does a job from its start to its end. Gives the complaint if the job fails. -/
def perform (fuel : Nat) (job : Job) (input : String) : Run (Option String) :=
  match job with
  | .version => do
    Run.print (versionText ++ "\n")
    return none
  | .script file args => do
    let engine ← startUp fuel args
    runScript fuel engine file
  | .interactive => do
    let engine ← startUp fuel []
    interact fuel engine (Text.typedLines input)
    return none

/-- What a run of the command line leaves behind. -/
structure Report where
  stdout : String
  stderr : String
  code : Nat
deriving DecidableEq, Inhabited

/-- The whole of a run, given its arguments, its input and the disk. Only the prelude can
fail without a complaint of the job. -/
def run (fuel : Nat) (args : List String) (input : String) (disk : Disk) : Except Halt Report :=
  match perform fuel (Job.ofArgs args) input (Machine.start disk) with
  | .value none m => .ok ⟨m.world.printed, "", 0⟩
  | .value (some complaint) m => .ok ⟨m.world.printed, complaint ++ "\n", 1⟩
  | .error e m =>
    .ok ⟨m.world.printed, "Failed to load prelude: " ++ e.message m.world.atoms ++ "\n", 1⟩
  | .halted h => .error h

end Lisplet.CommandLine

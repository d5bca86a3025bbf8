import Lisplet.CommandLine
import Lisplet.Disk.Tree

/-! The program that is run from a shell. Whatever it computes is a pure step on a
machine. A step that asks for a file not yet looked at is broken off; the file is read and
the step begun again from the same machine, so that reading is the only thing that has
happened. What a step has printed is written out when it ends. -/

namespace Lisplet.Program

/-- Steps of evaluation after which a single step of the program is given up. -/
def stepFuel : Nat := Int64.maxValue.toNatClampNeg

/-- The fault that a failed attempt to read a file shows. -/
def faultOf : IO.Error → FileFault
  | .noFileOrDirectory .. => .notFound
  | .inappropriateType _ code _ =>
    if code = 21 ∨ code = 0 - 21 then .isDirectory else .notDirectory
  | e => .other (toString e)

/-- The text of a file on the real disk. -/
def readReal (path : String) : IO (Except FileFault String) := do
  try
    let content ← IO.FS.readBinFile path
    match String.fromUTF8? content with
    | some s => return .ok s
    | none => return .error .notUnicode
  catch e => return .error (faultOf e)

/-- Takes a step, reading the files it asks for. -/
partial def takeStep (known : List (String × Except FileFault String)) (r : Run α)
    (m : Machine) : IO (Outcome α) := do
  match r { m with world := { m.world with disk := Disk.ofList known } } with
  | .halted (.unread path) => do
    let content ← readReal path
    takeStep ((path, content) :: known) r m
  | outcome => return outcome

/-- Writes out what has been printed. -/
def flush (m : Machine) : IO Machine := do
  let out ← IO.getStdout
  out.putStr m.world.printed
  out.flush
  return { m with world := { m.world with printed := "" } }

/-- Takes a step and writes out what it printed. Gives its value, or tells what went wrong
and gives none. -/
def finishStep (r : Run α) (m : Machine) : IO (Option (α × Machine)) := do
  match ← takeStep [] r m with
  | .value a m => return some (a, ← flush m)
  | .error e m => do
    let m ← flush m
    IO.eprintln ("Failed to load prelude: " ++ e.message m.world.atoms)
    return none
  | .halted _ => do
    IO.eprintln "out of fuel"
    return none

/-- Answers the lines of the input, one by one. -/
partial def answerInput (engine : Engine) (m : Machine) : IO UInt32 := do
  let some (_, m) ← finishStep (Run.print CommandLine.prompt) m | return 1
  let line ← (← IO.getStdin).getLine
  if line.isEmpty then return 0
  let text := (Text.typedLines line).headD ""
  let some (_, m) ← finishStep (CommandLine.answer stepFuel engine text) m | return 1
  answerInput engine m

end Lisplet.Program

section

open Lisplet Lisplet.Program

def main (args : List String) : IO UInt32 := do
  let m := Machine.start (Disk.ofList [])
  match CommandLine.Job.ofArgs args with
  | .version => do
    let some _ ← finishStep (CommandLine.perform stepFuel .version "") m | return 1
    return 0
  | .script file visible => do
    let some (engine, m) ← finishStep (CommandLine.startUp stepFuel visible) m | return 1
    let some (complaint, _) ← finishStep (CommandLine.runScript stepFuel engine file) m
      | return 1
    match complaint with
    | none => return 0
    | some text => do
      IO.eprintln text
      return 1
  | .interactive => do
    let some (engine, m) ← finishStep (CommandLine.startUp stepFuel []) m | return 1
    answerInput engine m

end

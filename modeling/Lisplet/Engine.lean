import Lisplet.Host.Data
import Lisplet.Root

/-! Engines. An engine is a root frame with a limit on nesting of its own; several share
a machine. The limit is in force while the engine evaluates or calls something, and the
machine's own limit is put back afterwards. -/

namespace Lisplet

structure Engine where
  root : FrameId
  maxDepth : Nat
deriving DecidableEq, Inhabited

namespace Engine

/-- An engine without the prelude. Its limit is the machine's. -/
def newBare : Run Engine := do
  let root ← Run.newBareRoot
  fun m => .value ⟨root, m.limit⟩ m

def new (fuel : Nat) : Run Engine := do
  let engine ← newBare
  Prelude.load fuel engine.root
  return engine

/-- The engine with another limit, and the limit it had. -/
def setMaxDepth (engine : Engine) (depth : Nat) : Nat × Engine :=
  (engine.maxDepth, { engine with maxDepth := depth })

/-- The value of the last form of a text, nil if there is none. The forms are evaluated
as they are read, so those before a fault have taken effect. -/
def eval (fuel : Nat) (engine : Engine) (code : String) : Run Value :=
  Run.withLimit engine.maxDepth (evalForms fuel engine.root .nil (Form.sequence code))

def evalFile (fuel : Nat) (engine : Engine) (path : String) : Run Value := do
  let code ← Run.readFile "eval_file" path
  engine.eval fuel code

/-- What an error says to a user. -/
def complaint (e : Error) : Run String :=
  Run.see fun w => "Error: " ++ e.message w.atoms

/-- Reads, evaluates and prints: the readable text of the value, or the complaint. A
blank text has no answer. -/
def rep (fuel : Nat) (engine : Engine) (line : String) : Run String :=
  if Text.allBlank line then return ""
  else do
    match ← (engine.eval fuel line).attempt with
    | .ok v => Run.see fun w => v.text .readable w.atoms
    | .error e => complaint e

/-- The value of a name in the root frame. -/
def get? (engine : Engine) (name : String) : Run (Option Value) :=
  Run.see fun w => w.frames.get? engine.root name

/-- The value of a name as data of the host, if the name is bound. -/
def tryGetAs (engine : Engine) (name : String) (t : HostType) : Run (Option t.Carrier) := do
  match ← engine.get? name with
  | none => return none
  | some v => Run.ofExcept (some <$> t.ofValue v)

/-- The value of a name as data of the host, if the name is bound to such data. -/
def getAs (engine : Engine) (name : String) (t : HostType) : Run (Option t.Carrier) := do
  match ← engine.get? name with
  | none => return none
  | some v => return (t.ofValue v).toOption

def set (engine : Engine) (name : String) (t : HostType) (x : t.Carrier) : Run Unit :=
  Run.bindName engine.root name (t.toValue x)

/-- Calls the function that a name is bound to. -/
def call (fuel : Nat) (engine : Engine) (name : String) (args : List Value) : Run Value := do
  let f ← Run.lookup engine.root name
  Run.withLimit engine.maxDepth (apply fuel f args)

/-- Makes a function of the host known to the engine. -/
def register (engine : Engine) (name : String) (f : HostFunction) : Run Unit := do
  let index ← Run.see fun w => w.hosts.size
  Run.change fun w => { w with hosts := w.hosts.push f }
  Run.bindName engine.root name (.native (.host name index))

end Engine

end Lisplet

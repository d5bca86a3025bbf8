import Lisplet.Engine
import Mathlib.Logic.Function.Basic

/-! Sessions: several engines at work on one machine, in turns. Each engine has a plan, which
says what to ask of it next in view of what it has answered so far. A schedule says whose turn
it is, and the first turn of an engine makes it. -/

namespace Lisplet

/-- What a host program asks of an engine. -/
inductive Operation where
  | eval (code : String)
  | rep (line : String)
  | evalFile (path : String)
  | call (name : String) (args : List Value)
  | get (name : String)
  | set (name : String) (t : HostType) (x : t.Carrier)
  | register (name : String) (f : HostFunction)
  | setMaxDepth (depth : Nat)

/-- What an operation gives. -/
inductive Answer where
  | value (v : Value)
  | text (s : String)
  | binding (v : Option Value)
  | depth (n : Nat)
  | done

namespace Operation

/-- The engine as it then is, with the answer. -/
def perform (fuel : Nat) (engine : Engine) : Operation → Run (Engine × Answer)
  | eval code => (fun v => (engine, .value v)) <$> engine.eval fuel code
  | rep line => (fun s => (engine, .text s)) <$> engine.rep fuel line
  | evalFile path => (fun v => (engine, .value v)) <$> engine.evalFile fuel path
  | call name args => (fun v => (engine, .value v)) <$> engine.call fuel name args
  | get name => (fun v => (engine, .binding v)) <$> engine.get? name
  | set name t x => (fun _ => (engine, .done)) <$> engine.set name t x
  | register name f => (fun _ => (engine, .done)) <$> engine.register name f
  | setMaxDepth depth => return ((engine.setMaxDepth depth).2, .depth (engine.setMaxDepth depth).1)

end Operation

/-- What comes of a turn: an answer or an error, and the text printed meanwhile. -/
structure Report where
  result : Except Error Answer
  output : String

/-- How an engine is made, and what it is to do after the reports so far, the last one first. -/
structure Plan where
  bare : Bool
  next : List Report → Operation

/-- An engine, once it has been made, and the reports so far. -/
structure Seat where
  engine : Option Engine
  reports : List Report

/-- An engine's turn. As long as there is no engine, its turn is to be made. -/
def Plan.turn (fuel : Nat) (plan : Plan) (seat : Seat) : Run (Engine × Answer) :=
  match seat.engine with
  | none => (·, .done) <$> if plan.bare then Engine.newBare else Engine.new fuel
  | some engine => (plan.next seat.reports).perform fuel engine

structure Session where
  machine : Machine
  seats : Nat → Seat

namespace Session

def start (m : Machine) : Session := ⟨m, fun _ => ⟨none, []⟩⟩

/-- The machine with nothing printed. -/
def quiet (m : Machine) : Machine := { m with world := { m.world with printed := "" } }

/-- The session behind a turn of engine `k`, which left the machine `m`. -/
def after (s : Session) (k : Nat) (engine : Option Engine) (result : Except Error Answer)
    (m : Machine) : Session :=
  ⟨m, Function.update s.seats k ⟨engine, ⟨result, m.world.printed⟩ :: (s.seats k).reports⟩⟩

/-- A turn of engine `k`. An engine that could not be made is not there. -/
def step (fuel : Nat) (plans : Nat → Plan) (s : Session) (k : Nat) : Except Halt Session :=
  match (plans k).turn fuel (s.seats k) (quiet s.machine) with
  | .value (engine, answer) m => .ok (s.after k (some engine) (.ok answer) m)
  | .error e m => .ok (s.after k (s.seats k).engine (.error e) m)
  | .halted h => .error h

/-- Turns in the order of a schedule. -/
def run (fuel : Nat) (plans : Nat → Plan) (schedule : List Nat) (s : Session) :
    Except Halt Session :=
  schedule.foldlM (step fuel plans) s

end Session

end Lisplet

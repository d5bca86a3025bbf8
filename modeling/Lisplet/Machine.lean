import Lisplet.Error
import Lisplet.Frames

/-! What an evaluation works on. The world holds all that a program can see or change.
The machine adds how deeply evaluations are nested at the moment and how deeply they
may be. A run is a computation on a machine: it ends in a value or in an error, with
the machine as it then is, or it is broken off. -/

namespace Lisplet

/-- What reading each file gives. A path without an entry has not been looked at yet. -/
structure Disk where
  read? : String → Option (Except FileFault String)

instance : Inhabited Disk := ⟨⟨fun _ => some (.error .notFound)⟩⟩

/-- The script of a function of the host: it gives a value, fails, or calls a function of
the program and goes on with its value. What is assumed of the host is built in here: its
functions pass on the errors of the calls they make, bind no names and leave the limit on
nesting alone. -/
inductive Reply where
  | give (v : Value)
  | fail (e : Error)
  | call (f : Value) (args : List Value) (resume : Value → Reply)

instance : Inhabited Reply := ⟨.give .nil⟩

/-- A function of the host. It keeps no state: its script depends on nothing but the
arguments. -/
structure HostFunction where
  run : List Value → Reply
deriving Inhabited

structure World where
  frames : Frames
  /-- What each atom holds. -/
  atoms : Array Value
  /-- How many closures have been made. -/
  closures : Nat
  /-- The text printed so far. -/
  printed : String
  hosts : Array HostFunction
  disk : Disk
deriving Inhabited

def World.empty (disk : Disk) : World := ⟨.empty, #[], 0, "", #[], disk⟩

structure Machine where
  world : World
  /-- How many evaluations are under way, one inside the other. -/
  depth : Nat
  /-- How many may be. -/
  limit : Nat
deriving Inhabited

/-- The nesting that a new machine allows. -/
def Machine.standardLimit : Nat := 1000

def Machine.start (disk : Disk) : Machine := ⟨.empty disk, 0, standardLimit⟩

/-- Why a run is broken off. -/
inductive Halt where
  /-- The run takes more steps than it was given. -/
  | outOfFuel
  /-- The run needs a file that has not been looked at. -/
  | unread (path : String)
deriving DecidableEq, Inhabited

inductive Outcome (α : Type) where
  | value (a : α) (m : Machine)
  | error (e : Error) (m : Machine)
  | halted (h : Halt)
deriving Inhabited

/-- A computation on a machine. -/
def Run (α : Type) : Type := Machine → Outcome α

namespace Run

@[inline] protected def pure (a : α) : Run α := fun m => .value a m

@[inline] protected def bind (r : Run α) (f : α → Run β) : Run β := fun m =>
  match r m with
  | .value a m => f a m
  | .error e m => .error e m
  | .halted h => .halted h

@[always_inline]
instance : Monad Run where
  pure := Run.pure
  bind := Run.bind

def fail (e : Error) : Run α := fun m => .error e m

def halt (h : Halt) : Run α := fun _ => .halted h

/-- The outcome of something that does not touch the machine. -/
def ofExcept : Except Error α → Run α
  | .ok a => pure a
  | .error e => fail e

/-- Something seen of the world. -/
@[inline] def see (f : World → α) : Run α := fun m => .value (f m.world) m

@[inline] def change (f : World → World) : Run Unit := fun m =>
  .value () { m with world := f m.world }

/-- Turns an error into a value that tells of it. -/
def attempt (r : Run α) : Run (Except Error α) := fun m =>
  match r m with
  | .value a m => .value (.ok a) m
  | .error e m => .value (.error e) m
  | .halted h => .halted h

/-- Runs one level deeper, if the limit allows that, and comes back up on every exit. -/
@[inline] def nested (r : Run α) : Run α := fun m =>
  if m.limit < m.depth + 1 then .error (.tooDeep m.limit) m
  else
    match r { m with depth := m.depth + 1 } with
    | .value a m => .value a { m with depth := m.depth - 1 }
    | .error e m => .error e { m with depth := m.depth - 1 }
    | .halted h => .halted h

/-- Runs under another limit, and puts the limit back on every exit. -/
def withLimit (limit : Nat) (r : Run α) : Run α := fun m =>
  match r { m with limit := limit } with
  | .value a m' => .value a { m' with limit := m.limit }
  | .error e m' => .error e { m' with limit := m.limit }
  | .halted h => .halted h

/-! ## Frames -/

/-- The value of a name seen from a frame. -/
def lookup (frame : FrameId) (name : String) : Run Value := fun m =>
  match m.world.frames.get? frame name with
  | some v => .value v m
  | none => .error (.unbound name) m

/-- The frame in which a name seen from a frame is bound. -/
def resolve (frame : FrameId) (name : String) : Run FrameId := fun m =>
  match m.world.frames.resolve frame name with
  | some owner => .value owner m
  | none => .error (.unbound name) m

def bindName (frame : FrameId) (name : String) (v : Value) : Run Unit :=
  change fun w => { w with frames := w.frames.bind frame name v }

def newFrame (f : Frame) : Run FrameId := do
  let id ← see fun w => w.frames.next
  change fun w => { w with frames := w.frames.push f }
  return id

/-- A new empty frame inside another. -/
def child (frame : FrameId) : Run FrameId := newFrame ⟨some frame, ∅⟩

/-! ## Atoms, closures, files -/

def newAtom (v : Value) : Run Value := do
  let id ← see fun w => w.atoms.size
  change fun w => { w with atoms := w.atoms.push v }
  return .atom id

def readAtom (id : AtomId) : Run Value := see fun w => w.atoms[id]?.getD .nil

/-- Puts a value into an atom and gives that value. -/
def writeAtom (id : AtomId) (v : Value) : Run Value := do
  change fun w => { w with atoms := w.atoms.modify id fun _ => v }
  return v

/-- A new closure, different from all others. -/
def newClosure (params : Params) (body : Value) (frame : FrameId) : Run Value := do
  let id ← see fun w => w.closures
  change fun w => { w with closures := w.closures + 1 }
  return .closure id params body frame

def print (s : String) : Run Unit := change fun w => { w with printed := w.printed ++ s }

/-- The text of a file, read for the function `context`. -/
def readFile (context path : String) : Run String := do
  match ← see fun w => w.disk.read? path with
  | some (.ok s) => return s
  | some (.error fault) => fail (.file context (some path) fault)
  | none => halt (.unread path)

end Run

end Lisplet

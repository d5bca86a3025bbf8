import Lisplet.Builtin.Arithmetic
import Lisplet.Builtin.AtomOp
import Lisplet.Builtin.Comparison
import Lisplet.Builtin.Kind
import Lisplet.Builtin.Sequence
import Lisplet.Builtin.TextOp

/-! Calling the functions that are not made by the program. Evaluation and application
are handed in, since these functions may ask for either. -/

namespace Lisplet

def Builtin.run (apply : Value → List Value → Run Value) : Builtin → List Value → Run Value
  | arithmetic op, args => Run.ofExcept (op.run args)
  | equal, args => Run.ofExcept (allEqual args)
  | relation r, args => Run.ofExcept (r.run args)
  | sequence op, args => Run.ofExcept (op.run args)
  | kind t, args => Run.ofExcept (t.run args)
  | text op, args => op.run args
  | atom op, args => op.run apply args

/-- Plays the script of a function of the host. -/
def Reply.play (apply : Value → List Value → Run Value) : Reply → Run Value
  | give v => return v
  | fail e => Run.fail e
  | call f args resume => do
    let v ← apply f args
    (resume v).play apply

/-- The script that the function number `index` of the host answers with. -/
def Run.hostReply (index : Nat) (args : List Value) : Run Reply := fun m =>
  match m.world.hosts[index]? with
  | some f => .value (f.run args) m
  | none => .error (.internal "no such function of the host") m

def Native.run (eval : Value → FrameId → Run Value) (apply : Value → List Value → Run Value) :
    Native → List Value → Run Value
  | builtin b, args => b.run apply args
  | evalIn root, [form] => eval form root
  | evalIn root, args => Run.fail (Argument.notExactly (evalIn root).name 1 args)
  | host _ index, args => do
    let reply ← Run.hostReply index args
    reply.play apply

end Lisplet

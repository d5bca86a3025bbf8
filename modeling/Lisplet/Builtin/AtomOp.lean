import Lisplet.Builtin.Argument
import Lisplet.Machine

/-! Atoms. The functions that change an atom give the value it then holds. While `swap!`
applies its function, the atom can be read and changed like any other. -/

namespace Lisplet.AtomOp

/-- Applies `f` to what an atom holds and to further arguments, and puts the value in. -/
def update (apply : Value → List Value → Run Value) (id : AtomId) (f : Value)
    (args : List Value) : Run Value := do
  let old ← Run.readAtom id
  let new ← apply f (old :: args)
  Run.writeAtom id new

/-- Functions are applied by `apply`. -/
def run (apply : Value → List Value → Run Value) : AtomOp → List Value → Run Value
  | new, [v] => Run.newAtom v
  | deref, [v] => do
    let id ← Run.ofExcept (Argument.atom deref.name v)
    Run.readAtom id
  | reset, [v, x] => do
    let id ← Run.ofExcept (Argument.atom reset.name v)
    Run.writeAtom id x
  | swap, v :: f :: args => do
    let id ← Run.ofExcept (Argument.atom swap.name v)
    update apply id f args
  | reset, args => Run.fail (Argument.notExactly reset.name 2 args)
  | swap, args => Run.fail (Argument.notAtLeast swap.name 2 args)
  | op, args => Run.fail (Argument.notExactly op.name 1 args)

end Lisplet.AtomOp

import Lisplet.Builtin.Argument

/-! Sequences. Wherever one is asked for, a list, a vector and nil serve alike, and what
is made of them is a list, unless a vector is what the function is for. -/

namespace Lisplet.SequenceOp

/-- The number of elements, as an integer of the language. -/
def counted (n : Nat) : Except Error Value :=
  match Word.ofInt? n with
  | some k => .ok (.int k)
  | none => .error (.overflow count.name)

/-- All elements of all arguments. -/
def joined : List Value → Except Error (Rope Value)
  | [] => .ok .nil
  | v :: vs => do
    let xs ← Argument.items concat.name v
    let rest ← joined vs
    return xs ++ rest

/-- The element at an index counted from 0. -/
def at? (xs : Rope Value) (index : Int64) : Option Value :=
  if index.toInt < 0 then none else xs.get? index.toInt.toNat

def run : SequenceOp → List Value → Except Error Value
  | list, args => .ok (.list args)
  | vector, args => .ok (.vector args)
  | isEmpty, [.map es] => .ok (.bool es.isEmpty)
  | isEmpty, [v] => (fun xs => .bool xs.isEmpty) <$> Argument.items isEmpty.name v
  | count, [.map es] => counted es.size
  | count, [v] => do
    let xs ← Argument.items count.name v
    counted xs.size
  | cons, [x, v] => (fun xs => .seq .list (xs.cons x)) <$> Argument.items cons.name v
  | concat, args => .seq .list <$> joined args
  | vec, [v] => .seq .vector <$> Argument.items vec.name v
  | first, [v] => (fun xs => xs.first?.getD .nil) <$> Argument.items first.name v
  | rest, [v] => (fun xs => .seq .list xs.tail) <$> Argument.items rest.name v
  | nth, [v, i] => do
    let xs ← Argument.items nth.name v
    let index ← Argument.int nth.name i
    match at? xs index with
    | some x => .ok x
    | none => .error (.outOfBounds index xs.size)
  | cons, args => .error (Argument.notExactly cons.name 2 args)
  | nth, args => .error (Argument.notExactly nth.name 2 args)
  | op, args => .error (Argument.notExactly op.name 1 args)

end Lisplet.SequenceOp

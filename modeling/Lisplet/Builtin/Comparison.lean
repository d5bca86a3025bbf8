import Lisplet.Builtin.Argument

/-! Comparisons take one or more arguments and hold if each stands in the relation to
the next. The order relations look at the types of all arguments first. -/

namespace Lisplet

/-- Whether each element is related to the next. -/
def chain (related : α → α → Bool) : List α → Bool
  | [] => true
  | [_] => true
  | x :: y :: rest => related x y && chain related (y :: rest)

namespace Relation

def holds (r : Relation) (m n : Int64) : Bool :=
  match r with
  | lt => decide (m.toInt < n.toInt)
  | gt => decide (n.toInt < m.toInt)
  | le => decide (m.toInt ≤ n.toInt)
  | ge => decide (n.toInt ≤ m.toInt)

def run (r : Relation) : List Value → Except Error Value
  | [] => .error (Argument.notAtLeast r.name 1 [])
  | args => do
    let ns ← Argument.ints r.name args
    return .bool (chain r.holds ns)

end Relation

/-- Equality of all arguments. -/
def allEqual : List Value → Except Error Value
  | [] => .error (Argument.notAtLeast Builtin.equal.name 1 [])
  | args => .ok (.bool (chain Value.beq args))

end Lisplet

import Lisplet.Builtin.Argument

/-! Arithmetic goes through its arguments from the left, and each partial result has to
fit in 64 bits. Division cuts off towards zero. -/

namespace Lisplet.Arithmetic

/-- The result of one operation, on exact integers. -/
def exact (op : Arithmetic) (i j : Int) : Int :=
  match op with
  | add => i + j
  | sub => i - j
  | mul => i * j
  | div => i.tdiv j

def step (op : Arithmetic) (m n : Int64) : Except Error Int64 :=
  if op = div ∧ n = 0 then .error .divisionByZero
  else
    match Word.ofInt? (op.exact m.toInt n.toInt) with
    | some r => .ok r
    | none => .error (.overflow op.name)

/-- Takes in the arguments one by one, `acc` being the result so far. -/
def fold (op : Arithmetic) (acc : Int64) : List Value → Except Error Int64
  | [] => .ok acc
  | v :: vs => do
    let n ← Argument.int op.name v
    let acc ← op.step acc n
    op.fold acc vs

/-- A lone argument is negated by `-` and divides one by `/`. -/
def run (op : Arithmetic) (args : List Value) : Except Error Value :=
  .int <$>
    match op, args with
    | add, vs => add.fold 0 vs
    | mul, vs => mul.fold 1 vs
    | sub, [] => .error (Argument.notAtLeast sub.name 1 [])
    | sub, [v] => sub.fold 0 [v]
    | div, [] => .error (Argument.notAtLeast div.name 1 [])
    | div, [v] => div.fold 1 [v]
    | op, v :: vs => do
      let first ← Argument.int op.name v
      op.fold first vs

end Lisplet.Arithmetic

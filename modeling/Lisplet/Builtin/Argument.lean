import Lisplet.Error

/-! What functions ask of their arguments. The function is named in each complaint. -/

namespace Lisplet

section

variable {α β ε : Type} {x : Except ε α} {f : α → Except ε β} {b : β} {e : ε}

end

namespace Argument

/-- An integer. -/
def int (name : String) : Value → Except Error Int64
  | .int n => .ok n
  | v => .error (.type (some name) "int" v.typeName)

theorem int_eq_error_iff {name : String} {v : Value} {e : Error} :
    int name v = .error e ↔ (∀ n, v ≠ .int n) ∧ e = .type (some name) "int" v.typeName := by
  cases v <;> simp [int, eq_comm]

/-- The integers that all of the arguments are; the first other one is complained of. -/
def ints (name : String) : List Value → Except Error (List Int64)
  | [] => .ok []
  | v :: vs => do
    let n ← int name v
    let ns ← ints name vs
    return n :: ns

/-- The elements of a list or vector; nil has none. -/
def items (name : String) : Value → Except Error (Rope Value)
  | .seq _ xs => .ok xs
  | .nil => .ok .nil
  | v => .error (.type (some name) "list or vector" v.typeName)

/-- An atom. -/
def atom (name : String) : Value → Except Error AtomId
  | .atom id => .ok id
  | v => .error (.type (some name) "atom" v.typeName)

/-- The complaint about the number of arguments of a function that takes exactly `n`. -/
def notExactly (name : String) (n : Nat) (args : List Value) : Error :=
  .arity (some name) (.exactly n) args.length

/-- The complaint about the number of arguments of a function that takes at least `n`. -/
def notAtLeast (name : String) (n : Nat) (args : List Value) : Error :=
  .arity (some name) (.atLeast n) args.length

end Argument

end Lisplet

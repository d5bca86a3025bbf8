import Lisplet.Builtin.Arithmetic
import Mathlib.Algebra.Ring.Int.Defs

/-! Arithmetic is exact or refused. What an operation comes to is told on exact integers, all at
once, and so is where it stops. That taking in the operands one by one comes to the same is for
division the law that dividing twice is dividing by the product, which may be too large for a word
where no quotient is. -/

namespace Lisplet

namespace Arithmetic

/-- What comes of an integer and of others that are taken in after it. -/
def total : Arithmetic → Int → List Int → Int
  | add, i, js => i + js.sum
  | sub, i, js => i - js.sum
  | mul, i, js => i * js.prod
  | div, i, js => i.tdiv js.prod

/-- The values that an operation goes through: its arguments, and in front of them what it begins
with where that is no argument. -/
def operands : Arithmetic → List Value → List Value
  | add, args => .int 0 :: args
  | mul, args => .int 1 :: args
  | sub, [v] => [.int 0, v]
  | div, [v] => [.int 1, v]
  | _, args => args

/-- All integers can be taken in after `i`: there is no zero to divide by, and each partial result
fits. -/
structure Admits (op : Arithmetic) (i : Int) (js : List Int) : Prop where
  divisors : op = div → 0 ∉ js
  partials : ∀ ks, ks <+: js → Word.Fits (op.total i ks)

/-- What is wrong with an operand, the result of those in front of it being `i`. -/
inductive Wrong (op : Arithmetic) (i : Int) : Value → Error → Prop where
  | type (hv : ∀ n, v ≠ .int n) : Wrong op i v (.type (some op.name) "int" v.typeName)
  | zero (hop : op = div) : Wrong op i (.int 0) .divisionByZero
  | overflow (hz : ¬ (op = div ∧ n = 0)) (h : ¬ Word.Fits (op.exact i n.toInt)) :
    Wrong op i (.int n) (.overflow op.name)

/-- The complaint about the first operand with which something is wrong. What stands behind it
makes no difference. -/
inductive Refused (op : Arithmetic) : List Value → Error → Prop where
  | missing : Refused op [] (Argument.notAtLeast op.name 1 [])
  | first (hv : ∀ n, v ≠ .int n) :
    Refused op (v :: behind) (.type (some op.name) "int" v.typeName)
  | later {ns : List Int64} (h : Admits op m.toInt (ns.map Int64.toInt))
    (hv : Wrong op (op.total m.toInt (ns.map Int64.toInt)) v e) :
    Refused op (.int m :: (ns.map .int ++ v :: behind)) e

section

variable {op : Arithmetic} {i j : Int} {js : List Int} {m n k : Int64} {v r : Value}
  {vs args : List Value} {e : Error}

/-! ## Exact integers -/

theorem step_eq_ok_iff : op.step m n = .ok k ↔
    ¬ (op = div ∧ n = 0) ∧ k.toInt = op.exact m.toInt n.toInt := by
  rw [step, ← Word.ofInt?_eq_some_iff]
  split
  · next hz => simp [hz]
  · next hz => cases Word.ofInt? (op.exact m.toInt n.toInt) <;> simp [hz]

/-- The product of the divisors does not fit, but it is not a partial result. -/
example : div.run [.int 7, .int Int64.maxValue, .int Int64.maxValue] = .ok (.int 0) := rfl

end

end Arithmetic

end Lisplet

import Lisplet.Builtin
import Lisplet.Name
import Lisplet.Rope
import Lisplet.Word

/-! Values, which are both the data of a program and the program itself. Frames,
atoms and closures live in the world of an evaluation and are known here by number
only, so a value is a finite tree. -/

namespace Lisplet

abbrev FrameId := Nat
abbrev AtomId := Nat
abbrev ClosureId := Nat

/-- The two shapes of a sequence: a list, which is a call when evaluated, and a vector. -/
inductive Shape where
  | list | vector
deriving DecidableEq, Inhabited

/-- The parameters of a closure: names for the leading arguments, and possibly one
for the list of those that remain. -/
structure Params where
  fixed : List String
  rest : Option String
deriving DecidableEq, Inhabited

namespace Params

/-- The name that stands in front of the rest parameter. -/
def marker : String := "&"

/-- The fewest arguments that the parameters take. -/
def arity (p : Params) : Nat := p.fixed.length

def isVariadic (p : Params) : Bool := p.rest.isSome

/-- The parameters as they are written in a program. -/
def names (p : Params) : List String :=
  match p.rest with
  | none => p.fixed
  | some r => p.fixed ++ [marker, r]

def text (p : Params) : String := "(" ++ " ".intercalate p.names ++ ")"

end Params

/-- A function that is not made by the program. -/
inductive Native where
  | builtin (b : Builtin)
  /-- Evaluates its argument in the frame `root`. -/
  | evalIn (root : FrameId)
  /-- The function number `index` of the host, known to programs as `name`. -/
  | host (name : String) (index : Nat)
deriving DecidableEq, Inhabited

def Native.name : Native → String
  | builtin b => b.name
  | evalIn _ => "eval"
  | host name _ => name

inductive Value where
  | nil
  | bool (b : Bool)
  | int (n : Int64)
  | str (s : String)
  | keyword (name : String)
  | symbol (name : String)
  | seq (shape : Shape) (items : Rope Value)
  /-- A map, its entries in ascending order of their keys. -/
  | map (entries : Rope (Value × Value))
  | native (f : Native)
  /-- A function of the program, with the frame that was current where it was made. -/
  | closure (id : ClosureId) (params : Params) (body : Value) (frame : FrameId)
  | atom (id : AtomId)
deriving Inhabited

namespace Value

def list (items : List Value) : Value := seq .list (.ofList items)

def vector (items : List Value) : Value := seq .vector (.ofList items)

/-- The elements of a list or vector. -/
def items? : Value → Option (Rope Value)
  | seq _ items => some items
  | _ => none

/-- All values count as true but nil and false. -/
def isTruthy : Value → Bool
  | nil => false
  | bool b => b
  | _ => true

/-- The name of a value's type, as error texts give it. -/
def typeName : Value → String
  | nil => "nil"
  | bool _ => "bool"
  | int _ => "int"
  | str _ => "string"
  | keyword _ => "keyword"
  | symbol _ => "symbol"
  | seq .list _ => "list"
  | seq .vector _ => "vector"
  | map _ => "map"
  | native _ => "fn"
  | closure .. => "fn"
  | atom _ => "atom"

/-- Induction on a value: something holds of it if it does of its elements, its keys and values,
or its body. -/
theorem induct {P : Value → Prop} (nil : P .nil) (bool : ∀ b, P (.bool b))
    (int : ∀ n, P (.int n)) (str : ∀ s, P (.str s)) (keyword : ∀ name, P (.keyword name))
    (symbol : ∀ name, P (.symbol name))
    (seq : ∀ shape xs, (∀ x ∈ xs.toList, P x) → P (.seq shape xs))
    (map : ∀ es, (∀ e ∈ es.toList, P e.1 ∧ P e.2) → P (.map es)) (native : ∀ f, P (.native f))
    (closure : ∀ id params body frame, P body → P (.closure id params body frame))
    (atom : ∀ id, P (.atom id)) (v : Value) : P v := by
  refine @Value.rec P (fun xs => ∀ x ∈ xs.toList, P x) (fun es => ∀ e ∈ es.toList, P e.1 ∧ P e.2)
    (fun e => P e.1 ∧ P e.2) nil bool int str keyword symbol seq map native closure atom
    ?_ ?_ ?_ ?_ ?_ v
  · nofun
  · intro l x r hl hx hr y hy
    rw [Rope.toList_node, List.mem_append, List.mem_cons] at hy
    rcases hy with hy | rfl | hy
    · exact hl y hy
    · exact hx
    · exact hr y hy
  · nofun
  · intro l e r hl he hr f hf
    rw [Rope.toList_node, List.mem_append, List.mem_cons] at hf
    rcases hf with hf | rfl | hf
    · exact hl f hf
    · exact he
    · exact hr f hf
  · intro k v hk hv
    exact ⟨hk, hv⟩

end Value

end Lisplet

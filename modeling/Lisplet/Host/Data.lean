import Lisplet.Error
import Lisplet.Value.Order

/-! Data of the host program as values of the language, and back. On the way in a list
of the host is a vector; on the way out lists and vectors serve alike. A missing option
is nil, so an option whose content is itself nil comes back as missing. -/

namespace Lisplet

/-- The types of the host program whose data can be handed over. -/
inductive HostType where
  | unit
  | bool
  | int32
  | int64
  /-- Sizes, which are never negative. -/
  | size
  | string
  | value
  | list (t : HostType)
  | option (t : HostType)
deriving DecidableEq, Inhabited

namespace HostType

/-- What the data of a type are. -/
def Carrier : HostType → Type
  | unit => Unit
  | bool => Bool
  | int32 => Int32
  | int64 => Int64
  | size => UInt64
  | string => String
  | value => Value
  | list t => List t.Carrier
  | option t => Option t.Carrier

/-- The largest integer of the language. -/
def largest : Int64 := Int64.maxValue

/-- A size as an integer; one that is too large becomes the largest integer. -/
def clamp (n : UInt64) : Int64 := (Word.ofInt? n.toNat).getD largest

def toValue : (t : HostType) → t.Carrier → Value
  | unit, _ => .nil
  | bool, b => .bool b
  | int32, n => .int n.toInt64
  | int64, n => .int n
  | size, n => .int (clamp n)
  | string, s => .str s
  | value, v => v
  | list t, xs => .vector (List.map t.toValue xs)
  | option _, none => .nil
  | option t, some x => t.toValue x

/-- The complaint about a value of the wrong type. -/
def mismatch (expected : String) (v : Value) : Error := .type none expected v.typeName

/-- An integer that fits in 32 bits. -/
def narrow (n : Int64) : Except Error Int32 :=
  if Int32.minValue.toInt ≤ n.toInt ∧ n.toInt ≤ Int32.maxValue.toInt then
    .ok (Int32.ofInt n.toInt)
  else .error (.overflow "i32")

/-- An integer that is not negative. -/
def sized (n : Int64) : Except Error UInt64 :=
  if n.toInt < 0 then .error (.type none "non-negative int" "negative int")
  else .ok (UInt64.ofNat n.toInt.toNat)

def ofValue : (t : HostType) → Value → Except Error t.Carrier
  | unit, .nil => .ok ()
  | unit, v => .error (mismatch "nil" v)
  | bool, .bool b => .ok b
  | bool, v => .error (mismatch "bool" v)
  | int32, .int n => narrow n
  | int32, v => .error (mismatch "int" v)
  | int64, .int n => .ok n
  | int64, v => .error (mismatch "int" v)
  | size, .int n => sized n
  | size, v => .error (mismatch "non-negative int" v)
  | string, .str s => .ok s
  | string, v => .error (mismatch "string" v)
  | value, v => .ok v
  | list t, .seq _ xs => Rope.toList <$> xs.mapM t.ofValue
  | list _, v => .error (mismatch "list or vector" v)
  | option _, .nil => .ok none
  | option t, v => some <$> t.ofValue v

end HostType

end Lisplet

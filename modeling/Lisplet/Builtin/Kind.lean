import Lisplet.Builtin.Argument

/-! Questions about the kind of a value. -/

namespace Lisplet.KindTest

def holds : KindTest → Value → Bool
  | list, .seq .list _ => .true
  | vector, .seq .vector _ => .true
  | nil, .nil => .true
  | true, .bool b => b
  | false, .bool b => !b
  | symbol, .symbol _ => .true
  | keyword, .keyword _ => .true
  | string, .str _ => .true
  | number, .int _ => .true
  | fn, .native _ => .true
  | fn, .closure .. => .true
  | map, .map _ => .true
  | atom, .atom _ => .true
  | _, _ => .false

def run (t : KindTest) : List Value → Except Error Value
  | [v] => .ok (.bool (t.holds v))
  | args => .error (Argument.notExactly t.name 1 args)

end Lisplet.KindTest

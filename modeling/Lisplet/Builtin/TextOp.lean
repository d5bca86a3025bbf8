import Lisplet.Builtin.Argument
import Lisplet.Machine

/-! Texts: making values of them and them of values, printing, and reading files. -/

namespace Lisplet.TextOp

/-- The texts of values with `sep` between each two, as the world now is. -/
def textOf (style : Style) (sep : String) (vs : List Value) : Run String :=
  Run.see fun w => Value.textAll style w.atoms sep vs

/-- The complaint about arguments other than one string. -/
def notString (op : TextOp) : List Value → Error
  | [v] => .type (some op.name) "string" v.typeName
  | args => Argument.notExactly op.name 1 args

def run : TextOp → List Value → Run Value
  | symbol, [.str s] => return .symbol s
  | symbol, [.symbol name] => return .symbol name
  | keyword, [.str s] => return .keyword (Keyword.nameOf s)
  | keyword, [.keyword name] => return .keyword name
  | prStr, args => return .str (← textOf .readable " " args)
  | str, args => return .str (← textOf .raw "" args)
  | prn, args => do
    Run.print ((← textOf .readable " " args) ++ "\n")
    return .nil
  | println, args => do
    Run.print ((← textOf .raw " " args) ++ "\n")
    return .nil
  | readString, [.str s] =>
    match Form.readFirst s with
    | .ok found => return found.getD .nil
    | .error e => Run.fail (.read e)
  | slurp, [.str path] => return .str (← Run.readFile slurp.name path)
  | op, args => Run.fail (op.notString args)

end Lisplet.TextOp

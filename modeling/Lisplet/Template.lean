import Lisplet.Token
import Lisplet.Value

/-! Templates: forms under a quasiquote. A template expands to code that builds it
again out of `cons`, `concat`, `vec` and `quote`, with the unquoted forms in their
places. Only a list of two elements is an unquote or a splice; the expansion never
looks at a frame. -/

namespace Lisplet.Template

/-- The argument of a call of `name` with exactly one argument. -/
def argumentOf? (name : String) : Value → Option Value
  | .seq .list xs =>
    if xs.size = 2 then
      match xs.toList with
      | [.symbol s, x] => if s = name then some x else none
      | _ => none
    else none
  | _ => none

/-- A call of `name`. -/
def call (name : String) (args : List Value) : Value := .list (.symbol name :: args)

mutual
def expand : Value → Value
  | .seq .list xs =>
    match argumentOf? Sigil.unquote.name (.seq .list xs) with
    | some x => x
    | none => expandItems xs (.list [])
  | .seq .vector xs => call "vec" [expandItems xs (.list [])]
  | .symbol name => call "quote" [.symbol name]
  | .map es => call "quote" [.map es]
  | v => v
termination_by structural v => v

/-- Code for the list of a template's elements in front of the list that `rest` makes. -/
def expandItems : Rope Value → Value → Value
  | .nil, rest => rest
  | .node l x r, rest =>
    expandItems l
      (match argumentOf? Sigil.spliceUnquote.name x with
      | some y => call "concat" [y, expandItems r rest]
      | none => call "cons" [expand x, expandItems r rest])
termination_by structural xs => xs
end

end Lisplet.Template

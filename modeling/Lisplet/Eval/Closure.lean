import Lisplet.Machine

/-! Parameters of closures: how they are written, and how arguments are given to them.
Arguments beyond the parameters are dropped where no rest parameter takes them. -/

namespace Lisplet

namespace Params

/-- The name that a parameter is. -/
def nameOf : Value → Except Flaw String
  | .symbol x => .ok x
  | v => .error (.paramNotSymbol v.typeName)

/-- Reads parameters off the names they are written with. The marker stands in front of
the last name or nowhere. -/
def ofNames : List String → Except Flaw Params
  | [] => .ok ⟨[], none⟩
  | x :: xs =>
    if x = marker then
      match xs with
      | [r] => if r = marker then .error .misplacedMarker else .ok ⟨[], some r⟩
      | _ => .error .misplacedMarker
    else (fun p => ⟨x :: p.fixed, p.rest⟩) <$> ofNames xs

def ofForm (form : Value) : Except Flaw Params :=
  match form.items? with
  | none => .error (.paramsNotSequence form.typeName)
  | some items => do
    let names ← items.mapM nameOf
    ofNames names.toList

/-- The number of arguments that the parameters ask for. -/
def expected (p : Params) : Arity := if p.isVariadic then .atLeast p.arity else .exactly p.arity

/-- The binding of the rest parameter to what the fixed ones leave. -/
def restBinding (p : Params) (args : List Value) : List (String × Value) :=
  match p.rest with
  | none => []
  | some r => [(r, .list (args.drop p.arity))]

/-- The bindings of the parameters to arguments, in the order in which they are made. -/
def assign (p : Params) (args : List Value) : Except Error (List (String × Value)) :=
  if args.length < p.arity then .error (.arity none p.expected args.length)
  else .ok (p.fixed.zip args ++ p.restBinding args)

end Params

namespace Run

/-- A new frame inside `frame` in which the parameters have the arguments as values. -/
def enter (p : Params) (args : List Value) (frame : FrameId) : Run FrameId := do
  let news ← ofExcept (p.assign args)
  newFrame ⟨some frame, Bindings.insertAll news ∅⟩

/-- Gives the parameters their arguments in a frame that is there already. -/
def bindParams (p : Params) (args : List Value) (frame : FrameId) : Run Unit := do
  let news ← ofExcept (p.assign args)
  change fun w => { w with frames := w.frames.bindAll frame news }

end Run

end Lisplet

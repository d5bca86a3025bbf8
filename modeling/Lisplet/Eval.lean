import Lisplet.Eval.Native
import Lisplet.Eval.Special

/-! Evaluation. An evaluation takes turns: each turn ends in a value or replaces the form
and the frame by others, which takes no further nesting. Whatever else has to be evaluated
on the way (heads and arguments of calls, conditions, values to be bound) is an evaluation
of its own, one level deeper. Fuel bounds both the turns and the nesting; more of it never
changes an answer. -/

namespace Lisplet

/-- The special form that a list with this head is. -/
def Value.specialForm? : Value → Option SpecialForm
  | .symbol name => SpecialForm.ofName? name
  | _ => none

namespace Eval

/-- Evaluates forms from the left and puts their values on `done`, the last one first. -/
def itemsOnto (eval : Value → FrameId → Run Value) (frame : FrameId) :
    Rope Value → List Value → Run (List Value)
  | .nil, done => return done
  | .node l form r, done => do
    let done ← itemsOnto eval frame l done
    let v ← eval form frame
    itemsOnto eval frame r (v :: done)

/-- Evaluates forms from the left. -/
def items (eval : Value → FrameId → Run Value) (frame : FrameId) (forms : Rope Value) :
    Run (List Value) :=
  List.reverse <$> itemsOnto eval frame forms []

/-- Evaluates the values of entries from the left, keeps their keys, and puts them on `done`,
the last one first. -/
def entriesOnto (eval : Value → FrameId → Run Value) (frame : FrameId) :
    Rope (Value × Value) → List (Value × Value) → Run (List (Value × Value))
  | .nil, done => return done
  | .node l (key, form) r, done => do
    let done ← entriesOnto eval frame l done
    let v ← eval form frame
    entriesOnto eval frame r ((key, v) :: done)

/-- Evaluates the values of a map in the order of its keys, and keeps the keys. -/
def entries (eval : Value → FrameId → Run Value) (frame : FrameId)
    (forms : Rope (Value × Value)) : Run (List (Value × Value)) :=
  List.reverse <$> entriesOnto eval frame forms []

/-- Evaluates the parts of a form and does not call what comes out. -/
@[inline] def parts (eval : Value → FrameId → Run Value) (form : Value) (frame : FrameId) :
    Run Value :=
  match form with
  | .symbol name => Run.lookup frame name
  | .seq shape xs => (fun vs => .seq shape (.ofList vs)) <$> items eval frame xs
  | .map es => .mapOf <$> entries eval frame es
  | v => return v

/-- Calls a function in tail position. -/
def call (eval : Value → FrameId → Run Value) (apply : Value → List Value → Run Value)
    (f : Value) (args : List Value) : Run Turn :=
  match f with
  | .closure _ params body frame => do
    let inner ← Run.enter params args frame
    return .tail body inner
  | .native g => .done <$> g.run eval apply args
  | other => Run.fail (.notCallable other)

/-- One turn of an evaluation. An empty list is no call and stands for itself. -/
@[inline] def turn (eval : Value → FrameId → Run Value) (apply : Value → List Value → Run Value)
    (form : Value) (frame : FrameId) : Run Turn :=
  match form with
  | .seq .list forms =>
    match forms.first?.bind Value.specialForm? with
    | some f => f.run eval forms.toList.tail frame
    | none => do
      match ← items eval frame forms with
      | f :: args => call eval apply f args
      | [] => return .done form
  | form => .done <$> parts eval form frame

/-- Takes turns until one ends in a value. -/
def loop (eval : Value → FrameId → Run Value) (apply : Value → List Value → Run Value) :
    Nat → Value → FrameId → Run Value
  | 0, _, _ => Run.halt .outOfFuel
  | fuel + 1, form, frame => fun m =>
    match turn eval apply form frame m with
    | .value (.done v) m => .value v m
    | .value (.tail form frame) m => loop eval apply fuel form frame m
    | .error e m => .error e m
    | .halted h => .halted h

/-- Applies a function to values and waits for its value. -/
def applyWith (eval : Value → FrameId → Run Value) : Nat → Value → List Value → Run Value
  | 0, _, _ => Run.halt .outOfFuel
  | fuel + 1, f, args =>
    match f with
    | .closure _ params body frame => do
      let inner ← Run.enter params args frame
      eval body inner
    | .native g => g.run eval (applyWith eval fuel) args
    | other => Run.fail (.notCallable other)

end Eval

/-- Evaluates a form in a frame, one level deeper than now. -/
def eval : Nat → Value → FrameId → Run Value
  | 0, _, _ => Run.halt .outOfFuel
  | fuel + 1, form, frame =>
    Run.nested (Eval.loop (eval fuel) (Eval.applyWith (eval fuel) fuel) fuel form frame)

/-- Applies a function to values. -/
def apply (fuel : Nat) (f : Value) (args : List Value) : Run Value :=
  Eval.applyWith (eval fuel) fuel f args

/-- Evaluates the parts of a form, each one level deeper than now. -/
def evalParts (fuel : Nat) (form : Value) (frame : FrameId) : Run Value :=
  Eval.parts (eval fuel) form frame

/-- Evaluates forms as they are found in a text, up to the first error of either kind;
`last` is the value if there are none. -/
def evalForms (fuel : Nat) (frame : FrameId) (last : Value) :
    List (Except ReadError Value) → Run Value
  | [] => return last
  | .error e :: _ => Run.fail (.read e)
  | .ok form :: rest => do
    let v ← eval fuel form frame
    evalForms fuel frame v rest

end Lisplet

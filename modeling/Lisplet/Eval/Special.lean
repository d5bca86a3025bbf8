import Lisplet.Eval.Closure
import Lisplet.Template

/-! What each special form does. A form whose last part stands in tail position does not
evaluate that part: it names it as the next turn, so that any number of turns takes no
nesting. Evaluation is handed in as `eval`. -/

namespace Lisplet

/-- The end of one turn of an evaluation: a value, or a form to evaluate instead. -/
inductive Turn where
  | done (v : Value)
  | tail (form : Value) (frame : FrameId)
deriving Inhabited

namespace SpecialForm

/-- Evaluates forms for what they do. -/
def evalEach (eval : Value → FrameId → Run Value) (frame : FrameId) : List Value → Run Unit
  | [] => return ()
  | form :: forms => do
    let _ ← eval form frame
    evalEach eval frame forms

/-- Binds names to values in turn, each value seeing the bindings before it. -/
def bindEach (eval : Value → FrameId → Run Value) (frame : FrameId) : List Value → Run Unit
  | .symbol name :: form :: rest => do
    let v ← eval form frame
    Run.bindName frame name v
    bindEach eval frame rest
  | other :: _ :: _ => Run.fail (.malformed bind (.bindingNotSymbol other.typeName))
  | _ => return ()

def runDefine (eval : Value → FrameId → Run Value) (frame : FrameId) : List Value → Run Turn
  | [.symbol name, form] => do
    let v ← eval form frame
    Run.bindName frame name v
    return .done v
  | [other, _] => Run.fail (.malformed define (.nameNotSymbol other.typeName))
  | args => Run.fail (.malformed define (.notNameAndValue args.length))

def runBind (eval : Value → FrameId → Run Value) (frame : FrameId) : List Value → Run Turn
  | [bindings, body] =>
    match bindings.items? with
    | none => Run.fail (.malformed bind (.bindingsNotSequence bindings.typeName))
    | some items =>
      if items.size % 2 = 1 then Run.fail (.malformed bind .oddBindings)
      else do
        let inner ← Run.child frame
        bindEach eval inner items.toList
        return .tail body inner
  | args => Run.fail (.malformed bind (.notBindingsAndBody args.length))

def runSequence (eval : Value → FrameId → Run Value) (frame : FrameId) (args : List Value) :
    Run Turn :=
  match args.getLast? with
  | none => Run.fail (.malformed sequence .noForms)
  | some last => do
    evalEach eval frame args.dropLast
    return .tail last frame

def runBranch (eval : Value → FrameId → Run Value) (frame : FrameId) : List Value → Run Turn
  | [condition, consequent] => do
    let v ← eval condition frame
    return if v.isTruthy then .tail consequent frame else .done .nil
  | [condition, consequent, alternative] => do
    let v ← eval condition frame
    return .tail (if v.isTruthy then consequent else alternative) frame
  | args => Run.fail (.malformed branch (.notTwoOrThree args.length))

def runLambda (frame : FrameId) : List Value → Run Turn
  | [params, body] =>
    match Params.ofForm params with
    | .error flaw => Run.fail (.malformed lambda flaw)
    | .ok p => do
      let f ← Run.newClosure p body frame
      return .done f
  | args => Run.fail (.malformed lambda (.notParamsAndBody args.length))

def run (eval : Value → FrameId → Run Value) (f : SpecialForm) (args : List Value)
    (frame : FrameId) : Run Turn :=
  match f, args with
  | define, args => runDefine eval frame args
  | bind, args => runBind eval frame args
  | sequence, args => runSequence eval frame args
  | branch, args => runBranch eval frame args
  | lambda, args => runLambda frame args
  | quote, [form] => return .done form
  | quasiquote, [form] => return .tail (Template.expand form) frame
  | expand, [form] => return .done (Template.expand form)
  | f, args => Run.fail (.malformed f (.notOneArgument args.length))

end SpecialForm

end Lisplet

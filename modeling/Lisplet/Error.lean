import Lisplet.Form
import Lisplet.SpecialForm
import Lisplet.Value.Printer

/-! The errors of an evaluation, as causes, and the text of each. -/

namespace Lisplet

/-- What is wrong with the shape of a special form. -/
inductive Flaw where
  | notOneArgument (got : Nat)
  | notNameAndValue (got : Nat)
  | nameNotSymbol (typeName : String)
  | notBindingsAndBody (got : Nat)
  | bindingsNotSequence (typeName : String)
  | oddBindings
  | bindingNotSymbol (typeName : String)
  | noForms
  | notTwoOrThree (got : Nat)
  | notParamsAndBody (got : Nat)
  | paramsNotSequence (typeName : String)
  | paramNotSymbol (typeName : String)
  | misplacedMarker
  | other (reason : String)
deriving DecidableEq, Inhabited

def Flaw.message : Flaw → String
  | notOneArgument got => "expected 1 argument, got " ++ toString got
  | notNameAndValue got => "expected a name and a value, got " ++ toString got ++ " forms"
  | nameNotSymbol t => "name must be a symbol, got " ++ t
  | notBindingsAndBody got =>
    "expected bindings and one body form, got " ++ toString got ++ " forms"
  | bindingsNotSequence t => "bindings must be a list or vector, got " ++ t
  | oddBindings => "odd number of binding forms"
  | bindingNotSymbol t => "binding name must be a symbol, got " ++ t
  | noForms => "expected at least one form"
  | notTwoOrThree got => "expected 2 or 3 arguments, got " ++ toString got
  | notParamsAndBody got =>
    "expected parameters and one body form, got " ++ toString got ++ " forms"
  | paramsNotSequence t => "parameters must be a list or vector, got " ++ t
  | paramNotSymbol t => "parameter must be a symbol, got " ++ t
  | misplacedMarker => "'" ++ Params.marker ++ "' must be followed by exactly one parameter"
  | other reason => reason

/-- How many arguments a function takes. -/
inductive Arity where
  | exactly (n : Nat)
  | atLeast (n : Nat)
deriving DecidableEq, Inhabited

def Arity.text : Arity → String
  | exactly n => toString n
  | atLeast n => "at least " ++ toString n

/-- Why a file cannot be read as a text. -/
inductive FileFault where
  | notFound
  | isDirectory
  | notDirectory
  | nameTooLong
  | zeroInPath
  | notUnicode
  | other (reason : String)
deriving DecidableEq, Inhabited

def FileFault.message : FileFault → String
  | notFound => "No such file or directory (os error 2)"
  | isDirectory => "Is a directory (os error 21)"
  | notDirectory => "Not a directory (os error 20)"
  | nameTooLong => "File name too long (os error 36)"
  | zeroInPath => "file name contained an unexpected NUL byte"
  | notUnicode => "stream did not contain valid UTF-8"
  | other reason => reason

inductive Error where
  | unbound (name : String)
  /-- The wrong number of arguments, to the function called `name` if it has a name. -/
  | arity (name : Option String) (expected : Arity) (got : Nat)
  | malformed (form : SpecialForm) (flaw : Flaw)
  | notCallable (v : Value)
  /-- A value of the wrong type; `context` names the function that refuses it. -/
  | type (context : Option String) (expected got : String)
  | divisionByZero
  | overflow (operation : String)
  | outOfBounds (index : Int64) (length : Nat)
  | tooDeep (limit : Nat)
  | read (e : ReadError)
  | file (context : String) (path : Option String) (fault : FileFault)
  | internal (text : String)
deriving Inhabited

namespace Error

/-- The text of an error; `cells` is what the atoms hold when it is told. -/
def message (cells : Array Value) : Error → String
  | unbound name => "'" ++ name ++ "' not found"
  | arity (some name) expected got =>
    "Wrong number of arguments to '" ++ name ++ "': expected " ++ expected.text ++ ", got " ++
      toString got
  | arity none expected got =>
    "Wrong number of arguments: expected " ++ expected.text ++ ", got " ++ toString got
  | malformed form flaw => "Malformed '" ++ form.name ++ "': " ++ flaw.message
  | notCallable v => "Cannot call value: " ++ v.text .readable cells
  | type (some context) expected got => context ++ ": expected " ++ expected ++ ", got " ++ got
  | type none expected got => "Type error: expected " ++ expected ++ ", got " ++ got
  | divisionByZero => "Division by zero"
  | overflow operation => "Integer overflow in '" ++ operation ++ "'"
  | outOfBounds index length =>
    "Index " ++ String.ofList (Word.digits index) ++ " out of bounds for collection of length " ++
      toString length
  | tooDeep limit =>
    "Stack overflow: maximum recursion depth (" ++ toString limit ++ ") exceeded"
  | read e => e.message
  | file context (some path) fault => context ++ ": " ++ path ++ ": " ++ fault.message
  | file context none fault => context ++ ": " ++ fault.message
  | internal text => "Internal error: " ++ text

end Error

end Lisplet

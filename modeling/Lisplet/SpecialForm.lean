/-! The special forms: lists that are not calls, known by the name of the symbol they
begin with. The name is looked at before any frame is, so no binding can hide them. -/

namespace Lisplet

inductive SpecialForm where
  | define | bind | sequence | branch | lambda | quote | quasiquote | expand
deriving DecidableEq, Inhabited

namespace SpecialForm

def name : SpecialForm → String
  | define => "def!"
  | bind => "let*"
  | sequence => "do"
  | branch => "if"
  | lambda => "fn*"
  | quote => "quote"
  | quasiquote => "quasiquote"
  | expand => "quasiquoteexpand"

def all : List SpecialForm :=
  [define, bind, sequence, branch, lambda, quote, quasiquote, expand]

def ofName? (s : String) : Option SpecialForm := all.find? fun f => f.name == s

end SpecialForm

end Lisplet

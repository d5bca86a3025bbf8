/-! The functions that belong to the language, in families, each with the name that
a program calls it by. -/

namespace Lisplet

/-- Checked 64-bit arithmetic. -/
inductive Arithmetic where
  | add | sub | mul | div
deriving DecidableEq, Inhabited

def Arithmetic.name : Arithmetic → String
  | add => "+"
  | sub => "-"
  | mul => "*"
  | div => "/"

/-- The order relations on integers. -/
inductive Relation where
  | lt | gt | le | ge
deriving DecidableEq, Inhabited

def Relation.name : Relation → String
  | lt => "<"
  | gt => ">"
  | le => "<="
  | ge => ">="

/-- Building and taking apart lists and vectors. -/
inductive SequenceOp where
  | list | vector | isEmpty | count | cons | concat | vec | first | rest | nth
deriving DecidableEq, Inhabited

def SequenceOp.name : SequenceOp → String
  | list => "list"
  | vector => "vector"
  | isEmpty => "empty?"
  | count => "count"
  | cons => "cons"
  | concat => "concat"
  | vec => "vec"
  | first => "first"
  | rest => "rest"
  | nth => "nth"

/-- Questions about the kind of a value. -/
inductive KindTest where
  | list | vector | nil | true | false | symbol | keyword | string | number | fn | map | atom
deriving DecidableEq, Inhabited

def KindTest.name : KindTest → String
  | list => "list?"
  | vector => "vector?"
  | nil => "nil?"
  | true => "true?"
  | false => "false?"
  | symbol => "symbol?"
  | keyword => "keyword?"
  | string => "string?"
  | number => "number?"
  | fn => "fn?"
  | map => "map?"
  | atom => "atom?"

/-- Values from texts and texts from values, printing, and reading files. -/
inductive TextOp where
  | symbol | keyword | prStr | str | prn | println | readString | slurp
deriving DecidableEq, Inhabited

def TextOp.name : TextOp → String
  | symbol => "symbol"
  | keyword => "keyword"
  | prStr => "pr-str"
  | str => "str"
  | prn => "prn"
  | println => "println"
  | readString => "read-string"
  | slurp => "slurp"

/-- Making, reading and changing atoms. -/
inductive AtomOp where
  | new | deref | reset | swap
deriving DecidableEq, Inhabited

def AtomOp.name : AtomOp → String
  | new => "atom"
  | deref => "deref"
  | reset => "reset!"
  | swap => "swap!"

/-- A function of the language that means the same in every root frame. -/
inductive Builtin where
  | arithmetic (op : Arithmetic)
  | equal
  | relation (r : Relation)
  | sequence (op : SequenceOp)
  | kind (t : KindTest)
  | text (op : TextOp)
  | atom (op : AtomOp)
deriving DecidableEq, Inhabited

namespace Builtin

def name : Builtin → String
  | arithmetic op => op.name
  | equal => "="
  | relation r => r.name
  | sequence op => op.name
  | kind t => t.name
  | text op => op.name
  | atom op => op.name

def all : List Builtin :=
  [Arithmetic.add, .sub, .mul, .div].map arithmetic ++
    [equal] ++
    [Relation.lt, .gt, .le, .ge].map relation ++
    [SequenceOp.list, .vector, .isEmpty, .count, .cons, .concat, .vec, .first, .rest, .nth].map
      sequence ++
    [KindTest.list, .vector, .nil, .true, .false, .symbol, .keyword, .string, .number, .fn, .map,
      .atom].map kind ++
    [TextOp.symbol, .keyword, .prStr, .str, .prn, .println, .readString, .slurp].map text ++
    [AtomOp.new, .deref, .reset, .swap].map atom

end Builtin

end Lisplet

import Lisplet.Text
import Lisplet.Word

/-! Tokens, the words and marks of a program text, and the faults that keep a
stretch of text from being one. -/

namespace Lisplet

/-- The three kinds of bracket. -/
inductive Bracket where
  | round | square | curly
deriving DecidableEq, Inhabited

namespace Bracket

def opener : Bracket → Char
  | round => '('
  | square => '['
  | curly => '\x7b'

def closer : Bracket → Char
  | round => ')'
  | square => ']'
  | curly => '\x7d'

end Bracket

/-- A mark in front of a form, short for a call of the form's `name`. -/
inductive Sigil where
  | quote | quasiquote | unquote | spliceUnquote | deref
deriving DecidableEq, Inhabited

namespace Sigil

def name : Sigil → String
  | quote => "quote"
  | quasiquote => "quasiquote"
  | unquote => "unquote"
  | spliceUnquote => "splice-unquote"
  | deref => "deref"

def mark : Sigil → String
  | quote => "'"
  | quasiquote => "\x60"
  | unquote => "~"
  | spliceUnquote => "~@"
  | deref => "@"

end Sigil

inductive Token where
  | opening (b : Bracket)
  | closing (b : Bracket)
  | sigil (s : Sigil)
  /-- The mark that puts metadata in front of a form. -/
  | tag
  | nil
  | bool (b : Bool)
  | int (n : Int64)
  | str (s : String)
  | symbol (name : String)
  | keyword (name : String)
deriving DecidableEq, Inhabited

namespace Token

/-- The text of a token; a string's characters stand between quotes as they are. -/
def text : Token → String
  | opening b => b.opener.toString
  | closing b => b.closer.toString
  | sigil s => s.mark
  | tag => "^"
  | nil => "nil"
  | bool true => "true"
  | bool false => "false"
  | int n => String.ofList (Word.digits n)
  | str s => "\"" ++ s ++ "\""
  | symbol name => name
  | keyword name => ":" ++ name

/-- The tokens that are a single character, whatever stands around it. -/
def ofChar? : Char → Option Token
  | '(' => some (opening .round)
  | ')' => some (closing .round)
  | '[' => some (opening .square)
  | ']' => some (closing .square)
  | '\x7b' => some (opening .curly)
  | '\x7d' => some (closing .curly)
  | '\x27' => some (sigil .quote)
  | '\x60' => some (sigil .quasiquote)
  | '@' => some (sigil .deref)
  | '^' => some tag
  | _ => none

end Token

/-- Why a stretch of text is no token. -/
inductive LexFault where
  | unterminatedString
  | invalidEscape (c : Char)
  | namelessKeyword
  | invalidNumber (word : String)
  | outOfRange (word : String)
  | unexpected (c : Char)
deriving DecidableEq, Inhabited

namespace LexFault

def message : LexFault → String
  | unterminatedString => "Unterminated string"
  | invalidEscape c => "Invalid escape '\\" ++ c.toString ++ "' in string"
  | namelessKeyword => "Keyword has no name"
  | invalidNumber word => "Invalid number: " ++ word
  | outOfRange word => "Integer literal out of range: " ++ word
  | unexpected c => "Unexpected character: '" ++ c.toString ++ "'"

/-- The text of a fault together with its place. -/
def messageAt (e : LexFault) (p : Text.Position) : String :=
  "Lexer error at " ++ p.text ++ ": " ++ e.message

end LexFault

end Lisplet

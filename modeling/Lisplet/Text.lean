/-! Characters and places in a text. White space is the Unicode property of that
name, so a no-break space separates words and a zero-width space does not. A
place is counted in characters, and only a line feed starts a new line. -/

namespace Lisplet.Text

/-- The 25 characters with the Unicode property White_Space. -/
def isBlank (c : Char) : Bool :=
  let n := c.toNat
  (0x09 ≤ n && n ≤ 0x0D) || n == 0x20 || n == 0x85 || n == 0xA0 || n == 0x1680 ||
    (0x2000 ≤ n && n ≤ 0x200A) || n == 0x2028 || n == 0x2029 || n == 0x202F ||
    n == 0x205F || n == 0x3000

/-- Whether a text holds white space only. -/
def allBlank (s : String) : Bool := s.toList.all isBlank

/-- The characters that have a meaning of their own wherever they stand. -/
def reserved : List Char :=
  ['(', ')', '[', ']', '\x7b', '\x7d', '\x27', '\x22', '\x60', ',', ';', '~', '@', '^']

/-- The characters that names are made of: all but white space and `reserved`. -/
def isNameChar (c : Char) : Bool := !isBlank c && !reserved.contains c

/-- A place in a text, both numbers counted from 1. -/
structure Position where
  line : Nat
  column : Nat
deriving DecidableEq, Inhabited

namespace Position

def start : Position := ⟨1, 1⟩

/-- The place behind the character `c`. -/
def advance (p : Position) (c : Char) : Position :=
  if c = '\n' then ⟨p.line + 1, 1⟩ else ⟨p.line, p.column + 1⟩

/-- The place behind all of `cs`. -/
def after (p : Position) (cs : List Char) : Position := cs.foldl advance p

def text (p : Position) : String := toString p.line ++ ":" ++ toString p.column

theorem after_append (p : Position) (cs ds : List Char) :
    p.after (cs ++ ds) = (p.after cs).after ds := List.foldl_append ..

end Position

end Lisplet.Text

import Lisplet.Text.Cluster

/-! Lines as they are typed. A line feed ends a line, and a backspace takes away the
cluster that stands in front of it, an accent or the rest of a picture included. What a
backspace takes away is measured in bytes of UTF-8, and a measure is a single byte. -/

namespace Lisplet.Text

def backspace : Char := '\x08'

/-- The number of bytes that a backspace takes away for a cluster: all that it has, as far
as one byte can count them. -/
def span (cluster : List Char) : Nat := (String.ofList cluster).utf8ByteSize % 256

/-- Takes `n` bytes from a text whose last character comes first. -/
def dropBytes : Nat → List Char → List Char
  | 0, cs => cs
  | _, [] => []
  | n, c :: cs => dropBytes (n - c.utf8Size) cs

/-- A line that is being typed. -/
structure Typed where
  /-- The characters that stand, the last first. -/
  text : List Char
  /-- The spans of the clusters that no backspace has taken away, the last first. -/
  spans : List Nat
deriving DecidableEq, Inhabited

namespace Typed

/-- Types one more cluster. A backspace with no cluster in front of it does nothing. -/
def type (line : Typed) (cluster : List Char) : Typed :=
  if cluster = [backspace] then
    match line.spans with
    | [] => line
    | n :: spans => ⟨dropBytes n line.text, spans⟩
  else ⟨cluster.reverse ++ line.text, span cluster :: line.spans⟩

/-- What stands when all of a line has been typed. -/
def result (cs : List Char) : List Char :=
  ((clusters cs).foldl type ⟨[], []⟩).text.reverse

end Typed

/-- The line that a line feed ends, its characters given the last first. The feed may
have a carriage return in front of it. -/
def endedLine : List Char → String
  | '\r' :: cs => String.ofList (Typed.result cs.reverse)
  | cs => String.ofList (Typed.result cs.reverse)

/-- The lines of a text; `line` are the characters of the present one, the last first. A
line that nothing ends counts if it has a character. -/
def linesFrom (line : List Char) : List Char → List String
  | [] => if line.isEmpty then [] else [String.ofList (Typed.result line.reverse)]
  | '\n' :: cs => endedLine line :: linesFrom [] cs
  | c :: cs => linesFrom (c :: line) cs

/-- The lines of a text, typed one after the other. -/
def typedLines (s : String) : List String := linesFrom [] s.toList

end Lisplet.Text

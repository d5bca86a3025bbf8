import Lisplet.Value

/-! The text of a value. Readable text can be read back: strings stand in quotes with
`"`, `\` and line feeds escaped. Raw text has the characters of strings as they are.
Functions have no text that reads back. An atom is written with what it holds; where
it is met again inside its own text, it is cut short, so the text is finite. -/

namespace Lisplet

inductive Style where
  | readable | raw
deriving DecidableEq, Inhabited

namespace Value

/-- Writes a character of a readable string in front of `tail`. -/
def writeEscaped (c : Char) (tail : List Char) : List Char :=
  if c = '"' then '\\' :: '"' :: tail
  else if c = '\\' then '\\' :: '\\' :: tail
  else if c = '\n' then '\\' :: 'n' :: tail
  else c :: tail

def writeString (style : Style) (s : String) (tail : List Char) : List Char :=
  match style with
  | .readable => '"' :: s.toList.foldr writeEscaped ('"' :: tail)
  | .raw => s.toList ++ tail

mutual
/-- Writes a value in front of `tail`, its atoms by `atomText`. -/
def write (style : Style) (atomText : AtomId → List Char → List Char) :
    Value → List Char → List Char
  | nil, tail => "nil".toList ++ tail
  | bool true, tail => "true".toList ++ tail
  | bool false, tail => "false".toList ++ tail
  | int n, tail => Word.digits n ++ tail
  | str s, tail => writeString style s tail
  | keyword name, tail => (Keyword.text name).toList ++ tail
  | symbol name, tail => name.toList ++ tail
  | seq .list xs, tail => '(' :: writeItems style atomText [] xs (')' :: tail)
  | seq .vector xs, tail => '[' :: writeItems style atomText [] xs (']' :: tail)
  | map es, tail => '\x7b' :: writeEntries style atomText [] es ('\x7d' :: tail)
  | native f, tail => ("#<native-fn " ++ f.name ++ ">").toList ++ tail
  | closure .., tail => "#<function>".toList ++ tail
  | atom i, tail => atomText i tail
termination_by structural v => v

/-- Writes values with a space between each two and `lead` in front of the first. -/
def writeItems (style : Style) (atomText : AtomId → List Char → List Char) (lead : List Char) :
    Rope Value → List Char → List Char
  | .nil, tail => tail
  | .node l x r, tail =>
    writeItems style atomText lead l
      ((if l.isEmpty then lead else [' ']) ++
        write style atomText x (writeItems style atomText [' '] r tail))
termination_by structural xs => xs

/-- Writes keys and values in the same way. -/
def writeEntries (style : Style) (atomText : AtomId → List Char → List Char) (lead : List Char) :
    Rope (Value × Value) → List Char → List Char
  | .nil, tail => tail
  | .node l (k, v) r, tail =>
    writeEntries style atomText lead l
      ((if l.isEmpty then lead else [' ']) ++
        write style atomText k (' ' ::
          write style atomText v (writeEntries style atomText [' '] r tail)))
termination_by structural es => es
end

theorem write_str (style : Style) (atomText : AtomId → List Char → List Char) (s : String)
    (tail : List Char) : write style atomText (str s) tail = writeString style s tail := rfl

/-- The text of an atom inside its own text. -/
def cutAtom (tail : List Char) : List Char := "(atom ...)".toList ++ tail

/-- Writes an atom of `cells` in front of `tail` when the atoms `opened` are being
written around it; `fuel` bounds how many more may be opened. -/
def writeAtom (style : Style) (cells : Array Value) :
    Nat → List AtomId → AtomId → List Char → List Char
  | 0, _, _, tail => cutAtom tail
  | fuel + 1, opened, i, tail =>
    if opened.contains i then cutAtom tail
    else
      "(atom ".toList ++
        write style (writeAtom style cells fuel (i :: opened)) (cells[i]?.getD nil) (')' :: tail)

/-- Writes a value in front of `tail`. No more atoms than there are can be open at
once, so the bound on them is never met. -/
def writeIn (style : Style) (cells : Array Value) (v : Value) (tail : List Char) : List Char :=
  write style (writeAtom style cells (cells.size + 2) []) v tail

/-- The text of a value, given what the atoms hold. The raw text of a string needs no
writing: it is the string. -/
def text (style : Style) (cells : Array Value) : Value → String
  | str s => if style = .raw then s else String.ofList (writeString style s [])
  | v => String.ofList (writeIn style cells v [])

theorem text_eq_ofList (style : Style) (cells : Array Value) (v : Value) :
    text style cells v = String.ofList (writeIn style cells v []) := by
  cases v with
  | str s =>
    rw [writeIn, write_str]
    cases style with
    | readable => rfl
    | raw => simp [text, writeString]
  | _ => rfl

/-- The texts of values with `sep` between each two. -/
def textAll (style : Style) (cells : Array Value) (sep : String) (vs : List Value) : String :=
  sep.intercalate (vs.map (text style cells))

/-- The text that shows a value to a developer: a closure with its parameters. -/
def inspect (cells : Array Value) : Value → String
  | closure _ params _ _ => "#<function " ++ params.text ++ ">"
  | v => text .readable cells v

end Value

end Lisplet

/-! Names of symbols and keywords. A keyword is written with a colon in front of its
name; where a keyword is made from a text, one leading colon is that mark and not
part of the name. -/

namespace Lisplet

namespace Symbol

/-- The text that shows a symbol to a developer. -/
def inspect (name : String) : String := "Symbol(" ++ name ++ ")"

end Symbol

namespace Keyword

/-- The name of the keyword that a text stands for. -/
def nameOf (s : String) : String :=
  match s.toList with
  | ':' :: cs => String.ofList cs
  | _ => s

theorem nameOf_of_colon {s : String} {cs : List Char} (h : s.toList = ':' :: cs) :
    nameOf s = String.ofList cs := by
  simp only [nameOf, h]

theorem nameOf_of_ne_colon {s : String} (h : s.toList.head? ≠ some ':') : nameOf s = s := by
  unfold nameOf
  split
  · next cs hcs => simp [hcs] at h
  · rfl

def text (name : String) : String := ":" ++ name

/-- The text that shows a keyword to a developer. -/
def inspect (name : String) : String := "Keyword(" ++ text name ++ ")"

end Keyword

end Lisplet

import Lisplet.Eval

/-! Root frames: the frames that belong to no other and know the functions of the
language. -/

namespace Lisplet

namespace Run

/-- Binds all functions of the language in a frame; its `eval` evaluates in that frame. -/
def bindBuiltins (frame : FrameId) : Run Unit :=
  change fun w =>
    { w with
      frames :=
        w.frames.bindAll frame
          (Builtin.all.map (fun b => (b.name, .native (.builtin b))) ++
            [((Native.evalIn frame).name, .native (.evalIn frame))]) }

end Run

/-! ## The prelude, which is part of the language but written in it -/

namespace Prelude

private def sym (name : String) : Value := .symbol name

/-- Negation: `(def! not (fn* (a) (if a false true)))`. -/
def defineNot : Value :=
  .list [sym "def!", sym "not",
    .list [sym "fn*", .list [sym "a"], .list [sym "if", sym "a", .bool false, .bool true]]]

def loadFileName : String := "load-file"

/-- Loading a file: evaluates its forms in the root frame and gives nil.
`(def! load-file (fn* (f) (eval (read-string (str "(do " (slurp f) "\nnil)")))))`. -/
def defineLoadFile : Value :=
  .list [sym "def!", sym loadFileName,
    .list [sym "fn*", .list [sym "f"],
      .list [sym "eval",
        .list [sym "read-string",
          .list [sym "str", .str "(do ", .list [sym "slurp", sym "f"], .str "\nnil)"]]]]]

def forms : List Value := [defineNot, defineLoadFile]

def load (fuel : Nat) (frame : FrameId) : Run Unit :=
  SpecialForm.evalEach (eval fuel) frame forms

end Prelude

namespace Run

/-- A new root frame that knows the functions of the language, without the prelude. -/
def newBareRoot : Run FrameId := do
  let frame ← newFrame ⟨none, ∅⟩
  bindBuiltins frame
  return frame

/-- A new root frame with the prelude. -/
def newRoot (fuel : Nat) : Run FrameId := do
  let frame ← newBareRoot
  Prelude.load fuel frame
  return frame

end Run

end Lisplet

import Lisplet.Proofs.Meaning
import Lisplet.Root

/-! New roots. Whatever the machine, if it has room for two levels of evaluation, a new root frame
comes to have one binding for each function of the language and for each name of the prelude. -/

namespace Lisplet

namespace Bindings

/-- Of several bindings for a name that are made one after the other the last one counts. -/
theorem getElem?_insertAll_eq (news : List (String × Value)) (b : Bindings) (name : String) :
    (insertAll news b)[name]? = (news.reverse.lookup name <|> b[name]?) := by
  induction news generalizing b with
  | nil => rfl
  | cons p news ih =>
    obtain ⟨x, v⟩ := p
    have hinsert : insertAll ((x, v) :: news) b = insertAll news (b.insert x v) := rfl
    rw [hinsert, ih, getElem?_insert_eq, List.reverse_cons, List.lookup_append]
    cases news.reverse.lookup name with
    | some u => rfl
    | none =>
      by_cases hx : x = name
      · subst hx
        simp
      · simp [hx, List.lookup_cons, beq_eq_false_iff_ne.mpr (Ne.symm hx)]

end Bindings

namespace Frames

variable {fs : Frames} {f : Frame}

theorem modify_push (g : Frame → Frame) :
    ((fs.push f).all.modify fs.next g) = (fs.push (g f)).all := by
  refine Array.ext_getElem? fun i => ?_
  simp only [push, next, Array.getElem?_modify, Array.getElem?_push]
  split
  · next h => simp [← h]
  · next h => simp [Ne.symm h]

theorem bind_push (name : String) (v : Value) :
    (fs.push f).bind fs.next name v = fs.push { f with bindings := f.bindings.insert name v } :=
  congrArg Frames.mk (modify_push _)

theorem bindAll_push (news : List (String × Value)) :
    (fs.push f).bindAll fs.next news =
      fs.push { f with bindings := Bindings.insertAll news f.bindings } :=
  congrArg Frames.mk (modify_push _)

/-- The bindings of a frame in which one more has been made. -/
theorem own?_bind_eq {i : FrameId} (hi : i < fs.next) (x name : String) (v : Value) :
    (fs.bind i x v).own? i name = if x = name then some v else fs.own? i name := by
  have hf : fs.all[i]? = some fs.all[i] := Array.getElem?_eq_getElem hi
  simp only [own?, bind, Array.getElem?_modify, hf, if_true, Option.map_some, Option.bind_some,
    Bindings.getElem?_insert_eq]

@[simp] theorem next_bind (i : FrameId) (x : String) (v : Value) :
    (fs.bind i x v).next = fs.next := Array.size_modify ..

end Frames

namespace Prelude

/-- The body of the negation. -/
def notBody : Value := Template.call "if" [.symbol "a", .bool false, .bool true]

/-- The body of the function that loads files. -/
def loadFileBody : Value :=
  Template.call "eval" [Template.call "read-string"
    [Template.call "str" [.str "(do ", Template.call "slurp" [.symbol "f"], .str "\nnil)"]]]

/-- A definition of a function of one parameter. -/
def defineUnary (name param : String) (body : Value) : Value :=
  Template.call SpecialForm.define.name [.symbol name,
    Template.call SpecialForm.lambda.name [.list [.symbol param], body]]

theorem forms_eq :
    forms = [defineUnary "not" "a" notBody, defineUnary loadFileName "f" loadFileBody] := rfl

end Prelude

namespace World

/-- The bindings of the functions of the language, in the order in which they are made. -/
def builtinBindings (w : World) : List (String × Value) :=
  Builtin.all.map (fun b => (b.name, .native (.builtin b))) ++
    [((Native.evalIn w.frames.next).name, .native (.evalIn w.frames.next))]

def negation (w : World) : Value :=
  .closure w.closures ⟨["a"], none⟩ Prelude.notBody w.frames.next

def fileLoader (w : World) : Value :=
  .closure (w.closures + 1) ⟨["f"], none⟩ Prelude.loadFileBody w.frames.next

/-- All bindings of a new root frame, in the order in which they are made. -/
def rootBindings (w : World) : List (String × Value) :=
  w.builtinBindings ++ [("not", w.negation), (Prelude.loadFileName, w.fileLoader)]

def withBareRoot (w : World) : World :=
  w.withFrame ⟨none, Bindings.insertAll w.builtinBindings ∅⟩

/-- The world with a new root frame. -/
def withRoot (w : World) : World :=
  { w.withFrame ⟨none, Bindings.insertAll w.rootBindings ∅⟩ with closures := w.closures + 2 }

theorem withRoot_eq (w : World) :
    w.withRoot =
      (w.withBareRoot.withClosure.bindName w.frames.next "not" w.negation).withClosure.bindName
        w.frames.next Prelude.loadFileName w.fileLoader := by
  have hb : Bindings.insertAll w.rootBindings ∅ =
      ((Bindings.insertAll w.builtinBindings ∅).insert "not" w.negation).insert
        Prelude.loadFileName w.fileLoader := by
    rw [rootBindings, Bindings.insertAll, List.foldl_append]
    rfl
  rw [withRoot, hb]
  unfold bindName withClosure withBareRoot withFrame
  simp only [Frames.bind_push]

end World

section

variable {param : String}

theorem Params.ofForm_singleton (hp : param ≠ Params.marker) :
    Params.ofForm (.list [.symbol param]) = .ok ⟨[param], none⟩ := by
  rw [Value.list, Rope.ofList_singleton]
  change Params.ofNames [param] = _
  simp only [Params.ofNames, if_neg hp]
  rfl

/-- The world in which a function of one parameter has been defined in a frame. -/
def World.defineUnary (w : World) (frame : FrameId) (name param : String) (body : Value) : World :=
  w.withClosure.bindName frame name (.closure w.closures ⟨[param], none⟩ body frame)

/-- A function of one parameter is defined with one level for the definition and one for the
function. -/
theorem settles_defineUnary (name : String) (body : Value) (frame : FrameId) (m : Machine)
    (hp : param ≠ Params.marker) (hm : m.depth + 2 ≤ m.limit) :
    Settles (Prelude.defineUnary name param body) frame m
      (.ok (.closure m.world.closures ⟨[param], none⟩ body frame))
      (m.world.defineUnary frame name param body) := by
  have hlambda : (Template.call SpecialForm.lambda.name [.list [.symbol param], body]).clause? =
      some (.lambda ⟨[param], none⟩ body) := by
    rw [Template.clause?_special, SpecialForm.clause, Params.ofForm_singleton hp]
  have hdefine (form : Value) :
      (Template.call SpecialForm.define.name [.symbol name, form]).clause? =
        some (.define name form) := Template.clause?_special .define [.symbol name, form]
  exact Enters.settled_of_nesting
    (.free (.special (hdefine _) (.define (.free (.special hlambda .lambda))))) hm

/-- Functions of one parameter, each with its name, its parameter and its body, are defined one
after the other. -/
theorem evalEach_defineUnary (frame : FrameId) (functions : List (String × String × Value))
    (m : Machine) (hp : ∀ f ∈ functions, f.2.1 ≠ Params.marker) (hm : m.depth + 2 ≤ m.limit) :
    ∃ k, ∀ fuel, k ≤ fuel →
      SpecialForm.evalEach (eval fuel) frame
          (functions.map fun f => Prelude.defineUnary f.1 f.2.1 f.2.2) m =
        .of (.ok ()) { m with
          world := functions.foldl (fun w f => w.defineUnary frame f.1 f.2.1 f.2.2) m.world } := by
  induction functions generalizing m with
  | nil => exact ⟨0, fun fuel _ => rfl⟩
  | cons f functions ih =>
    rw [List.forall_mem_cons] at hp
    obtain ⟨k₁, h₁⟩ := (settles_defineUnary f.1 f.2.2 frame m hp.1 hm).eventually
    obtain ⟨k₂, h₂⟩ :=
      ih { m with world := m.world.defineUnary frame f.1 f.2.1 f.2.2 } hp.2 hm
    refine ⟨max k₁ k₂, fun fuel hf => ?_⟩
    rw [List.map_cons, SpecialForm.evalEach,
      Run.bind_of_ok (h₁ fuel (Nat.le_trans (Nat.le_max_left ..) hf))]
    exact h₂ fuel (Nat.le_trans (Nat.le_max_right ..) hf)

end

theorem newBareRoot_eq (m : Machine) :
    Run.newBareRoot m =
      .value m.world.frames.next { m with world := m.world.withBareRoot } := by
  change Outcome.value m.world.frames.next { m with world := { m.world with
    frames := (m.world.frames.push ⟨none, ∅⟩).bindAll m.world.frames.next
      m.world.builtinBindings } } = _
  rw [Frames.bindAll_push]
  rfl

/-- **A new root frame knows the functions of the language and the prelude.** -/
theorem newRoot_eq {m : Machine} (hm : m.depth + 2 ≤ m.limit) :
    ∃ k, ∀ fuel, k ≤ fuel →
      Run.newRoot fuel m = .value m.world.frames.next { m with world := m.world.withRoot } := by
  let root := m.world.frames.next
  let m₁ : Machine := { m with world := m.world.withBareRoot }
  have hbare : Run.newBareRoot m = .of (.ok root) m₁ := newBareRoot_eq m
  obtain ⟨k, hk⟩ := evalEach_defineUnary root
    [("not", "a", Prelude.notBody), (Prelude.loadFileName, "f", Prelude.loadFileBody)] m₁
    (by decide) hm
  refine ⟨k, fun fuel hf => ?_⟩
  have hprelude :
      Prelude.load fuel root m₁ = .of (.ok ()) { m with world := m.world.withRoot } := by
    rw [World.withRoot_eq]
    exact hk fuel hf
  rw [Run.newRoot, Run.bind_of_ok hbare, Run.bind_of_ok hprelude]
  rfl

namespace World

theorem own?_withRoot (w : World) {name : String} {v : Value}
    (h : w.rootBindings.reverse.lookup name = some v) :
    w.withRoot.frames.own? w.frames.next name = some v := by
  have hf : w.withRoot.frames.all[w.frames.next]? =
      some ⟨none, Bindings.insertAll w.rootBindings ∅⟩ := Array.getElem?_push_size ..
  rw [Frames.own?, hf, Option.bind_some, Bindings.getElem?_insertAll_eq, h]
  rfl

theorem lookup_withRoot (w : World) {name : String} {v : Value}
    (h : w.rootBindings.reverse.lookup name = some v) :
    w.withRoot.lookup w.frames.next name = .ok v :=
  lookup_of_own? (w.own?_withRoot h)

end World

end Lisplet

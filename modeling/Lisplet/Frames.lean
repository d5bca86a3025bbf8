import Lisplet.Value
import Std.Data.ExtTreeMap

/-! Frames, which hold the bindings of names to values. A frame is made inside an older
one or inside none and stays there; a name is looked up frame by frame outwards, and
the nearest binding counts. A binding made later for the same name in the same frame
takes the place of the earlier one. -/

namespace Lisplet

abbrev Bindings := Std.ExtTreeMap String Value

namespace Bindings

/-- Inserts one after the other. -/
def insertAll (news : List (String × Value)) (b : Bindings) : Bindings :=
  news.foldl (fun b p => b.insert p.1 p.2) b

theorem getElem?_insert_eq (name x : String) (v : Value) (b : Bindings) :
    (b.insert x v)[name]? = if x = name then some v else b[name]? := by
  simp [Std.ExtTreeMap.getElem?_insert]

end Bindings

structure Frame where
  parent : Option FrameId
  bindings : Bindings
deriving Inhabited

/-- All frames, by number. -/
structure Frames where
  all : Array Frame
deriving Inhabited

namespace Frames

def empty : Frames := ⟨#[]⟩

/-- The number that the next frame will have. -/
def next (fs : Frames) : FrameId := fs.all.size

def push (fs : Frames) (f : Frame) : Frames := ⟨fs.all.push f⟩

/-- Binds a name in the frame `id` itself. -/
def bind (fs : Frames) (id : FrameId) (name : String) (v : Value) : Frames :=
  ⟨fs.all.modify id fun f => { f with bindings := f.bindings.insert name v }⟩

def bindAll (fs : Frames) (id : FrameId) (news : List (String × Value)) : Frames :=
  ⟨fs.all.modify id fun f => { f with bindings := Bindings.insertAll news f.bindings }⟩

/-- The value that the frame `id` itself has for a name. -/
def own? (fs : Frames) (id : FrameId) (name : String) : Option Value :=
  fs.all[id]?.bind fun f => f.bindings[name]?

/-- The nearest frame, from `id` outwards, that binds a name. Each frame is older than
those inside it, so the way outwards ends. -/
def resolve (fs : Frames) (id : FrameId) (name : String) : Option FrameId :=
  match fs.all[id]? with
  | none => none
  | some f =>
    if name ∈ f.bindings then some id
    else
      match f.parent with
      | none => none
      | some outer => if outer < id then fs.resolve outer name else none
termination_by id

/-- Whether a name is bound in the frame `id` or further out. -/
def isBound (fs : Frames) (id : FrameId) (name : String) : Bool := (fs.resolve id name).isSome

/-- The value of a name seen from the frame `id`. -/
def get? (fs : Frames) (id : FrameId) (name : String) : Option Value :=
  (fs.resolve id name).bind fun owner => fs.own? owner name

/-- A name is seen in the frame itself, or from the frame it stands in. -/
theorem get?_eq (fs : Frames) (i : FrameId) (name : String) :
    fs.get? i name = fs.all[i]?.bind fun f =>
      f.bindings[name]? <|> f.parent.bind fun outer =>
        if outer < i then fs.get? outer name else none := by
  rw [get?, resolve]
  cases hf : fs.all[i]? with
  | none => rfl
  | some f =>
    simp only [Option.bind_some]
    split
    · next hm =>
      obtain ⟨v, hv⟩ := Option.isSome_iff_exists.mp
        (Std.ExtTreeMap.isSome_getElem?_iff_mem.mpr hm)
      simp [own?, hf, hv]
    · next hm =>
      have hn : f.bindings[name]? = none := by simpa using hm
      rw [hn]
      cases f.parent with
      | none => rfl
      | some outer =>
        simp only [Option.bind_some]
        split <;> rfl

theorem get?_of_own? {fs : Frames} {id : FrameId} {name : String} {v : Value}
    (h : fs.own? id name = some v) : fs.get? id name = some v := by
  obtain ⟨f, hf, hv⟩ := Option.bind_eq_some_iff.mp h
  rw [get?_eq, hf, Option.bind_some, hv]
  rfl

end Frames

end Lisplet

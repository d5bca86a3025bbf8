import Lisplet.Proofs.BigStep.Roots
import Lisplet.Proofs.Meaning
import Lisplet.Proofs.Renaming.Code

/-! Values that start no evaluation. A value is inert if it holds no function but those of the
language, and no atom that was there before a certain time, so that what newer atoms hold can be
inert too. The functions of the language come to an end on inert values, except where `swap!`
applies another function, and what they give and write is inert again. -/

namespace Lisplet

/-! ## Inert values -/

/-- Some numbers stand for themselves, and others for nothing. -/
def Matching.same (P : Nat → Prop) : Matching where
  rel i i' := i = i' ∧ P i
  compare_eq := by
    rintro _ _ _ _ ⟨rfl, -⟩ ⟨rfl, -⟩
    rfl

/-- Of all numbers only those of atoms from `base` on stand for something. -/
def Renaming.newAtoms (base : AtomId) : Renaming := ⟨.empty, .same (base ≤ ·), .empty, .empty⟩

/-- Under a renaming that knows nothing but atoms from `base` on the value stays as it is. So it
holds no closure, no `eval` of a root, no function of the host and no older atom. -/
def Value.Inert (base : AtomId) (v : Value) : Prop := v.Alike (.newAtoms base) v

namespace Value

variable {base : AtomId} {v : Value}

theorem inert_seq_iff {shape : Shape} {xs : Rope Value} :
    (seq shape xs).Inert base ↔ ∀ x ∈ xs.toList, x.Inert base := by
  constructor
  · intro h
    cases h with
    | seq _ h => exact fun x hx => List.forall₂_same.mp h x hx
  · intro h
    exact .seq shape (List.forall₂_same.mpr h)

theorem inert_vector_iff {vs : List Value} : (vector vs).Inert base ↔ ∀ v ∈ vs, v.Inert base := by
  rw [vector, inert_seq_iff, Rope.toList_ofList]

theorem inert_map_iff {es : Rope (Value × Value)} :
    (map es).Inert base ↔ ∀ e ∈ es.toList, e.1.Inert base ∧ e.2.Inert base :=
  alike_map_iff.trans List.forall₂_same

theorem inert_mapOf {ps : List (Value × Value)}
    (h : ∀ e ∈ ps, e.1.Inert base ∧ e.2.Inert base) : (mapOf ps).Inert base :=
  alike_mapOf (List.forall₂_same.mpr h)

theorem inert_atom_iff {i : AtomId} : (atom i).Inert base ↔ base ≤ i := by
  constructor
  · intro h
    cases h with
    | atom h => exact h.2
  · intro h
    exact .atom ⟨rfl, h⟩

theorem inert_builtin (b : Builtin) : (native (.builtin b)).Inert base := .native (.builtin b)

/-- An inert value that can be called is a function of the language. -/
theorem Inert.of_isFunction (h : v.Inert base) (hf : v.isFunction = true) :
    ∃ b, v = .native (.builtin b) := by
  cases v with
  | native f =>
    cases h with
    | native h =>
      cases h with
      | builtin b => exact ⟨b, rfl⟩
      | evalIn h | host _ h => exact h.elim
  | closure =>
    cases h with
    | closure _ h => exact h.elim
  | _ => contradiction

/-- What is read from a text is inert. -/
theorem inert_readFirst {s : String} (h : Form.readFirst s = .ok (some v)) : v.Inert base :=
  Form.alike_readFirst h _

end Value

theorem ResultAlike.of_ok {ρ : Renaming} {R : α → α → Prop} {x : Except Error α} {a : α}
    (h : ResultAlike ρ R x x) (ha : x = .ok a) : R a a := by
  subst ha
  cases h with
  | ok h => exact h

/-! ## Worlds -/

/-- From the frame `root` and newer ones nothing can be got hold of that is not inert, unless by the
name of the function `eval`. -/
structure World.Sealed (root : FrameId) (base : AtomId) (w : World) : Prop where
  parents : ∀ {i f outer}, root ≤ i → w.frames.all[i]? = some f → f.parent = some outer →
    root ≤ outer
  bindings : ∀ {i name v}, root ≤ i → name ≠ "eval" → w.frames.own? i name = some v →
    v.Inert base
  atoms : ∀ {i v}, base ≤ i → w.atoms[i]? = some v → v.Inert base
  framesFrom : root ≤ w.frames.next
  atomsFrom : base ≤ w.atoms.size
  /-- Every file has been looked at. -/
  disk : ∀ path, (w.disk.read? path).isSome = true

namespace World.Sealed

variable {w : World} {root frame : FrameId} {base : AtomId} {name : String} {v : Value} {i : AtomId}

theorem lookup (h : w.Sealed root base) (hf : root ≤ frame) (hn : name ≠ "eval")
    (hv : w.lookup frame name = .ok v) : v.Inert base := by
  rw [lookup_eq_ok_iff] at hv
  induction frame using Nat.strongRecOn with
  | ind frame ih =>
    rw [Frames.get?_eq] at hv
    obtain ⟨f, hframe, hv⟩ := Option.bind_eq_some_iff.mp hv
    cases hown : f.bindings[name]? with
    | some u =>
      rw [hown] at hv
      cases hv
      exact h.bindings hf hn (Option.bind_eq_some_iff.mpr ⟨f, hframe, hown⟩)
    | none =>
      rw [hown] at hv
      obtain ⟨outer, hp, hv⟩ := Option.bind_eq_some_iff.mp hv
      split at hv
      · next hlt => exact ih outer hlt (h.parents hf hframe hp) hv
      · contradiction

theorem bindName (h : w.Sealed root base) (hv : v.Inert base) :
    (w.bindName frame name v).Sealed root base :=
  { h with
    parents := by
      intro i f outer hi hf hp
      simp only [World.bindName, Frames.bind, Array.getElem?_modify] at hf
      split at hf
      · obtain ⟨f', hf', rfl⟩ := Option.map_eq_some_iff.mp hf
        exact h.parents hi hf' hp
      · exact h.parents hi hf hp
    bindings := by
      intro i other u hi hn hu
      rcases Frames.own?_bind hu with hu | rfl
      · exact h.bindings hi hn hu
      · exact hv
    framesFrom := Nat.le_trans h.framesFrom (Nat.le_of_eq Array.size_modify.symm) }

theorem withFrame (h : w.Sealed root base) {f : Frame}
    (hp : ∀ outer, f.parent = some outer → root ≤ outer)
    (hb : ∀ name v, name ≠ "eval" → f.bindings[name]? = some v → v.Inert base) :
    (w.withFrame f).Sealed root base :=
  { h with
    parents := by
      intro i f' outer hi hf hp'
      simp only [World.withFrame, Frames.push, Array.getElem?_push] at hf
      split at hf
      · cases hf
        exact hp outer hp'
      · exact h.parents hi hf hp'
    bindings := by
      intro i name v hi hn hu
      rcases Frames.own?_push hu with hu | hu
      · exact h.bindings hi hn hu
      · exact hb name v hn hu
    framesFrom := by
      have hsize : (w.withFrame f).frames.next = w.frames.next + 1 := Array.size_push _
      rw [hsize]
      exact Nat.le_succ_of_le h.framesFrom }

theorem withChild (h : w.Sealed root base) (hf : root ≤ frame) :
    (w.withChild frame).Sealed root base := by
  refine h.withFrame (fun outer ho => ?_) fun name v _ hv => ?_
  · cases ho
    exact hf
  · simp at hv

theorem cell (h : w.Sealed root base) (hi : base ≤ i) : (w.cell i).Inert base := by
  unfold World.cell
  cases hv : w.atoms[i]? with
  | none => exact .nil
  | some v => exact h.atoms hi hv

theorem setCell (h : w.Sealed root base) (hv : v.Inert base) :
    (w.setCell i v).Sealed root base :=
  { h with
    atoms := by
      intro j u hj hu
      simp only [World.setCell, Array.getElem?_modify] at hu
      split at hu
      · obtain ⟨_, -, rfl⟩ := Option.map_eq_some_iff.mp hu
        exact hv
      · exact h.atoms hj hu
    atomsFrom := Nat.le_trans h.atomsFrom (Nat.le_of_eq Array.size_modify.symm) }

theorem newAtom (h : w.Sealed root base) (hv : v.Inert base) :
    World.Sealed root base { w with atoms := w.atoms.push v } :=
  { h with
    atoms := by
      intro j u hj hu
      rw [Array.getElem?_push] at hu
      split at hu
      · cases hu
        exact hv
      · exact h.atoms hj hu
    atomsFrom := by
      rw [Array.size_push]
      exact Nat.le_succ_of_le h.atomsFrom }

end World.Sealed

/-! ## Runs that evaluate nothing -/

variable {root : FrameId} {base : AtomId}

/-- From sealed worlds the run ends in the same way at every depth and under every limit, in a
sealed world, and its values are as `P` says. -/
def Run.Ends (root : FrameId) (base : AtomId) (P : α → Prop) (run : Run α) : Prop :=
  ∀ ⦃w⦄, w.Sealed root base → ∃ r w',
    (∀ depth limit, run ⟨w, depth, limit⟩ = .of r ⟨w', depth, limit⟩) ∧
    w'.Sealed root base ∧ ∀ a, r = .ok a → P a

namespace Run.Ends

variable {P : α → Prop} {Q : β → Prop}

theorem see {f : World → α} (h : ∀ w, w.Sealed root base → P (f w)) :
    Ends root base P (Run.see f) := by
  intro w hw
  refine ⟨.ok (f w), w, fun depth limit => rfl, hw, fun a ha => ?_⟩
  cases ha
  exact h w hw

theorem pure {a : α} (h : P a) : Ends root base P (Pure.pure a) := see fun _ _ => h

theorem change {f : World → World} (h : ∀ w, w.Sealed root base → (f w).Sealed root base) :
    Ends root base (fun _ => True) (Run.change f) :=
  fun w hw => ⟨.ok (), f w, fun _ _ => rfl, h w hw, fun _ _ => trivial⟩

theorem fail (e : Error) : Ends root base P (Run.fail e) :=
  fun w hw => ⟨.error e, w, fun _ _ => rfl, hw, nofun⟩

theorem ofExcept {x : Except Error α} (h : ∀ a, x = .ok a → P a) :
    Ends root base P (Run.ofExcept x) := by
  cases x with
  | ok a => exact pure (h a rfl)
  | error e => exact fail e

theorem bind {run : Run α} {f : α → Run β} (hr : Ends root base P run)
    (hf : ∀ a, P a → Ends root base Q (f a)) : Ends root base Q (run >>= f) := by
  intro w hw
  obtain ⟨r, w₁, hrun, hw₁, hP⟩ := hr hw
  cases r with
  | error e => exact ⟨.error e, w₁, fun d l => Run.bind_of_error (hrun d l), hw₁, nofun⟩
  | ok a =>
    obtain ⟨r₂, w₂, hf₂, hw₂, hQ⟩ := hf a (hP a rfl) hw₁
    exact ⟨r₂, w₂, fun d l => (Run.bind_of_ok (hrun d l)).trans (hf₂ d l), hw₂, hQ⟩

theorem print (s : String) : Ends root base (fun _ => True) (Run.print s) :=
  change fun _ hw => { hw with }

theorem readFile (context path : String) :
    Ends root base (fun _ => True) (Run.readFile context path) := by
  refine bind (see (P := (·.isSome = true)) fun w hw => hw.disk path) fun found hf => ?_
  split
  · exact pure trivial
  · exact fail _
  · contradiction

theorem textOf (style : Style) (sep : String) (vs : List Value) :
    Ends root base (fun _ => True) (TextOp.textOf style sep vs) := see fun _ _ => trivial

theorem textOp (op : TextOp) (args : List Value) :
    Ends root base (Value.Inert base) (op.run args) := by
  unfold TextOp.run
  split
  · exact pure (.symbol _)
  · exact pure (.symbol _)
  · exact pure (.keyword _)
  · exact pure (.keyword _)
  · exact bind (textOf ..) fun _ _ => pure (.str _)
  · exact bind (textOf ..) fun _ _ => pure (.str _)
  · exact bind (textOf ..) fun _ _ => bind (print _) fun _ _ => pure .nil
  · exact bind (textOf ..) fun _ _ => bind (print _) fun _ _ => pure .nil
  · split
    · next found h =>
      cases found with
      | none => exact pure .nil
      | some v => exact pure (Value.inert_readFirst h)
    · exact fail _
  · exact bind (readFile ..) fun _ _ => pure (.str _)
  · exact fail _

theorem newAtom {v : Value} (hv : v.Inert base) :
    Ends root base (Value.Inert base) (Run.newAtom v) :=
  bind (see (P := (base ≤ ·)) fun _ hw => hw.atomsFrom) fun _ hi =>
    bind (change fun _ hw => hw.newAtom hv) fun _ _ => pure (Value.inert_atom_iff.mpr hi)

theorem writeAtom {v : Value} (hv : v.Inert base) (i : AtomId) :
    Ends root base (Value.Inert base) (Run.writeAtom i v) :=
  bind (change fun _ hw => hw.setCell hv) fun _ _ => pure hv

theorem argumentAtom (name : String) {v : Value} (hv : v.Inert base) :
    Ends root base (base ≤ ·) (Run.ofExcept (Argument.atom name v)) :=
  ofExcept fun _ hi => ((Argument.alike_atom name hv).of_ok hi).2

/-- Functions for atoms that apply no function. -/
theorem atomOp (apply : Value → List Value → Run Value) (op : AtomOp) {args : List Value}
    (ha : ∀ a ∈ args, a.Inert base) (hs : op = .swap → ∀ i f rest, args ≠ .atom i :: f :: rest) :
    Ends root base (Value.Inert base) (op.run apply args) := by
  unfold AtomOp.run
  split
  · exact newAtom (ha _ (by simp))
  · exact bind (argumentAtom _ (ha _ (by simp))) fun i hi => see fun w hw => hw.cell hi
  · exact bind (argumentAtom _ (ha _ (by simp))) fun i _ => writeAtom (ha _ (by simp)) i
  · next v f args =>
    cases v with
    | atom i => exact (hs rfl i f args rfl).elim
    | _ => exact fail _
  · exact fail _
  · exact fail _
  · exact fail _

/-- On inert values a function of the language ends with an inert value or an error, if it applies
no other function. -/
theorem alone (b : Builtin) {args : List Value} (ha : ∀ a ∈ args, a.Inert base)
    (hs : b = .atom .swap → ∀ i f rest, args ≠ .atom i :: f :: rest) :
    Ends root base (Value.Inert base) ((Native.builtin b).alone args) := by
  have hargs : List.Forall₂ (Value.Alike (.newAtoms base)) args args := List.forall₂_same.mpr ha
  cases b with
  | arithmetic op => exact ofExcept fun _ => (op.alike_run hargs).of_ok
  | equal => exact ofExcept fun _ => (alike_allEqual hargs).of_ok
  | relation r => exact ofExcept fun _ => (r.alike_run hargs).of_ok
  | sequence op => exact ofExcept fun _ => (op.alike_run hargs).of_ok
  | kind t => exact ofExcept fun _ => (t.alike_run hargs).of_ok
  | text op => exact textOp op args
  | atom op => exact atomOp _ op ha fun hop => hs (congrArg _ hop)

end Run.Ends

end Lisplet

import Lisplet.Proofs.BigStep.Frames
import Lisplet.Proofs.BigStep.Roots
import Lisplet.Proofs.BigStep.Soundness

/-! No evaluation writes to somebody else's frame. What is bound is bound in the frame of
the evaluation itself, in new frames, or in root frames by way of their function `eval`.
A form that makes a frame for its names, and a call, leave all older frames alone but for
such roots. -/

namespace Lisplet

/-- The function `eval` of the root is in one of the values, in a frame, in an atom, or in
the hands of the host: whatever roots confine the values and the world, it is one of them. -/
def Held (vs : List Value) (w : World) (root : FrameId) : Prop :=
  ∀ R : FrameId → Prop, (∀ v ∈ vs, v.Within R) → w.Within R → R root

/-- Frames that were there are as they were, but for roots whose `eval` has been called, and
that `eval` was held by the values or in the world at the beginning. -/
structure SparesFrames (vs : List Value) (w : World) (t : List Event) (w' : World) : Prop where
  kept : w.frames.Kept (fun i => Event.asked i ∈ t) w'.frames
  held : ∀ i, Event.asked i ∈ t → Held vs w i

section

variable {g : Guard} {f : Value} {args : List Value} {w w' : World} {t : List Event}
  {r : Except Error Value}

theorem Frames.Kept.of_exposed {fs fs' : Frames} (h : fs.Kept (Exposed none t) fs') :
    fs.Kept (fun i => Event.asked i ∈ t) fs' := h.mono fun _ hi => hi.resolve_left nofun

theorem Calls.spares (h : Calls g f args w t r w') : SparesFrames (f :: args) w t w' := by
  refine ⟨h.kept.of_exposed, fun i hi R hR hw => ?_⟩
  obtain ⟨hf, ha⟩ := List.forall_mem_cons.mp hR
  exact (h.confined hf ha hw).roots i hi

theorem Applies.spares (h : Applies g f args w t r w') : SparesFrames (f :: args) w t w' := by
  refine ⟨h.kept.of_exposed, fun i hi R hR hw => ?_⟩
  obtain ⟨hf, ha⟩ := List.forall_mem_cons.mp hR
  exact (h.confined hf ha hw).roots i hi

theorem Invokes.spares {b : Builtin} (h : Invokes g (.builtin b) args w t r w') :
    SparesFrames args w t w' :=
  ⟨h.kept.of_exposed, fun i hi _ hR hw => (h.confined trivial hR hw).roots i hi⟩

theorem Evaluates.performs {form : Value} {c : Clause} {frame : FrameId}
    (hc : form.clause? = some c) (h : Evaluates g form frame w t r w') :
    Performs g c frame w t r w' := by
  cases h with
  | special hc' hp =>
    cases hc.symm.trans hc'
    exact hp
  | constant hv =>
    cases form with
    | seq shape xs =>
      cases shape with
      | list =>
        have hx : xs.toList = [] := List.isEmpty_iff.mp hv
        simp [Value.clause?, hx] at hc
      | vector => contradiction
    | _ => contradiction
  | call hn | callError hn =>
    rw [hn] at hc
    contradiction
  | symbol | vector | map => contradiction

theorem Enters.kept_of_bind {xs : Rope Value} {frame : FrameId}
    (hb : xs.toList.head? = some (.symbol SpecialForm.bind.name))
    (h : Enters g (.seq .list xs) frame w t r w') :
    w.frames.Kept (Exposed none t) w'.frames := by
  have hc : (Value.seq .list xs).clause? = some (SpecialForm.bind.clause xs.toList.tail) := by
    rw [Value.clause?, hb]
    rfl
  cases h with
  | free h => exact (h.performs hc).kept_of_bind.deeper w
  | admitted h => exact (h.performs hc).kept_of_bind.deeper w
  | refused => exact .refl

end

/-- **No evaluation writes to somebody else's frame.** After an evaluation every frame that
was there has its parent, and it has its bindings if it is not the frame of the evaluation
and not a root whose `eval` is held. A form that binds names for its body, and the call of a
function in tail position, by another function or by `swap!`, write to no frame that was
there unless it is such a root and its `eval` has been called. -/
theorem eval_spares_frames (fuel d L : Nat) (w : World) :
    (∀ form frame r m', eval fuel form frame ⟨w, d, L⟩ = .of r m' →
      w.frames.Kept (fun i => i = frame ∨ Held [form] w i) m'.world.frames) ∧
    (∀ xs frame r m', xs.toList.head? = some (.symbol SpecialForm.bind.name) →
      eval fuel (.seq .list xs) frame ⟨w, d, L⟩ = .of r m' →
      ∃ t, Enters (.at d L) (.seq .list xs) frame w t r m'.world ∧
        SparesFrames [.seq .list xs] w t m'.world) ∧
    (∀ f args r m',
      (Eval.call (eval fuel) (apply fuel) f args >>=
        Eval.conclude (Eval.loop (eval fuel) (apply fuel) fuel)) ⟨w, d, L⟩ = .of r m' →
      ∃ t, Calls (.at d L) f args w t r m'.world ∧ SparesFrames (f :: args) w t m'.world) ∧
    (∀ f args r m', apply fuel f args ⟨w, d, L⟩ = .of r m' →
      ∃ t, Applies (.at d L) f args w t r m'.world ∧ SparesFrames (f :: args) w t m'.world) ∧
    (∀ i f args r m', AtomOp.swap.run (apply fuel) (.atom i :: f :: args) ⟨w, d, L⟩ = .of r m' →
      ∃ t, Invokes (.at d L) (.builtin (.atom .swap)) (.atom i :: f :: args) w t r m'.world ∧
        SparesFrames (.atom i :: f :: args) w t m'.world) := by
  have heval := follows_eval fuel d L
  have happly := follows_apply fuel d L
  refine ⟨?_, ?_, ?_, ?_, ?_⟩
  · intro form frame r m' h
    obtain ⟨t, w', rfl, he⟩ := heval form frame h
    refine he.kept.mono ?_
    rintro i (hi | hi)
    · exact .inl (Option.some.inj hi).symm
    · exact .inr fun R hR hw => (he.confined (hR form (by simp)) hw).roots i hi
  · intro xs frame r m' hb h
    obtain ⟨t, w', rfl, he⟩ := heval (.seq .list xs) frame h
    refine ⟨t, he, (he.kept_of_bind hb).of_exposed, fun i hi R hR hw => ?_⟩
    exact (he.confined (hR _ (by simp)) hw).roots i hi
  · intro f args r m' h
    obtain ⟨t, w', rfl, hc⟩ :=
      follows_call heval happly (follows_loop heval happly fuel) f args h
    exact ⟨t, hc, hc.spares⟩
  · intro f args r m' h
    obtain ⟨t, w', rfl, ha⟩ := happly f args h
    exact ⟨t, ha, ha.spares⟩
  · intro i f args r m' h
    obtain ⟨t, w', rfl, hi⟩ := follows_atomOp happly .swap (.atom i :: f :: args) h
    exact ⟨t, hi, hi.spares⟩

/-- The form `(let* (x 7) 8)` in a root frame without bindings: the name is bound elsewhere. -/
theorem eval_spares_frames_let :
    let root : Frame := ⟨none, ∅⟩
    let w : World := (World.empty default).withFrame root
    let form := Value.seq .list
      (.node (.node .nil (.symbol "let*") .nil)
        (.seq .list (.node (.node .nil (.symbol "x") .nil) (.int 7) .nil))
        (.node .nil (.int 8) .nil))
    ∃ m', eval 3 form 0 ⟨w, 0, 9⟩ = .of (.ok (.int 8)) m' ∧
      ∃ f, m'.world.frames.all[0]? = some f ∧ f.parent = root.parent ∧
        f.bindings = root.bindings := by
  intro root w form
  obtain ⟨-, hlet, -⟩ := eval_spares_frames 3 0 9 w
  have h : eval 3 form 0 ⟨w, 0, 9⟩ = .of (.ok (.int 8)) _ := rfl
  refine ⟨_, h, ?_⟩
  obtain ⟨t, -, hs⟩ := hlet _ 0 _ _ rfl h
  obtain ⟨f, hf, hp, hb⟩ := hs.kept (i := 0) (f := root) rfl
  refine ⟨f, hf, hp, hb fun ha => ?_⟩
  -- No function `eval` is there, so none can have been called.
  refine hs.held 0 ha (fun _ => False) ?_ ?_
  · simp [Value.Within, Value.ItemsWithin]
  · exact (World.Within.empty default).withFrame fun hn => by simp [root] at hn

end Lisplet

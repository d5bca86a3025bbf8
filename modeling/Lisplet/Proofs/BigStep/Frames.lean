import Lisplet.Proofs.RunLaws

/-! What a derivation does to frames that were there before. No frame changes its parent.
Names are bound in the frame in which a form is evaluated and in the frames made on the way,
and otherwise only in root frames whose function `eval` is called. -/

namespace Lisplet

/-- The frames whose bindings may change: the one in which the evaluation takes place, if it
is known, and the roots that are asked. -/
def Exposed (own : Option FrameId) (t : List Event) (i : FrameId) : Prop :=
  own = some i ∨ Event.asked i ∈ t

namespace Frames

/-- All frames are still there, with their parents, and with their bindings unless they are
excepted. -/
def Kept (except : FrameId → Prop) (fs fs' : Frames) : Prop :=
  ∀ ⦃i f⦄, fs.all[i]? = some f →
    ∃ f', fs'.all[i]? = some f' ∧ f'.parent = f.parent ∧
      (¬ except i → f'.bindings = f.bindings)

variable {fs fs₁ fs₂ : Frames} {P Q : FrameId → Prop} {own : Option FrameId} {i : FrameId}
  {f : Frame} {s t : List Event}

theorem lt_next (h : fs.all[i]? = some f) : i < fs.next :=
  (Array.getElem?_eq_some_iff.mp h).1

theorem getElem?_push (h : fs.all[i]? = some f) (new : Frame) :
    (fs.push new).all[i]? = some f := by
  have hi : i < fs.all.size := lt_next h
  rw [push, Array.getElem?_push_lt hi, ← h, Array.getElem?_eq_getElem hi]

namespace Kept

theorem refl : Kept P fs fs := fun _ f hf => ⟨f, hf, rfl, fun _ => rfl⟩

theorem mono (h : Kept P fs fs₁) (hPQ : ∀ i, P i → Q i) : Kept Q fs fs₁ := by
  intro i f hf
  obtain ⟨f', hf', hp, hb⟩ := h hf
  exact ⟨f', hf', hp, fun hn => hb fun hi => hn (hPQ i hi)⟩

theorem trans (h₁ : Kept P fs fs₁) (h₂ : Kept P fs₁ fs₂) : Kept P fs fs₂ := by
  intro i f hf
  obtain ⟨f₁, hf₁, hp₁, hb₁⟩ := h₁ hf
  obtain ⟨f₂, hf₂, hp₂, hb₂⟩ := h₂ hf₁
  exact ⟨f₂, hf₂, hp₂.trans hp₁, fun hn => (hb₂ hn).trans (hb₁ hn)⟩

theorem bind (name : String) (v : Value) : Kept (Exposed (some i) t) fs (fs.bind i name v) := by
  intro j f hf
  by_cases hij : i = j
  · subst hij
    refine ⟨{ f with bindings := f.bindings.insert name v }, ?_, rfl, fun hn => ?_⟩
    · simp [Frames.bind, Array.getElem?_modify, hf]
    · exact (hn (.inl rfl)).elim
  · refine ⟨f, ?_, rfl, fun _ => rfl⟩
    simp [Frames.bind, Array.getElem?_modify, hij, hf]

/-- What is done in a frame made on the way is not done in one that was there. -/
theorem inner (h : Kept (Exposed (some fs.next) t) (fs.push f) fs₁) :
    Kept (Exposed own t) fs fs₁ := by
  intro i f' hf'
  obtain ⟨f₁, hf₁, hp, hb⟩ := h (getElem?_push hf' f)
  refine ⟨f₁, hf₁, hp, fun hn => hb ?_⟩
  rintro (hi | hi)
  · exact (Nat.ne_of_lt (lt_next hf') (Option.some.inj hi).symm).elim
  · exact hn (.inr hi)

/-- Two parts of an evaluation, one after the other. -/
theorem andThen (h₁ : Kept (Exposed own s) fs fs₁) (h₂ : Kept (Exposed own t) fs₁ fs₂) :
    Kept (Exposed own (s ++ t)) fs fs₂ := by
  refine (h₁.mono fun i hi => ?_).trans (h₂.mono fun i hi => ?_)
  · exact hi.imp_right (List.mem_append_left t)
  · exact hi.imp_right (List.mem_append_right s)

theorem deeper (h : Kept (Exposed own t) fs fs₁) (w : World) :
    Kept (Exposed own (.attempt 1 w :: t.map .deeper)) fs fs₁ := by
  refine h.mono fun i hi => hi.imp_right fun hm => ?_
  exact List.mem_cons_of_mem _ (List.mem_map.mpr ⟨_, hm, rfl⟩)

/-- An evaluation in a root frame is for that frame what the event tells. -/
theorem asked (h : Kept (Exposed (some i) t) fs fs₁) :
    Kept (Exposed own (.asked i :: t)) fs fs₁ := by
  refine h.mono fun j hj => .inr ?_
  rcases hj with hj | hj
  · rw [Option.some.inj hj]
    exact List.mem_cons_self
  · exact List.mem_cons_of_mem _ hj

theorem anywhere (h : Kept (Exposed none t) fs fs₁) : Kept (Exposed own t) fs fs₁ :=
  h.mono fun _ hi => .inr (hi.resolve_left nofun)

end Kept

end Frames

theorem World.frames_entered {w w₁ : World} {p : Params} {args : List Value} {frame : FrameId}
    (h : w.entered p args frame = .ok w₁) : ∃ f, w₁.frames = w.frames.push f := by
  obtain ⟨news, -, rfl⟩ := entered_eq_ok_iff.mp h
  exact ⟨_, rfl⟩

/-! ## Derivations -/

mutual

theorem Evaluates.kept {g : Guard} {form : Value} {frame : FrameId} {w w' : World}
    {t : List Event} {r : Except Error Value} (h : Evaluates g form frame w t r w') :
    w.frames.Kept (Exposed (some frame) t) w'.frames := by
  match h with
  | .symbol => exact .refl
  | .constant hc => exact .refl
  | .vector hs => exact EvaluatesAll.kept hs
  | .map hs => exact EvaluatesAll.kept hs
  | .special hc hp => exact Performs.kept hp
  | .call hn hs hf => exact (EvaluatesAll.kept hs).andThen (Calls.kept hf).anywhere
  | .callError hn hs => exact EvaluatesAll.kept hs

theorem Enters.kept {g : Guard} {form : Value} {frame : FrameId} {w w' : World}
    {t : List Event} {r : Except Error Value} (h : Enters g form frame w t r w') :
    w.frames.Kept (Exposed (some frame) t) w'.frames := by
  match h with
  | .free h => exact (Evaluates.kept h).deeper w
  | .admitted h => exact (Evaluates.kept h).deeper w
  | .refused => exact .refl

theorem EvaluatesAll.kept {g : Guard} {forms : List Value} {frame : FrameId} {w w' : World}
    {t : List Event} {rs : Except Error (List Value)}
    (h : EvaluatesAll g forms frame w t rs w') :
    w.frames.Kept (Exposed (some frame) t) w'.frames := by
  match h with
  | .nil => exact .refl
  | .cons h hs => exact (Enters.kept h).andThen (EvaluatesAll.kept hs)
  | .error h => exact Enters.kept h

theorem Performs.kept {g : Guard} {c : Clause} {frame : FrameId} {w w' : World}
    {t : List Event} {r : Except Error Value} (h : Performs g c frame w t r w') :
    w.frames.Kept (Exposed (some frame) t) w'.frames := by
  match h with
  | .define h => exact (Enters.kept h).trans (.bind _ _)
  | .defineError h => exact Enters.kept h
  | .bind hb h => exact ((Binds.kept hb).andThen (Evaluates.kept h)).inner
  | .bindError hb => exact (Binds.kept hb).inner
  | .sequence hs h => exact (EvaluatesAll.kept hs).andThen (Evaluates.kept h)
  | .sequenceError hs => exact EvaluatesAll.kept hs
  | .branch hc h => exact (Enters.kept hc).andThen (Evaluates.kept h)
  | .branchError hc => exact Enters.kept hc
  | .lambda => exact .refl
  | .quote => exact .refl
  | .quasiquote h => exact Evaluates.kept h
  | .expand => exact .refl
  | .malformed => exact .refl

theorem Binds.kept {g : Guard} {bindings : List (Value × Value)} {frame : FrameId}
    {w w' : World} {t : List Event} {r : Except Error Unit}
    (h : Binds g bindings frame w t r w') :
    w.frames.Kept (Exposed (some frame) t) w'.frames := by
  match h with
  | .nil => exact .refl
  | .cons h hs =>
    exact ((Enters.kept h).trans (.bind _ _)).andThen (Binds.kept hs)
  | .error h => exact Enters.kept h
  | .notSymbol hn => exact .refl

/-- A call binds nothing in a frame that was there, but for what `eval` is asked to do. -/
theorem Calls.kept {g : Guard} {f : Value} {args : List Value} {w w' : World}
    {t : List Event} {r : Except Error Value} (h : Calls g f args w t r w') :
    w.frames.Kept (Exposed none t) w'.frames := by
  match h with
  | .closure he h =>
    obtain ⟨f, hf⟩ := World.frames_entered he
    have hk := Evaluates.kept h
    rw [hf] at hk
    exact hk.inner
  | .arity he => exact .refl
  | .native h => exact Invokes.kept h
  | .notCallable hf => exact .refl

theorem Applies.kept {g : Guard} {f : Value} {args : List Value} {w w' : World}
    {t : List Event} {r : Except Error Value} (h : Applies g f args w t r w') :
    w.frames.Kept (Exposed none t) w'.frames := by
  match h with
  | .closure he h =>
    obtain ⟨f, hf⟩ := World.frames_entered he
    have hk := Enters.kept h
    rw [hf] at hk
    exact hk.inner
  | .arity he => exact .refl
  | .native h => exact Invokes.kept h
  | .notCallable hf => exact .refl

theorem Invokes.kept {g : Guard} {f : Native} {args : List Value} {w w' : World}
    {t : List Event} {r : Except Error Value} (h : Invokes g f args w t r w') :
    w.frames.Kept (Exposed none t) w'.frames := by
  match h with
  | .alone h =>
    obtain ⟨w₁, hm, hw, -⟩ := Run.Blind.alone f args (h 0 0)
    cases hm
    rw [hw]
    exact .refl
  | .evalIn h => exact (Enters.kept h).asked
  | .swap h =>
    have hk := Applies.kept h
    exact hk
  | .swapError h => exact Applies.kept h
  | .host hh h => exact Plays.kept h

theorem Plays.kept {g : Guard} {reply : Reply} {w w' : World} {t : List Event}
    {r : Except Error Value} (h : Plays g reply w t r w') :
    w.frames.Kept (Exposed none t) w'.frames := by
  match h with
  | .give => exact .refl
  | .fail => exact .refl
  | .call h hr => exact (Applies.kept h).andThen (Plays.kept hr)
  | .callError h => exact Applies.kept h

end

theorem SpecialForm.clause_bind (args : List Value) :
    (∃ bindings body, bind.clause args = .bind bindings body) ∨
      ∃ flaw, bind.clause args = .malformed .bind flaw := by
  rcases args with _ | ⟨a, _ | ⟨b, _ | ⟨c, rest⟩⟩⟩
  · exact .inr ⟨_, rfl⟩
  · exact .inr ⟨_, rfl⟩
  · rw [clause]
    cases a.items? with
    | none => exact .inr ⟨_, rfl⟩
    | some items =>
      cases hp : Form.pairs? items.toList with
      | none => exact .inr ⟨.oddBindings, by simp only [hp]⟩
      | some bindings => exact .inl ⟨bindings, b, by simp only [hp]⟩
  · exact .inr ⟨_, rfl⟩

/-- A special form that binds names for its body binds them in a frame of its own. -/
theorem Performs.kept_of_bind {g : Guard} {args : List Value} {frame : FrameId} {w w' : World}
    {t : List Event} {r : Except Error Value}
    (h : Performs g (SpecialForm.bind.clause args) frame w t r w') :
    w.frames.Kept (Exposed none t) w'.frames := by
  rcases SpecialForm.clause_bind args with ⟨bindings, body, hc⟩ | ⟨flaw, hc⟩
  · rw [hc] at h
    cases h with
    | bind hb h => exact ((Binds.kept hb).andThen h.kept).inner
    | bindError hb => exact (Binds.kept hb).inner
  · rw [hc] at h
    cases h
    exact .refl

end Lisplet

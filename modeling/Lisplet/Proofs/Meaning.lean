import Lisplet.Proofs.FrameEffect
import Lisplet.Proofs.Trampoline

/-! What forms mean, law by law. The events of a derivation are left out here: a law relates the
meaning of a form to the meanings of its parts. A form has one meaning at most, so where the parts
have one it is enough to say what can be derived from them. -/

namespace Lisplet

/-! ## Names seen from a frame -/

namespace Frames

variable {fs : Frames} {i : FrameId} {name : String} {v : Value}

/-- A new frame changes nothing for those that were there. -/
theorem get?_push (f : Frame) (h : i < fs.next) : (fs.push f).get? i name = fs.get? i name := by
  induction i using Nat.strongRecOn with
  | ind i ih =>
    rw [get?_eq, get?_eq fs]
    have hf : (fs.push f).all[i]? = fs.all[i]? := by
      rw [push, Array.getElem?_push]
      exact if_neg (Nat.ne_of_lt h)
    rw [hf]
    congr 1
    funext f'
    congr 1
    funext _
    congr 1
    funext outer
    split
    · next ho => exact ih outer ho (Nat.lt_trans ho h)
    · rfl

/-- A name is seen from a new frame if it is bound there, or seen from the frame around it. -/
theorem get?_push_next {outer : FrameId} (b : Bindings) (h : outer < fs.next) :
    (fs.push ⟨some outer, b⟩).get? fs.next name = (b[name]? <|> fs.get? outer name) := by
  have hf : (fs.push ⟨some outer, b⟩).all[fs.next]? = some ⟨some outer, b⟩ :=
    Array.getElem?_push_size ..
  rw [get?_eq, hf, Option.bind_some, Option.bind_some, if_pos h, get?_push _ h]

theorem lt_next_of_get? (h : fs.get? i name = some v) : i < fs.next := by
  rw [get?_eq] at h
  obtain ⟨f, hf, -⟩ := Option.bind_eq_some_iff.mp h
  exact lt_next hf

end Frames

namespace World

variable {w : World} {i outer : FrameId} {b : Bindings} {name : String} {v : Value}

/-- A new frame changes nothing for what was seen before. -/
theorem lookup_withFrame (f : Frame) (h : w.lookup i name = .ok v) :
    (w.withFrame f).lookup i name = .ok v := by
  rw [lookup_eq_ok_iff] at h ⊢
  change (w.frames.push f).get? i name = _
  rw [Frames.get?_push f (Frames.lt_next_of_get? h), h]

/-- From a new frame its own bindings are seen. -/
theorem lookup_withFrame_own (ho : outer < w.frames.next) (hb : b[name]? = some v) :
    (w.withFrame ⟨some outer, b⟩).lookup w.frames.next name = .ok v := by
  rw [lookup_eq_ok_iff]
  change (w.frames.push _).get? _ _ = _
  rw [Frames.get?_push_next _ ho, hb]
  rfl

/-- From a new frame it is seen what it does not bind and the frame around it sees. -/
theorem lookup_withFrame_outer (hb : b[name]? = none) (h : w.lookup outer name = .ok v) :
    (w.withFrame ⟨some outer, b⟩).lookup w.frames.next name = .ok v := by
  rw [lookup_eq_ok_iff] at h ⊢
  change (w.frames.push _).get? _ _ = _
  rw [Frames.get?_push_next _ (Frames.lt_next_of_get? h), hb, h]
  rfl

end World

/-- What forms mean that are evaluated from the left in one frame, up to the first error. -/
def DerivesAll (forms : List Value) (frame : FrameId) (w : World)
    (rs : Except Error (List Value)) (w' : World) : Prop :=
  ∃ t, EvaluatesAll .free forms frame w t rs w'

section

variable {form f : Value} {forms args vs : List Value} {frame : FrameId} {w w' w₁ w₂ : World}
  {r r' : Except Error Value} {rs rs' : Except Error (List Value)} {e : Error} {name : String}
  {t : List Event} {xs : Rope Value}

theorem derives_iff : Derives form frame w r w' ↔ ∃ t, Evaluates .free form frame w t r w' := by
  constructor
  · rintro ⟨t, h⟩
    cases h with
    | free h => exact ⟨_, h⟩
  · rintro ⟨t, h⟩
    exact ⟨_, .free h⟩

/-! ## Forms in a row -/

namespace DerivesAll

theorem nil : DerivesAll [] frame w (.ok []) w := ⟨_, .nil⟩

theorem error (h : Derives form frame w (.error e) w') :
    DerivesAll (form :: forms) frame w (.error e) w' := by
  obtain ⟨t, h⟩ := h
  exact ⟨_, .error h⟩

theorem cons {v : Value} (h : Derives form frame w (.ok v) w₁)
    (hs : DerivesAll forms frame w₁ rs w') :
    DerivesAll (form :: forms) frame w (rs.map (v :: ·)) w' := by
  obtain ⟨t, h⟩ := h
  obtain ⟨t', hs⟩ := hs
  exact ⟨_, .cons h hs⟩

theorem of_nil (h : DerivesAll [] frame w rs w') : rs = .ok [] ∧ w' = w := by
  obtain ⟨t, h⟩ := h
  cases h
  exact ⟨rfl, rfl⟩

theorem of_cons (h : DerivesAll (form :: forms) frame w rs w') :
    (∃ e, Derives form frame w (.error e) w' ∧ rs = .error e) ∨
    ∃ v w₁ us, Derives form frame w (.ok v) w₁ ∧ DerivesAll forms frame w₁ us w' ∧
      rs = us.map (v :: ·) := by
  obtain ⟨t, h⟩ := h
  cases h with
  | cons h hs => exact .inr ⟨_, _, _, ⟨_, h⟩, ⟨_, hs⟩, rfl⟩
  | error h => exact .inl ⟨_, ⟨_, h⟩, rfl⟩

theorem singleton_iff :
    DerivesAll [form] frame w rs w' ↔ ∃ r, Derives form frame w r w' ∧ rs = r.map ([·]) := by
  constructor
  · intro h
    rcases of_cons h with ⟨e, hf, rfl⟩ | ⟨v, w₁, us, hf, hs, rfl⟩
    · exact ⟨_, hf, rfl⟩
    · obtain ⟨rfl, rfl⟩ := of_nil hs
      exact ⟨_, hf, rfl⟩
  · rintro ⟨r, h, rfl⟩
    cases r with
    | error e => exact error h
    | ok v => exact cons h nil

theorem append_error {forms' : List Value} (h : DerivesAll forms frame w (.error e) w') :
    DerivesAll (forms ++ forms') frame w (.error e) w' := by
  induction forms generalizing w with
  | nil => cases (of_nil h).1
  | cons form forms ih =>
    rcases of_cons h with ⟨e', hf, he⟩ | ⟨v, w₁, us, hf, hs, he⟩
    · cases he
      exact error hf
    · cases us with
      | error e' =>
        cases he
        exact cons hf (ih hs)
      | ok us => cases he

theorem append {forms' : List Value} (h : DerivesAll forms frame w (.ok vs) w₁)
    (hs : DerivesAll forms' frame w₁ rs w') :
    DerivesAll (forms ++ forms') frame w (rs.map (vs ++ ·)) w' := by
  induction forms generalizing w vs with
  | nil =>
    obtain ⟨hvs, rfl⟩ := of_nil h
    cases hvs
    cases rs <;> exact hs
  | cons form forms ih =>
    rcases of_cons h with ⟨e', hf, he⟩ | ⟨v, w₂, us, hf, hrest, he⟩
    · cases he
    · cases us with
      | error e' => cases he
      | ok us =>
        cases he
        have hall := cons hf (ih hrest)
        cases rs <;> exact hall

theorem of_append {forms' : List Value} (h : DerivesAll (forms ++ forms') frame w rs w') :
    (∃ e, DerivesAll forms frame w (.error e) w' ∧ rs = .error e) ∨
    ∃ vs w₁ us, DerivesAll forms frame w (.ok vs) w₁ ∧ DerivesAll forms' frame w₁ us w' ∧
      rs = us.map (vs ++ ·) := by
  induction forms generalizing w rs with
  | nil =>
    refine .inr ⟨[], w, rs, nil, h, ?_⟩
    cases rs <;> rfl
  | cons form forms ih =>
    rcases of_cons h with ⟨e, hf, rfl⟩ | ⟨v, w₁, us, hf, hs, rfl⟩
    · exact .inl ⟨e, error hf, rfl⟩
    · rcases ih hs with ⟨e, hrest, rfl⟩ | ⟨vs, w₂, us', hrest, hs', rfl⟩
      · exact .inl ⟨e, cons hf hrest, rfl⟩
      · refine .inr ⟨v :: vs, w₂, us', cons hf hrest, hs', ?_⟩
        cases us' <;> rfl

theorem unique (h : DerivesAll forms frame w rs w₁) (h' : DerivesAll forms frame w rs' w₂) :
    rs = rs' ∧ w₁ = w₂ := by
  induction forms generalizing w rs rs' with
  | nil =>
    obtain ⟨rfl, rfl⟩ := of_nil h
    obtain ⟨rfl, rfl⟩ := of_nil h'
    exact ⟨rfl, rfl⟩
  | cons form forms ih =>
    rcases of_cons h with ⟨e, hf, rfl⟩ | ⟨v, w₃, us, hf, hs, rfl⟩
    · rcases of_cons h' with ⟨e', hf', rfl⟩ | ⟨v', w₃', us', hf', hs', rfl⟩
      · obtain ⟨he, rfl⟩ := hf.unique hf'
        cases he
        exact ⟨rfl, rfl⟩
      · cases (hf.unique hf').1
    · rcases of_cons h' with ⟨e', hf', rfl⟩ | ⟨v', w₃', us', hf', hs', rfl⟩
      · cases (hf.unique hf').1
      · obtain ⟨hv, rfl⟩ := hf.unique hf'
        cases hv
        obtain ⟨rfl, rfl⟩ := ih hs hs'
        exact ⟨rfl, rfl⟩

theorem length_eq (h : DerivesAll forms frame w (.ok vs) w') : vs.length = forms.length := by
  induction forms generalizing w vs with
  | nil =>
    cases (of_nil h).1
    rfl
  | cons form forms ih =>
    rcases of_cons h with ⟨e, hf, he⟩ | ⟨v, w₁, us, hf, hs, he⟩
    · cases he
    · cases us with
      | error e => cases he
      | ok us =>
        cases he
        exact congrArg Nat.succ (ih hs)

end DerivesAll

/-! ## Names and constants -/

theorem derives_symbol : Derives (.symbol name) frame w (w.lookup frame name) w :=
  derives_iff.mpr ⟨_, .symbol⟩

theorem derives_constant (hc : form.isConstant = true) : Derives form frame w (.ok form) w :=
  derives_iff.mpr ⟨_, .constant hc⟩

/-! ## Calls -/

theorem derives_special {c : Clause} (hc : form.clause? = some c) :
    Derives form frame w r w' ↔ ∃ t, Performs .free c frame w t r w' := by
  rw [derives_iff]
  constructor
  · rintro ⟨t, h⟩
    exact ⟨t, h.performs hc⟩
  · rintro ⟨t, h⟩
    exact ⟨t, .special hc h⟩

/-- The items of a call are evaluated, whatever comes of it. -/
theorem Derives.items (hn : (Value.seq .list xs).clause? = none)
    (h : Derives (.seq .list xs) frame w r w') :
    (∃ e, DerivesAll xs.toList frame w (.error e) w' ∧ r = .error e) ∨
    (xs.toList = [] ∧ r = .ok (.seq .list xs) ∧ w' = w) ∨
    ∃ f args w₁ t, DerivesAll xs.toList frame w (.ok (f :: args)) w₁ ∧
      Calls .free f args w₁ t r w' := by
  obtain ⟨t, h⟩ := derives_iff.mp h
  cases h with
  | constant hc => exact .inr (.inl ⟨List.isEmpty_iff.mp hc, rfl, rfl⟩)
  | special hc hp => cases hn.symm.trans hc
  | call hn' hs hf => exact .inr (.inr ⟨_, _, _, _, ⟨_, hs⟩, hf⟩)
  | callError hn' hs => exact .inl ⟨_, ⟨_, hs⟩, rfl⟩

theorem derives_call (hn : (Value.seq .list xs).clause? = none)
    (hs : DerivesAll xs.toList frame w (.ok (f :: args)) w₁) (hf : Calls .free f args w₁ t r w') :
    Derives (.seq .list xs) frame w r w' := by
  obtain ⟨t', hs⟩ := hs
  exact derives_iff.mpr ⟨_, .call hn hs hf⟩

theorem derives_call_error (hn : (Value.seq .list xs).clause? = none)
    (hs : DerivesAll xs.toList frame w (.error e) w') :
    Derives (.seq .list xs) frame w (.error e) w' := by
  obtain ⟨t', hs⟩ := hs
  exact derives_iff.mpr ⟨_, .callError hn hs⟩

theorem clause?_of_toList {sf : SpecialForm} (hx : xs.toList = .symbol sf.name :: args) :
    (Value.seq .list xs).clause? = some (sf.clause args) := by
  rw [Value.clause?, hx]
  cases sf <;> rfl

end

/-! ## Calls of a function by its name -/

namespace Template

variable {name : String} {args vs : List Value} {frame : FrameId} {w w' w₁ w₂ : World} {f : Value}
  {r r' : Except Error Value} {e : Error} {t : List Event}

theorem clause?_call (hn : SpecialForm.ofName? name = none) : (call name args).clause? = none := by
  rw [call, Value.list, Value.clause?, Rope.toList_ofList]
  change (SpecialForm.ofName? name).map _ = none
  rw [hn]
  rfl

theorem clause?_special (sf : SpecialForm) (args : List Value) :
    (call sf.name args).clause? = some (sf.clause args) :=
  clause?_of_toList (Rope.toList_ofList _)

/-- What a call by name means, where the name is bound to `f`. -/
theorem derives_call_iff (hn : SpecialForm.ofName? name = none)
    (hf : w.lookup frame name = .ok f) :
    Derives (call name args) frame w r w' ↔
      (∃ e, DerivesAll args frame w (.error e) w' ∧ r = .error e) ∨
      ∃ vs w₁ t, DerivesAll args frame w (.ok vs) w₁ ∧ Calls .free f vs w₁ t r w' := by
  have hsymbol : Derives (.symbol name) frame w (.ok f) w := hf ▸ derives_symbol
  have hitems (rs : Except Error (List Value)) (w' : World) :
      DerivesAll (Rope.ofList (.symbol name :: args)).toList frame w rs w' ↔
        ∃ us, DerivesAll args frame w us w' ∧ rs = us.map (f :: ·) := by
    rw [Rope.toList_ofList]
    constructor
    · intro h
      rcases h.of_cons with ⟨e, hs, -⟩ | ⟨g, w₁, us, hs, hargs, rfl⟩
      · cases (hsymbol.unique hs).1
      · obtain ⟨hg, rfl⟩ := hsymbol.unique hs
        cases hg
        exact ⟨us, hargs, rfl⟩
    · rintro ⟨us, h, rfl⟩
      exact .cons hsymbol h
  constructor
  · intro h
    rcases h.items (clause?_call hn) with ⟨e, hs, rfl⟩ | ⟨hs, -⟩ | ⟨g, vs, w₁, t, hs, hc⟩
    · obtain ⟨us, hargs, hus⟩ := (hitems _ _).mp hs
      cases us with
      | error e' =>
        cases hus
        exact .inl ⟨e, hargs, rfl⟩
      | ok us => cases hus
    · rw [Rope.toList_ofList] at hs
      contradiction
    · obtain ⟨us, hargs, hus⟩ := (hitems _ _).mp hs
      cases us with
      | error e' => cases hus
      | ok us =>
        cases hus
        exact .inr ⟨_, w₁, t, hargs, hc⟩
  · rintro (⟨e, hs, rfl⟩ | ⟨vs, w₁, t, hs, hc⟩)
    · exact derives_call_error (clause?_call hn) ((hitems _ _).mpr ⟨_, hs, rfl⟩)
    · exact derives_call (clause?_call hn) ((hitems _ _).mpr ⟨_, hs, rfl⟩) hc

/-- What a call by name means, where the arguments have values. -/
theorem derives_call_iff_calls (hn : SpecialForm.ofName? name = none)
    (hf : w.lookup frame name = .ok f) (hs : DerivesAll args frame w (.ok vs) w₁) :
    Derives (call name args) frame w r w' ↔ ∃ t, Calls .free f vs w₁ t r w' := by
  rw [derives_call_iff hn hf]
  constructor
  · rintro (⟨e, he, -⟩ | ⟨us, w₂, t, hus, hc⟩)
    · cases (hs.unique he).1
    · obtain ⟨hvs, rfl⟩ := hs.unique hus
      cases hvs
      exact ⟨t, hc⟩
  · rintro ⟨t, hc⟩
    exact .inr ⟨vs, w₁, t, hs, hc⟩

theorem derives_closure_iff {id : ClosureId} {p : Params} {body : Value} {outer : FrameId}
    (hn : SpecialForm.ofName? name = none)
    (hf : w.lookup frame name = .ok (.closure id p body outer))
    (hs : DerivesAll args frame w (.ok vs) w₁) (he : w₁.entered p vs outer = .ok w₂) :
    Derives (call name args) frame w r w' ↔ Derives body w₁.frames.next w₂ r w' := by
  rw [derives_call_iff_calls hn hf hs, derives_iff]
  constructor
  · rintro ⟨t, hc⟩
    cases hc with
    | closure he' h =>
      cases he.symm.trans he'
      exact ⟨t, h⟩
    | arity he' => cases he.symm.trans he'
    | notCallable h => cases h
  · rintro ⟨t, h⟩
    exact ⟨t, .closure he h⟩

/-- The function `eval` of a root evaluates what its argument has as value. -/
theorem derives_eval_iff {root : FrameId} {x v : Value}
    (hf : w.lookup frame (Native.evalIn root).name = .ok (.native (.evalIn root)))
    (hx : Derives x frame w (.ok v) w₁) :
    Derives (call (Native.evalIn root).name [x]) frame w r w' ↔ Derives v root w₁ r w' := by
  rw [derives_call_iff_calls rfl hf (.cons hx .nil)]
  constructor
  · rintro ⟨t, hc⟩
    cases hc with
    | notCallable h => cases h
    | native hi =>
      cases hi with
      | alone h =>
        have hhalt := h 0 0
        cases r <;> cases hhalt
      | evalIn h => exact ⟨_, h⟩
  · rintro ⟨t, h⟩
    exact ⟨_, .native (.evalIn h)⟩

/-- A function of the language that evaluates and applies nothing does what it does alone. -/
theorem calls_alone_iff {b : Builtin}
    (h : ∀ depth limit, (Native.builtin b).alone vs ⟨w, depth, limit⟩ =
      .of r' ⟨w₂, depth, limit⟩) :
    (∃ t, Calls .free (.native (.builtin b)) vs w t r w') ↔ r = r' ∧ w' = w₂ := by
  constructor
  · rintro ⟨t, hc⟩
    cases hc with
    | notCallable hf => contradiction
    | native hi =>
      cases hi with
      | alone h' =>
        obtain ⟨hr, hm⟩ := Outcome.of_inj ((h' 0 0).symm.trans (h 0 0))
        exact ⟨hr, congrArg Machine.world hm⟩
      | swap | swapError =>
        have hswap := h 0 0
        cases r' <;> cases hswap
  · rintro ⟨rfl, rfl⟩
    exact ⟨_, .native (.alone h)⟩

theorem ofName?_builtin (b : Builtin) : SpecialForm.ofName? b.name = none := by
  cases b with
  | arithmetic op | relation op | sequence op | kind op | text op | atom op => cases op <;> rfl
  | equal => rfl

theorem derives_builtin {b : Builtin} (hf : w.lookup frame b.name = .ok (.native (.builtin b)))
    (hs : DerivesAll args frame w (.ok vs) w₁)
    (h : ∀ depth limit, (Native.builtin b).alone vs ⟨w₁, depth, limit⟩ =
      .of r ⟨w', depth, limit⟩) :
    Derives (call b.name args) frame w r w' :=
  (derives_call_iff_calls (ofName?_builtin b) hf hs).mpr ((calls_alone_iff h).mpr ⟨rfl, rfl⟩)

/-- What a call of a sequence function means, where its name is not bound to anything else. -/
theorem derives_sequenceOp_iff {op : SequenceOp}
    (hf : w.lookup frame op.name = .ok (.native (.builtin (.sequence op)))) :
    Derives (call op.name args) frame w r w' ↔
      ∃ rs, DerivesAll args frame w rs w' ∧ r = rs.bind op.run := by
  have hn : SpecialForm.ofName? op.name = none := ofName?_builtin (.sequence op)
  have hc {vs : List Value} {w₁ : World} :
      (∃ t, Calls .free (.native (.builtin (.sequence op))) vs w₁ t r w') ↔
        r = op.run vs ∧ w' = w₁ :=
    calls_alone_iff fun depth limit => by
      change Run.ofExcept (op.run vs) _ = _
      cases op.run vs <;> rfl
  rw [derives_call_iff hn hf]
  constructor
  · rintro (⟨e, hs, rfl⟩ | ⟨vs, w₁, t, hs, hcall⟩)
    · exact ⟨_, hs, rfl⟩
    · obtain ⟨rfl, rfl⟩ := hc.mp ⟨t, hcall⟩
      exact ⟨_, hs, rfl⟩
  · rintro ⟨rs, hs, hr⟩
    cases rs with
    | error e => exact .inl ⟨e, hs, hr⟩
    | ok vs =>
      obtain ⟨t, hcall⟩ := hc.mpr ⟨hr, rfl⟩
      exact .inr ⟨vs, w', t, hs, hcall⟩

theorem derives_sequence_iff (hne : args ≠ []) :
    Derives (call SpecialForm.sequence.name args) frame w r w' ↔
      ∃ rs, DerivesAll args frame w rs w' ∧ r = rs.map (·.getLastD .nil) := by
  obtain ⟨effects, last, rfl⟩ : ∃ effects last, args = effects ++ [last] :=
    ⟨_, _, (List.dropLast_concat_getLast hne).symm⟩
  have hc : (call SpecialForm.sequence.name (effects ++ [last])).clause? =
      some (.sequence effects last) := by
    rw [call, Value.list, Value.clause?, Rope.toList_ofList]
    change some (SpecialForm.clause .sequence (effects ++ [last])) = _
    simp [SpecialForm.clause]
  rw [derives_special hc]
  constructor
  · rintro ⟨t, h⟩
    cases h with
    | sequence hs h =>
      have hlast : Derives last frame _ r w' := derives_iff.mpr ⟨_, h⟩
      refine ⟨_, DerivesAll.append ⟨_, hs⟩ (DerivesAll.singleton_iff.mpr ⟨r, hlast, rfl⟩), ?_⟩
      cases r <;> simp [Except.map]
    | sequenceError hs => exact ⟨_, DerivesAll.append_error ⟨_, hs⟩, rfl⟩
  · rintro ⟨rs, hs, rfl⟩
    rcases hs.of_append with ⟨e, ⟨t, heffects⟩, rfl⟩ | ⟨vs, w₁, us, ⟨t, heffects⟩, hus, rfl⟩
    · exact ⟨t, .sequenceError heffects⟩
    · obtain ⟨r, hlast, rfl⟩ := DerivesAll.singleton_iff.mp hus
      obtain ⟨t', hlast⟩ := derives_iff.mp hlast
      refine ⟨t ++ t', ?_⟩
      cases r <;> simpa [Except.map] using Performs.sequence heffects hlast

theorem derives_define {name : String} (h : Derives x frame w (.ok v) w') :
    Derives (call SpecialForm.define.name [.symbol name, x]) frame w (.ok v)
      (w'.bindName frame name v) := by
  obtain ⟨t, ht⟩ := h
  exact (derives_special (clause?_special .define [.symbol name, x])).mpr ⟨t, .define ht⟩

theorem clause?_quote (x : Value) :
    (call SpecialForm.quote.name [x]).clause? = some (.quote x) := clause?_special .quote [x]

theorem derives_quote_iff {x : Value} :
    Derives (call SpecialForm.quote.name [x]) frame w r w' ↔ r = .ok x ∧ w' = w := by
  rw [derives_special (clause?_quote x)]
  constructor
  · rintro ⟨t, h⟩
    cases h
    exact ⟨rfl, rfl⟩
  · rintro ⟨rfl, rfl⟩
    exact ⟨_, .quote⟩

end Template

end Lisplet

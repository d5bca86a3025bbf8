import Lisplet.Proofs.BigStep.Agreement
import Lisplet.Proofs.Meaning

/-! Two ways to apply a function. A form can call it, and then the body of a closure is one more
turn of the evaluation of the call; or another function applies it and waits for the value, and
then the body is an evaluation of its own, one level further down. The call of a closure begins
one level down itself, so both come to the body at the same depth. A function that has no body is
called where the evaluation of the call is, which is one level below the call. -/

namespace Lisplet

/-- The application ends in the result, and leaves the machine as it was but for the world. -/
def Yields (f : Value) (args : List Value) (m : Machine) (r : Except Error Value)
    (w' : World) : Prop :=
  ∃ fuel, apply fuel f args m = .of r { m with world := w' }

/-- A form that stands for a value as it is. -/
def quoted (v : Value) : Value := Template.call SpecialForm.quote.name [v]

/-- The call of a value with other values, none of which is evaluated once more. -/
def quotedCall (f : Value) (args : List Value) : Value := .list ((f :: args).map quoted)

section

variable {f : Value} {args vs : List Value} {frame : FrameId} {w w' : World} {m : Machine}
  {r : Except Error Value} {rs : Except Error (List Value)} {form : Value} {g : Guard}
  {d L : Nat}

/-! ## Runs and derivations -/

theorem settles_iff_enters :
    Settles form frame ⟨w, d, L⟩ r w' ↔ ∃ t, Enters (.at d L) form frame w t r w' := by
  constructor
  · intro h
    exact h.derivation
  · intro h
    obtain ⟨t, h⟩ := h
    exact h.settled

theorem yields_iff_applies :
    Yields f args ⟨w, d, L⟩ r w' ↔ ∃ t, Applies (.at d L) f args w t r w' := by
  constructor
  · intro h
    obtain ⟨fuel, h⟩ := h
    obtain ⟨t, w₁, hm, h⟩ := follows_apply fuel d L f args h
    cases hm
    exact ⟨t, h⟩
  · intro h
    obtain ⟨t, h⟩ := h
    obtain ⟨k, hk⟩ := h.settles rfl
    exact ⟨k, hk k k k (Nat.le_refl k) (Nat.le_refl k) (Nat.le_refl k)⟩

/-- Where there is room for a level, an evaluation begins one level further down. -/
theorem enters_iff_evaluates (h : d < L) :
    (∃ t, Enters (.at d L) form frame w t r w') ↔
      ∃ t, Evaluates (.at (d + 1) L) form frame w t r w' := by
  have hroom : L - d = L - (d + 1) + 1 := by omega
  rw [Guard.at, hroom]
  constructor
  · intro h
    obtain ⟨t, h⟩ := h
    cases h with
    | admitted h => exact ⟨_, h⟩
  · intro h
    obtain ⟨t, h⟩ := h
    exact ⟨_, .admitted h⟩

/-! ## Quoted values -/

theorem enters_quoted_iff (h : d < L) {v : Value} :
    (∃ t, Enters (.at d L) (quoted v) frame w t r w') ↔ r = .ok v ∧ w' = w := by
  rw [enters_iff_evaluates h]
  constructor
  · intro h
    obtain ⟨t, h⟩ := h
    cases h.performs (Template.clause?_quote v)
    exact ⟨rfl, rfl⟩
  · intro h
    obtain ⟨rfl, rfl⟩ := h
    exact ⟨_, .special (Template.clause?_quote v) .quote⟩

/-- Forms that stand for values as they are have those values together. -/
theorem evaluatesAll_iff_of_still {stand : Value → Value}
    (h : ∀ v w r w', (∃ t, Enters g (stand v) frame w t r w') ↔ r = .ok v ∧ w' = w) :
    (∃ t, EvaluatesAll g (vs.map stand) frame w t rs w') ↔ rs = .ok vs ∧ w' = w := by
  induction vs generalizing rs with
  | nil =>
    constructor
    · intro hs
      obtain ⟨t, hs⟩ := hs
      cases hs
      exact ⟨rfl, rfl⟩
    · intro hr
      obtain ⟨rfl, rfl⟩ := hr
      exact ⟨_, .nil⟩
  | cons v vs ih =>
    rw [List.map_cons]
    constructor
    · intro hs
      obtain ⟨t, hs⟩ := hs
      cases hs with
      | cons hv hs =>
        obtain ⟨he, rfl⟩ := (h v _ _ _).mp ⟨_, hv⟩
        obtain ⟨rfl, rfl⟩ := ih.mp ⟨_, hs⟩
        cases he
        exact ⟨rfl, rfl⟩
      | error hv =>
        obtain ⟨he, -⟩ := (h v _ _ _).mp ⟨_, hv⟩
        cases he
    · intro hr
      obtain ⟨rfl, rfl⟩ := hr
      obtain ⟨t₁, hv⟩ := (h v w' _ _).mpr ⟨rfl, rfl⟩
      obtain ⟨t₂, hs⟩ := ih.mpr ⟨rfl, rfl⟩
      exact ⟨t₁ ++ t₂, .cons hv hs⟩

/-- The head of the call is a list, so the call is no special form. -/
theorem clause?_quotedCall (f : Value) (args : List Value) :
    (quotedCall f args).clause? = none := by
  rw [quotedCall, Value.list, Value.clause?, Rope.toList_ofList]
  rfl

/-- With room for the call and for its parts, the function is called one level down. -/
theorem settles_quotedCall_iff_calls (h : d + 2 ≤ L) :
    Settles (quotedCall f args) frame ⟨w, d, L⟩ r w' ↔
      ∃ t, Calls (.at (d + 1) L) f args w t r w' := by
  have hitems (rs : Except Error (List Value)) (w' : World) :
      (∃ t, EvaluatesAll (.at (d + 1) L) (Rope.ofList ((f :: args).map quoted)).toList frame w t
        rs w') ↔ rs = .ok (f :: args) ∧ w' = w := by
    rw [Rope.toList_ofList]
    exact evaluatesAll_iff_of_still fun v w r w' => enters_quoted_iff h
  rw [settles_iff_enters, enters_iff_evaluates (Nat.lt_of_succ_lt h)]
  constructor
  · intro h
    obtain ⟨t, h⟩ := h
    cases h with
    | constant hc =>
      rw [quotedCall, Value.list, Value.isConstant, Rope.toList_ofList] at hc
      contradiction
    | special hc hp => cases (clause?_quotedCall f args).symm.trans hc
    | call hn hs hf =>
      obtain ⟨hfs, rfl⟩ := (hitems _ _).mp ⟨_, hs⟩
      cases hfs
      exact ⟨_, hf⟩
    | callError hn hs =>
      obtain ⟨he, -⟩ := (hitems _ _).mp ⟨_, hs⟩
      cases he
  · intro h
    obtain ⟨t₂, hf⟩ := h
    obtain ⟨t₁, hs⟩ := (hitems _ _).mpr ⟨rfl, rfl⟩
    exact ⟨_, .call (clause?_quotedCall f args) hs hf⟩

/-! ## The two ways compared -/

/-- The body of a closure that is called one level down begins where it begins if the closure is
applied here. -/
theorem calls_closure_iff_applies {i : ClosureId} {params : Params} {body : Value}
    {env : FrameId} (h : d < L) :
    (∃ t, Calls (.at (d + 1) L) (.closure i params body env) args w t r w') ↔
      ∃ t, Applies (.at d L) (.closure i params body env) args w t r w' := by
  constructor
  · intro hc
    obtain ⟨t, hc⟩ := hc
    cases hc with
    | closure he hb =>
      obtain ⟨u, hb⟩ := (enters_iff_evaluates h).mpr ⟨_, hb⟩
      exact ⟨u, .closure he hb⟩
    | arity he => exact ⟨_, .arity he⟩
    | notCallable hf => contradiction
  · intro ha
    obtain ⟨t, ha⟩ := ha
    cases ha with
    | closure he hb =>
      obtain ⟨u, hb⟩ := (enters_iff_evaluates h).mp ⟨_, hb⟩
      exact ⟨u, .closure he hb⟩
    | arity he => exact ⟨_, .arity he⟩
    | notCallable hf => contradiction

theorem calls_native_iff_applies {f : Native} :
    (∃ t, Calls g (.native f) args w t r w') ↔ ∃ t, Applies g (.native f) args w t r w' := by
  constructor
  · intro hc
    obtain ⟨t, hc⟩ := hc
    cases hc with
    | native hf => exact ⟨t, .native hf⟩
    | notCallable hf => contradiction
  · intro ha
    obtain ⟨t, ha⟩ := ha
    cases ha with
    | native hf => exact ⟨t, .native hf⟩
    | notCallable hf => contradiction

theorem calls_iff_of_not_isFunction (hf : f.isFunction = false) :
    (∃ t, Calls g f args w t r w') ↔ r = .error (.notCallable f) ∧ w' = w := by
  constructor
  · intro hc
    obtain ⟨t, hc⟩ := hc
    cases hc with
    | notCallable => exact ⟨rfl, rfl⟩
    | closure | arity | native => contradiction
  · intro hr
    obtain ⟨rfl, rfl⟩ := hr
    exact ⟨_, .notCallable hf⟩

theorem applies_iff_of_not_isFunction (hf : f.isFunction = false) :
    (∃ t, Applies g f args w t r w') ↔ r = .error (.notCallable f) ∧ w' = w := by
  constructor
  · intro ha
    obtain ⟨t, ha⟩ := ha
    cases ha with
    | notCallable => exact ⟨rfl, rfl⟩
    | closure | arity | native => contradiction
  · intro hr
    obtain ⟨rfl, rfl⟩ := hr
    exact ⟨_, .notCallable hf⟩

end

/-- **Calling a function and applying it come to the same.** Where there is room for two levels,
the call of a closure with quoted arguments ends as its application does at the same depth: with
the same result, which may be an error of arity, of depth or of the body, and in the same world,
or neither ends. The call of a function without a body ends as its application one level further
down. What is no function cannot be called or applied, and the world stays as it is. -/
theorem quotedCall_agrees (f : Value) (args : List Value) (frame : FrameId) (m : Machine)
    (hm : m.depth + 2 ≤ m.limit) :
    match f with
    | .closure .. => ∀ r w',
      Settles (quotedCall f args) frame m r w' ↔ Yields f args m r w'
    | .native _ => ∀ r w',
      Settles (quotedCall f args) frame m r w' ↔
        Yields f args { m with depth := m.depth + 1 } r w'
    | _ => ∀ r w',
      (Settles (quotedCall f args) frame m r w' ↔
        r = .error (.notCallable f) ∧ w' = m.world) ∧
      (Yields f args m r w' ↔ r = .error (.notCallable f) ∧ w' = m.world) := by
  obtain ⟨w, d, L⟩ := m
  cases f with
  | closure i params body env =>
    intro r w'
    rw [settles_quotedCall_iff_calls hm, yields_iff_applies]
    exact calls_closure_iff_applies (Nat.lt_of_succ_lt hm)
  | native f =>
    intro r w'
    rw [settles_quotedCall_iff_calls hm, yields_iff_applies]
    exact calls_native_iff_applies
  | nil | bool | int | str | symbol | keyword | seq | map | atom =>
    intro r w'
    rw [settles_quotedCall_iff_calls hm, yields_iff_applies]
    exact ⟨calls_iff_of_not_isFunction rfl, applies_iff_of_not_isFunction rfl⟩

/-- Under a limit of 5, at depth 3, the body `[[x]]` is one level too deep for its name, whether
the closure is called or applied. -/
theorem quotedCall_agrees_at_limit :
    let inner := Value.seq .vector (.node .nil (.symbol "x") .nil)
    let body := Value.seq .vector (.node .nil inner .nil)
    let f := Value.closure 0 ⟨["x"], none⟩ body 0
    let w := (World.empty default).withFrame ⟨none, ∅⟩
    ∃ w', Yields f [.int 7] ⟨w, 3, 5⟩ (.error (.tooDeep 5)) w' ∧
      Settles (quotedCall f [.int 7]) 0 ⟨w, 3, 5⟩ (.error (.tooDeep 5)) w' := by
  intro inner body f w
  have hy : Yields f [.int 7] ⟨w, 3, 5⟩ (.error (.tooDeep 5))
      (w.withFrame ⟨some 0, Bindings.insertAll [("x", .int 7)] ∅⟩) := ⟨5, rfl⟩
  exact ⟨_, hy, (quotedCall_agrees f [.int 7] 0 ⟨w, 3, 5⟩ (by decide) _ _).mpr hy⟩

end Lisplet

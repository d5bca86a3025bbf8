import Lisplet.Proofs.DepthLimit
import Lisplet.Proofs.Meaning

/-! The levels that a form takes, counted from its parts. A form takes a level of its own. Its parts
begin one level further down, but a part in tail position has the level that the form has. By the
count of its levels a form is evaluated under all limits that are not lower, and under all lower
ones it is too deep. -/

namespace Lisplet

/-- With nothing to bound the nesting, the form has the result and takes `n` levels, its own one
included. -/
def Descends (n : Nat) (form : Value) (frame : FrameId) (w : World) (r : Except Error Value)
    (w' : World) : Prop :=
  ∃ t, Evaluates .free form frame w t r w' ∧ nesting t + 1 = n

/-- The forms in turn have the results, and none of them takes more than `n` levels, but one takes
as many. -/
def AllDescend (n : Nat) (forms : List Value) (frame : FrameId) (w : World)
    (rs : Except Error (List Value)) (w' : World) : Prop :=
  ∃ t, EvaluatesAll .free forms frame w t rs w' ∧ nesting t = n

section

variable {n k : Nat} {form v : Value} {forms args vs : List Value} {frame : FrameId}
  {w w' w₁ w₂ : World} {r : Except Error Value} {rs : Except Error (List Value)} {L : Nat}
  {name : String}

/-! ## Parts -/

namespace AllDescend

theorem nil : AllDescend 0 [] frame w (.ok []) w := ⟨_, .nil, rfl⟩

theorem cons (h : Descends n form frame w (.ok v) w₁) (hs : AllDescend k forms frame w₁ rs w') :
    AllDescend (max n k) (form :: forms) frame w (rs.map (v :: ·)) w' := by
  obtain ⟨t, h, rfl⟩ := h
  obtain ⟨s, hs, rfl⟩ := hs
  exact ⟨_, .cons (.free h) hs, by rw [nesting_append, nesting_deeper]⟩

theorem pair {a b u : Value} (ha : Descends n a frame w (.ok v) w₁)
    (hb : Descends k b frame w₁ (.ok u) w') :
    AllDescend (max n k) [a, b] frame w (.ok [v, u]) w' := by
  have h := cons ha (cons hb nil)
  rwa [Nat.max_zero] at h

end AllDescend

/-! ## Forms -/

namespace Descends

theorem of_eq (h : Descends n form frame w r w') (hn : n = k) : Descends k form frame w r w' :=
  hn ▸ h

theorem symbol (hv : w.lookup frame name = .ok v) :
    Descends 1 (.symbol name) frame w (.ok v) w := by
  rw [← hv]
  exact ⟨_, .symbol, rfl⟩

theorem constant (form : Value) (hc : form.isConstant = true) :
    Descends 1 form frame w (.ok form) w :=
  ⟨_, .constant hc, rfl⟩

theorem quoted (v : Value) :
    Descends 1 (Template.call SpecialForm.quote.name [v]) frame w (.ok v) w :=
  ⟨_, .special (Template.clause?_quote v) .quote, rfl⟩

theorem quasiquoted {t : Value} (hc : form.clause? = some (.quasiquote t))
    (h : Descends n (Template.expand t) frame w r w') : Descends n form frame w r w' := by
  obtain ⟨s, h, rfl⟩ := h
  exact ⟨s, .special hc (.quasiquote h), rfl⟩

theorem branch {condition consequent : Value} {alternative : Option Value}
    (hc : form.clause? = some (.branch condition consequent alternative))
    (h : Descends n condition frame w (.ok v) w₁)
    (hb : Descends k (if v.isTruthy then consequent else alternative.getD .nil) frame w₁ r w') :
    Descends (max (n + 1) k) form frame w r w' := by
  obtain ⟨t, h, rfl⟩ := h
  obtain ⟨s, hb, rfl⟩ := hb
  refine ⟨_, .special hc (.branch (.free h) hb), ?_⟩
  rw [nesting_append, nesting_deeper, Nat.add_max_add_right]

/-- The head of a call is one of its parts. -/
theorem items {f : Value} (hf : w.lookup frame name = .ok f)
    (hs : AllDescend n args frame w (.ok vs) w₁) :
    AllDescend (max 1 n) (Rope.ofList (.symbol name :: args)).toList frame w (.ok (f :: vs))
      w₁ := by
  rw [Rope.toList_ofList]
  exact AllDescend.cons (symbol hf) hs

theorem closure {i : ClosureId} {p : Params} {body : Value} {outer : FrameId}
    (hn : SpecialForm.ofName? name = none)
    (hf : w.lookup frame name = .ok (.closure i p body outer))
    (hs : AllDescend n args frame w (.ok vs) w₁) (he : w₁.entered p vs outer = .ok w₂)
    (h : Descends k body w₁.frames.next w₂ r w') :
    Descends (max (max 1 n + 1) k) (Template.call name args) frame w r w' := by
  obtain ⟨t, hs, hn'⟩ := items hf hs
  obtain ⟨s, h, rfl⟩ := h
  refine ⟨_, .call (Template.clause?_call hn) hs (.closure he h), ?_⟩
  rw [nesting_append, hn', Nat.add_max_add_right]

theorem builtin {b : Builtin} (hf : w.lookup frame b.name = .ok (.native (.builtin b)))
    (hs : AllDescend n args frame w (.ok vs) w₁)
    (h : ∀ depth limit, (Native.builtin b).alone vs ⟨w₁, depth, limit⟩ =
      .of r ⟨w', depth, limit⟩) :
    Descends (max 1 n + 1) (Template.call b.name args) frame w r w' := by
  obtain ⟨t, hs, ht⟩ := items hf hs
  refine ⟨_, .call (Template.clause?_call (Template.ofName?_builtin b)) hs (.native (.alone h)), ?_⟩
  rw [List.append_nil, ht]

/-! ## Limits -/

theorem settles (h : Descends n form frame w r w') (hL : n ≤ L) :
    Settles form frame ⟨w, 0, L⟩ r w' := by
  obtain ⟨t, h, rfl⟩ := h
  refine (Enters.free h).settled_of_nesting ?_
  rwa [nesting_deeper, Nat.zero_add]

theorem tooDeep (h : Descends n form frame w r w') (hL : L < n) :
    ∃ w₁, Settles form frame ⟨w, 0, L⟩ (.error (.tooDeep L)) w₁ := by
  obtain ⟨t, h, rfl⟩ := h
  have ht : L < 0 + nesting (.attempt 1 w :: t.map .deeper) := by
    rwa [nesting_deeper, Nat.zero_add]
  obtain ⟨b, w₁, u, -, -, hs⟩ := (Enters.free h).cut_of_nesting (Nat.zero_le L) ht
  exact ⟨w₁, hs⟩

end Descends

end

end Lisplet

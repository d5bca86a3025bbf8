import Lisplet.Proofs.BigStep.Agreement

/-! Evaluation by turns and evaluation by rules agree. An evaluation that the limit does not
stop ends in a result, with a world, if and only if the rules derive that result and that
world, whatever number of turns it takes. Where several parts of a form could fail the
first error from the left counts, and what stands after it is not evaluated. -/

namespace Lisplet

/-- The limit does not matter to the evaluation: under a higher one it would not end in
anything else, and would not end if it does not end now. -/
def LimitUnhit (form : Value) (frame : FrameId) (m : Machine) : Prop :=
  ∀ L, m.limit ≤ L → ∀ r w',
    Settles form frame { m with limit := L } r w' ↔ Settles form frame m r w'

/-- The forms that a special form evaluates in its own frame before it goes on. -/
def Clause.operands : Clause → List Value
  | define _ form => [form]
  | sequence effects _ => effects
  | branch condition _ _ => [condition]
  | _ => []

/-- The forms that a form evaluates in its own frame before it goes on. -/
def Value.operands (form : Value) : List Value :=
  match form.clause? with
  | some c => c.operands
  | none =>
    match form with
    | .seq _ xs => xs.toList
    | .map es => es.toList.map Prod.snd
    | _ => []

/-- While a form is evaluated, the turn comes to one of its parts, in some frame and some
world: whatever stands to the left of that part has given a value. -/
inductive Reaches (form : Value) (frame : FrameId) (w : World) (x : Value) :
    FrameId → World → Prop where
  | operand (ho : form.operands = before ++ x :: after)
    (hs : EvaluatesAll .free before frame w t (.ok vs) w₁) : Reaches form frame w x frame w₁
  | binding (hc : form.clause? = some (.bind (before ++ (.symbol name, x) :: after) body))
    (hb : Binds .free before w.frames.next (w.withChild frame) t (.ok ()) w₁) :
    Reaches form frame w x w.frames.next w₁

section

variable {form x : Value} {forms after : List Value} {frame frame' : FrameId}
  {w w' w₁ w₂ : World} {m : Machine} {s t : List Event} {r : Except Error Value} {d L : Nat}
  {e : Error}

/-! ## Limits that are not hit -/

theorem Settles.limitUnhit (h : Settles form frame m r w') (hr : r ≠ .error (.tooDeep m.limit)) :
    LimitUnhit form frame m := fun _ hL _ _ => h.raise_iff hr hL

theorem Derives.eventually_limitUnhit (h : Derives form frame w r w') (d : Nat) :
    ∃ L₀, ∀ L, L₀ ≤ L → LimitUnhit form frame ⟨w, d, L⟩ := by
  obtain ⟨L₀, hL₀⟩ := h.eventually_settled d
  refine ⟨L₀, fun L hL L' hL' r' w'' => ?_⟩
  have hlow : Settles form frame ⟨w, d, L⟩ r w' := hL₀ L hL
  have hhigh : Settles form frame ⟨w, d, L'⟩ r w' := hL₀ L' (Nat.le_trans hL hL')
  constructor
  · intro hs
    obtain ⟨rfl, rfl⟩ := hhigh.unique hs
    exact hlow
  · intro hs
    obtain ⟨rfl, rfl⟩ := hlow.unique hs
    exact hhigh

theorem LimitUnhit.derives (hl : LimitUnhit form frame m) (h : Settles form frame m r w') :
    Derives form frame m.world r w' := by
  have hmore : Settles form frame { m with limit := m.limit + 1 } r w' :=
    (hl (m.limit + 1) (Nat.le_succ _) r w').mpr h
  exact h.derives_of_both (Nat.ne_of_lt (Nat.lt_succ_self _)) hmore

theorem LimitUnhit.settles (hl : LimitUnhit form frame m)
    (h : Derives form frame m.world r w') : Settles form frame m r w' := by
  obtain ⟨L₀, hL₀⟩ := h.eventually_settled m.depth
  have hlarge : m.limit ≤ max L₀ m.limit := Nat.le_max_right ..
  exact (hl _ hlarge r w').mp (hL₀ _ (Nat.le_max_left ..))

theorem Derives.unique {r₁ r₂ : Except Error Value} (h₁ : Derives form frame w r₁ w₁)
    (h₂ : Derives form frame w r₂ w₂) : r₁ = r₂ ∧ w₁ = w₂ := by
  obtain ⟨k₁, hk₁⟩ := h₁.eventually_settled 0
  obtain ⟨k₂, hk₂⟩ := h₂.eventually_settled 0
  exact (hk₁ _ (Nat.le_max_left k₁ k₂)).unique (hk₂ _ (Nat.le_max_right k₁ k₂))

/-! ## The first error -/

theorem EvaluatesAll.first_error {before : List Value} {vs : List Value}
    (hs : EvaluatesAll .free before frame w s (.ok vs) w₁)
    (hx : Enters .free x frame w₁ t (.error e) w₂) :
    ∃ t, EvaluatesAll .free (before ++ x :: after) frame w t (.error e) w₂ := by
  induction before generalizing w s vs with
  | nil =>
    cases hs
    exact ⟨t, .error hx⟩
  | cons form before ih =>
    generalize hr : Except.ok vs = rs at hs
    cases hs with
    | error h => contradiction
    | @cons _ _ _ _ _ _ _ _ _ rs _ h hs =>
      cases rs with
      | error e => contradiction
      | ok vs =>
        obtain ⟨t, ht⟩ := ih hs
        exact ⟨_, .cons h ht⟩

theorem EvaluatesAll.of_single (h : EvaluatesAll .free [x] frame w t (.error e) w') :
    Enters .free x frame w t (.error e) w' := by
  generalize hr : Except.error e = rs at h
  cases h with
  | error h =>
    cases hr
    exact h
  | cons h hs =>
    cases hs
    contradiction

theorem Binds.first_error {before after : List (Value × Value)} {name : String}
    (hb : Binds .free before frame w s (.ok ()) w₁)
    (hx : Enters .free x frame w₁ t (.error e) w₂) :
    ∃ t, Binds .free (before ++ (.symbol name, x) :: after) frame w t (.error e) w₂ := by
  induction before generalizing w s with
  | nil =>
    cases hb
    exact ⟨t, .error hx⟩
  | cons p before ih =>
    cases hb with
    | cons h hs =>
      obtain ⟨t, ht⟩ := ih hs
      exact ⟨_, .cons h ht⟩

theorem Performs.of_operands {c : Clause}
    (h : EvaluatesAll .free c.operands frame w t (.error e) w') :
    Performs .free c frame w t (.error e) w' := by
  cases c with
  | define name x => exact .defineError h.of_single
  | sequence effects last => exact .sequenceError h
  | branch condition consequent alternative => exact .branchError h.of_single
  | bind | lambda | quote | quasiquote | expand | malformed => cases h

/-- An error of the operands is an error of the form. -/
theorem Evaluates.of_operands (h : EvaluatesAll .free form.operands frame w t (.error e) w') :
    Evaluates .free form frame w t (.error e) w' := by
  cases hc : form.clause? with
  | some c =>
    simp only [Value.operands, hc] at h
    exact .special hc (.of_operands h)
  | none =>
    simp only [Value.operands, hc] at h
    cases form with
    | seq shape xs =>
      cases shape with
      | list => exact .callError hc h
      | vector => exact .vector h
    | map es => exact .map h
    | _ => cases h

theorem Reaches.derives (h : Reaches form frame w x frame' w₁)
    (hx : Derives x frame' w₁ (.error e) w₂) : Derives form frame w (.error e) w₂ := by
  obtain ⟨t, ht⟩ := hx
  cases h with
  | operand ho hs =>
    obtain ⟨t, ht⟩ := hs.first_error ht
    rw [← ho] at ht
    exact ⟨_, .free (.of_operands ht)⟩
  | binding hc hb =>
    obtain ⟨t, ht⟩ := hb.first_error ht
    exact ⟨_, .free (.special hc (.bindError ht))⟩

end

/-- **Evaluation by turns gives what the rules derive, and nothing else.** Under a limit
that it does not hit an evaluation ends in a result and a world if and only if the rules
derive them. A limit is not hit if the evaluation ends without a complaint about it, and no
high limit is hit if the form has a meaning. If the turn comes to a part that fails, its
error and the world that it leaves are those of the form. -/
theorem eval_iff_derives (form : Value) (frame : FrameId) :
    (∀ m, LimitUnhit form frame m →
      ∀ r w', Settles form frame m r w' ↔ Derives form frame m.world r w') ∧
    (∀ m r w', Settles form frame m r w' → r ≠ .error (.tooDeep m.limit) →
      LimitUnhit form frame m) ∧
    (∀ w r w', Derives form frame w r w' →
      ∀ d, ∃ L₀, ∀ L, L₀ ≤ L → LimitUnhit form frame ⟨w, d, L⟩) ∧
    (∀ w x frame' w₁ e w₂, Reaches form frame w x frame' w₁ →
      Derives x frame' w₁ (.error e) w₂ →
      ∀ r w', Derives form frame w r w' ↔ r = .error e ∧ w' = w₂) := by
  refine ⟨?_, ?_, ?_, ?_⟩
  · intro m hl r w'
    exact ⟨hl.derives, hl.settles⟩
  · intro m r w' h hr
    exact h.limitUnhit hr
  · intro w r w' h d
    exact h.eventually_limitUnhit d
  · intro w x frame' w₁ e w₂ hx he r w'
    have hf : Derives form frame w (.error e) w₂ := hx.derives he
    constructor
    · intro h
      exact h.unique hf
    · rintro ⟨rfl, rfl⟩
      exact hf

/-- The vector `[((fn* (a) (let* (b a) (do nil (if b b)))) 7) (quote) x]`. Its first element is a
call, whose value is found after four turns in tail position, the second is no correct `quote`, and
the last is never looked up. -/
theorem eval_iff_derives_malformed_element :
    let list (forms : List Value) := Value.seq .list (forms.foldr (.node .nil · ·) .nil)
    let body := list [.symbol "let*", list [.symbol "b", .symbol "a"],
      list [.symbol "do", .nil, list [.symbol "if", .symbol "b", .symbol "b"]]]
    let function := list [.symbol "fn*", list [.symbol "a"], body]
    let call := list [function, .int 7]
    let bad := list [.symbol "quote"]
    let form := Value.seq .vector (.node (.node .nil call .nil) bad (.node .nil (.symbol "x") .nil))
    let w := (default : World).withFrame ⟨none, ∅⟩
    let called := w.withClosure.withFrame ⟨some 0, Bindings.insertAll [("a", .int 7)] ∅⟩
    let w' := (called.withChild 1).bindName 2 "b" (.int 7)
    let r := Except.error (.malformed .quote (.notOneArgument 0))
    LimitUnhit form 0 ⟨w, 0, 3⟩ ∧ Derives form 0 w r w' ∧
      ∀ r' w'', Derives form 0 w r' w'' ↔ r' = r ∧ w'' = w' := by
  intro list body function call bad form w called w' r
  -- The body of the function, in the frame of the call and the one that `let*` makes inside it.
  have hlookup : (called.withChild 1).lookup 2 "a" = .ok (.int 7) := by
    rw [World.lookup_eq_ok_iff, Frames.get?_eq]
    exact Frames.get?_of_own? rfl
  have ha : Evaluates .free (.symbol "a") 2 (called.withChild 1) [] (.ok (.int 7))
      (called.withChild 1) := hlookup ▸ .symbol
  have hlookup' : w'.lookup 2 "b" = .ok (.int 7) := World.lookup_of_own? rfl
  have hb : Evaluates .free (.symbol "b") 2 w' [] (.ok (.int 7)) w' := hlookup' ▸ .symbol
  have hnil : EvaluatesAll .free [.nil] 2 w' _ (.ok [.nil]) w' := .cons (.free (.constant rfl)) .nil
  have hbody : Evaluates .free body 1 called _ (.ok (.int 7)) w' :=
    .special rfl (.bind (.cons (.free ha) .nil)
      (.special rfl (.sequence hnil (.special rfl (.branch (.free hb) hb)))))
  -- The call.
  have hfunction : Enters .free function 0 w _ (.ok (.closure 0 ⟨["a"], none⟩ body 0))
      w.withClosure := .free (.special rfl .lambda)
  have h7 : EvaluatesAll .free [.int 7] 0 w.withClosure _ (.ok [.int 7]) w.withClosure :=
    .cons (.free (.constant rfl)) .nil
  have hparts : EvaluatesAll .free [function, .int 7] 0 w _
      (.ok [.closure 0 ⟨["a"], none⟩ body 0, .int 7]) w.withClosure := .cons hfunction h7
  have hentered : w.withClosure.entered ⟨["a"], none⟩ [.int 7] 0 = .ok called := rfl
  have hcall : Evaluates .free call 0 w _ (.ok (.int 7)) w' :=
    .call rfl hparts (.closure hentered hbody)
  -- The elements of the vector.
  have hbad : Evaluates .free bad 0 w' [] r w' := .special rfl .malformed
  have hbefore : EvaluatesAll .free [call] 0 w _ (.ok [.int 7]) w' := .cons (.free hcall) .nil
  have hall : EvaluatesAll .free [call, bad, .symbol "x"] 0 w _
      ((Except.error (.malformed .quote (.notOneArgument 0))).map (Value.int 7 :: ·)) w' :=
    .cons (.free hcall) (.error (.free hbad))
  have h : Evaluates .free form 0 w _ ((Except.map _ _).map .vector) w' := .vector hall
  obtain ⟨hiff, hunhit, -, hfirst⟩ := eval_iff_derives form 0
  have hs : Settles form 0 ⟨w, 0, 3⟩ r w' := (Enters.free h).settled_of_nesting (by decide)
  have hl : LimitUnhit form 0 ⟨w, 0, 3⟩ :=
    hunhit _ r w' hs (fun h => nomatch Except.error.inj h)
  have ho : form.operands = [call] ++ bad :: [.symbol "x"] := rfl
  have hreach : Reaches form 0 w bad 0 w' := .operand ho hbefore
  have hx : Derives bad 0 w' r w' := ⟨_, .free hbad⟩
  exact ⟨hl, (hiff _ hl r w').mp hs, hfirst w _ 0 w' _ w' hreach hx⟩

end Lisplet

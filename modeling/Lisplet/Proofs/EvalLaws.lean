import Lisplet.Proofs.RunLaws

/-! The evaluator in a shape that can be compared with rules: ropes are gone through as lists,
a special form is taken apart before it is run, and a loop is a sequence of a turn and the
rest of the loop. -/

namespace Lisplet

section

variable {eval : Value → FrameId → Run Value}

namespace Eval

theorem itemsOnto_eq (frame : FrameId) (xs : Rope Value) (done : List Value) :
    itemsOnto eval frame xs done =
      (fun vs => vs.reverse ++ done) <$> xs.toList.mapM (eval · frame) := by
  induction xs generalizing done with
  | nil => simp [itemsOnto]
  | node left x right ihl ihr => simp [itemsOnto, ihl, ihr]

theorem items_eq (frame : FrameId) (xs : Rope Value) :
    items eval frame xs = xs.toList.mapM (eval · frame) := by
  simp [items, itemsOnto_eq]

theorem entriesOnto_eq (frame : FrameId) (es : Rope (Value × Value))
    (done : List (Value × Value)) :
    entriesOnto eval frame es done =
      (fun fs => fs.reverse ++ done) <$>
        es.toList.mapM fun e => (e.1, ·) <$> eval e.2 frame := by
  induction es generalizing done with
  | nil => simp [entriesOnto]
  | node left e right ihl ihr =>
    obtain ⟨key, form⟩ := e
    simp [entriesOnto, ihl, ihr]

theorem mapM_entries (frame : FrameId) (es : List (Value × Value)) :
    (es.mapM fun e => (e.1, ·) <$> eval e.2 frame) =
      (fun vs => (es.map Prod.fst).zip vs) <$> (es.map Prod.snd).mapM (eval · frame) := by
  induction es with
  | nil => simp
  | cons e es ih => simp [ih]

theorem entries_eq (frame : FrameId) (es : Rope (Value × Value)) :
    entries eval frame es =
      (fun vs => (es.toList.map Prod.fst).zip vs) <$>
        (es.toList.map Prod.snd).mapM (eval · frame) := by
  rw [← mapM_entries]
  simp [entries, entriesOnto_eq]

/-- What a loop does with the end of a turn. -/
def conclude (next : Value → FrameId → Run Value) : Turn → Run Value
  | .done v => return v
  | .tail form frame => next form frame

theorem done_conclude (next : Value → FrameId → Run Value) (run : Run Value) :
    (Turn.done <$> run) >>= conclude next = run := by
  simp [conclude]

/-- The rest of a loop begins where a turn has ended. -/
theorem loop_succ (apply : Value → List Value → Run Value) (fuel : Nat) (form : Value)
    (frame : FrameId) :
    loop eval apply (fuel + 1) form frame =
      turn eval apply form frame >>= conclude (loop eval apply fuel) := by
  funext m
  simp only [loop, Run.bind_apply]
  cases turn eval apply form frame m with
  | value o m₁ => cases o <;> rfl
  | error e m₁ => rfl
  | halted h => rfl

end Eval

namespace SpecialForm

theorem evalEach_eq (frame : FrameId) (forms : List Value) :
    evalEach eval frame forms = (fun _ => ()) <$> forms.mapM (eval · frame) := by
  induction forms with
  | nil => simp [evalEach]
  | cons form forms ih => simp [evalEach, ih]

/-- Binds names to values in turn, the bindings being given as pairs. -/
def bindPairs (eval : Value → FrameId → Run Value) (frame : FrameId) :
    List (Value × Value) → Run Unit
  | [] => return ()
  | (.symbol name, form) :: rest => do
    let v ← eval form frame
    Run.bindName frame name v
    bindPairs eval frame rest
  | (other, _) :: _ => Run.fail (.malformed bind (.bindingNotSymbol other.typeName))

theorem bindEach_eq {bindings : List Value} {ps : List (Value × Value)}
    (h : Form.pairs? bindings = some ps) (frame : FrameId) :
    bindEach eval frame bindings = bindPairs eval frame ps := by
  fun_induction Form.pairs? bindings generalizing ps with
  | case1 =>
    cases h
    rfl
  | case2 => contradiction
  | case3 name form rest ih =>
    obtain ⟨qs, hq, rfl⟩ := Option.map_eq_some_iff.mp h
    cases name <;> simp [bindEach, bindPairs, ih hq]

end SpecialForm

/-- The end of a turn that has found a condition to be `v`. A missing alternative is nil. -/
def Clause.chosen (consequent : Value) (alternative : Option Value) (frame : FrameId)
    (v : Value) : Turn :=
  match alternative with
  | none => if v.isTruthy then .tail consequent frame else .done .nil
  | some alternative => .tail (if v.isTruthy then consequent else alternative) frame

/-- One turn of a special form whose parts are known. -/
def Clause.run (eval : Value → FrameId → Run Value) (frame : FrameId) : Clause → Run Turn
  | define name form => do
    let v ← eval form frame
    Run.bindName frame name v
    return .done v
  | bind bindings body => do
    let inner ← Run.child frame
    SpecialForm.bindPairs eval inner bindings
    return .tail body inner
  | sequence effects last => do
    SpecialForm.evalEach eval frame effects
    return .tail last frame
  | branch condition consequent alternative => do
    let v ← eval condition frame
    return chosen consequent alternative frame v
  | lambda params body => do
    let f ← Run.newClosure params body frame
    return .done f
  | quote form => return .done form
  | quasiquote template => return .tail (Template.expand template) frame
  | expand template => return .done (Template.expand template)
  | malformed f flaw => Run.fail (.malformed f flaw)

namespace SpecialForm

/-- A special form does what its parts tell. -/
theorem run_eq (f : SpecialForm) (args : List Value) (frame : FrameId) :
    f.run eval args frame = (f.clause args).run eval frame := by
  cases f with
  | define =>
    rcases args with _ | ⟨a, _ | ⟨b, _ | ⟨c, rest⟩⟩⟩
    · rfl
    · cases a <;> rfl
    · cases a <;> rfl
    · cases a <;> rfl
  | bind =>
    rcases args with _ | ⟨a, _ | ⟨b, _ | ⟨c, rest⟩⟩⟩
    · rfl
    · rfl
    · simp only [run, runBind, clause]
      cases a.items? with
      | none => rfl
      | some items =>
        simp only [Rope.size_eq, ← Form.pairs?_eq_none_iff]
        split
        · next h => simp only [h]; rfl
        · next h =>
          obtain ⟨ps, hp⟩ := Option.ne_none_iff_exists'.mp h
          simp only [hp, bindEach_eq hp]
          rfl
    · rfl
  | sequence =>
    simp only [run, runSequence, clause]
    cases args.getLast? <;> rfl
  | branch => rcases args with _ | ⟨a, _ | ⟨b, _ | ⟨c, _ | ⟨d, rest⟩⟩⟩⟩ <;> rfl
  | lambda =>
    rcases args with _ | ⟨a, _ | ⟨b, _ | ⟨c, rest⟩⟩⟩
    · rfl
    · rfl
    · simp only [run, runLambda, clause]
      cases Params.ofForm a <;> rfl
    · rfl
  | quote => rcases args with _ | ⟨a, _ | ⟨b, rest⟩⟩ <;> rfl
  | quasiquote => rcases args with _ | ⟨a, _ | ⟨b, rest⟩⟩ <;> rfl
  | expand => rcases args with _ | ⟨a, _ | ⟨b, rest⟩⟩ <;> rfl

end SpecialForm

namespace Eval

variable {apply : Value → List Value → Run Value}

theorem turn_of_clause {form : Value} {c : Clause} (hc : form.clause? = some c)
    (frame : FrameId) : turn eval apply form frame = c.run eval frame := by
  match form with
  | .seq .list xs =>
    obtain ⟨f, hf, rfl⟩ := Option.map_eq_some_iff.mp hc
    rw [← Rope.first?_eq] at hf
    simp only [turn, hf, SpecialForm.run_eq]

/-- What is made of the values of a list's elements: the first one is called. -/
def callFirst (eval : Value → FrameId → Run Value) (apply : Value → List Value → Run Value)
    (form : Value) : List Value → Run Turn
  | f :: args => call eval apply f args
  | [] => return .done form

/-- A list that is no special form is evaluated as a whole, and then called. -/
theorem turn_of_call {xs : Rope Value} (hc : (Value.seq .list xs).clause? = none)
    (frame : FrameId) :
    turn eval apply (.seq .list xs) frame =
      xs.toList.mapM (eval · frame) >>= callFirst eval apply (.seq .list xs) := by
  have hf := Option.map_eq_none_iff.mp hc
  rw [← Rope.first?_eq] at hf
  simp only [turn, hf, items_eq]
  exact congrArg (_ >>= ·) (funext fun vs => by cases vs <;> rfl)

theorem turn_of_constant {form : Value} (hc : form.isConstant = true) (frame : FrameId) :
    turn eval apply form frame = return .done form := by
  match form with
  | .seq .list xs =>
    have hx : xs.toList = [] := List.isEmpty_iff.mp hc
    rw [turn_of_call (by rw [Value.clause?, hx]; rfl), hx, List.mapM_nil, pure_bind]
    rfl
  | .nil | .bool _ | .int _ | .str _ | .keyword _ | .native _ | .closure .. | .atom _ => rfl

theorem pure_of_loop {form : Value} (hc : form.isConstant = true) {fuel : Nat}
    {frame : FrameId} {m m' : Machine} {r : Except Error Value}
    (h : loop eval apply fuel form frame m = .of r m') : (pure form : Run Value) m = .of r m' := by
  cases fuel with
  | zero => cases r <;> contradiction
  | succ fuel =>
    rw [loop_succ, turn_of_constant hc] at h
    exact h

theorem turn_of_parts {form : Value} (hf : ∀ xs, form ≠ .seq .list xs) (frame : FrameId) :
    turn eval apply form frame = .done <$> parts eval form frame := by
  match form with
  | .seq .list xs => exact (hf xs rfl).elim
  | .seq .vector _ | .map _ | .symbol _ | .nil | .bool _ | .int _ | .str _ | .keyword _
  | .native _ | .closure .. | .atom _ => rfl

end Eval

/-- What a function does without evaluating or applying anything, it does in any case. -/
theorem Native.run_of_alone {apply : Value → List Value → Run Value} {f : Native}
    {args : List Value} {m m' : Machine} {r : Except Error Value}
    (h : f.alone args m = .of r m') : f.run eval apply args m = .of r m' := by
  cases f with
  | builtin b =>
    cases b with
    | atom op =>
      by_cases hop : op = .swap
      · subst hop
        match args with
        | v :: f :: args =>
          cases v with
          | atom i => cases r <;> contradiction
          | _ => exact h
        | [] | [_] => exact h
      · rw [← h]
        exact congrFun (op.run_eq_of_ne_swap hop ..) m
    | _ => exact h
  | evalIn root =>
    match args with
    | [form] => cases r <;> contradiction
    | [] | _ :: _ :: _ => exact h
  | host name index =>
    rw [Native.alone, Native.run] at h
    rw [Native.run]
    rw [Run.bind_apply] at h ⊢
    cases hr : Run.hostReply index args m with
    | value reply m₁ =>
      rw [hr] at h
      cases reply with
      | give v => exact h
      | fail e => exact h
      | call f args resume => cases r <;> contradiction
    | error e m₁ =>
      rw [hr] at h
      exact h
    | halted s =>
      rw [hr] at h
      exact h

end

end Lisplet

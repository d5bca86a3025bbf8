import Lisplet.Proofs.BigStep.Soundness

/-! Whatever can be derived by the rules an evaluation ends in, if it has fuel enough. Fuel
is needed for three things: for evaluations inside one another, for applications inside one
another, and for turns. A derivation is gone through rule by rule, and each rule needs as
much as its premises and perhaps one more. -/

namespace Lisplet

/-- Something holds if there is enough fuel for nesting, for applications and for turns. -/
def Enough (P : Nat → Nat → Nat → Prop) : Prop :=
  ∃ k, ∀ a b c, k ≤ a → k ≤ b → k ≤ c → P a b c

namespace Enough

variable {P Q R : Nat → Nat → Nat → Prop}

theorem always (h : ∀ a b c, P a b c) : Enough P := ⟨0, fun a b c _ _ _ => h a b c⟩

theorem nothing : Enough fun _ _ _ => True := always fun _ _ _ => trivial

theorem mono (hp : Enough P) (h : ∀ a b c, P a b c → Q a b c) : Enough Q := by
  obtain ⟨k, hk⟩ := hp
  exact ⟨k, fun a b c ha hb hc => h a b c (hk a b c ha hb hc)⟩

theorem both (hp : Enough P) (hq : Enough Q) (h : ∀ a b c, P a b c → Q a b c → R a b c) :
    Enough R := by
  obtain ⟨k, hk⟩ := hp
  obtain ⟨j, hj⟩ := hq
  refine ⟨max k j, fun a b c ha hb hc => h a b c (hk a b c ?_ ?_ ?_) (hj a b c ?_ ?_ ?_)⟩
  all_goals omega

/-- One more turn. -/
theorem turn (hp : Enough P) (h : ∀ a b c, P a b c → Q a b (c + 1)) : Enough Q := by
  obtain ⟨k, hk⟩ := hp
  refine ⟨k + 1, fun a b c ha hb hc => ?_⟩
  obtain ⟨c, rfl⟩ := Nat.exists_eq_add_of_lt hc
  exact h a b (k + c) (hk a b (k + c) (by omega) (by omega) (by omega))

/-- One application more inside another. -/
theorem application (hp : Enough P) (h : ∀ a b c, P a b c → Q a (b + 1) c) : Enough Q := by
  obtain ⟨k, hk⟩ := hp
  refine ⟨k + 1, fun a b c ha hb hc => ?_⟩
  obtain ⟨b, rfl⟩ := Nat.exists_eq_add_of_lt hb
  exact h a (k + b) c (hk a (k + b) c (by omega) (by omega) (by omega))

/-- One evaluation more inside another, which has all its fuel for each of the three. -/
theorem level {S : Nat → Prop} (hp : Enough P) (h : ∀ a, P a a a → S (a + 1)) :
    Enough fun a _ _ => S a := by
  obtain ⟨k, hk⟩ := hp
  refine ⟨k + 1, fun a b c ha hb hc => ?_⟩
  obtain ⟨a, rfl⟩ := Nat.exists_eq_add_of_lt ha
  exact h (k + a) (hk _ _ _ (by omega) (by omega) (by omega))

end Enough

/-- The loop of an evaluation, given fuel for nesting, for applications and for turns. -/
abbrev Eval.turns (a b c : Nat) : Value → FrameId → Run Value :=
  loop (eval a) (applyWith (eval a) b) c

theorem nested_of {run : Run α} {w w' : World} {n l : Nat} {r : Except Error α} (hl : n < l)
    (h : run ⟨w, n + 1, l⟩ = .of r ⟨w', n + 1, l⟩) :
    Run.nested run ⟨w, n, l⟩ = .of r ⟨w', n, l⟩ := by
  rw [Run.nested, if_neg (Nat.not_lt_of_le hl), h]
  cases r <;> rfl

theorem nested_of_full {run : Run α} {w : World} {n l : Nat} (hl : l ≤ n) :
    Run.nested run ⟨w, n, l⟩ = .of (.error (.tooDeep l)) ⟨w, n, l⟩ := by
  rw [Run.nested, if_pos (Nat.lt_succ_of_le hl)]
  rfl

mutual

theorem Evaluates.settles {g : Guard} {w w' : World} {t : List Event} {n l : Nat} {form : Value}
    {frame : FrameId} {r : Except Error Value} (h : Evaluates g form frame w t r w')
    (hg : g = .at n l) :
    Enough fun a b c => Eval.turns a b c form frame ⟨w, n, l⟩ = .of r ⟨w', n, l⟩ := by
  match h with
  | @Evaluates.symbol _ name _ _ =>
    refine Enough.nothing.turn fun a b c _ => ?_
    rw [Eval.turns, Eval.loop_succ, Eval.turn_of_parts (by simp), Eval.done_conclude]
    exact Run.lookup_apply frame name w n l
  | .constant hc =>
    refine Enough.nothing.turn fun a b c _ => ?_
    rw [Eval.turns, Eval.loop_succ, Eval.turn_of_constant hc]
    rfl
  | .vector hs =>
    refine (EvaluatesAll.settles hs hg).turn fun a b c hr => ?_
    rw [Eval.turns, Eval.loop_succ, Eval.turn_of_parts (by simp), Eval.done_conclude, Eval.parts,
      Eval.items_eq]
    exact Run.map_of hr
  | .map hs =>
    refine (EvaluatesAll.settles hs hg).turn fun a b c hr => ?_
    rw [Eval.turns, Eval.loop_succ, Eval.turn_of_parts (by simp), Eval.done_conclude, Eval.parts,
      Eval.entries_eq, ← comp_map]
    exact Run.map_of hr
  | .special hc hp =>
    refine (Performs.settles hp hg).turn fun a b c hr => ?_
    rw [Eval.turns, Eval.loop_succ, Eval.turn_of_clause hc]
    exact hr
  | .call hn hs hf =>
    have hboth := (EvaluatesAll.settles hs hg).both (Calls.settles hf hg) fun _ _ _ => And.intro
    refine hboth.turn fun a b c hr => ?_
    rw [Eval.turns, Eval.loop_succ, Eval.turn_of_call hn, bind_assoc, Run.bind_of_ok hr.1]
    exact hr.2
  | .callError hn hs =>
    refine (EvaluatesAll.settles hs hg).turn fun a b c hr => ?_
    rw [Eval.turns, Eval.loop_succ, Eval.turn_of_call hn, bind_assoc, Run.bind_of_error hr]

theorem Enters.settles {g : Guard} {w w' : World} {t : List Event} {n l : Nat} {form : Value}
    {frame : FrameId} {r : Except Error Value} (h : Enters g form frame w t r w')
    (hg : g = .at n l) :
    Enough fun a _ _ => eval a form frame ⟨w, n, l⟩ = .of r ⟨w', n, l⟩ := by
  match h with
  | .free h => contradiction
  | @Enters.admitted room limit _ _ _ _ _ _ h =>
    obtain ⟨hr, rfl⟩ := Guard.upTo.inj hg
    have hg' : Guard.upTo room limit = .at (n + 1) limit := by
      rw [Guard.at]
      congr 1
      omega
    refine (Evaluates.settles h hg').level fun a ha => ?_
    exact nested_of (by omega) ha
  | .refused =>
    obtain ⟨hr, rfl⟩ := Guard.upTo.inj hg
    refine Enough.nothing.level fun a _ => ?_
    exact nested_of_full (by omega)

theorem EvaluatesAll.settles {g : Guard} {w w' : World} {t : List Event} {n l : Nat}
    {forms : List Value} {frame : FrameId} {rs : Except Error (List Value)}
    (h : EvaluatesAll g forms frame w t rs w') (hg : g = .at n l) :
    Enough fun a _ _ => forms.mapM (eval a · frame) ⟨w, n, l⟩ = .of rs ⟨w', n, l⟩ := by
  match h with
  | .nil => exact .always fun _ _ _ => rfl
  | .cons h hs =>
    refine (Enters.settles h hg).both (EvaluatesAll.settles hs hg) fun a _ _ hr hrs => ?_
    rw [List.mapM_cons, Run.bind_of_ok hr, bind_pure_comp]
    exact Run.map_of hrs
  | .error h =>
    refine (Enters.settles h hg).mono fun a _ _ hr => ?_
    rw [List.mapM_cons, Run.bind_of_error hr]

theorem Performs.settles {g : Guard} {w w' : World} {t : List Event} {n l : Nat} {c : Clause}
    {frame : FrameId} {r : Except Error Value} (h : Performs g c frame w t r w')
    (hg : g = .at n l) :
    Enough fun a b d =>
      (c.run (eval a) frame >>= Eval.conclude (Eval.turns a b d)) ⟨w, n, l⟩ =
        .of r ⟨w', n, l⟩ := by
  match c, h with
  | _, .define h =>
    refine (Enters.settles h hg).mono fun a _ _ hr => ?_
    rw [Clause.run, bind_assoc, Run.bind_of_ok hr]
    rfl
  | _, .defineError h =>
    refine (Enters.settles h hg).mono fun a _ _ hr => ?_
    rw [Clause.run, bind_assoc, Run.bind_of_error hr]
  | _, .bind hb h =>
    refine (Binds.settles hb hg).both (Evaluates.settles h hg) fun a b c hr hr' => ?_
    rw [Clause.run, bind_assoc, Run.child_bind, bind_assoc, Run.bind_of_ok hr]
    exact hr'
  | _, .bindError hb =>
    refine (Binds.settles hb hg).mono fun a b c hr => ?_
    rw [Clause.run, bind_assoc, Run.child_bind, bind_assoc, Run.bind_of_error hr]
  | _, .sequence hs h =>
    refine (EvaluatesAll.settles hs hg).both (Evaluates.settles h hg) fun a b c hr hr' => ?_
    rw [Clause.run, SpecialForm.evalEach_eq, bind_assoc, bind_map_left, Run.bind_of_ok hr]
    exact hr'
  | _, .sequenceError hs =>
    refine (EvaluatesAll.settles hs hg).mono fun a b c hr => ?_
    rw [Clause.run, SpecialForm.evalEach_eq, bind_assoc, bind_map_left, Run.bind_of_error hr]
  | .branch _ _ alternative, .branch hc h =>
    refine (Enters.settles hc hg).both (Evaluates.settles h hg) fun a b c hr hr' => ?_
    rw [Clause.run, bind_assoc, Run.bind_of_ok hr, pure_bind]
    cases alternative with
    | some alternative => exact hr'
    | none =>
      rw [Clause.chosen]
      split
      · next hv =>
        rw [if_pos hv] at hr'
        exact hr'
      · next hv =>
        rw [if_neg hv] at hr'
        exact Eval.pure_of_loop rfl hr'
  | _, .branchError hc =>
    refine (Enters.settles hc hg).mono fun a b c hr => ?_
    rw [Clause.run, bind_assoc, Run.bind_of_error hr]
  | _, .lambda => exact .always fun _ _ _ => rfl
  | _, .quote => exact .always fun _ _ _ => rfl
  | _, .quasiquote h => exact Evaluates.settles h hg
  | _, .expand => exact .always fun _ _ _ => rfl
  | _, .malformed => exact .always fun _ _ _ => rfl

theorem Binds.settles {g : Guard} {w w' : World} {t : List Event} {n l : Nat}
    {bindings : List (Value × Value)} {frame : FrameId} {r : Except Error Unit}
    (h : Binds g bindings frame w t r w') (hg : g = .at n l) :
    Enough fun a _ _ =>
      SpecialForm.bindPairs (eval a) frame bindings ⟨w, n, l⟩ = .of r ⟨w', n, l⟩ := by
  match h with
  | .nil => exact .always fun _ _ _ => rfl
  | .cons h hs =>
    refine (Enters.settles h hg).both (Binds.settles hs hg) fun a _ _ hr hr' => ?_
    rw [SpecialForm.bindPairs, Run.bind_of_ok hr]
    exact hr'
  | .error h =>
    refine (Enters.settles h hg).mono fun a _ _ hr => ?_
    rw [SpecialForm.bindPairs, Run.bind_of_error hr]
  | @Binds.notSymbol other _ _ _ _ _ hn =>
    refine .always fun _ _ _ => ?_
    cases other with
    | symbol name => exact (hn name rfl).elim
    | _ => rfl

theorem Calls.settles {g : Guard} {w w' : World} {t : List Event} {n l : Nat} {f : Value}
    {args : List Value} {r : Except Error Value} (h : Calls g f args w t r w')
    (hg : g = .at n l) :
    Enough fun a b c =>
      (Eval.call (eval a) (Eval.applyWith (eval a) b) f args >>=
        Eval.conclude (Eval.turns a b c)) ⟨w, n, l⟩ = .of r ⟨w', n, l⟩ := by
  match h with
  | .closure he h =>
    refine (Evaluates.settles h hg).mono fun a b c hr => ?_
    rw [Eval.call, bind_assoc, Run.bind_of_ok (Run.enter_of_ok he)]
    exact hr
  | .arity he =>
    refine .always fun a b c => ?_
    rw [Eval.call, bind_assoc, Run.bind_of_error (Run.enter_of_error he)]
  | .native h =>
    refine (Invokes.settles h hg).mono fun a b c hr => ?_
    rw [Eval.call, Eval.done_conclude]
    exact hr
  | .notCallable hf =>
    refine .always fun a b c => ?_
    cases f with
    | closure | native => contradiction
    | _ => rfl

theorem Applies.settles {g : Guard} {w w' : World} {t : List Event} {n l : Nat} {f : Value}
    {args : List Value} {r : Except Error Value} (h : Applies g f args w t r w')
    (hg : g = .at n l) :
    Enough fun a b _ =>
      Eval.applyWith (eval a) b f args ⟨w, n, l⟩ = .of r ⟨w', n, l⟩ := by
  match h with
  | .closure he h =>
    refine (Enters.settles h hg).application fun a b c hr => ?_
    rw [Eval.applyWith, Run.bind_of_ok (Run.enter_of_ok he)]
    exact hr
  | .arity he =>
    refine Enough.nothing.application fun a b c _ => ?_
    rw [Eval.applyWith, Run.bind_of_error (Run.enter_of_error he)]
  | .native h => exact (Invokes.settles h hg).application fun a b c hr => hr
  | .notCallable hf =>
    refine Enough.nothing.application fun a b c _ => ?_
    cases f with
    | closure | native => contradiction
    | _ => rfl

theorem Invokes.settles {g : Guard} {w w' : World} {t : List Event} {n l : Nat} {f : Native}
    {args : List Value} {r : Except Error Value} (h : Invokes g f args w t r w')
    (hg : g = .at n l) :
    Enough fun a b _ =>
      f.run (eval a) (Eval.applyWith (eval a) b) args ⟨w, n, l⟩ = .of r ⟨w', n, l⟩ := by
  match args, h with
  | _, .alone h => exact .always fun a b _ => Native.run_of_alone (h n l)
  | _, .evalIn h => exact Enters.settles h hg
  | .atom i :: _, .swap h =>
    refine (Applies.settles h hg).mono fun a b _ hr => ?_
    exact (Run.bind_of_ok (f := Run.writeAtom i) hr).trans rfl
  | .atom i :: _, .swapError h =>
    refine (Applies.settles h hg).mono fun a b _ hr => ?_
    exact Run.bind_of_error (f := Run.writeAtom i) hr
  | _, .host hh h =>
    refine (Plays.settles h hg).mono fun a b _ hr => ?_
    rw [Native.run, Run.bind_apply, Run.hostReply, hh]
    exact hr

theorem Plays.settles {g : Guard} {w w' : World} {t : List Event} {n l : Nat} {reply : Reply}
    {r : Except Error Value} (h : Plays g reply w t r w') (hg : g = .at n l) :
    Enough fun a b _ =>
      reply.play (Eval.applyWith (eval a) b) ⟨w, n, l⟩ = .of r ⟨w', n, l⟩ := by
  match h with
  | .give => exact .always fun _ _ _ => rfl
  | .fail => exact .always fun _ _ _ => rfl
  | .call h hr =>
    refine (Applies.settles h hg).both (Plays.settles hr hg) fun a b _ hr hr' => ?_
    rw [Reply.play, Run.bind_of_ok hr]
    exact hr'
  | .callError h =>
    refine (Applies.settles h hg).mono fun a b _ hr => ?_
    rw [Reply.play, Run.bind_of_error hr]

end

end Lisplet

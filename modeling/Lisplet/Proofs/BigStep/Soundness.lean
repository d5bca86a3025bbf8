import Lisplet.Proofs.EvalLaws

/-! Whatever an evaluation ends in can be derived by the rules. An account says what a run
does from its one end to the other; a run follows an account if each of its outcomes is as
the account says and if it leaves depth and limit as they were. Each function of the
evaluator follows the rules for what it evaluates, given that the functions handed to it
do, and induction on the fuel hands them over. -/

namespace Lisplet

/-- What is said of a run: it leads from a world, through events, to a result and a world. -/
abbrev Account (α : Type) : Type := World → List Event → Except Error α → World → Prop

/-- At depth `n` and under the limit `l` the run does nothing but what the account says. -/
def Follows (n l : Nat) (run : Run α) (J : Account α) : Prop :=
  ∀ ⦃w r m'⦄, run ⟨w, n, l⟩ = .of r m' → ∃ t w', m' = ⟨w', n, l⟩ ∧ J w t r w'

/-- One account after another: the second begins where the first has given a value. -/
inductive Account.Then (J : Account α) (K : α → Account β) : Account β where
  | ok (hj : J w t₁ (.ok a) w₁) (hk : K a w₁ t₂ r w₂) : Then J K w (t₁ ++ t₂) r w₂
  | error (hj : J w t (.error e) w') : Then J K w t (.error e) w'

/-- The guard that a machine stands for. -/
def Guard.at (n l : Nat) : Guard := .upTo (l - n) l

namespace Follows

variable {n l : Nat}

theorem mono {run : Run α} {J K : Account α} (h : Follows n l run J)
    (hJ : ∀ w t r w', J w t r w' → K w t r w') : Follows n l run K := by
  intro w r m' hr
  obtain ⟨t, w', hm, hj⟩ := h hr
  exact ⟨t, w', hm, hJ _ _ _ _ hj⟩

/-- A run that ends at once, without events. -/
theorem ended {run : Run α} {J : Account α} {f : World → Except Error α} {g : World → World}
    (h : ∀ w, run ⟨w, n, l⟩ = .of (f w) ⟨g w, n, l⟩) (hJ : ∀ w, J w [] (f w) (g w)) :
    Follows n l run J := by
  intro w r m' hr
  obtain ⟨hf, hm⟩ := Outcome.of_inj ((h w).symm.trans hr)
  exact ⟨[], g w, hm.symm, hf ▸ hJ w⟩

theorem fail {J : Account α} {e : Error} (hJ : ∀ w, J w [] (.error e) w) :
    Follows n l (Run.fail e) J :=
  ended (f := fun _ => .error e) (g := id) (fun _ => rfl) hJ

theorem pure {J : Account α} {a : α} (hJ : ∀ w, J w [] (.ok a) w) :
    Follows n l (Pure.pure a) J :=
  ended (f := fun _ => .ok a) (g := id) (fun _ => rfl) hJ

theorem halt {J : Account α} {s : Halt} : Follows n l (Run.halt s) J := by
  intro w r m' h
  cases r <;> contradiction

theorem andThen {run : Run α} {f : α → Run β} {J : Account α} {K : α → Account β}
    (hr : Follows n l run J) (hf : ∀ a, Follows n l (f a) (K a)) :
    Follows n l (run >>= f) (J.Then K) := by
  intro w r m' h
  rcases Run.of_bind h with ⟨a, m₁, h₁, h₂⟩ | ⟨e, h₁, rfl⟩
  · obtain ⟨t₁, w₁, rfl, hj⟩ := hr h₁
    obtain ⟨t₂, w₂, rfl, hk⟩ := hf a h₂
    exact ⟨t₁ ++ t₂, w₂, rfl, .ok hj hk⟩
  · obtain ⟨t, w', rfl, hj⟩ := hr h₁
    exact ⟨t, w', rfl, .error hj⟩

/-- A sequence follows an account that has a rule for the first part's values and one for
its errors. -/
theorem bind {run : Run α} {f : α → Run β} {J : Account α} {K : α → Account β} {M : Account β}
    (hr : Follows n l run J) (hf : ∀ a, Follows n l (f a) (K a))
    (hok : ∀ {a w t₁ w₁ t₂ r w₂}, J w t₁ (.ok a) w₁ → K a w₁ t₂ r w₂ → M w (t₁ ++ t₂) r w₂)
    (herr : ∀ {e w t w'}, J w t (.error e) w' → M w t (.error e) w') :
    Follows n l (run >>= f) M := by
  refine (hr.andThen hf).mono ?_
  intro w t r w' h
  cases h with
  | ok hj hk => exact hok hj hk
  | error hj => exact herr hj

/-- A change of the world comes first. -/
theorem after {run : Run α} {J : Account α} (h : Follows n l run J) (f : World → World) :
    Follows n l (Run.change f >>= fun _ => run) fun w => J (f w) := fun _ _ _ hr => h hr

/-- A new frame comes first. -/
theorem newFrame {f : Frame} {run : FrameId → Run α} {J : FrameId → Account α}
    (h : ∀ i, Follows n l (run i) (J i)) :
    Follows n l (Run.newFrame f >>= run) fun w => J w.frames.next (w.withFrame f) :=
  fun _ _ _ hr => h _ hr

/-- A sequence whose second part ends at once. -/
theorem bindEnded {run : Run α} {f : α → Run β} {J : Account α} {M : Account β}
    {F : α → World → Except Error β} {G : α → World → World} (hr : Follows n l run J)
    (hf : ∀ a w, f a ⟨w, n, l⟩ = .of (F a w) ⟨G a w, n, l⟩)
    (hok : ∀ {a w t w'}, J w t (.ok a) w' → M w t (F a w') (G a w'))
    (herr : ∀ {e w t w'}, J w t (.error e) w' → M w t (.error e) w') :
    Follows n l (run >>= f) M := by
  refine hr.bind (K := fun a w t r w' => t = [] ∧ r = F a w ∧ w' = G a w)
    (fun a => .ended (hf a) fun w => ⟨rfl, rfl, rfl⟩) ?_ herr
  intro a w t₁ w₁ t₂ r w₂ hj hk
  obtain ⟨rfl, rfl, rfl⟩ := hk
  rw [List.append_nil]
  exact hok hj

/-- A run whose values are turned into others. -/
theorem map {run : Run α} {f : α → β} {J : Account α} {M : Account β}
    (hr : Follows n l run J) (hM : ∀ {w t r w'}, J w t r w' → M w t (r.map f) w') :
    Follows n l (f <$> run) M := by
  rw [← bind_pure_comp]
  exact hr.bindEnded (F := fun a _ => .ok (f a)) (G := fun _ => id) (fun _ _ => rfl) hM hM

end Follows

/-! ## Sequences of evaluations -/

theorem EvaluatesAll.ne_ok_nil {g : Guard} {form : Value} {forms : List Value} {frame : FrameId}
    {w w' : World} {t : List Event} {rs : Except Error (List Value)}
    (h : EvaluatesAll g (form :: forms) frame w t rs w') : rs ≠ .ok [] := by
  cases h with
  | @cons _ _ _ _ _ v _ _ _ rs _ h hs => cases rs <;> simp [Except.map]
  | error h => simp

section

variable {n l : Nat} {g : Guard} {eval : Value → FrameId → Run Value}
  (heval : ∀ form frame, Follows n l (eval form frame) (Enters g form frame))

include heval

theorem follows_mapM (frame : FrameId) (forms : List Value) :
    Follows n l (forms.mapM (eval · frame)) (EvaluatesAll g forms frame) := by
  induction forms with
  | nil => exact .pure fun _ => .nil
  | cons form forms ih =>
    rw [List.mapM_cons]
    refine (heval form frame).bind (fun v => ih.map (f := (v :: ·))
      (M := fun w t rs w' =>
        ∃ rs', EvaluatesAll g forms frame w t rs' w' ∧ rs = rs'.map (v :: ·))
      fun hs => ⟨_, hs, rfl⟩) ?_ .error
    intro v w t₁ w₁ t₂ rs w₂ h hrest
    obtain ⟨rs', hs, rfl⟩ := hrest
    exact .cons h hs

theorem follows_bindPairs (frame : FrameId) (bindings : List (Value × Value)) :
    Follows n l (SpecialForm.bindPairs eval frame bindings) (Binds g bindings frame) := by
  fun_induction SpecialForm.bindPairs eval frame bindings with
  | case1 => exact .pure fun _ => .nil
  | case2 name form rest ih =>
    exact (heval form frame).bind (fun v => ih.after (·.bindName frame name v)) .cons .error
  | case3 other form rest hn => exact .fail fun _ => .notSymbol fun name h => hn name h

/-! ## Turns -/

variable {next : Value → FrameId → Run Value}
  (hnext : ∀ form frame, Follows n l (next form frame) (Evaluates g form frame))

include hnext

theorem follows_clause (c : Clause) (frame : FrameId) :
    Follows n l (c.run eval frame >>= Eval.conclude next) (Performs g c frame) := by
  cases c with
  | define name form =>
    rw [Clause.run, bind_assoc]
    exact (heval form frame).bindEnded (F := fun v _ => .ok v)
      (G := fun v w => w.bindName frame name v) (fun _ _ => rfl) .define .defineError
  | bind bindings body =>
    have hin (inner : FrameId) : Follows n l
        ((do
          SpecialForm.bindPairs eval inner bindings
          return Turn.tail body inner) >>= Eval.conclude next)
        (Account.Then (Binds g bindings inner) fun _ => Evaluates g body inner) := by
      rw [bind_assoc]
      exact (follows_bindPairs heval inner bindings).andThen fun _ => hnext body inner
    rw [Clause.run, bind_assoc]
    refine (Follows.newFrame hin).mono ?_
    intro w t r w' h
    cases h with
    | ok hb h => exact .bind hb h
    | error hb => exact .bindError hb
  | sequence effects last =>
    rw [Clause.run, SpecialForm.evalEach_eq, bind_assoc, bind_map_left]
    exact (follows_mapM heval frame effects).bind (fun _ => hnext last frame) .sequence
      .sequenceError
  | branch condition consequent alternative =>
    have hb (v : Value) : Follows n l
        (Eval.conclude next (Clause.chosen consequent alternative frame v))
        (Evaluates g (if v.isTruthy then consequent else alternative.getD .nil) frame) := by
      cases alternative with
      | some a => exact hnext _ frame
      | none =>
        rw [Clause.chosen]
        cases v.isTruthy with
        | true => exact hnext consequent frame
        | false => exact .pure fun _ => .constant rfl
    rw [Clause.run, bind_assoc]
    exact (heval condition frame).bind hb .branch .branchError
  | lambda params body =>
    exact .ended (f := fun w => .ok (.closure w.closures params body frame))
      (g := World.withClosure) (fun _ => rfl) fun _ => .lambda
  | quote form => exact .pure fun _ => .quote
  | quasiquote template => exact (hnext _ frame).mono fun _ _ _ _ => .quasiquote
  | expand template => exact .pure fun _ => .expand
  | malformed f flaw => exact .fail fun _ => .malformed

end

/-! ## Functions -/

section

variable {n l : Nat} {g : Guard} {eval : Value → FrameId → Run Value}
  {apply : Value → List Value → Run Value}

theorem follows_alone {f : Native} {args : List Value} {run : Run Value}
    (ha : f.alone args = run) : Follows n l run (Invokes g f args) := by
  subst ha
  intro w r m' h
  obtain ⟨w', rfl, -, hw⟩ := (Run.Blind.alone f args).ends h
  exact ⟨[], w', rfl, .alone hw⟩

/-- The body of a closure begins in the frame that has been made for it. -/
theorem follows_enter {params : Params} {args : List Value} {frame : FrameId}
    {run : FrameId → Run α} {K : FrameId → Account α} {M : Account α}
    (hk : ∀ inner, Follows n l (run inner) (K inner))
    (hok : ∀ {w w₁ t r w'}, w.entered params args frame = .ok w₁ → K w.frames.next w₁ t r w' →
      M w t r w')
    (herr : ∀ {w e}, w.entered params args frame = .error e → M w [] (.error e) w) :
    Follows n l (Run.enter params args frame >>= run) M := by
  rw [Run.enter, bind_assoc]
  cases ha : params.assign args with
  | error e =>
    exact .fail fun w => herr (World.entered_eq_error_iff.mpr ha)
  | ok news =>
    refine (Follows.newFrame hk).mono fun w t r w' h => ?_
    exact hok (World.entered_eq_ok_iff.mpr ⟨news, ha, rfl⟩) h

section

variable (happly : ∀ f args, Follows n l (apply f args) (Applies g f args))

include happly

theorem follows_update (i : AtomId) (f : Value) (args : List Value) :
    Follows n l (AtomOp.update apply i f args)
      (Invokes g (.builtin (.atom .swap)) (.atom i :: f :: args)) := by
  have hu (old : Value) : Follows n l (apply f (old :: args) >>= Run.writeAtom i)
      fun w t r w' => old = w.cell i →
        Invokes g (.builtin (.atom .swap)) (.atom i :: f :: args) w t r w' := by
    refine (happly f (old :: args)).bindEnded (F := fun v _ => .ok v)
      (G := fun v w => w.setCell i v) (fun _ _ => rfl) ?_ ?_
    · intro v w t w' h hold
      subst hold
      exact .swap h
    · intro e w t w' h hold
      subst hold
      exact .swapError h
  intro w r m' h
  obtain ⟨t, w', rfl, hj⟩ := hu (w.cell i) h
  exact ⟨t, w', rfl, hj rfl⟩

theorem follows_atomOp (op : AtomOp) (args : List Value) :
    Follows n l (op.run apply args) (Invokes g (.builtin (.atom op)) args) := by
  by_cases hop : op = .swap
  · subst hop
    match args with
    | v :: f :: args =>
      cases v with
      | atom i => exact follows_update happly i f args
      | _ => exact follows_alone rfl
    | [] | [_] => exact follows_alone rfl
  · exact follows_alone (op.run_eq_of_ne_swap hop ..)

theorem follows_builtin (b : Builtin) (args : List Value) :
    Follows n l (b.run apply args) (Invokes g (.builtin b) args) := by
  cases b with
  | atom op => exact follows_atomOp happly op args
  | text op => exact follows_alone rfl
  | arithmetic op => exact follows_alone rfl
  | equal => exact follows_alone rfl
  | relation r => exact follows_alone rfl
  | sequence op => exact follows_alone rfl
  | kind t => exact follows_alone rfl

theorem follows_play (reply : Reply) :
    Follows n l (reply.play apply) (Plays g reply) := by
  induction reply with
  | give v => exact .pure fun _ => .give
  | fail e => exact .fail fun _ => .fail
  | call f args resume ih => exact (happly f args).bind ih .call .callError

theorem follows_native (heval : ∀ form frame, Follows n l (eval form frame) (Enters g form frame))
    (f : Native) (args : List Value) :
    Follows n l (f.run eval apply args) (Invokes g f args) := by
  cases f with
  | builtin b => exact follows_builtin happly b args
  | evalIn root =>
    match args with
    | [form] =>
      intro w r m' h
      obtain ⟨t, w', rfl, hj⟩ := heval form root h
      exact ⟨_, w', rfl, .evalIn hj⟩
    | [] | _ :: _ :: _ => exact follows_alone rfl
  | host name index =>
    intro w r m' h
    cases hh : w.hosts[index]? with
    | some f =>
      rw [Native.run, Run.bind_apply, Run.hostReply, hh] at h
      obtain ⟨t, w', rfl, hj⟩ := follows_play happly (f.run args) h
      exact ⟨t, w', rfl, .host hh hj⟩
    | none =>
      have hn (depth limit : Nat) : (Native.host name index).alone args ⟨w, depth, limit⟩ =
          .of (.error (.internal "no such function of the host")) ⟨w, depth, limit⟩ := by
        rw [Native.alone, Native.run, Run.bind_apply, Run.hostReply, hh]
        rfl
      rw [Native.run, Run.bind_apply, Run.hostReply, hh] at h
      obtain ⟨rfl, rfl⟩ :=
        Outcome.of_inj (r := .error (.internal "no such function of the host")) h
      exact ⟨[], w, rfl, .alone hn⟩

end

/-! ## Applications, loops and evaluations -/

variable (heval : ∀ form frame, Follows n l (eval form frame) (Enters g form frame))

include heval

theorem follows_applyWith (fuel : Nat) (f : Value) (args : List Value) :
    Follows n l (Eval.applyWith eval fuel f args) (Applies g f args) := by
  induction fuel generalizing f args with
  | zero => exact .halt
  | succ fuel ih =>
    cases f with
    | closure i params body frame =>
      exact follows_enter (fun inner => heval body inner) .closure .arity
    | native f => exact (follows_native ih heval f args).mono fun _ _ _ _ => .native
    | _ => exact .fail fun _ => .notCallable rfl

theorem follows_call (happly : ∀ f args, Follows n l (apply f args) (Applies g f args))
    {next : Value → FrameId → Run Value}
    (hnext : ∀ form frame, Follows n l (next form frame) (Evaluates g form frame))
    (f : Value) (args : List Value) :
    Follows n l (Eval.call eval apply f args >>= Eval.conclude next) (Calls g f args) := by
  cases f with
  | closure i params body frame =>
    rw [Eval.call, bind_assoc]
    exact follows_enter (fun inner => hnext body inner) .closure .arity
  | native f =>
    rw [Eval.call, Eval.done_conclude]
    exact (follows_native happly heval f args).mono fun _ _ _ _ => .native
  | _ => exact .fail fun _ => .notCallable rfl

theorem follows_parts {form : Value} (hf : ∀ xs, form ≠ .seq .list xs) (frame : FrameId) :
    Follows n l (Eval.parts eval form frame) (Evaluates g form frame) := by
  match form with
  | .symbol name =>
    exact .ended (f := fun w => w.lookup frame name) (g := id)
      (fun w => Run.lookup_apply frame name w n l) fun _ => .symbol
  | .seq .list xs => exact (hf xs rfl).elim
  | .seq .vector xs =>
    rw [Eval.parts, Eval.items_eq]
    exact (follows_mapM heval frame xs.toList).map .vector
  | .map es =>
    rw [Eval.parts, Eval.entries_eq, ← comp_map]
    exact (follows_mapM heval frame (es.toList.map Prod.snd)).map .map
  | .nil | .bool _ | .int _ | .str _ | .keyword _ | .native _ | .closure .. | .atom _ =>
    exact .pure fun _ => .constant rfl

theorem follows_loop (happly : ∀ f args, Follows n l (apply f args) (Applies g f args))
    (fuel : Nat) (form : Value) (frame : FrameId) :
    Follows n l (Eval.loop eval apply fuel form frame) (Evaluates g form frame) := by
  induction fuel generalizing form frame with
  | zero => exact .halt
  | succ fuel ih =>
    rw [Eval.loop_succ]
    cases hc : form.clause? with
    | some c =>
      rw [Eval.turn_of_clause hc]
      exact (follows_clause heval ih c frame).mono fun _ _ _ _ => .special hc
    | none =>
      by_cases hl : ∃ xs, form = .seq .list xs
      · obtain ⟨xs, rfl⟩ := hl
        rw [Eval.turn_of_call hc, bind_assoc]
        cases hx : xs.toList with
        | nil =>
          exact .pure fun _ => .constant (by rw [Value.isConstant, hx]; rfl)
        | cons x rest =>
          have hk (vs : List Value) : Follows n l
              (Eval.callFirst eval apply (.seq .list xs) vs >>=
                Eval.conclude (Eval.loop eval apply fuel))
              (fun w t r w' => ∀ f args, vs = f :: args → Calls g f args w t r w') := by
            cases vs with
            | nil => exact .pure fun _ _ _ h => absurd h (List.cons_ne_nil _ _).symm
            | cons f args =>
              refine (follows_call heval happly ih f args).mono fun w t r w' h => ?_
              intro f' args' he
              obtain ⟨rfl, rfl⟩ := List.cons.inj he
              exact h
          refine (follows_mapM heval frame (x :: rest)).bind hk ?_ fun h => .callError hc (hx ▸ h)
          intro vs w t₁ w₁ t₂ r w₂ hs hf
          cases vs with
          | nil => exact (hs.ne_ok_nil rfl).elim
          | cons f args => exact .call hc (hx ▸ hs) (hf f args rfl)
      · rw [Eval.turn_of_parts (fun xs h => hl ⟨xs, h⟩), Eval.done_conclude]
        exact follows_parts heval (fun xs h => hl ⟨xs, h⟩) frame

end

/-- One evaluation further down. -/
theorem follows_nested {n l : Nat} {run : Run Value} {form : Value} {frame : FrameId}
    (h : Follows (n + 1) l run (Evaluates (.at (n + 1) l) form frame)) :
    Follows n l (Run.nested run) (Enters (.at n l) form frame) := by
  intro w r m' hr
  rw [Run.nested] at hr
  split at hr
  · next hl =>
    obtain ⟨rfl, rfl⟩ := Outcome.of_inj (r := .error (.tooDeep l)) hr
    rw [Guard.at, Nat.sub_eq_zero_of_le (Nat.le_of_lt_succ hl)]
    exact ⟨_, w, rfl, .refused⟩
  · next hl =>
    obtain ⟨m₁, hrun, rfl⟩ : ∃ m₁, run ⟨w, n + 1, l⟩ = .of r m₁ ∧
        m' = { m₁ with depth := m₁.depth - 1 } := by
      dsimp only at hr
      cases hrun : run ⟨w, n + 1, l⟩ with
      | value a m₁ =>
        rw [hrun] at hr
        obtain ⟨rfl, rfl⟩ := Outcome.of_inj (r := .ok a) hr
        exact ⟨m₁, rfl, rfl⟩
      | error e m₁ =>
        rw [hrun] at hr
        obtain ⟨rfl, rfl⟩ := Outcome.of_inj (r := .error e) hr
        exact ⟨m₁, rfl, rfl⟩
      | halted s =>
        rw [hrun] at hr
        cases r <;> contradiction
    obtain ⟨t, w', rfl, hj⟩ := h hrun
    have hl' : l - n = l - (n + 1) + 1 := by
      change ¬ l < n + 1 at hl
      omega
    rw [Guard.at, hl']
    exact ⟨_, w', rfl, .admitted hj⟩

/-- What an evaluation ends in can be derived. -/
theorem follows_eval (fuel n l : Nat) (form : Value) (frame : FrameId) :
    Follows n l (eval fuel form frame) (Enters (.at n l) form frame) := by
  induction fuel generalizing n form frame with
  | zero => exact .halt
  | succ fuel ih =>
    have heval := ih (n + 1)
    exact follows_nested (follows_loop heval (follows_applyWith heval fuel) fuel form frame)

/-- What an application ends in can be derived. -/
theorem follows_apply (fuel n l : Nat) (f : Value) (args : List Value) :
    Follows n l (apply fuel f args) (Applies (.at n l) f args) :=
  follows_applyWith (follows_eval fuel n l) fuel f args

end Lisplet

import Lisplet.Proofs.BigStep.Soundness
import Lisplet.Proofs.Roots
import Lisplet.Proofs.Session

/-! Depth and limit come back. Whatever a run ends in, it leaves the machine as deep as it was and
under the limit that was in force. In between, turns and functions are run within the limit only:
a watched evaluator, which looks at depth and limit before each of them and breaks off where they
are not as they should be, is the evaluator itself. -/

namespace Lisplet

/-- The machine as a run leaves it, if the run is not broken off. -/
def Outcome.machine? : Outcome α → Option Machine
  | value _ m => some m
  | error _ m => some m
  | halted _ => none

theorem Outcome.machine?_eq_some_iff {o : Outcome α} {m : Machine} :
    o.machine? = some m ↔ ∃ r, o = .of r m := by
  constructor
  · intro h
    cases o with
    | value a m' =>
      cases h
      exact ⟨.ok a, rfl⟩
    | error e m' =>
      cases h
      exact ⟨.error e, rfl⟩
    | halted s => contradiction
  · rintro ⟨r, rfl⟩
    cases r <;> rfl

namespace Run

theorem machine?_attempt (run : Run α) (m : Machine) :
    (run.attempt m).machine? = (run m).machine? := by
  unfold attempt
  cases run m <;> rfl

theorem machine?_withLimit (limit : Nat) (run : Run α) (m : Machine) :
    (withLimit limit run m).machine? =
      (run { m with limit := limit }).machine?.map fun m' => { m' with limit := m.limit } := by
  unfold withLimit
  cases run { m with limit := limit } <;> rfl

/-- Depth and limit are afterwards what they were, be the end a value or an error. -/
def Restores (run : Run α) : Prop :=
  ∀ ⦃m m'⦄, (run m).machine? = some m' → m'.depth = m.depth ∧ m'.limit = m.limit

namespace Restores

theorem of_blind {run : Run α} (h : Blind run) : Restores run := by
  intro ⟨w, n, l⟩ m' hm
  obtain ⟨r, hr⟩ := Outcome.machine?_eq_some_iff.mp hm
  obtain ⟨w', rfl, -, -⟩ := h hr
  exact ⟨rfl, rfl⟩

theorem of_follows {run : Run α} {J : Nat → Nat → Account α}
    (h : ∀ n l, Follows n l run (J n l)) : Restores run := by
  intro ⟨w, n, l⟩ m' hm
  obtain ⟨r, hr⟩ := Outcome.machine?_eq_some_iff.mp hm
  obtain ⟨t, w', rfl, -⟩ := h n l hr
  exact ⟨rfl, rfl⟩

theorem see (f : World → α) : Restores (Run.see f) := by
  intro m m' h
  cases h
  exact ⟨rfl, rfl⟩

theorem pure (a : α) : Restores (Pure.pure a) := see fun _ => a

theorem change (f : World → World) : Restores (Run.change f) := by
  intro m m' h
  cases h
  exact ⟨rfl, rfl⟩

theorem bind {run : Run α} {f : α → Run β} (hr : Restores run) (hf : ∀ a, Restores (f a)) :
    Restores (run >>= f) := by
  intro m m' h
  rw [bind_apply] at h
  cases ho : run m with
  | value a m₁ =>
    rw [ho] at h
    obtain ⟨hd₁, hl₁⟩ := hr (congrArg Outcome.machine? ho)
    obtain ⟨hd₂, hl₂⟩ := hf a h
    exact ⟨hd₂.trans hd₁, hl₂.trans hl₁⟩
  | error e m₁ =>
    rw [ho] at h
    exact hr ((congrArg Outcome.machine? ho).trans h)
  | halted s =>
    rw [ho] at h
    contradiction

theorem map {run : Run α} (hr : Restores run) (f : α → β) : Restores (f <$> run) := by
  rw [← bind_pure_comp]
  exact hr.bind fun a => pure (f a)

theorem attempt {run : Run α} (hr : Restores run) : Restores run.attempt :=
  fun m _ h => hr ((machine?_attempt run m).symm.trans h)

/-- The limit is put back, whatever it was meanwhile. -/
theorem withLimit {run : Run α} (hr : Restores run) (limit : Nat) :
    Restores (Run.withLimit limit run) := by
  intro m m' h
  rw [machine?_withLimit] at h
  obtain ⟨m₁, h₁, rfl⟩ := Option.map_eq_some_iff.mp h
  exact ⟨(hr h₁).1, rfl⟩

theorem lookup (frame : FrameId) (name : String) : Restores (Run.lookup frame name) := by
  intro m m' h
  unfold Run.lookup at h
  cases hg : m.world.frames.get? frame name <;> rw [hg] at h <;> cases h <;> exact ⟨rfl, rfl⟩

end Restores

end Run

open Run (Restores)

theorem restores_eval (fuel : Nat) (form : Value) (frame : FrameId) :
    Restores (eval fuel form frame) :=
  .of_follows fun n l => follows_eval fuel n l form frame

theorem restores_apply (fuel : Nat) (f : Value) (args : List Value) :
    Restores (apply fuel f args) :=
  .of_follows fun n l => follows_apply fuel n l f args

theorem restores_evalForms (fuel : Nat) (frame : FrameId) (last : Value)
    (forms : List (Except ReadError Value)) : Restores (evalForms fuel frame last forms) := by
  induction forms generalizing last with
  | nil => exact .pure last
  | cons form forms ih =>
    cases form with
    | error e => exact .of_blind (.fail _)
    | ok form => exact (restores_eval fuel form frame).bind ih

theorem Engine.restores_eval (fuel : Nat) (engine : Engine) (code : String) :
    Restores (engine.eval fuel code) :=
  (restores_evalForms fuel engine.root .nil (Form.sequence code)).withLimit engine.maxDepth

theorem Engine.restores_rep (fuel : Nat) (engine : Engine) (line : String) :
    Restores (engine.rep fuel line) := by
  unfold rep
  split
  · exact .pure ""
  · refine (engine.restores_eval fuel line).attempt.bind fun found => ?_
    split
    · exact .see _
    · exact .see _

theorem restores_perform (fuel : Nat) (engine : Engine) (op : Operation) :
    Restores (op.perform fuel engine) := by
  cases op with
  | eval code => exact (engine.restores_eval fuel code).map _
  | rep line => exact (engine.restores_rep fuel line).map _
  | evalFile path =>
    exact (Restores.bind (.of_blind (.readFile _ _)) (engine.restores_eval fuel)).map _
  | call name args =>
    exact ((Restores.lookup _ _).bind fun f =>
      (restores_apply fuel f args).withLimit engine.maxDepth).map _
  | get name => exact (Restores.see _).map _
  | set name t x =>
    have hset : Restores (engine.set name t x) :=
      .change fun w => w.bindName engine.root name (t.toValue x)
    exact hset.map _
  | register name f =>
    have hregister : Restores (engine.register name f) :=
      .bind (.see _) fun _ => (Restores.change _).bind fun _ => .change _
    exact hregister.map _
  | setMaxDepth depth => exact .pure _

theorem restores_evalEach (fuel : Nat) (frame : FrameId) (forms : List Value) :
    Restores (SpecialForm.evalEach (eval fuel) frame forms) := by
  induction forms with
  | nil => exact .pure ()
  | cons form forms ih => exact (restores_eval fuel form frame).bind fun _ => ih

theorem Engine.restores_newBare : Restores Engine.newBare := by
  have hroot : Restores Run.newBareRoot :=
    Restores.bind (.bind (.see _) fun _ => (Restores.change _).bind fun _ => .pure _)
      fun _ => (Restores.change _).bind fun _ => .pure _
  refine hroot.bind fun root m m' h => ?_
  cases h
  exact ⟨rfl, rfl⟩

theorem Engine.restores_new (fuel : Nat) : Restores (Engine.new fuel) :=
  restores_newBare.bind fun engine =>
    (restores_evalEach fuel engine.root Prelude.forms).bind fun _ => .pure engine

theorem Plan.restores_turn (fuel : Nat) (plan : Plan) (seat : Seat) :
    Restores (plan.turn fuel seat) := by
  unfold turn
  split
  · refine Restores.map ?_ _
    split
    · exact Engine.restores_newBare
    · exact Engine.restores_new fuel
  · exact restores_perform ..

namespace Session

variable {fuel : Nat} {plans : Nat → Plan} {s s' : Session}

theorem step_eq_ok {k : Nat} (h : s.step fuel plans k = .ok s') :
    ∃ engine result, s' = s.after k engine result s'.machine ∧
      ((plans k).turn fuel (s.seats k) (quiet s.machine)).machine? = some s'.machine := by
  unfold step at h
  split at h
  · next engine answer m ht =>
    cases h
    exact ⟨some engine, .ok answer, rfl, congrArg Outcome.machine? ht⟩
  · next e m ht =>
    cases h
    exact ⟨(s.seats k).engine, .error e, rfl, congrArg Outcome.machine? ht⟩
  · contradiction

/-- However often and in whatever order engines have had their turns, the machine is left with
the depth and the limit that it had in the beginning. -/
theorem run_restores {schedule : List Nat} (h : run fuel plans schedule s = .ok s') :
    s'.machine.depth = s.machine.depth ∧ s'.machine.limit = s.machine.limit := by
  induction schedule generalizing s with
  | nil =>
    cases h
    exact ⟨rfl, rfl⟩
  | cons k schedule ih =>
    rw [run, List.foldlM_cons] at h
    obtain ⟨s₁, h₁, h⟩ := Except.of_bind h
    obtain ⟨engine, result, -, hm⟩ := step_eq_ok h₁
    obtain ⟨hd, hl⟩ := (plans k).restores_turn fuel (s.seats k) hm
    obtain ⟨hd', hl'⟩ := ih h
    exact ⟨hd'.trans hd, hl'.trans hl⟩

end Session

/-! ## A watched evaluator -/

/-- What an evaluation is held to: the limit that is to be in force and that refusals are to name,
and how deep turns and functions may run. Where that is not so the run ends in `stop`. -/
structure Watch where
  limit : Nat
  bound : Nat
  stop : Halt

namespace Watch

/-- The run, if depth and limit are as they should be. -/
def guarded (w : Watch) (run : Run α) : Run α := fun m =>
  if m.depth ≤ w.bound ∧ m.limit = w.limit then run m else .halted w.stop

/-- Like `Run.nested`, but a refusal names the limit that should be in force. -/
def nested (w : Watch) (run : Run α) : Run α := fun m =>
  if m.limit < m.depth + 1 then .error (.tooDeep w.limit) m
  else Run.nested run m

/-- Like `Eval.call`, but natives are watched. -/
def call (w : Watch) (eval : Value → FrameId → Run Value) (apply : Value → List Value → Run Value)
    (f : Value) (args : List Value) : Run Turn :=
  match f with
  | .native g => .done <$> w.guarded (g.run eval apply args)
  | f => Eval.call eval apply f args

/-- Like `Eval.turn`, but natives are watched. -/
def turn (w : Watch) (eval : Value → FrameId → Run Value) (apply : Value → List Value → Run Value)
    (form : Value) (frame : FrameId) : Run Turn :=
  match form with
  | .seq .list forms =>
    match forms.first?.bind Value.specialForm? with
    | some f => f.run eval forms.toList.tail frame
    | none => do
      match ← Eval.items eval frame forms with
      | f :: args => w.call eval apply f args
      | [] => return .done form
  | form => .done <$> Eval.parts eval form frame

/-- Like `Eval.loop`, but each turn is watched. -/
def loop (w : Watch) (eval : Value → FrameId → Run Value) (apply : Value → List Value → Run Value) :
    Nat → Value → FrameId → Run Value
  | 0, _, _ => Run.halt .outOfFuel
  | fuel + 1, form, frame =>
    w.guarded (w.turn eval apply form frame) >>= Eval.conclude (w.loop eval apply fuel)

/-- Like `Eval.applyWith`, but natives are watched. -/
def applyWith (w : Watch) (eval : Value → FrameId → Run Value) :
    Nat → Value → List Value → Run Value
  | 0, _, _ => Run.halt .outOfFuel
  | fuel + 1, f, args =>
    match f with
    | .closure _ params body frame => do
      let inner ← Run.enter params args frame
      eval body inner
    | .native g => w.guarded (g.run eval (w.applyWith eval fuel) args)
    | other => Run.fail (.notCallable other)

def eval (w : Watch) : Nat → Value → FrameId → Run Value
  | 0, _, _ => Run.halt .outOfFuel
  | fuel + 1, form, frame =>
    w.nested (w.loop (w.eval fuel) (w.applyWith (w.eval fuel) fuel) fuel form frame)

def apply (w : Watch) (fuel : Nat) (f : Value) (args : List Value) : Run Value :=
  w.applyWith (w.eval fuel) fuel f args

def evalForms (w : Watch) (fuel : Nat) (frame : FrameId) (last : Value) :
    List (Except ReadError Value) → Run Value
  | [] => return last
  | .error e :: _ => Run.fail (.read e)
  | .ok form :: rest => do
    let v ← w.eval fuel form frame
    w.evalForms fuel frame v rest

end Watch

/-- Two runs that begin at depth `n` under the limit `l` do the same, and come back to these. -/
structure Agree (n l : Nat) (run run' : Run α) : Prop where
  same : ∀ world, run ⟨world, n, l⟩ = run' ⟨world, n, l⟩
  back : ∀ ⦃world m'⦄, (run' ⟨world, n, l⟩).machine? = some m' → m'.depth = n ∧ m'.limit = l

namespace Agree

variable {n l : Nat}

theorem refl {run : Run α} (h : Restores run) : Agree n l run run where
  same _ := rfl
  back _ _ hm := h hm

theorem halt (s : Halt) : Agree n l (Run.halt s : Run α) (Run.halt s) :=
  .refl (.of_blind (.halt s))

theorem bind {run run' : Run α} {f f' : α → Run β} (hr : Agree n l run run')
    (hf : ∀ a, Agree n l (f a) (f' a)) : Agree n l (run >>= f) (run' >>= f') where
  same world := by
    rw [Run.bind_apply, Run.bind_apply, hr.same]
    cases ho : run' ⟨world, n, l⟩ with
    | value a m =>
      obtain ⟨rfl, rfl⟩ := hr.back (congrArg Outcome.machine? ho)
      exact (hf a).same m.world
    | error e m => rfl
    | halted s => rfl
  back world m' hm := by
    rw [Run.bind_apply] at hm
    cases ho : run' ⟨world, n, l⟩ with
    | value a m =>
      rw [ho] at hm
      obtain ⟨rfl, rfl⟩ := hr.back (congrArg Outcome.machine? ho)
      exact (hf a).back hm
    | error e m =>
      rw [ho] at hm
      exact hr.back ((congrArg Outcome.machine? ho).trans hm)
    | halted s =>
      rw [ho] at hm
      contradiction

theorem map {run run' : Run α} (hr : Agree n l run run') (f : α → β) :
    Agree n l (f <$> run) (f <$> run') := by
  rw [← bind_pure_comp, ← bind_pure_comp]
  exact hr.bind fun a => .refl (.pure (f a))

/-- Where depth and limit are as they should be a watched run goes on. -/
theorem guarded {w : Watch} {run run' : Run α} (h : Agree n l run run') (hn : n ≤ w.bound)
    (hl : l = w.limit) : Agree n l (w.guarded run) run' where
  same world := by
    rw [Watch.guarded, if_pos ⟨hn, hl⟩]
    exact h.same world
  back := h.back

end Agree

section

variable {n l : Nat} {eval eval' : Value → FrameId → Run Value}
  {apply apply' : Value → List Value → Run Value}
  (heval : ∀ form frame, Agree n l (eval form frame) (eval' form frame))

section

include heval

theorem agree_mapM (frame : FrameId) (forms : List Value) :
    Agree n l (forms.mapM (eval · frame)) (forms.mapM (eval' · frame)) := by
  induction forms with
  | nil => exact .refl (.pure [])
  | cons form forms ih =>
    rw [List.mapM_cons, List.mapM_cons]
    exact (heval form frame).bind fun v => ih.bind fun vs => .refl (.pure (v :: vs))

theorem agree_bindPairs (frame : FrameId) (bindings : List (Value × Value)) :
    Agree n l (SpecialForm.bindPairs eval frame bindings)
      (SpecialForm.bindPairs eval' frame bindings) := by
  induction bindings with
  | nil => exact .refl (.pure ())
  | cons binding rest ih =>
    obtain ⟨name, form⟩ := binding
    cases name with
    | symbol name =>
      exact (heval form frame).bind fun v => .bind (.refl (.change _)) fun _ => ih
    | _ => exact .refl (.of_blind (.fail _))

theorem agree_clause (frame : FrameId) (c : Clause) :
    Agree n l (c.run eval frame) (c.run eval' frame) := by
  cases c with
  | define name form =>
    exact (heval form frame).bind fun v => .refl ((Restores.change _).bind fun _ => .pure _)
  | bind bindings body =>
    have hchild : Restores (Run.child frame) :=
      .bind (.see _) fun _ => (Restores.change _).bind fun _ => .pure _
    exact .bind (.refl hchild) fun inner =>
      (agree_bindPairs heval inner bindings).bind fun _ => .refl (.pure _)
  | sequence effects last =>
    rw [Clause.run, Clause.run, SpecialForm.evalEach_eq, SpecialForm.evalEach_eq]
    exact ((agree_mapM heval frame effects).map _).bind fun _ => .refl (.pure _)
  | branch condition consequent alternative =>
    exact (heval condition frame).bind fun v => .refl (.pure _)
  | lambda params body =>
    have hnew : Restores (Run.newClosure params body frame) :=
      .bind (.see _) fun _ => (Restores.change _).bind fun _ => .pure _
    exact .refl (hnew.bind fun f => .pure _)
  | quote | quasiquote | expand => exact .refl (.pure _)
  | malformed f flaw => exact .refl (.of_blind (.fail _))

theorem agree_parts (form : Value) (frame : FrameId) :
    Agree n l (Eval.parts eval form frame) (Eval.parts eval' form frame) := by
  cases form with
  | symbol name => exact .refl (.lookup frame name)
  | seq shape xs =>
    simp only [Eval.parts, Eval.items_eq]
    exact (agree_mapM heval frame xs.toList).map _
  | map es =>
    simp only [Eval.parts, Eval.entries_eq]
    exact ((agree_mapM heval frame _).map _).map _
  | _ => exact .refl (.pure _)

end

variable (happly : ∀ f args, Agree n l (apply f args) (apply' f args))

section

include happly

theorem agree_play (reply : Reply) : Agree n l (reply.play apply) (reply.play apply') := by
  induction reply with
  | give v => exact .refl (.pure v)
  | fail e => exact .refl (.of_blind (.fail e))
  | call f args resume ih => exact (happly f args).bind ih

theorem agree_atomOp (op : AtomOp) (args : List Value) :
    Agree n l (op.run apply args) (op.run apply' args) := by
  by_cases hop : op = .swap
  · subst hop
    match args with
    | v :: f :: args =>
      exact .bind (.refl (.of_blind (.ofExcept _))) fun i =>
        .bind (.refl (.see _)) fun old =>
          (happly f (old :: args)).bind fun v => .refl (.of_blind (.writeAtom i v))
    | [] | [_] => exact .refl (.of_blind (.fail _))
  · rw [op.run_eq_of_ne_swap hop apply' (fun _ _ => Run.halt .outOfFuel),
      op.run_eq_of_ne_swap hop apply (fun _ _ => Run.halt .outOfFuel)]
    exact .refl (.of_blind (.atomOp (fun _ _ => .halt _) op args))

include heval

theorem agree_native (f : Native) (args : List Value) :
    Agree n l (f.run eval apply args) (f.run eval' apply' args) := by
  cases f with
  | builtin b =>
    cases b with
    | atom op => exact agree_atomOp happly op args
    | text op => exact .refl (.of_blind (.textOp op args))
    | _ => exact .refl (.of_blind (.ofExcept _))
  | evalIn root =>
    match args with
    | [form] => exact heval form root
    | [] | _ :: _ :: _ => exact .refl (.of_blind (.fail _))
  | host name index =>
    exact .bind (.refl (.of_blind (.hostReply index args))) (agree_play happly)

end

end

theorem restores_enter (params : Params) (args : List Value) (frame : FrameId) :
    Restores (Run.enter params args frame) :=
  .bind (.of_blind (.ofExcept _)) fun _ => .bind (.see _) fun _ =>
    (Restores.change _).bind fun _ => .pure _

section

variable {n : Nat} {w : Watch} (hn : n ≤ w.bound) {eval eval' : Value → FrameId → Run Value}
  (heval : ∀ form frame, Agree n w.limit (eval form frame) (eval' form frame))

include hn heval

theorem agree_applyWith (fuel : Nat) (f : Value) (args : List Value) :
    Agree n w.limit (w.applyWith eval fuel f args) (Eval.applyWith eval' fuel f args) := by
  induction fuel generalizing f args with
  | zero => exact .halt .outOfFuel
  | succ fuel ih =>
    cases f with
    | closure i params body frame =>
      exact .bind (.refl (restores_enter ..)) fun inner => heval body inner
    | native g => exact (agree_native heval ih g args).guarded hn rfl
    | _ => exact .refl (.of_blind (.fail _))

variable {apply apply' : Value → List Value → Run Value}
  (happly : ∀ f args, Agree n w.limit (apply f args) (apply' f args))

include happly

theorem agree_call (f : Value) (args : List Value) :
    Agree n w.limit (w.call eval apply f args) (Eval.call eval' apply' f args) := by
  cases f with
  | closure i params body frame =>
    exact .bind (.refl (restores_enter ..)) fun inner => .refl (.pure _)
  | native g => exact ((agree_native heval happly g args).guarded hn rfl).map _
  | _ => exact .refl (.of_blind (.fail _))

theorem agree_turn (form : Value) (frame : FrameId) :
    Agree n w.limit (w.turn eval apply form frame) (Eval.turn eval' apply' form frame) := by
  match form with
  | .seq .list xs =>
    simp only [Watch.turn, Eval.turn]
    cases xs.first?.bind Value.specialForm? with
    | some f =>
      simp only [SpecialForm.run_eq]
      exact agree_clause heval frame _
    | none =>
      simp only [Eval.items_eq]
      refine (agree_mapM heval frame xs.toList).bind fun vs => ?_
      cases vs with
      | nil => exact .refl (.pure _)
      | cons f args => exact agree_call hn heval happly f args
  | .seq .vector _ | .map _ | .symbol _ | .nil | .bool _ | .int _ | .str _ | .keyword _
  | .native _ | .closure .. | .atom _ => exact (agree_parts heval _ frame).map _

theorem agree_loop (fuel : Nat) (form : Value) (frame : FrameId) :
    Agree n w.limit (w.loop eval apply fuel form frame)
      (Eval.loop eval' apply' fuel form frame) := by
  induction fuel generalizing form frame with
  | zero => exact .halt .outOfFuel
  | succ fuel ih =>
    rw [Eval.loop_succ, Watch.loop]
    refine ((agree_turn hn heval happly form frame).guarded hn rfl).bind fun turn => ?_
    cases turn with
    | done v => exact .refl (.pure v)
    | tail form frame => exact ih form frame

end

/-- One level further down is still within the bound, since the limit is checked on the way. -/
theorem agree_nested {n : Nat} {w : Watch} (hw : w.limit ≤ w.bound) {run run' : Run α}
    (h : n + 1 ≤ w.bound → Agree (n + 1) w.limit run run') :
    Agree n w.limit (w.nested run) (Run.nested run') := by
  by_cases hl : w.limit < n + 1
  · have hrefused (world : World) :
        Run.nested run' ⟨world, n, w.limit⟩ = .error (.tooDeep w.limit) ⟨world, n, w.limit⟩ := by
      rw [Run.nested, if_pos hl]
    refine ⟨fun world => ?_, fun world m' hm => ?_⟩
    · rw [hrefused, Watch.nested, if_pos hl]
    · rw [hrefused] at hm
      cases hm
      exact ⟨rfl, rfl⟩
  · have hin := h (by omega)
    refine ⟨fun world => ?_, fun world m' hm => ?_⟩
    · rw [Watch.nested, if_neg hl, Run.nested, Run.nested, if_neg hl, if_neg hl, hin.same]
    · rw [Run.nested, if_neg hl] at hm
      cases ho : run' ⟨world, n + 1, w.limit⟩ with
      | value a m =>
        rw [ho] at hm
        cases hm
        obtain ⟨hd, hl⟩ := hin.back (congrArg Outcome.machine? ho)
        exact ⟨by simp [hd], hl⟩
      | error e m =>
        rw [ho] at hm
        cases hm
        obtain ⟨hd, hl⟩ := hin.back (congrArg Outcome.machine? ho)
        exact ⟨by simp [hd], hl⟩
      | halted s =>
        rw [ho] at hm
        contradiction

theorem agree_eval {w : Watch} (hw : w.limit ≤ w.bound) (fuel n : Nat) (form : Value)
    (frame : FrameId) : Agree n w.limit (w.eval fuel form frame) (eval fuel form frame) := by
  induction fuel generalizing n form frame with
  | zero => exact .halt .outOfFuel
  | succ fuel ih =>
    refine agree_nested hw fun hn => ?_
    have heval := ih (n + 1)
    exact agree_loop hn heval (agree_applyWith hn heval fuel) fuel form frame

theorem agree_apply {w : Watch} (hw : w.limit ≤ w.bound) (fuel : Nat) {n : Nat} (hn : n ≤ w.bound)
    (f : Value) (args : List Value) : Agree n w.limit (w.apply fuel f args) (apply fuel f args) :=
  agree_applyWith hn (agree_eval hw fuel n) fuel f args

theorem agree_evalForms {w : Watch} (hw : w.limit ≤ w.bound) (fuel n : Nat) (frame : FrameId)
    (last : Value) (forms : List (Except ReadError Value)) :
    Agree n w.limit (w.evalForms fuel frame last forms) (evalForms fuel frame last forms) := by
  induction forms generalizing last with
  | nil => exact .refl (.pure last)
  | cons form forms ih =>
    cases form with
    | error e => exact .refl (.of_blind (.fail _))
    | ok form => exact (agree_eval hw fuel n form frame).bind ih

/-! ## Engines -/

namespace Agree

variable {n l : Nat}

theorem attempt {run run' : Run α} (h : Agree n l run run') :
    Agree n l run.attempt run'.attempt where
  same world := by rw [Run.attempt, Run.attempt, h.same]
  back world m' hm := h.back ((Run.machine?_attempt run' _).symm.trans hm)

/-- Under a limit of its own a run is watched against that one. -/
theorem withLimit {limit : Nat} {run run' : Run α} (h : Agree n limit run run') :
    Agree n l (Run.withLimit limit run) (Run.withLimit limit run') where
  same world := by rw [Run.withLimit, Run.withLimit, h.same]
  back world m' hm := by
    rw [Run.machine?_withLimit] at hm
    obtain ⟨m₁, h₁, rfl⟩ := Option.map_eq_some_iff.mp hm
    exact ⟨(h.back h₁).1, rfl⟩

end Agree

namespace Watch

/-- What an operation of an engine is held to that begins at depth `n`: to the engine's own limit,
and to a depth that only the beginning may have exceeded. -/
def ofEngine (engine : Engine) (n : Nat) (stop : Halt) : Watch :=
  ⟨engine.maxDepth, max n engine.maxDepth, stop⟩

/-- Like `Engine.eval`, but watched. -/
def engineEval (w : Watch) (fuel : Nat) (engine : Engine) (code : String) : Run Value :=
  Run.withLimit engine.maxDepth (w.evalForms fuel engine.root .nil (Form.sequence code))

/-- Like `Engine.rep`, but watched. -/
def engineRep (w : Watch) (fuel : Nat) (engine : Engine) (line : String) : Run String :=
  if Text.allBlank line then return ""
  else do
    match ← (w.engineEval fuel engine line).attempt with
    | .ok v => Run.see fun world => v.text .readable world.atoms
    | .error e => Engine.complaint e

/-- Like `Operation.perform`, but all that is evaluated or applied is watched. -/
def perform (w : Watch) (fuel : Nat) (engine : Engine) : Operation → Run (Engine × Answer)
  | .eval code => (fun v => (engine, .value v)) <$> w.engineEval fuel engine code
  | .rep line => (fun s => (engine, .text s)) <$> w.engineRep fuel engine line
  | .evalFile path => (fun v => (engine, .value v)) <$> do
    let code ← Run.readFile "eval_file" path
    w.engineEval fuel engine code
  | .call name args => (fun v => (engine, .value v)) <$> do
    let f ← Run.lookup engine.root name
    Run.withLimit engine.maxDepth (w.apply fuel f args)
  | op => op.perform fuel engine

end Watch

theorem agree_engineEval (fuel : Nat) (engine : Engine) (n l : Nat) (stop : Halt) (code : String) :
    Agree n l ((Watch.ofEngine engine n stop).engineEval fuel engine code)
      (engine.eval fuel code) :=
  Agree.withLimit (agree_evalForms (w := .ofEngine engine n stop) (Nat.le_max_right ..) fuel n
    engine.root .nil (Form.sequence code))

/-- What an engine does, it does under its own limit, and what is too deep for it is told with
that limit. -/
theorem agree_perform (fuel : Nat) (engine : Engine) (n l : Nat) (stop : Halt) (op : Operation) :
    Agree n l ((Watch.ofEngine engine n stop).perform fuel engine op)
      (op.perform fuel engine) := by
  have hcode := agree_engineEval fuel engine n l stop
  cases op with
  | eval code => exact (hcode code).map _
  | rep line =>
    refine Agree.map ?_ _
    unfold Watch.engineRep Engine.rep
    split
    · exact .refl (.pure "")
    · refine (hcode line).attempt.bind fun found => ?_
      cases found with
      | ok v => exact .refl (.see _)
      | error e => exact .refl (.see _)
  | evalFile path =>
    exact (Agree.bind (.refl (.of_blind (.readFile _ _))) hcode).map _
  | call name args =>
    refine (Agree.bind (.refl (.lookup _ _)) fun f => ?_).map _
    exact Agree.withLimit (agree_apply (w := .ofEngine engine n stop) (Nat.le_max_right ..) fuel
      (Nat.le_max_left ..) f args)
  | get name => exact .refl (restores_perform fuel engine (.get name))
  | set name t x => exact .refl (restores_perform fuel engine (.set name t x))
  | register name f => exact .refl (restores_perform fuel engine (.register name f))
  | setMaxDepth depth => exact .refl (restores_perform fuel engine (.setMaxDepth depth))

/-- **Depth and limit are restored on every exit**, of evaluations, of applications, of all that an
engine is asked for and of any sequence of that. While they last, no turn is taken and no function
runs beyond the limit in force unless it was exceeded in the beginning: the evaluator that would
then break off does the same. A refusal that comes about while an engine is at work names the limit
of that engine. Functions of the host are assumed to leave the limit alone, as `Reply` has it. -/
theorem depth_restored :
    (∀ fuel form frame, Restores (eval fuel form frame)) ∧
    (∀ fuel f args, Restores (apply fuel f args)) ∧
    (∀ fuel form frame stop (m : Machine), m.depth ≤ m.limit →
      Watch.eval ⟨m.limit, m.limit, stop⟩ fuel form frame m = eval fuel form frame m) ∧
    (∀ fuel f args stop (m : Machine), m.depth ≤ m.limit →
      Watch.apply ⟨m.limit, m.limit, stop⟩ fuel f args m = apply fuel f args m) ∧
    (∀ fuel engine (op : Operation), Restores (op.perform fuel engine)) ∧
    (∀ fuel engine (op : Operation) stop (m : Machine),
      (Watch.ofEngine engine m.depth stop).perform fuel engine op m = op.perform fuel engine m) ∧
    (∀ fuel plans schedule s s', Session.run fuel plans schedule s = .ok s' →
      s'.machine.depth = s.machine.depth ∧ s'.machine.limit = s.machine.limit) := by
  refine ⟨restores_eval, restores_apply, ?_, ?_, restores_perform, ?_,
    fun fuel plans schedule s s' => Session.run_restores⟩
  · intro fuel form frame stop m _
    exact (agree_eval (w := ⟨m.limit, m.limit, stop⟩) (Nat.le_refl _) fuel m.depth form frame).same
      m.world
  · intro fuel f args stop m hm
    exact (agree_apply (w := ⟨m.limit, m.limit, stop⟩) (Nat.le_refl _) fuel hm f args).same m.world
  · intro fuel engine op stop m
    exact (agree_perform fuel engine m.depth m.limit stop op).same m.world

end Lisplet

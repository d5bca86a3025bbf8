import Lisplet.Proofs.DepthScope
import Lisplet.Proofs.Renaming.Runs

/-! Engines on one machine do not notice each other. Whatever the order of their turns, each of
them goes the same way as it would with the machine to itself, but for the numbers of frames,
atoms, closures and functions of the host. What an engine is asked for may depend on all that it
has answered, but not on the answers of others, and not on the numbers in its own. -/

namespace Lisplet

variable {ρ σ : Renaming}

/-! ## What engines are asked and answer -/

structure Engine.Alike (ρ : Renaming) (e e' : Engine) : Prop where
  root : ρ.frames.rel e.root e'.root
  maxDepth : e.maxDepth = e'.maxDepth

inductive Answer.Alike (ρ : Renaming) : Answer → Answer → Prop where
  | value (h : v.Alike ρ v') : Alike ρ (.value v) (.value v')
  | text (s : String) : Alike ρ (.text s) (.text s)
  | binding (h : Option.Rel (Value.Alike ρ) v v') : Alike ρ (.binding v) (.binding v')
  | depth (n : Nat) : Alike ρ (.depth n) (.depth n)
  | done : Alike ρ .done .done

/-- Reports of the same result, but for the numbers in it, and of the same output. -/
structure Report.Alike (ρ : Renaming) (r r' : Report) : Prop where
  result : ResultAlike ρ (Answer.Alike ρ) r.result r'.result
  output : r.output = r'.output

/-- The same request, but for the numbers in the values that are handed over. -/
inductive Operation.Alike (ρ : Renaming) : Operation → Operation → Prop where
  | eval (code : String) : Alike ρ (.eval code) (.eval code)
  | rep (line : String) : Alike ρ (.rep line) (.rep line)
  | evalFile (path : String) : Alike ρ (.evalFile path) (.evalFile path)
  | call (name : String) (h : List.Forall₂ (Value.Alike ρ) args args') :
    Alike ρ (.call name args) (.call name args')
  | get (name : String) : Alike ρ (.get name) (.get name)
  | set (name : String) (t : HostType) {x x' : t.Carrier}
    (h : (t.toValue x).Alike ρ (t.toValue x')) : Alike ρ (.set name t x) (.set name t x')
  | register (name : String) (h : f.Alike ρ f') : Alike ρ (.register name f) (.register name f')
  | setMaxDepth (depth : Nat) : Alike ρ (.setMaxDepth depth) (.setMaxDepth depth)

structure Seat.Alike (ρ : Renaming) (s s' : Seat) : Prop where
  engine : Option.Rel (Engine.Alike ρ) s.engine s'.engine
  reports : List.Forall₂ (Report.Alike ρ) s.reports s'.reports

theorem Engine.Alike.mono {e e' : Engine} (hle : ρ ≤ σ) (h : e.Alike ρ e') : e.Alike σ e' :=
  ⟨hle.frames h.root, h.maxDepth⟩

theorem Answer.Alike.mono {a a' : Answer} (hle : ρ ≤ σ) (h : a.Alike ρ a') : a.Alike σ a' := by
  cases h with
  | value h => exact .value (h.mono hle)
  | text s => exact .text s
  | binding h => exact .binding (optionRel_imp (fun _ _ hv => hv.mono hle) h)
  | depth n => exact .depth n
  | done => exact .done

theorem Report.Alike.mono {r r' : Report} (hle : ρ ≤ σ) (h : r.Alike ρ r') : r.Alike σ r' := by
  obtain ⟨hr, ho⟩ := h
  refine ⟨?_, ho⟩
  generalize r.result = x at hr ⊢
  generalize r'.result = y at hr ⊢
  cases hr with
  | ok h => exact .ok (h.mono hle)
  | error h => exact .error (h.mono hle)

theorem Seat.Alike.mono {s s' : Seat} (hle : ρ ≤ σ) (h : s.Alike ρ s') : s.Alike σ s' :=
  ⟨optionRel_imp (fun _ _ he => he.mono hle) h.engine, h.reports.imp fun _ _ hr => hr.mono hle⟩

/-- A plan that takes the values which it hands over from the reports of its own engine and does
not look at the numbers in them. -/
def Plan.SelfContained (plan : Plan) : Prop :=
  ∀ ⦃ρ reports reports'⦄, List.Forall₂ (Report.Alike ρ) reports reports' →
    (plan.next reports).Alike ρ (plan.next reports')

/-- The plan to ask for given things, one after the other. -/
def Plan.script (bare : Bool) (ops : List Operation) : Plan :=
  ⟨bare, fun reports => ops.getD (reports.length - 1) (.eval "")⟩

/-- A plan that looks at nothing hands over nothing either. -/
theorem Plan.selfContained_script {ops : List Operation} (h : ∀ op ∈ ops, ∀ ρ, op.Alike ρ op)
    (bare : Bool) : (script bare ops).SelfContained := by
  intro ρ reports reports' hr
  have hlast : ops.getD (reports.length - 1) (.eval "") ∈ .eval "" :: ops := by
    rw [List.getD_eq_getElem?_getD]
    cases hi : ops[reports.length - 1]? with
    | none => exact List.mem_cons_self
    | some op => exact List.mem_cons_of_mem _ (List.mem_of_getElem? hi)
  change Operation.Alike ρ (ops.getD _ _) (ops.getD _ _)
  rw [← hr.length_eq]
  rcases List.mem_cons.mp hlast with hop | hop
  · rw [hop]
    exact .eval ""
  · exact h _ hop ρ

/-! ## Engines side by side -/

open Run (Parallel)

namespace Engine

variable {e e' : Engine}

theorem parallel_eval (fuel : Nat) (he : e.Alike ρ e') (code : String) :
    Parallel ρ Value.Alike (e.eval fuel code) (e'.eval fuel code) := by
  rw [eval, eval, he.maxDepth]
  exact .withLimit _ (parallel_evalForms fuel he.root .nil fun v hv σ =>
    Form.alike_of_mem_sequence hv σ)

theorem parallel_rep (fuel : Nat) (he : e.Alike ρ e') (line : String) :
    Parallel ρ (fun _ => (· = ·)) (e.rep fuel line) (e'.rep fuel line) := by
  unfold rep
  split
  · exact .pure rfl
  · refine (parallel_eval fuel he line).attempt.bind fun σ found found' hle hfound => ?_
    cases hfound with
    | ok hv => exact .see fun _ _ hw => hv.text_eq hw.atoms .readable
    | error h => exact .see fun _ _ hw => congrArg ("Error: " ++ ·) (h.message_eq hw.atoms)

theorem parallel_evalFile (fuel : Nat) (he : e.Alike ρ e') (path : String) :
    Parallel ρ Value.Alike (e.evalFile fuel path) (e'.evalFile fuel path) := by
  refine (Parallel.readFile "eval_file" path).bind fun σ code _ hle hcode => ?_
  cases hcode
  exact parallel_eval fuel (he.mono hle) code

theorem parallel_call (fuel : Nat) (he : e.Alike ρ e') (name : String) {args args' : List Value}
    (ha : List.Forall₂ (Value.Alike ρ) args args') :
    Parallel ρ Value.Alike (e.call fuel name args) (e'.call fuel name args') := by
  rw [call, call, he.maxDepth]
  exact (Parallel.lookup he.root name).bind fun σ f f' hle hf =>
    .withLimit _ (appliesAlike_apply fuel hf (Value.forall₂_mono hle ha))

theorem parallel_get? (he : e.Alike ρ e') (name : String) :
    Parallel ρ (fun σ => Option.Rel (Value.Alike σ)) (e.get? name) (e'.get? name) :=
  .see fun _ _ hw => Frames.alike_get? hw.frames he.root name

theorem parallel_register (he : e.Alike ρ e') (name : String) {f f' : HostFunction}
    (hf : f.Alike ρ f') : Parallel ρ Run.Done (e.register name f) (e'.register name f') := by
  have hindex : Parallel ρ (fun σ => σ.hosts.rel)
      (do let index ← Run.see fun w => w.hosts.size
          Run.change fun w => w.withHost f
          return index)
      (do let index ← Run.see fun w => w.hosts.size
          Run.change fun w => w.withHost f'
          return index) :=
    fun _ _ hm => .value (hm.world.grows_withHost f) ⟨hm.world.withHost hf, hm.depth, hm.limit⟩
      (.inr ⟨rfl, rfl⟩)
  have hregister (e : Engine) (f : HostFunction) : e.register name f =
      (do let index ← Run.see fun w => w.hosts.size
          Run.change fun w => w.withHost f
          return index) >>= fun index => Run.bindName e.root name (.native (.host name index)) :=
    rfl
  rw [hregister, hregister]
  exact hindex.bind fun σ i i' hle hi =>
    .bindName (hle.frames he.root) name (.native (.host name hi))

/-! ### Making engines -/

theorem alike_builtinBindings {i i' : FrameId} (hi : ρ.frames.rel i i') :
    List.Forall₂ (NamedAlike ρ)
      (Builtin.all.map (fun b => (b.name, .native (.builtin b))) ++
        [((Native.evalIn i).name, .native (.evalIn i))])
      (Builtin.all.map (fun b => (b.name, .native (.builtin b))) ++
        [((Native.evalIn i').name, .native (.evalIn i'))]) := by
  refine List.rel_append (List.forall₂_same.mpr fun p hp => ?_)
    (.cons ⟨rfl, .native (.evalIn hi)⟩ .nil)
  obtain ⟨b, -, rfl⟩ := List.mem_map.mp hp
  exact ⟨rfl, .native (.builtin b)⟩

theorem parallel_newBare : Parallel ρ Engine.Alike newBare newBare := by
  have hroot : Parallel ρ (fun σ => σ.frames.rel) Run.newBareRoot Run.newBareRoot := by
    have hempty : Frame.Alike ρ ⟨none, ∅⟩ ⟨none, ∅⟩ := ⟨.none, .empty⟩
    refine (Parallel.newFrame hempty).bind fun σ i i' _ hi => ?_
    exact (Parallel.bindAll hi (alike_builtinBindings hi)).bind fun τ _ _ hle _ =>
      .pure (hle.frames hi)
  exact hroot.bind fun σ i i' _ hi m m' hm => .value (.refl ..) hm ⟨hi, hm.limit⟩

theorem alike_defineUnary (name param : String) {body : Value} (h : body.Alike ρ body) :
    (Prelude.defineUnary name param body).Alike ρ (Prelude.defineUnary name param body) := by
  have hparams : (Value.list [.symbol param]).Alike ρ (.list [.symbol param]) :=
    Value.alike_list_iff.mpr (.cons (.symbol param) .nil)
  have hlambda := Template.alike_call SpecialForm.lambda.name (.cons hparams (.cons h .nil))
  exact Template.alike_call _ (.cons (.symbol name) (.cons hlambda .nil))

/-- The prelude has no numbers in it. -/
theorem alike_prelude (ρ : Renaming) :
    List.Forall₂ (Value.Alike ρ) Prelude.forms Prelude.forms := by
  have hnot : Prelude.notBody.Alike ρ Prelude.notBody :=
    Template.alike_call "if" (.cons (.symbol "a") (.cons (.bool false) (.cons (.bool true) .nil)))
  have hparam : (Value.symbol "f").Alike ρ (.symbol "f") := .symbol "f"
  have hslurp := Template.alike_call "slurp" (.cons hparam .nil)
  have hstr := Template.alike_call "str"
    (.cons (.str "(do ") (.cons hslurp (.cons (.str "\nnil)") .nil)))
  have hread := Template.alike_call "read-string" (.cons hstr .nil)
  have hload := Template.alike_call "eval" (.cons hread .nil)
  rw [Prelude.forms_eq]
  exact .cons (alike_defineUnary "not" "a" hnot) (.cons (alike_defineUnary _ "f" hload) .nil)

theorem parallel_new (fuel : Nat) : Parallel ρ Engine.Alike (new fuel) (new fuel) := by
  refine parallel_newBare.bind fun σ e e' _ he => ?_
  have hload : Parallel σ Run.Done (Prelude.load fuel e.root) (Prelude.load fuel e'.root) := by
    rw [Prelude.load, Prelude.load, SpecialForm.evalEach_eq, SpecialForm.evalEach_eq]
    exact (parallel_mapM (evaluatesAlike_eval fuel) he.root (alike_prelude σ)).map
      fun _ _ _ _ _ => trivial
  exact hload.bind fun τ _ _ hle _ => .pure (he.mono hle)

end Engine

/-- An engine and what it answers. -/
def TurnAlike (ρ : Renaming) (x x' : Engine × Answer) : Prop := x.1.Alike ρ x'.1 ∧ x.2.Alike ρ x'.2

theorem parallel_perform (fuel : Nat) {e e' : Engine} (he : e.Alike ρ e') {op op' : Operation}
    (ho : op.Alike ρ op') : Parallel ρ TurnAlike (op.perform fuel e) (op'.perform fuel e') := by
  cases ho with
  | eval code =>
    exact (Engine.parallel_eval fuel he code).map fun _ _ _ hle hv => ⟨he.mono hle, .value hv⟩
  | rep line =>
    refine (Engine.parallel_rep fuel he line).map fun _ s _ hle hs => ⟨he.mono hle, ?_⟩
    cases hs
    exact .text s
  | evalFile path =>
    exact (Engine.parallel_evalFile fuel he path).map fun _ _ _ hle hv => ⟨he.mono hle, .value hv⟩
  | call name ha =>
    exact (Engine.parallel_call fuel he name ha).map fun _ _ _ hle hv => ⟨he.mono hle, .value hv⟩
  | get name =>
    exact (Engine.parallel_get? he name).map fun _ _ _ hle hv => ⟨he.mono hle, .binding hv⟩
  | set name t hv =>
    exact (Parallel.bindName he.root name hv).map fun _ _ _ hle _ => ⟨he.mono hle, .done⟩
  | register name hf =>
    exact (Engine.parallel_register he name hf).map fun _ _ _ hle _ => ⟨he.mono hle, .done⟩
  | setMaxDepth depth =>
    refine .pure ⟨⟨he.root, rfl⟩, ?_⟩
    rw [Engine.setMaxDepth, Engine.setMaxDepth, he.maxDepth]
    exact .depth _

theorem Plan.parallel_turn (fuel : Nat) {plan : Plan} (hp : plan.SelfContained) {s s' : Seat}
    (hs : s.Alike ρ s') : Parallel ρ TurnAlike (plan.turn fuel s) (plan.turn fuel s') := by
  obtain ⟨engine, reports⟩ := s
  obtain ⟨engine', reports'⟩ := s'
  obtain ⟨he, hr⟩ := hs
  cases he with
  | none =>
    refine Parallel.map (R := Engine.Alike) ?_ fun _ _ _ _ he => ⟨he, .done⟩
    split
    · exact Engine.parallel_newBare
    · exact Engine.parallel_new fuel
  | some he => exact parallel_perform fuel he (hp hr)

/-! ## Sessions side by side -/

namespace Session

theorem quiet_alike {m m' : Machine} (h : m.Alike ρ m') : (quiet m).Alike ρ (quiet m') :=
  { h with world := { h.world with printed := rfl } }

/-- Engine `k` has come equally far in both sessions. -/
structure Mirrors (ρ : Renaming) (k : Nat) (s t : Session) : Prop where
  machine : (quiet s.machine).Alike ρ (quiet t.machine)
  seat : (s.seats k).Alike ρ (t.seats k)

variable {fuel : Nat} {plans : Nat → Plan} {j k : Nat} {s s₁ t : Session} {π τ : Renaming}

/-- A turn of the engine itself is the same turn in both sessions. -/
theorem Mirrors.step_own (h : Mirrors ρ k s t) (hp : (plans k).SelfContained)
    (hs : s.step fuel plans k = .ok s₁) :
    ∃ t₁ σ, t.step fuel plans k = .ok t₁ ∧ Mirrors σ k s₁ t₁ ∧
      (quiet s.machine).world.Grows ρ σ s₁.machine.world := by
  have hturn := Plan.parallel_turn fuel hp h.seat h.machine
  unfold step at hs ⊢
  generalize (plans k).turn fuel (s.seats k) (quiet s.machine) = o at hturn hs
  generalize (plans k).turn fuel (t.seats k) (quiet t.machine) = o' at hturn ⊢
  cases hturn with
  | @value x x' m m' σ hg hm hx =>
    cases hs
    refine ⟨_, σ, rfl, ⟨quiet_alike hm, ?_⟩, hg⟩
    have hseat := h.seat.mono hg.le
    simp only [after, Function.update_self]
    exact ⟨.some hx.1, .cons ⟨.ok hx.2, hm.world.printed⟩ hseat.reports⟩
  | @error e e' m m' σ hg hm he =>
    cases hs
    refine ⟨_, σ, rfl, ⟨quiet_alike hm, ?_⟩, hg⟩
    have hseat := h.seat.mono hg.le
    simp only [after, Function.update_self]
    exact ⟨hseat.engine, .cons ⟨.error he, hm.world.printed⟩ hseat.reports⟩
  | halted h => contradiction

/-- If a turn is broken off in one session, it is in the other one. -/
theorem Mirrors.step_halted (h : Mirrors ρ k s t) (hp : (plans k).SelfContained) {stop : Halt}
    (hs : s.step fuel plans k = .error stop) : t.step fuel plans k = .error stop := by
  have hturn := Plan.parallel_turn fuel hp h.seat h.machine
  unfold step at hs ⊢
  generalize (plans k).turn fuel (s.seats k) (quiet s.machine) = o at hturn hs
  generalize (plans k).turn fuel (t.seats k) (quiet t.machine) = o' at hturn ⊢
  cases hturn with
  | value | error => contradiction
  | halted h => exact hs

/-- A turn of another engine, with which it shares nothing, is no turn for this one. -/
theorem Mirrors.step_other (h : Mirrors ρ k s t) (hjk : j ≠ k)
    (hs : s.step fuel plans j = .ok s₁) (ha : ρ.Apart π)
    (hg : (quiet s.machine).world.Grows π τ s₁.machine.world) : Mirrors ρ k s₁ t := by
  obtain ⟨engine, result, hs₁, hm⟩ := step_eq_ok hs
  obtain ⟨hdepth, hlimit⟩ := (plans j).restores_turn fuel (s.seats j) hm
  have hw := h.machine.world
  -- The other turn has spared what this engine knows, and depth and limit are back.
  refine ⟨⟨?_, hdepth.trans h.machine.depth, hlimit.trans h.machine.limit⟩, ?_⟩
  · exact {
      frames := hw.frames.of_spares hg.framesSpared ha.frames
      atoms := hw.atoms.of_spares hg.atomsSpared ha.atoms
      closures := fun _ _ hi =>
        ⟨Nat.lt_of_lt_of_le (hw.closures hi).1 hg.closures.grown, (hw.closures hi).2⟩
      hosts := hw.hosts.of_spares hg.hostsSpared ha.hosts
      printed := rfl
      disk := hg.disk.trans hw.disk }
  · have hseat : s₁.seats k = s.seats k := by
      rw [hs₁]
      exact Function.update_of_ne hjk.symm _ _
    rw [hseat]
    exact h.seat

/-- Each engine has come as far as in a session of its own, and no two share anything. -/
structure Parted (s : Session) (alone : Nat → Session) (ρ : Nat → Renaming) : Prop where
  mirrors (k : Nat) : Mirrors (ρ k) k s (alone k)
  apart (j k : Nat) : j ≠ k → (ρ j).Apart (ρ k)

theorem parted_start (m : Machine) : Parted (start m) (fun _ => start m) fun _ => .empty where
  mirrors _ := {
    machine := {
      world := ⟨nofun, nofun, nofun, nofun, rfl, rfl⟩
      depth := rfl
      limit := rfl }
    seat := ⟨.none, .nil⟩ }
  apart _ _ _ := ⟨nofun, nofun, nofun, nofun⟩

variable {alone : Nat → Session} {ρs : Nat → Renaming} (hp : ∀ k, (plans k).SelfContained)

include hp

/-- After each turn the engine that had it has come further alone, and the others are as they
were. -/
theorem Parted.step (h : Parted s alone ρs) (hs : s.step fuel plans k = .ok s₁) :
    ∃ t₁ σ, (alone k).step fuel plans k = .ok t₁ ∧
      Parted s₁ (Function.update alone k t₁) (Function.update ρs k σ) := by
  obtain ⟨t₁, σ, ht, hm, hg⟩ := (h.mirrors k).step_own (hp k) hs
  refine ⟨t₁, σ, ht, fun j => ?_, fun i j hij => ?_⟩
  · by_cases hj : j = k
    · subst hj
      simpa using hm
    · rw [Function.update_of_ne hj, Function.update_of_ne hj]
      exact (h.mirrors j).step_other (Ne.symm hj) hs (h.apart j k hj) hg
  · have hnew (j : Nat) (hj : j ≠ k) : (ρs j).Apart σ :=
      hg.apart (h.mirrors j).machine.world (h.apart j k hj)
    by_cases hi : i = k
    · subst hi
      rw [Function.update_self, Function.update_of_ne hij.symm]
      exact (hnew j hij.symm).symm
    · rw [Function.update_of_ne hi]
      by_cases hj : j = k
      · subst hj
        rw [Function.update_self]
        exact hnew i hi
      · rw [Function.update_of_ne hj]
        exact h.apart i j hij

theorem Parted.run {schedule : List Nat} (h : Parted s alone ρs)
    (hs : Session.run fuel plans schedule s = .ok s₁) :
    ∃ alone₁ ρs₁,
      (∀ k, Session.run fuel plans (schedule.filter (· == k)) (alone k) = .ok (alone₁ k)) ∧
      Parted s₁ alone₁ ρs₁ := by
  induction schedule generalizing s alone ρs with
  | nil =>
    cases hs
    exact ⟨alone, ρs, fun _ => rfl, h⟩
  | cons j schedule ih =>
    rw [Session.run, List.foldlM_cons] at hs
    obtain ⟨s₂, h₂, hs⟩ := Except.of_bind hs
    obtain ⟨t₂, σ, ht, h⟩ := h.step hp h₂
    obtain ⟨alone₁, ρs₁, ha, h⟩ := ih h hs
    refine ⟨alone₁, ρs₁, fun k => ?_, h⟩
    have hk := ha k
    by_cases hjk : j = k
    · subst hjk
      rw [Function.update_self] at hk
      rw [List.filter_cons_of_pos (by simp), Session.run, List.foldlM_cons, ht]
      exact hk
    · rw [Function.update_of_ne (Ne.symm hjk)] at hk
      rwa [List.filter_cons_of_neg (by simpa using hjk)]

theorem Parted.run_halted {schedule : List Nat} (h : Parted s alone ρs) {stop : Halt}
    (hs : Session.run fuel plans schedule s = .error stop) :
    ∃ k, Session.run fuel plans (schedule.filter (· == k)) (alone k) = .error stop := by
  induction schedule generalizing s alone ρs with
  | nil => contradiction
  | cons j schedule ih =>
    rw [Session.run, List.foldlM_cons] at hs
    cases h₂ : s.step fuel plans j with
    | error stop' =>
      rw [h₂] at hs
      cases hs
      refine ⟨j, ?_⟩
      rw [List.filter_cons_of_pos (by simp), Session.run, List.foldlM_cons,
        (h.mirrors j).step_halted (hp j) h₂]
      rfl
    | ok s₂ =>
      rw [h₂] at hs
      obtain ⟨t₂, σ, ht, h⟩ := h.step hp h₂
      obtain ⟨k, hk⟩ := ih h hs
      refine ⟨k, ?_⟩
      by_cases hjk : j = k
      · subst hjk
        rw [Function.update_self] at hk
        rw [List.filter_cons_of_pos (by simp), Session.run, List.foldlM_cons, ht]
        exact hk
      · rw [Function.update_of_ne (Ne.symm hjk)] at hk
        rwa [List.filter_cons_of_neg (by simpa using hjk)]

end Session

/-- **Engines are independent sessions.** Take any number of engines, any plans that keep to their
own engine's values, and any order of turns. Each engine could have had its turns alone: its reports
(values, errors, what was printed in each turn) are those of a session that consists of its own
turns only, and so are the engine itself and what names are bound to in the end, all but for the
numbers of frames, atoms, closures and functions of the host. These stand in the same order on both
sides, so that comparing them tells nothing either. The numbers of one engine are not those of
another. And if a session is broken off, so is one of those that have a single engine. Functions of
the host are assumed to keep no state that two engines could share, and to bind no names: they are
scripts, as `Reply` and `HostFunction` have them. -/
theorem sessions_independent (fuel : Nat) (plans : Nat → Plan)
    (hp : ∀ k, (plans k).SelfContained) (schedule : List Nat) (m : Machine) :
    (∀ s, Session.run fuel plans schedule (.start m) = .ok s →
      ∃ (alone : Nat → Session) (ρ : Nat → Renaming),
        (∀ k, Session.run fuel plans (schedule.filter (· == k)) (.start m) = .ok (alone k)) ∧
        (∀ k, List.Forall₂ (Report.Alike (ρ k)) (s.seats k).reports
          ((alone k).seats k).reports) ∧
        (∀ k, Option.Rel (Engine.Alike (ρ k)) (s.seats k).engine ((alone k).seats k).engine) ∧
        (∀ k root root' name, (ρ k).frames.rel root root' →
          Option.Rel (Value.Alike (ρ k)) (s.machine.world.frames.get? root name)
            ((alone k).machine.world.frames.get? root' name)) ∧
        (∀ k, (Session.quiet s.machine).Alike (ρ k) (Session.quiet (alone k).machine)) ∧
        (∀ j k, j ≠ k → (ρ j).Apart (ρ k))) ∧
    (∀ stop, Session.run fuel plans schedule (.start m) = .error stop →
      ∃ k, Session.run fuel plans (schedule.filter (· == k)) (.start m) = .error stop) := by
  refine ⟨fun s hs => ?_, fun stop hs => (Session.parted_start m).run_halted hp hs⟩
  obtain ⟨alone, ρ, ha, h⟩ := (Session.parted_start m).run hp hs
  refine ⟨alone, ρ, ha, fun k => (h.mirrors k).seat.reports, fun k => (h.mirrors k).seat.engine, ?_,
    fun k => (h.mirrors k).machine, h.apart⟩
  intro k root root' name hroot
  exact Frames.alike_get? (h.mirrors k).machine.world.frames hroot name

/-- Two engines that make atoms, so that the second atom of the first engine is not the second
one that there is. -/
def Plan.pair : Nat → Plan
  | 0 => .script true [.eval "(atom 1)", .set "x" .int64 (5 : Int64), .eval "(def! y (atom x))"]
  | _ => .script true [.eval "(atom 2)"]

theorem sessions_independent_pair :
    (∀ k, (Plan.pair k).SelfContained) ∧
      ∃ s, Session.run 10 Plan.pair [0, 1, 0, 1, 0, 0] (.start (.start default)) = .ok s ∧
        ∃ alone ρ, Session.run 10 Plan.pair [0, 0, 0, 0] (.start (.start default)) = .ok alone ∧
          List.Forall₂ (Report.Alike ρ) (s.seats 0).reports (alone.seats 0).reports := by
  have hp (k : Nat) : (Plan.pair k).SelfContained := by
    cases k with
    | zero =>
      refine Plan.selfContained_script ?_ true
      simp only [List.forall_mem_cons]
      exact ⟨fun _ => .eval _, fun _ => .set "x" .int64 (.int 5), fun _ => .eval _, nofun⟩
    | succ k =>
      refine Plan.selfContained_script ?_ true
      simp only [List.forall_mem_cons]
      exact ⟨fun _ => .eval _, nofun⟩
  refine ⟨hp, ?_⟩
  have hok : (Session.run 10 Plan.pair [0, 1, 0, 1, 0, 0] (.start (.start default))).isOk := by
    decide +kernel
  cases hs : Session.run 10 Plan.pair [0, 1, 0, 1, 0, 0] (.start (.start default)) with
  | error stop =>
    rw [hs] at hok
    contradiction
  | ok s =>
    obtain ⟨alone, ρ, ha, hr, -⟩ :=
      (sessions_independent 10 Plan.pair hp [0, 1, 0, 1, 0, 0] (.start default)).1 s hs
    exact ⟨s, rfl, alone 0, ρ 0, ha 0, hr 0⟩

end Lisplet

import Lisplet.Proofs.EvalLaws
import Lisplet.Proofs.Renaming.World
import Lisplet.Root

/-! Runs side by side. Two runs of the same program that begin on machines which are the same but
for numbers go the same way: they end in the same manner, what they give is the same but for
numbers, and so are the machines they leave. On one side there may be more in the world than the
renaming speaks of. The run leaves that as it is. -/

namespace Lisplet

variable {ρ σ : Renaming}

/-- Outcomes of runs that have gone the same way, the first of which began in the world `w`. -/
inductive Outcome.Alike (ρ : Renaming) (w : World) (R : Renaming → α → β → Prop) :
    Outcome α → Outcome β → Prop where
  | value {σ : Renaming} (hg : w.Grows ρ σ m.world) (hm : m.Alike σ m') (h : R σ a b) :
    Alike ρ w R (.value a m) (.value b m')
  | error {σ : Renaming} (hg : w.Grows ρ σ m.world) (hm : m.Alike σ m') (h : e.Alike σ e') :
    Alike ρ w R (.error e m) (.error e' m')
  | halted (h : Halt) : Alike ρ w R (.halted h) (.halted h)

namespace Run

/-- The runs go the same way on machines that are the same but for numbers. -/
def Parallel (ρ : Renaming) (R : Renaming → α → β → Prop) (run : Run α) (run' : Run β) : Prop :=
  ∀ ⦃m m'⦄, m.Alike ρ m' → (run m).Alike ρ m.world R (run' m')

/-- What is related to nothing but to have been done. -/
def Done : Renaming → Unit → Unit → Prop := fun _ _ _ => True

namespace Parallel

variable {R : Renaming → α → α' → Prop} {S : Renaming → β → β' → Prop} {run : Run α}
  {run' : Run α'}

theorem pure {a : α} {a' : α'} (h : R ρ a a') : Parallel ρ R (Pure.pure a) (Pure.pure a') :=
  fun _ _ hm => .value (.refl ..) hm h

theorem fail {e e' : Error} (h : e.Alike ρ e') : Parallel ρ R (Run.fail e) (Run.fail e') :=
  fun _ _ hm => .error (.refl ..) hm h

theorem halt (h : Halt) : Parallel ρ R (Run.halt h) (Run.halt h) := fun _ _ _ => .halted h

theorem bind {f : α → Run β} {f' : α' → Run β'} (h : Parallel ρ R run run')
    (hf : ∀ σ a a', ρ ≤ σ → R σ a a' → Parallel σ S (f a) (f' a')) :
    Parallel ρ S (run >>= f) (run' >>= f') := by
  intro m m' hm
  rw [bind_apply, bind_apply]
  have hr := h hm
  generalize run m = o at hr ⊢
  generalize run' m' = o' at hr ⊢
  cases hr with
  | @value a a' m₁ m₁' σ hg hm₁ ha =>
    have hrest := hf σ a a' hg.le ha hm₁
    change (f a m₁).Alike ρ m.world S (f' a' m₁')
    generalize f a m₁ = o at hrest ⊢
    generalize f' a' m₁' = o' at hrest ⊢
    cases hrest with
    | value hg' hm₂ hb => exact .value (hg.trans hg') hm₂ hb
    | error hg' hm₂ he => exact .error (hg.trans hg') hm₂ he
    | halted h => exact .halted h
  | error hg hm₁ he => exact .error hg hm₁ he
  | halted h => exact .halted h

theorem map {f : α → β} {f' : α' → β'} (h : Parallel ρ R run run')
    (hf : ∀ σ a a', ρ ≤ σ → R σ a a' → S σ (f a) (f' a')) :
    Parallel ρ S (f <$> run) (f' <$> run') := by
  rw [← bind_pure_comp, ← bind_pure_comp]
  exact h.bind fun σ a a' hle ha => .pure (hf σ a a' hle ha)

theorem ofExcept {x : Except Error α} {x' : Except Error α'} (h : ResultAlike ρ (R ρ) x x') :
    Parallel ρ R (Run.ofExcept x) (Run.ofExcept x') := by
  cases h with
  | ok h => exact .pure h
  | error h => exact .fail h

theorem see {f : World → α} {f' : World → α'} (h : ∀ w w', w.Alike ρ w' → R ρ (f w) (f' w')) :
    Parallel ρ R (Run.see f) (Run.see f') :=
  fun _ _ hm => .value (.refl ..) hm (h _ _ hm.world)

theorem change {f f' : World → World} (hf : ∀ w w', w.Alike ρ w' → (f w).Alike ρ (f' w'))
    (hg : ∀ w : World, w.Grows ρ ρ (f w)) : Parallel ρ Done (Run.change f) (Run.change f') :=
  fun _ _ hm => .value (hg _) ⟨hf _ _ hm.world, hm.depth, hm.limit⟩ trivial

theorem attempt (h : Parallel ρ R run run') :
    Parallel ρ (fun σ => ResultAlike σ (R σ)) run.attempt run'.attempt := by
  intro m m' hm
  rw [Run.attempt, Run.attempt]
  have hr := h hm
  generalize run m = o at hr ⊢
  generalize run' m' = o' at hr ⊢
  cases hr with
  | value hg hm₁ ha => exact .value hg hm₁ (.ok ha)
  | error hg hm₁ he => exact .value hg hm₁ (.error he)
  | halted h => exact .halted h

theorem nested (h : Parallel ρ R run run') : Parallel ρ R (Run.nested run) (Run.nested run') := by
  intro m m' hm
  rw [Run.nested, Run.nested, hm.depth, hm.limit]
  split
  · exact .error (.refl ..) hm (.same _ (by simp))
  · have hr := @h ⟨m.world, m'.depth + 1, m'.limit⟩ ⟨m'.world, m'.depth + 1, m'.limit⟩
      ⟨hm.world, rfl, rfl⟩
    generalize run ⟨m.world, m'.depth + 1, m'.limit⟩ = o at hr ⊢
    generalize run' ⟨m'.world, m'.depth + 1, m'.limit⟩ = o' at hr ⊢
    cases hr with
    | value hg hm₁ ha => exact .value hg ⟨hm₁.world, congrArg (· - 1) hm₁.depth, hm₁.limit⟩ ha
    | error hg hm₁ he => exact .error hg ⟨hm₁.world, congrArg (· - 1) hm₁.depth, hm₁.limit⟩ he
    | halted h => exact .halted h

theorem withLimit (limit : Nat) (h : Parallel ρ R run run') :
    Parallel ρ R (Run.withLimit limit run) (Run.withLimit limit run') := by
  intro m m' hm
  rw [Run.withLimit, Run.withLimit]
  have hr := @h { m with limit := limit } { m' with limit := limit } ⟨hm.world, hm.depth, rfl⟩
  generalize run { m with limit := limit } = o at hr ⊢
  generalize run' { m' with limit := limit } = o' at hr ⊢
  cases hr with
  | value hg hm₁ ha => exact .value hg ⟨hm₁.world, hm₁.depth, hm.limit⟩ ha
  | error hg hm₁ he => exact .error hg ⟨hm₁.world, hm₁.depth, hm.limit⟩ he
  | halted h => exact .halted h

/-! ### What runs do to the world -/

variable {i i' : FrameId}

theorem lookup (hi : ρ.frames.rel i i') (name : String) :
    Parallel ρ Value.Alike (Run.lookup i name) (Run.lookup i' name) := by
  intro m m' hm
  have hv := Frames.alike_get? hm.world.frames hi name
  rw [Run.lookup, Run.lookup]
  generalize m.world.frames.get? i name = x at hv ⊢
  generalize m'.world.frames.get? i' name = y at hv ⊢
  cases hv with
  | none => exact .error (.refl ..) hm (.same _ (by simp))
  | some hv => exact .value (.refl ..) hm hv

theorem bindName (hi : ρ.frames.rel i i') (name : String) {v v' : Value} (hv : v.Alike ρ v') :
    Parallel ρ Done (Run.bindName i name v) (Run.bindName i' name v') :=
  change (fun _ _ hw => hw.withChanged hi fun _ _ hf => ⟨hf.parent, hf.bindings.insert name hv⟩)
    fun w => w.grows_withChanged hi _

theorem bindAll (hi : ρ.frames.rel i i') {news news' : List (String × Value)}
    (hn : List.Forall₂ (NamedAlike ρ) news news') :
    Parallel ρ Done (Run.change fun w => { w with frames := w.frames.bindAll i news })
      (Run.change fun w => { w with frames := w.frames.bindAll i' news' }) :=
  change (fun _ _ hw => hw.withChanged hi fun _ _ hf => ⟨hf.parent, hf.bindings.insertAll hn⟩)
    fun w => w.grows_withChanged hi _

theorem newFrame {f f' : Frame} (hf : f.Alike ρ f') :
    Parallel ρ (fun σ => σ.frames.rel) (Run.newFrame f) (Run.newFrame f') :=
  fun _ _ hm => .value (hm.world.grows_withFrame f) ⟨hm.world.withFrame hf, hm.depth, hm.limit⟩
    (.inr ⟨rfl, rfl⟩)

theorem child (hi : ρ.frames.rel i i') :
    Parallel ρ (fun σ => σ.frames.rel) (Run.child i) (Run.child i') :=
  newFrame ⟨.some hi, .empty⟩

theorem enter (p : Params) {args args' : List Value}
    (ha : List.Forall₂ (Value.Alike ρ) args args') (hi : ρ.frames.rel i i') :
    Parallel ρ (fun σ => σ.frames.rel) (Run.enter p args i) (Run.enter p args' i') := by
  refine (ofExcept (R := fun σ => List.Forall₂ (NamedAlike σ)) (p.alike_assign ha)).bind
    fun σ news news' hle hn => newFrame ⟨.some (hle.frames hi), .insertAll .empty hn⟩

theorem newAtom {v v' : Value} (hv : v.Alike ρ v') :
    Parallel ρ Value.Alike (Run.newAtom v) (Run.newAtom v') :=
  fun _ _ hm => .value (hm.world.grows_withAtom v) ⟨hm.world.withAtom hv, hm.depth, hm.limit⟩
    (.atom (.inr ⟨rfl, rfl⟩))

theorem readAtom {i i' : AtomId} (hi : ρ.atoms.rel i i') :
    Parallel ρ Value.Alike (Run.readAtom i) (Run.readAtom i') :=
  see fun _ _ hw => hw.cell hi

theorem writeAtom {i i' : AtomId} (hi : ρ.atoms.rel i i') {v v' : Value} (hv : v.Alike ρ v') :
    Parallel ρ Value.Alike (Run.writeAtom i v) (Run.writeAtom i' v') :=
  (change (fun _ _ hw => hw.setCell hi hv) fun w => w.grows_setCell hi v).bind
    fun _ _ _ hle _ => pure (hv.mono hle)

theorem newClosure (p : Params) {body body' : Value} (hb : body.Alike ρ body')
    (hi : ρ.frames.rel i i') :
    Parallel ρ Value.Alike (Run.newClosure p body i) (Run.newClosure p body' i') := by
  intro m m' hm
  have hg := hm.world.grows_withClosure
  exact .value hg ⟨hm.world.withClosure, hm.depth, hm.limit⟩
    (.closure p (.inr ⟨rfl, rfl⟩) (hb.mono hg.le) (hg.le.frames hi))

theorem print (s : String) : Parallel ρ Done (Run.print s) (Run.print s) :=
  change (fun _ _ hw => { hw with printed := congrArg (· ++ s) hw.printed })
    fun w => { World.Grows.refl ρ w with }

theorem readFile (context path : String) :
    Parallel ρ (fun _ => (· = ·)) (Run.readFile context path) (Run.readFile context path) := by
  refine (see (R := fun _ => (· = ·)) fun w w' hw => by rw [hw.disk]).bind fun _ found _ _ h => ?_
  cases h
  split
  · exact pure rfl
  · exact fail (.same _ nofun)
  · exact halt _

end Parallel

end Run

open Run (Parallel)

/-! ## Functions -/

/-- Applying functions goes the same way on both sides. -/
def AppliesAlike (apply : Value → List Value → Run Value) : Prop :=
  ∀ ⦃ρ f f' args args'⦄, f.Alike ρ f' → List.Forall₂ (Value.Alike ρ) args args' →
    Parallel ρ Value.Alike (apply f args) (apply f' args')

/-- Evaluating goes the same way on both sides. -/
def EvaluatesAlike (eval : Value → FrameId → Run Value) : Prop :=
  ∀ ⦃ρ form form' i i'⦄, form.Alike ρ form' → ρ.frames.rel i i' →
    Parallel ρ Value.Alike (eval form i) (eval form' i')

variable {args args' : List Value}

namespace TextOp

theorem parallel_textOf (style : Style) (sep : String)
    (ha : List.Forall₂ (Value.Alike ρ) args args') :
    Parallel ρ (fun _ => (· = ·)) (textOf style sep args) (textOf style sep args') :=
  .see fun _ _ hw => Value.textAll_congr hw.atoms ha style sep

theorem alike_notString (op : TextOp) (ha : List.Forall₂ (Value.Alike ρ) args args') :
    Error.Alike ρ (op.notString args) (op.notString args') := by
  rcases ha with _ | ⟨hv, _ | ⟨hw, ha⟩⟩
  · exact .same _ nofun
  · rw [notString, notString, hv.typeName_eq]
    exact .same _ nofun
  · exact alike_notExactly (.cons hv (.cons hw ha))

theorem parallel_print (style : Style) (ha : List.Forall₂ (Value.Alike ρ) args args') :
    Parallel ρ Value.Alike
      (do Run.print ((← textOf style " " args) ++ "\n"); return .nil)
      (do Run.print ((← textOf style " " args') ++ "\n"); return .nil) := by
  refine (parallel_textOf style " " ha).bind fun σ s _ _ hs => ?_
  cases hs
  exact (Run.Parallel.print _).bind fun _ _ _ _ _ => .pure .nil

section

variable {v v' : Value} (hv : v.Alike ρ v')

include hv

theorem alike_notString_single (op : TextOp) :
    Error.Alike ρ (op.notString [v]) (op.notString [v']) := alike_notString op (.cons hv .nil)

theorem parallel_symbol : Parallel ρ Value.Alike (symbol.run [v]) (symbol.run [v']) := by
  have hfail := alike_notString_single hv symbol
  cases hv with
  | str s => exact .pure (.symbol s)
  | symbol name => exact .pure (.symbol name)
  | _ => exact .fail hfail

theorem parallel_keyword : Parallel ρ Value.Alike (keyword.run [v]) (keyword.run [v']) := by
  have hfail := alike_notString_single hv keyword
  cases hv with
  | str s => exact .pure (.keyword _)
  | keyword name => exact .pure (.keyword name)
  | _ => exact .fail hfail

theorem parallel_readString :
    Parallel ρ Value.Alike (readString.run [v]) (readString.run [v']) := by
  have hfail := alike_notString_single hv readString
  cases hv with
  | str s =>
    rw [TextOp.run]
    split
    · next found hfound =>
      cases found with
      | none => exact .pure .nil
      | some form => exact .pure (Form.alike_readFirst hfound ρ)
    · exact .fail (.same _ nofun)
  | _ => exact .fail hfail

theorem parallel_slurp : Parallel ρ Value.Alike (slurp.run [v]) (slurp.run [v']) := by
  have hfail := alike_notString_single hv slurp
  cases hv with
  | str path =>
    refine (Run.Parallel.readFile slurp.name path).bind fun _ s _ _ hs => ?_
    cases hs
    exact .pure (.str s)
  | _ => exact .fail hfail

end

/-- The functions of one argument. -/
inductive IsUnary : TextOp → Prop where
  | symbol : IsUnary symbol
  | keyword : IsUnary keyword
  | readString : IsUnary readString
  | slurp : IsUnary slurp

theorem IsUnary.run_eq {op : TextOp} (hop : IsUnary op) (hl : args.length ≠ 1) :
    op.run args = Run.fail (op.notString args) := by
  rcases args with _ | ⟨v, _ | ⟨w, vs⟩⟩
  · cases hop <;> rfl
  · contradiction
  · cases hop <;> cases v <;> rfl

theorem parallel_run_of_one {op : TextOp} (hop : IsUnary op)
    (hone : ∀ v v' : Value, v.Alike ρ v' → Parallel ρ Value.Alike (op.run [v]) (op.run [v']))
    (ha : List.Forall₂ (Value.Alike ρ) args args') :
    Parallel ρ Value.Alike (op.run args) (op.run args') := by
  rcases ha with _ | ⟨hv, _ | ⟨hw, ha⟩⟩
  · rw [hop.run_eq (by simp)]
    exact .fail (alike_notString op .nil)
  · exact hone _ _ hv
  · rw [hop.run_eq (by simp), hop.run_eq (by simp)]
    exact .fail (alike_notString op (.cons hv (.cons hw ha)))

theorem parallel_run (op : TextOp) (ha : List.Forall₂ (Value.Alike ρ) args args') :
    Parallel ρ Value.Alike (op.run args) (op.run args') := by
  cases op with
  | symbol => exact parallel_run_of_one .symbol (fun v v' => parallel_symbol) ha
  | keyword => exact parallel_run_of_one .keyword (fun v v' => parallel_keyword) ha
  | readString => exact parallel_run_of_one .readString (fun v v' => parallel_readString) ha
  | slurp => exact parallel_run_of_one .slurp (fun v v' => parallel_slurp) ha
  | prn => exact parallel_print .readable ha
  | println => exact parallel_print .raw ha
  | prStr | str =>
    refine (parallel_textOf _ _ ha).bind fun σ s _ _ hs => ?_
    cases hs
    exact .pure (.str s)

end TextOp

theorem AtomOp.parallel_run {apply : Value → List Value → Run Value} (happly : AppliesAlike apply)
    (op : AtomOp) (ha : List.Forall₂ (Value.Alike ρ) args args') :
    Parallel ρ Value.Alike (op.run apply args) (op.run apply args') := by
  cases op with
  | new =>
    rcases ha with _ | ⟨hv, _ | ⟨hw, ha⟩⟩
    · exact .fail (alike_notExactly .nil)
    · exact .newAtom hv
    · exact .fail (alike_notExactly (.cons hv (.cons hw ha)))
  | deref =>
    rcases ha with _ | ⟨hv, _ | ⟨hw, ha⟩⟩
    · exact .fail (alike_notExactly .nil)
    · exact (Run.Parallel.ofExcept (R := fun σ => σ.atoms.rel) (Argument.alike_atom _ hv)).bind
        fun _ _ _ _ hi => .readAtom hi
    · exact .fail (alike_notExactly (.cons hv (.cons hw ha)))
  | reset =>
    rcases ha with _ | ⟨hv, _ | ⟨hw, _ | ⟨hu, ha⟩⟩⟩
    · exact .fail (alike_notExactly .nil)
    · exact .fail (alike_notExactly (.cons hv .nil))
    · exact (Run.Parallel.ofExcept (R := fun σ => σ.atoms.rel) (Argument.alike_atom _ hv)).bind
        fun _ _ _ hle hi => .writeAtom hi (hw.mono hle)
    · exact .fail (alike_notExactly (.cons hv (.cons hw (.cons hu ha))))
  | swap =>
    rcases ha with _ | ⟨hv, _ | ⟨hw, ha⟩⟩
    · exact .fail (alike_notAtLeast .nil)
    · exact .fail (alike_notAtLeast (.cons hv .nil))
    · refine (Run.Parallel.ofExcept (R := fun σ => σ.atoms.rel) (Argument.alike_atom _ hv)).bind
        fun σ i i' hle hi => (Run.Parallel.readAtom hi).bind fun τ old old' hle' hold => ?_
      have hle := Renaming.le_trans hle hle'
      refine (happly (hw.mono hle) (.cons hold (Value.forall₂_mono hle ha))).bind
        fun π v v' hle'' hv => .writeAtom (hle''.atoms (hle'.atoms hi)) hv

theorem Builtin.parallel_run {apply : Value → List Value → Run Value} (happly : AppliesAlike apply)
    (b : Builtin) (ha : List.Forall₂ (Value.Alike ρ) args args') :
    Parallel ρ Value.Alike (b.run apply args) (b.run apply args') := by
  cases b with
  | arithmetic op => exact .ofExcept (op.alike_run ha)
  | equal => exact .ofExcept (alike_allEqual ha)
  | relation r => exact .ofExcept (r.alike_run ha)
  | sequence op => exact .ofExcept (op.alike_run ha)
  | kind t => exact .ofExcept (t.alike_run ha)
  | text op => exact op.parallel_run ha
  | atom op => exact op.parallel_run happly ha

theorem Reply.Alike.parallel_play {apply : Value → List Value → Run Value}
    (happly : AppliesAlike apply) {r r' : Reply} (h : Reply.Alike ρ r r') :
    Parallel ρ Value.Alike (r.play apply) (r'.play apply) := by
  induction h with
  | give hv => exact .pure hv
  | fail he => exact .fail he
  | call hf ha _ ih => exact (happly hf ha).bind fun σ v v' hle hv => ih σ hle v v' hv

theorem Run.parallel_hostReply {i i' : Nat} (hi : ρ.hosts.rel i i')
    (ha : List.Forall₂ (Value.Alike ρ) args args') :
    Parallel ρ Reply.Alike (Run.hostReply i args) (Run.hostReply i' args') := by
  intro m m' hm
  obtain ⟨f, f', hf, hf', hff⟩ := hm.world.hosts hi
  rw [Run.hostReply, Run.hostReply, hf, hf']
  exact .value (.refl ..) hm (hff ρ (Renaming.le_refl ρ) args args' ha)

section

variable {eval : Value → FrameId → Run Value} {apply : Value → List Value → Run Value}
  (heval : EvaluatesAlike eval)

section

variable (happly : AppliesAlike apply)

include heval happly

theorem Native.parallel_run {f f' : Native} (hf : f.Alike ρ f')
    (ha : List.Forall₂ (Value.Alike ρ) args args') :
    Parallel ρ Value.Alike (f.run eval apply args) (f'.run eval apply args') := by
  cases hf with
  | builtin b => exact b.parallel_run happly ha
  | evalIn hi =>
    rcases ha with _ | ⟨hv, _ | ⟨hw, ha⟩⟩
    · exact .fail (alike_notExactly .nil)
    · exact heval hv hi
    · exact .fail (alike_notExactly (.cons hv (.cons hw ha)))
  | host name hi =>
    exact (Run.parallel_hostReply hi ha).bind fun _ _ _ _ hr => hr.parallel_play happly

end

/-! ## Evaluating -/

/-- Ends of turns that are the same but for numbers. -/
inductive Turn.Alike (ρ : Renaming) : Turn → Turn → Prop where
  | done (h : v.Alike ρ v') : Alike ρ (.done v) (.done v')
  | tail (h : form.Alike ρ form') (hi : ρ.frames.rel i i') : Alike ρ (.tail form i) (.tail form' i')

theorem forall₂_zip_entries {ks ks' vs vs' : List Value} (hk : List.Forall₂ (Value.Alike ρ) ks ks')
    (hv : List.Forall₂ (Value.Alike ρ) vs vs') :
    List.Forall₂ (Value.EntryAlike ρ) (ks.zip vs) (ks'.zip vs') := by
  induction hk generalizing vs vs' with
  | nil => exact .nil
  | cons hk _ ih =>
    cases hv with
    | nil => exact .nil
    | cons hv hvs => exact .cons ⟨hk, hv⟩ (ih hvs)

variable {i i' : FrameId}

section

include heval

theorem parallel_mapM (hi : ρ.frames.rel i i') {forms forms' : List Value}
    (h : List.Forall₂ (Value.Alike ρ) forms forms') :
    Parallel ρ (fun σ => List.Forall₂ (Value.Alike σ)) (forms.mapM (eval · i))
      (forms'.mapM (eval · i')) := by
  induction forms generalizing ρ forms' with
  | nil =>
    cases h
    exact .pure .nil
  | cons form forms ih =>
    cases h with
    | cons hv h =>
      rw [List.mapM_cons, List.mapM_cons]
      refine (heval hv hi).bind fun σ v v' hle hv => ?_
      refine (ih (hle.frames hi) (Value.forall₂_mono hle h)).bind fun τ vs vs' hle hvs => ?_
      exact .pure (.cons (hv.mono hle) hvs)

theorem parallel_bindPairs (hi : ρ.frames.rel i i') {ps ps' : List (Value × Value)}
    (h : List.Forall₂ (Value.EntryAlike ρ) ps ps') :
    Parallel ρ Run.Done (SpecialForm.bindPairs eval i ps) (SpecialForm.bindPairs eval i' ps') := by
  induction ps generalizing ρ ps' with
  | nil =>
    cases h
    exact .pure trivial
  | cons p ps ih =>
    obtain ⟨name, form⟩ := p
    cases h with
    | @cons _ q _ qs hp h =>
      obtain ⟨name', form'⟩ := q
      obtain ⟨hname, hform⟩ := hp
      have hfail : Error.Alike ρ (.malformed .bind (.bindingNotSymbol name.typeName))
          (.malformed .bind (.bindingNotSymbol name'.typeName)) := by
        rw [Value.Alike.typeName_eq hname]
        exact .same _ nofun
      cases hname with
      | symbol x =>
        refine (heval hform hi).bind fun σ v v' hle hv => ?_
        refine (Run.Parallel.bindName (hle.frames hi) x hv).bind fun τ _ _ hle' _ => ?_
        have hle := Renaming.le_trans hle hle'
        exact ih (hle.frames hi) (h.imp fun _ _ he => ⟨he.1.mono hle, he.2.mono hle⟩)
      | _ => exact .fail hfail

theorem Clause.parallel_run {c c' : Clause} (hc : c.Alike ρ c') (hi : ρ.frames.rel i i') :
    Parallel ρ Turn.Alike (c.run eval i) (c'.run eval i') := by
  cases hc with
  | define name h =>
    refine (heval h hi).bind fun σ v v' hle hv => ?_
    exact (Run.Parallel.bindName (hle.frames hi) name hv).bind fun τ _ _ hle _ =>
      .pure (.done (hv.mono hle))
  | bind hb h =>
    refine (Run.Parallel.child hi).bind fun σ inner inner' hle hinner => ?_
    have hb := hb.imp fun _ _ he => And.intro (he.1.mono hle) (he.2.mono hle)
    exact (parallel_bindPairs heval hinner hb).bind fun τ _ _ hle' _ =>
      .pure (.tail (h.mono (Renaming.le_trans hle hle')) (hle'.frames hinner))
  | sequence hs h =>
    rw [Clause.run, Clause.run, SpecialForm.evalEach_eq, SpecialForm.evalEach_eq]
    refine ((parallel_mapM heval hi hs).map (S := Run.Done) fun _ _ _ _ _ => trivial).bind ?_
    exact fun σ _ _ hle _ => .pure (.tail (h.mono hle) (hle.frames hi))
  | branch h hc ha =>
    refine (heval h hi).bind fun σ v v' hle hv => .pure ?_
    have hc := hc.mono hle
    have hi := hle.frames hi
    cases ha with
    | none =>
      simp only [Clause.chosen, hv.isTruthy_eq]
      split
      · exact .tail hc hi
      · exact .done .nil
    | some ha =>
      simp only [Clause.chosen, hv.isTruthy_eq]
      split
      · exact .tail hc hi
      · exact .tail (ha.mono hle) hi
  | lambda params h =>
    exact (Run.Parallel.newClosure params h hi).bind fun _ _ _ _ hf => .pure (.done hf)
  | quote h => exact .pure (.done h)
  | quasiquote h => exact .pure (.tail (Template.alike_expand h) hi)
  | expand h => exact .pure (.done (Template.alike_expand h))
  | malformed f flaw => exact .fail (.same _ nofun)

theorem parallel_parts {form form' : Value} (h : form.Alike ρ form') (hi : ρ.frames.rel i i') :
    Parallel ρ Value.Alike (Eval.parts eval form i) (Eval.parts eval form' i') := by
  have hpure : Parallel ρ Value.Alike (pure form) (pure form') := .pure h
  cases h with
  | symbol name => exact .lookup hi name
  | seq shape h =>
    simp only [Eval.parts, Eval.items_eq]
    exact (parallel_mapM heval hi h).map fun σ vs vs' _ hvs => .seq shape (by simpa using hvs)
  | map hk hv =>
    simp only [Eval.parts, Eval.entries_eq]
    exact ((parallel_mapM heval hi hv).map (S := fun σ => List.Forall₂ (Value.EntryAlike σ))
      fun σ vs vs' hle hvs => forall₂_zip_entries (Value.forall₂_mono hle hk) hvs).map
        fun σ es es' _ hes => Value.alike_mapOf hes
  | _ => exact hpure

theorem appliesAlike_applyWith (fuel : Nat) : AppliesAlike (Eval.applyWith eval fuel) := by
  induction fuel with
  | zero => exact fun _ _ _ _ _ _ _ => .halt .outOfFuel
  | succ fuel ih =>
    intro ρ f f' args args' hf ha
    have hfail : Error.Alike ρ (.notCallable f) (.notCallable f') := .notCallable hf
    cases hf with
    | closure params hj hb hi =>
      exact (Run.Parallel.enter params ha hi).bind fun σ inner inner' hle hinner =>
        heval (hb.mono hle) hinner
    | native h => exact Native.parallel_run heval ih h ha
    | _ => exact .fail hfail

end

variable (happly : AppliesAlike apply)

include heval happly

theorem parallel_call {f f' : Value} (hf : f.Alike ρ f')
    (ha : List.Forall₂ (Value.Alike ρ) args args') :
    Parallel ρ Turn.Alike (Eval.call eval apply f args) (Eval.call eval apply f' args') := by
  have hfail : Error.Alike ρ (.notCallable f) (.notCallable f') := .notCallable hf
  cases hf with
  | closure params hj hb hi =>
    exact (Run.Parallel.enter params ha hi).bind fun σ inner inner' hle hinner =>
      .pure (.tail (hb.mono hle) hinner)
  | native h => exact (Native.parallel_run heval happly h ha).map fun _ _ _ _ hv => .done hv
  | _ => exact .fail hfail

theorem parallel_turn {form form' : Value} (h : form.Alike ρ form') (hi : ρ.frames.rel i i') :
    Parallel ρ Turn.Alike (Eval.turn eval apply form i) (Eval.turn eval apply form' i') := by
  have hparts := (parallel_parts heval h hi).map (S := Turn.Alike) fun _ _ _ _ hv => .done hv
  cases h with
  | @seq shape xs ys h =>
    cases shape with
    | vector => exact hparts
    | list =>
      -- Both lists are special forms with the same parts, or both are calls.
      have hc : Option.Rel (Clause.Alike ρ) (Value.seq .list xs).clause?
          (Value.seq .list ys).clause? := (Value.Alike.seq .list h).clause?
      cases hx : (Value.seq .list xs).clause? with
      | none =>
        cases hy : (Value.seq .list ys).clause? with
        | none =>
          rw [Eval.turn_of_call hx, Eval.turn_of_call hy]
          refine (parallel_mapM heval hi h).bind fun σ vs vs' hle hvs => ?_
          cases hvs with
          | nil => exact .pure (.done (.seq .list (Value.forall₂_mono hle h)))
          | cons hf ha => exact parallel_call heval happly hf ha
        | some c =>
          rw [hx, hy] at hc
          contradiction
      | some c =>
        cases hy : (Value.seq .list ys).clause? with
        | none =>
          rw [hx, hy] at hc
          contradiction
        | some c' =>
          rw [hx, hy] at hc
          rw [Eval.turn_of_clause hx, Eval.turn_of_clause hy]
          cases hc with
          | some hc => exact Clause.parallel_run heval hc hi
  | _ => exact hparts

theorem parallel_loop (fuel : Nat) {form form' : Value} (h : form.Alike ρ form')
    (hi : ρ.frames.rel i i') :
    Parallel ρ Value.Alike (Eval.loop eval apply fuel form i)
      (Eval.loop eval apply fuel form' i') := by
  induction fuel generalizing ρ form form' i i' with
  | zero => exact .halt .outOfFuel
  | succ fuel ih =>
    rw [Eval.loop_succ, Eval.loop_succ]
    refine (parallel_turn heval happly h hi).bind fun σ turn turn' _ ht => ?_
    cases ht with
    | done hv => exact .pure hv
    | tail h hi => exact ih h hi

end

/-- Evaluation does not tell the numbers in a form. -/
theorem evaluatesAlike_eval (fuel : Nat) : EvaluatesAlike (eval fuel) := by
  induction fuel with
  | zero => exact fun _ _ _ _ _ _ _ => .halt .outOfFuel
  | succ fuel ih =>
    intro ρ form form' i i' h hi
    exact .nested (parallel_loop ih (appliesAlike_applyWith ih fuel) fuel h hi)

theorem appliesAlike_apply (fuel : Nat) : AppliesAlike (apply fuel) :=
  appliesAlike_applyWith (evaluatesAlike_eval fuel) fuel

/-- What is read from a text is the same on both sides, and so is what comes of it. -/
theorem parallel_evalForms (fuel : Nat) {i i' : FrameId} (hi : ρ.frames.rel i i')
    {last last' : Value} (hl : last.Alike ρ last') {forms : List (Except ReadError Value)}
    (hf : ∀ v, .ok v ∈ forms → ∀ σ, v.Alike σ v) :
    Parallel ρ Value.Alike (evalForms fuel i last forms) (evalForms fuel i' last' forms) := by
  induction forms generalizing ρ last last' with
  | nil => exact .pure hl
  | cons form forms ih =>
    cases form with
    | error e => exact .fail (.same _ nofun)
    | ok form =>
      refine (evaluatesAlike_eval fuel (hf form (by simp) ρ) hi).bind fun σ v v' hle hv => ?_
      exact ih (hle.frames hi) hv fun v hv => hf v (List.mem_cons_of_mem _ hv)

end Lisplet

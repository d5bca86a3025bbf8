import Lisplet.Proofs.RunLaws

/-! What a derivation does to atoms that were there before. They stay there, and what they hold is
changed by `reset!` and by `swap!` only. Which atoms a derivation writes is told by what goes on in
it: it consists of activities, each of which begins in the world that the ones before it have left,
and among which are the calls of these two functions. -/

namespace Lisplet

/-! ## Activities -/

/-- What can go on in an evaluation, one for each kind of rule. -/
inductive Activity where
  | evaluate (form : Value) (frame : FrameId)
  | enter (form : Value) (frame : FrameId)
  | evaluateAll (forms : List Value) (frame : FrameId)
  | perform (c : Clause) (frame : FrameId)
  | bind (bindings : List (Value × Value)) (frame : FrameId)
  | call (f : Value) (args : List Value)
  | apply (f : Value) (args : List Value)
  | invoke (f : Native) (args : List Value)
  | play (reply : Reply)

/-- One activity involves another. The premises of a rule begin one after the other, so a later one
begins in the world that the earlier ones have left, if those gave values. -/
inductive Involves : Guard → Activity → World → Guard → Activity → World → Prop where
  | vector : Involves g (.evaluate (.seq .vector xs) frame) w g (.evaluateAll xs.toList frame) w
  | map : Involves g (.evaluate (.map es) frame) w g
      (.evaluateAll (es.toList.map Prod.snd) frame) w
  | special (hc : form.clause? = some c) :
    Involves g (.evaluate form frame) w g (.perform c frame) w
  | parts (hn : (Value.seq .list xs).clause? = none) :
    Involves g (.evaluate (.seq .list xs) frame) w g (.evaluateAll xs.toList frame) w
  | callee (hn : (Value.seq .list xs).clause? = none)
    (hs : EvaluatesAll g xs.toList frame w t (.ok (f :: args)) w₁) :
    Involves g (.evaluate (.seq .list xs) frame) w g (.call f args) w₁
  | free : Involves .free (.enter form frame) w .free (.evaluate form frame) w
  | admitted :
    Involves (.upTo (room + 1) limit) (.enter form frame) w (.upTo room limit)
      (.evaluate form frame) w
  | first : Involves g (.evaluateAll (form :: forms) frame) w g (.enter form frame) w
  | others (h : Enters g form frame w t (.ok v) w₁) :
    Involves g (.evaluateAll (form :: forms) frame) w g (.evaluateAll forms frame) w₁
  | define : Involves g (.perform (.define name form) frame) w g (.enter form frame) w
  | bindings :
    Involves g (.perform (.bind bindings body) frame) w g (.bind bindings w.frames.next)
      (w.withChild frame)
  | bindBody (hb : Binds g bindings w.frames.next (w.withChild frame) t (.ok ()) w₁) :
    Involves g (.perform (.bind bindings body) frame) w g (.evaluate body w.frames.next) w₁
  | effects :
    Involves g (.perform (.sequence effects last) frame) w g (.evaluateAll effects frame) w
  | last (hs : EvaluatesAll g effects frame w t (.ok vs) w₁) :
    Involves g (.perform (.sequence effects last) frame) w g (.evaluate last frame) w₁
  | condition :
    Involves g (.perform (.branch condition consequent alternative) frame) w g
      (.enter condition frame) w
  | chosen (hc : Enters g condition frame w t (.ok v) w₁) :
    Involves g (.perform (.branch condition consequent alternative) frame) w g
      (.evaluate (if v.isTruthy then consequent else alternative.getD .nil) frame) w₁
  | quasiquote :
    Involves g (.perform (.quasiquote template) frame) w g
      (.evaluate (Template.expand template) frame) w
  | bound : Involves g (.bind ((.symbol name, form) :: rest) frame) w g (.enter form frame) w
  | otherBindings (h : Enters g form frame w t (.ok v) w₁) :
    Involves g (.bind ((.symbol name, form) :: rest) frame) w g (.bind rest frame)
      (w₁.bindName frame name v)
  | calledBody (he : w.entered params args frame = .ok w₁) :
    Involves g (.call (.closure i params body frame) args) w g (.evaluate body w.frames.next) w₁
  | calledNative : Involves g (.call (.native f) args) w g (.invoke f args) w
  | appliedBody (he : w.entered params args frame = .ok w₁) :
    Involves g (.apply (.closure i params body frame) args) w g (.enter body w.frames.next) w₁
  | appliedNative : Involves g (.apply (.native f) args) w g (.invoke f args) w
  | evalIn : Involves g (.invoke (.evalIn root) [form]) w g (.enter form root) w
  | swap :
    Involves g (.invoke (.builtin (.atom .swap)) (.atom i :: f :: args)) w g
      (.apply f (w.cell i :: args)) w
  | host (hh : w.hosts[index]? = some f) :
    Involves g (.invoke (.host name index) args) w g (.play (f.run args)) w
  | request : Involves g (.play (.call f args resume)) w g (.apply f args) w
  | resume (h : Applies g f args w t (.ok v) w₁) :
    Involves g (.play (.call f args resume)) w g (.play (resume v)) w₁

/-- In the course of the activity the atom is written: it comes to a `reset!` of the atom, or to a
`swap!` of it whose function gives a value. -/
inductive Overwrites (i : AtomId) : Guard → Activity → World → Prop where
  | reset : Overwrites i g (.invoke (.builtin (.atom .reset)) [.atom i, v]) w
  | swap (h : Applies g f (w.cell i :: args) w t (.ok v) w₁) :
    Overwrites i g (.invoke (.builtin (.atom .swap)) (.atom i :: f :: args)) w
  | within (hb : Involves g a w g₁ b w₁) (h : Overwrites i g₁ b w₁) : Overwrites i g a w

/-! ## Atoms that are kept -/

namespace World

/-- All atoms are still there, and hold what they held unless they are excepted. -/
def AtomsKept (except : AtomId → Prop) (w w' : World) : Prop :=
  ∀ ⦃i v⦄, w.atoms[i]? = some v → ∃ v', w'.atoms[i]? = some v' ∧ (¬ except i → v' = v)

namespace AtomsKept

variable {w w₁ w₂ : World} {P Q : AtomId → Prop} {i : AtomId} {v : Value}

theorem of_eq (h : w₁.atoms = w.atoms) : AtomsKept P w w₁ :=
  fun _ v hv => ⟨v, h ▸ hv, fun _ => rfl⟩

theorem refl : AtomsKept P w w := of_eq rfl

theorem mono (h : AtomsKept P w w₁) (hPQ : ∀ i, P i → Q i) : AtomsKept Q w w₁ := by
  intro i v hv
  obtain ⟨v', hv', hkept⟩ := h hv
  exact ⟨v', hv', fun hn => hkept fun hi => hn (hPQ i hi)⟩

theorem trans (h₁ : AtomsKept P w w₁) (h₂ : AtomsKept P w₁ w₂) : AtomsKept P w w₂ := by
  intro i v hv
  obtain ⟨v₁, hv₁, hkept₁⟩ := h₁ hv
  obtain ⟨v₂, hv₂, hkept₂⟩ := h₂ hv₁
  exact ⟨v₂, hv₂, fun hn => (hkept₂ hn).trans (hkept₁ hn)⟩

theorem newAtom : AtomsKept P w { w with atoms := w.atoms.push v } := by
  intro i u hu
  have hi : i < w.atoms.size := (Array.getElem?_eq_some_iff.mp hu).1
  exact ⟨u, by rw [Array.getElem?_push_lt hi, ← hu, Array.getElem?_eq_getElem hi], fun _ => rfl⟩

theorem setCell (hi : P i) : AtomsKept P w (w.setCell i v) := by
  intro j u hu
  by_cases hij : i = j
  · subst hij
    exact ⟨v, by rw [World.setCell, Array.getElem?_modify, if_pos rfl, hu]; rfl,
      fun hn => (hn hi).elim⟩
  · exact ⟨u, by rw [World.setCell, Array.getElem?_modify, if_neg hij, hu], fun _ => rfl⟩

theorem size_le (h : AtomsKept P w w₁) (hi : i < w.atoms.size) : i < w₁.atoms.size := by
  obtain ⟨v', hv', -⟩ := h (Array.getElem?_eq_getElem hi)
  exact (Array.getElem?_eq_some_iff.mp hv').1

theorem cell_eq (h : AtomsKept P w w₁) (hi : i < w.atoms.size) (hn : ¬ P i) :
    w₁.cell i = w.cell i := by
  have hv := Array.getElem?_eq_getElem hi
  obtain ⟨v', hv', hkept⟩ := h hv
  rw [World.cell, World.cell, hv', hkept hn, hv]

end AtomsKept

theorem atoms_entered {w w₁ : World} {p : Params} {args : List Value} {frame : FrameId}
    (h : w.entered p args frame = .ok w₁) : w₁.atoms = w.atoms := by
  obtain ⟨news, -, rfl⟩ := entered_eq_ok_iff.mp h
  rfl

end World

/-! ## Runs that evaluate nothing -/

namespace Run

/-- Wherever the run ends, all atoms are kept but the excepted ones. -/
def KeepsAtoms (except : AtomId → Prop) (run : Run α) : Prop :=
  ∀ ⦃m r m'⦄, run m = .of r m' → m.world.AtomsKept except m'.world

namespace KeepsAtoms

variable {P : AtomId → Prop}

theorem change {f : World → World} (hf : ∀ w : World, w.AtomsKept P (f w)) :
    KeepsAtoms P (Run.change f) := by
  intro m r m' h
  obtain ⟨-, rfl⟩ := Outcome.of_inj (r := .ok ()) h
  exact hf m.world

theorem see (f : World → α) : KeepsAtoms P (Run.see f) := by
  intro m r m' h
  obtain ⟨-, rfl⟩ := Outcome.of_inj (r := .ok (f m.world)) h
  exact .refl

theorem pure (a : α) : KeepsAtoms P (Pure.pure a) := see fun _ => a

theorem fail (e : Error) : KeepsAtoms P (Run.fail e : Run α) := by
  intro m r m' h
  obtain ⟨-, rfl⟩ := Outcome.of_inj (r := .error e) h
  exact .refl

theorem halt (s : Halt) : KeepsAtoms P (Run.halt s : Run α) := by
  intro m r m' h
  cases r <;> contradiction

theorem ofExcept (x : Except Error α) : KeepsAtoms P (Run.ofExcept x) := by
  cases x with
  | ok a => exact pure a
  | error e => exact fail e

theorem bind {run : Run α} {f : α → Run β} (hr : KeepsAtoms P run)
    (hf : ∀ a, KeepsAtoms P (f a)) : KeepsAtoms P (run >>= f) := by
  intro m r m' h
  rcases of_bind h with ⟨a, m₁, h₁, h₂⟩ | ⟨e, h₁, -⟩
  · exact (hr h₁).trans (hf a h₂)
  · exact hr h₁

theorem textOf (style : Style) (sep : String) (vs : List Value) :
    KeepsAtoms P (TextOp.textOf style sep vs) := see _

theorem print (s : String) : KeepsAtoms P (Run.print s) := change fun _ => .of_eq rfl

theorem readFile (context path : String) : KeepsAtoms P (Run.readFile context path) := by
  refine bind (see _) fun found => ?_
  split
  · exact pure _
  · exact fail _
  · exact halt _

theorem textOp (op : TextOp) (args : List Value) : KeepsAtoms P (op.run args) := by
  unfold TextOp.run
  split
  any_goals exact pure _
  · exact bind (textOf ..) fun _ => pure _
  · exact bind (textOf ..) fun _ => pure _
  · exact bind (textOf ..) fun _ => bind (print _) fun _ => pure _
  · exact bind (textOf ..) fun _ => bind (print _) fun _ => pure _
  · split
    · exact pure _
    · exact fail _
  · exact bind (readFile ..) fun _ => pure _
  · exact fail _

theorem writeAtom {i : AtomId} (hi : P i) (v : Value) : KeepsAtoms P (Run.writeAtom i v) :=
  bind (change fun _ => .setCell hi) fun _ => pure _

theorem hostReply (index : Nat) (args : List Value) : KeepsAtoms P (Run.hostReply index args) := by
  intro m r m' h
  rw [Run.hostReply] at h
  cases hh : m.world.hosts[index]? with
  | some f =>
    rw [hh] at h
    exact pure (f.run args) h
  | none =>
    rw [hh] at h
    exact fail _ h

/-- A function of atoms where none can be applied. -/
theorem atomOp (op : AtomOp) (args : List Value)
    (hr : ∀ i v, op = .reset → args = [.atom i, v] → P i) :
    KeepsAtoms P (op.run (fun _ _ => Run.halt .outOfFuel) args) := by
  unfold AtomOp.run
  split
  any_goals exact fail _
  · exact bind (see _) fun _ => bind (change fun _ => .newAtom) fun _ => pure _
  · exact bind (ofExcept _) fun _ => see _
  · next v x =>
    cases v with
    | atom i => exact writeAtom (hr i x rfl rfl) x
    | _ => exact fail _
  · exact bind (ofExcept _) fun _ => bind (see _) fun _ => halt .outOfFuel

/-- Where nothing can be evaluated or applied, only `reset!` writes an atom. -/
theorem alone (f : Native) (args : List Value)
    (hr : ∀ i v, f = .builtin (.atom .reset) → args = [.atom i, v] → P i) :
    KeepsAtoms P (f.alone args) := by
  unfold Native.alone Native.run
  split
  · next b =>
    cases b with
    | atom op => exact atomOp op _ fun i v hop ha => hr i v (by rw [hop]) ha
    | text op => exact textOp op _
    | arithmetic op => exact ofExcept (op.run _)
    | equal => exact ofExcept (allEqual _)
    | relation r => exact ofExcept (r.run _)
    | sequence op => exact ofExcept (op.run _)
    | kind t => exact ofExcept (t.run _)
  · exact halt _
  · exact fail _
  · refine bind (hostReply _ _) fun reply => ?_
    cases reply with
    | give v => exact pure v
    | fail e => exact fail e
    | call f args resume => exact halt .outOfFuel

end KeepsAtoms

end Run

/-! ## Derivations -/

mutual

/-- Atoms that are not written are kept. -/
theorem Evaluates.keepsAtoms {g : Guard} {form : Value} {frame : FrameId} {w w' : World}
    {t : List Event} {r : Except Error Value} (h : Evaluates g form frame w t r w') :
    w.AtomsKept (Overwrites · g (.evaluate form frame) w) w' := by
  match h with
  | .symbol => exact .refl
  | .constant hc => exact .refl
  | .vector hs => exact (EvaluatesAll.keepsAtoms hs).mono fun _ => .within .vector
  | .map hs => exact (EvaluatesAll.keepsAtoms hs).mono fun _ => .within .map
  | .special hc hp => exact (Performs.keepsAtoms hp).mono fun _ => .within (.special hc)
  | .call hn hs hf =>
    exact ((EvaluatesAll.keepsAtoms hs).mono fun _ => .within (.parts hn)).trans
      ((Calls.keepsAtoms hf).mono fun _ => .within (.callee hn hs))
  | .callError hn hs => exact (EvaluatesAll.keepsAtoms hs).mono fun _ => .within (.parts hn)

theorem Enters.keepsAtoms {g : Guard} {form : Value} {frame : FrameId} {w w' : World}
    {t : List Event} {r : Except Error Value} (h : Enters g form frame w t r w') :
    w.AtomsKept (Overwrites · g (.enter form frame) w) w' := by
  match h with
  | .free h => exact (Evaluates.keepsAtoms h).mono fun _ => .within .free
  | .admitted h => exact (Evaluates.keepsAtoms h).mono fun _ => .within .admitted
  | .refused => exact .refl

theorem EvaluatesAll.keepsAtoms {g : Guard} {forms : List Value} {frame : FrameId}
    {w w' : World} {t : List Event} {rs : Except Error (List Value)}
    (h : EvaluatesAll g forms frame w t rs w') :
    w.AtomsKept (Overwrites · g (.evaluateAll forms frame) w) w' := by
  match h with
  | .nil => exact .refl
  | .cons h hs =>
    exact ((Enters.keepsAtoms h).mono fun _ => .within .first).trans
      ((EvaluatesAll.keepsAtoms hs).mono fun _ => .within (.others h))
  | .error h => exact (Enters.keepsAtoms h).mono fun _ => .within .first

theorem Performs.keepsAtoms {g : Guard} {c : Clause} {frame : FrameId} {w w' : World}
    {t : List Event} {r : Except Error Value} (h : Performs g c frame w t r w') :
    w.AtomsKept (Overwrites · g (.perform c frame) w) w' := by
  match h with
  | .define h => exact (Enters.keepsAtoms h).mono fun _ => .within .define
  | .defineError h => exact (Enters.keepsAtoms h).mono fun _ => .within .define
  | .bind hb h =>
    exact ((Binds.keepsAtoms hb).mono fun _ => .within .bindings).trans
      ((Evaluates.keepsAtoms h).mono fun _ => .within (.bindBody hb))
  | .bindError hb => exact (Binds.keepsAtoms hb).mono fun _ => .within .bindings
  | .sequence hs h =>
    exact ((EvaluatesAll.keepsAtoms hs).mono fun _ => .within .effects).trans
      ((Evaluates.keepsAtoms h).mono fun _ => .within (.last hs))
  | .sequenceError hs => exact (EvaluatesAll.keepsAtoms hs).mono fun _ => .within .effects
  | .branch hc h =>
    exact ((Enters.keepsAtoms hc).mono fun _ => .within .condition).trans
      ((Evaluates.keepsAtoms h).mono fun _ => .within (.chosen hc))
  | .branchError hc => exact (Enters.keepsAtoms hc).mono fun _ => .within .condition
  | .lambda => exact .of_eq rfl
  | .quote => exact .refl
  | .quasiquote h => exact (Evaluates.keepsAtoms h).mono fun _ => .within .quasiquote
  | .expand => exact .refl
  | .malformed => exact .refl

theorem Binds.keepsAtoms {g : Guard} {bindings : List (Value × Value)} {frame : FrameId}
    {w w' : World} {t : List Event} {r : Except Error Unit}
    (h : Binds g bindings frame w t r w') :
    w.AtomsKept (Overwrites · g (.bind bindings frame) w) w' := by
  match h with
  | .nil => exact .refl
  | .cons h hs =>
    exact ((Enters.keepsAtoms h).mono fun _ => .within .bound).trans
      ((Binds.keepsAtoms hs).mono fun _ => .within (.otherBindings h))
  | .error h => exact (Enters.keepsAtoms h).mono fun _ => .within .bound
  | .notSymbol _ => exact .refl

theorem Calls.keepsAtoms {g : Guard} {f : Value} {args : List Value} {w w' : World}
    {t : List Event} {r : Except Error Value} (h : Calls g f args w t r w') :
    w.AtomsKept (Overwrites · g (.call f args) w) w' := by
  match h with
  | .closure he h =>
    exact (World.AtomsKept.of_eq (World.atoms_entered he)).trans
      ((Evaluates.keepsAtoms h).mono fun _ => .within (.calledBody he))
  | .arity _ => exact .refl
  | .native h => exact (Invokes.keepsAtoms h).mono fun _ => .within .calledNative
  | .notCallable _ => exact .refl

theorem Applies.keepsAtoms {g : Guard} {f : Value} {args : List Value} {w w' : World}
    {t : List Event} {r : Except Error Value} (h : Applies g f args w t r w') :
    w.AtomsKept (Overwrites · g (.apply f args) w) w' := by
  match h with
  | .closure he h =>
    exact (World.AtomsKept.of_eq (World.atoms_entered he)).trans
      ((Enters.keepsAtoms h).mono fun _ => .within (.appliedBody he))
  | .arity _ => exact .refl
  | .native h => exact (Invokes.keepsAtoms h).mono fun _ => .within .appliedNative
  | .notCallable _ => exact .refl

theorem Invokes.keepsAtoms {g : Guard} {f : Native} {args : List Value} {w w' : World}
    {t : List Event} {r : Except Error Value} (h : Invokes g f args w t r w') :
    w.AtomsKept (Overwrites · g (.invoke f args) w) w' := by
  match h with
  | .alone h =>
    refine Run.KeepsAtoms.alone f args ?_ (h 0 0)
    rintro i v rfl rfl
    exact .reset
  | .evalIn h => exact (Enters.keepsAtoms h).mono fun _ => .within .evalIn
  | .swap h =>
    exact ((Applies.keepsAtoms h).mono fun _ => .within .swap).trans (.setCell (.swap h))
  | .swapError h => exact (Applies.keepsAtoms h).mono fun _ => .within .swap
  | .host hh h => exact (Plays.keepsAtoms h).mono fun _ => .within (.host hh)

theorem Plays.keepsAtoms {g : Guard} {reply : Reply} {w w' : World} {t : List Event}
    {r : Except Error Value} (h : Plays g reply w t r w') :
    w.AtomsKept (Overwrites · g (.play reply) w) w' := by
  match h with
  | .give => exact .refl
  | .fail => exact .refl
  | .call h hr =>
    exact ((Applies.keepsAtoms h).mono fun _ => .within .request).trans
      ((Plays.keepsAtoms hr).mono fun _ => .within (.resume h))
  | .callError h => exact (Applies.keepsAtoms h).mono fun _ => .within .request

end

end Lisplet

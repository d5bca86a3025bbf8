import Lisplet.Proofs.Roots

/-! Roots that a derivation asks. If the form and the world it begins in hold the function
`eval` of certain roots only, no other root is asked, and neither the result nor the world
that is left holds the `eval` of another. -/

namespace Lisplet

variable {R : FrameId → Prop}

/-! ## Worlds -/

/-- Whatever the script gives or hands to a function holds the `eval` of the roots only, if
that is so for the values handed to the script. -/
def Reply.Within (R : FrameId → Prop) : Reply → Prop
  | give v => v.Within R
  | fail _ => True
  | call f args resume =>
    f.Within R ∧ (∀ a ∈ args, a.Within R) ∧ ∀ v, v.Within R → (resume v).Within R

def HostFunction.Within (R : FrameId → Prop) (f : HostFunction) : Prop :=
  ∀ args, (∀ a ∈ args, a.Within R) → (f.run args).Within R

/-- All that a program can get hold of in a world holds the `eval` of the roots only. -/
structure World.Within (R : FrameId → Prop) (w : World) : Prop where
  bindings : ∀ {i : FrameId} {name : String} {v : Value},
    w.frames.own? i name = some v → v.Within R
  atoms : ∀ {i : AtomId} {v : Value}, w.atoms[i]? = some v → v.Within R
  hosts : ∀ {i : Nat} {f : HostFunction}, w.hosts[i]? = some f → f.Within R

namespace Frames

variable {fs : Frames} {i j : FrameId} {name x : String} {v u : Value} {f : Frame}

theorem own?_bind (h : (fs.bind j x u).own? i name = some v) :
    fs.own? i name = some v ∨ v = u := by
  simp only [own?, Frames.bind, Array.getElem?_modify] at h ⊢
  split at h
  · next hij =>
    cases hf : fs.all[i]? with
    | none => simp [hf] at h
    | some f =>
      rw [hf] at h
      change (f.bindings.insert x u)[name]? = some v at h
      rw [Bindings.getElem?_insert_eq] at h
      split at h
      · exact .inr (Option.some.inj h).symm
      · exact .inl h
  · exact .inl h

theorem own?_push (h : (fs.push f).own? i name = some v) :
    fs.own? i name = some v ∨ f.bindings[name]? = some v := by
  simp only [own?, push, Array.getElem?_push] at h ⊢
  split at h
  · exact .inr h
  · exact .inl h

end Frames

theorem Bindings.getElem?_insertAll {news : List (String × Value)} {b : Bindings}
    {name : String} {v : Value} (h : (insertAll news b)[name]? = some v) :
    b[name]? = some v ∨ (name, v) ∈ news := by
  induction news generalizing b with
  | nil => exact .inl h
  | cons p news ih =>
    rcases ih h with hb | hm
    · rw [getElem?_insert_eq] at hb
      split at hb
      · next hx =>
        cases hb
        subst hx
        exact .inr (List.mem_cons_self ..)
      · exact .inl hb
    · exact .inr (List.mem_cons_of_mem p hm)

theorem Params.within_assign {p : Params} {args : List Value} {news : List (String × Value)}
    (h : p.assign args = .ok news) (ha : ∀ a ∈ args, a.Within R) :
    ∀ q ∈ news, q.2.Within R := by
  unfold assign at h
  split at h
  · contradiction
  · cases h
    intro q hq
    rcases List.mem_append.mp hq with hq | hq
    · exact ha q.2 (List.of_mem_zip hq).2
    · unfold restBinding at hq
      split at hq
      · contradiction
      · cases List.mem_singleton.mp hq
        exact Value.within_list.mpr fun a hm => ha a (List.mem_of_mem_drop hm)

namespace World.Within

variable {w : World} {v : Value} {i frame : FrameId} {name : String}

theorem empty (disk : Disk) : (World.empty disk).Within R where
  bindings h := by simp [Frames.own?, World.empty, Frames.empty] at h
  atoms h := by simp [World.empty] at h
  hosts h := by simp [World.empty] at h

theorem lookup (hw : w.Within R) (h : w.lookup frame name = .ok v) : v.Within R := by
  unfold World.lookup at h
  split at h
  · next v' hg =>
    cases h
    obtain ⟨owner, -, ho⟩ := Option.bind_eq_some_iff.mp hg
    exact hw.bindings ho
  · contradiction

theorem bindName (hw : w.Within R) (hv : v.Within R) : (w.bindName i name v).Within R where
  bindings h := by
    rcases Frames.own?_bind h with h | rfl
    · exact hw.bindings h
    · exact hv
  atoms := hw.atoms
  hosts := hw.hosts

theorem withFrame {f : Frame} (hw : w.Within R)
    (hf : ∀ {name : String} {v : Value}, f.bindings[name]? = some v → v.Within R) :
    (w.withFrame f).Within R where
  bindings h := (Frames.own?_push h).elim hw.bindings hf
  atoms := hw.atoms
  hosts := hw.hosts

theorem withChild (hw : w.Within R) : (w.withChild frame).Within R :=
  hw.withFrame fun h => by simp at h

theorem entered {w₁ : World} {p : Params} {args : List Value} (hw : w.Within R)
    (ha : ∀ a ∈ args, a.Within R) (h : w.entered p args frame = .ok w₁) : w₁.Within R := by
  obtain ⟨news, hn, rfl⟩ := World.entered_eq_ok_iff.mp h
  refine hw.withFrame fun hb => ?_
  rcases Bindings.getElem?_insertAll hb with hb | hm
  · simp at hb
  · exact Params.within_assign hn ha _ hm

theorem cell (hw : w.Within R) (i : AtomId) : (w.cell i).Within R := by
  unfold World.cell
  cases h : w.atoms[i]? with
  | none => trivial
  | some v => exact hw.atoms h

theorem setCell (hw : w.Within R) (hv : v.Within R) (i : AtomId) : (w.setCell i v).Within R where
  bindings := hw.bindings
  atoms {j u} h := by
    simp only [World.setCell, Array.getElem?_modify] at h
    split at h
    · obtain ⟨_, -, rfl⟩ := Option.map_eq_some_iff.mp h
      exact hv
    · exact hw.atoms h
  hosts := hw.hosts

theorem newAtom (hw : w.Within R) (hv : v.Within R) :
    World.Within R { w with atoms := w.atoms.push v } where
  bindings := hw.bindings
  atoms {j u} h := by
    rw [Array.getElem?_push] at h
    split at h
    · cases h
      exact hv
    · exact hw.atoms h
  hosts := hw.hosts

end World.Within

/-! ## Runs that evaluate nothing -/

/-- The run leaves a world that holds no `eval` of another root, if it begins in such a one,
and its values are as `P` says. -/
def Run.Confined (R : FrameId → Prop) (P : α → Prop) (run : Run α) : Prop :=
  ∀ ⦃m r m'⦄, m.world.Within R → run m = .of r m' →
    m'.world.Within R ∧ ∀ a, r = .ok a → P a

namespace Run.Confined

variable {P : α → Prop} {Q : β → Prop}

theorem see {f : World → α} (h : ∀ w, w.Within R → P (f w)) : Confined R P (Run.see f) := by
  intro m r m' hw hr
  obtain ⟨rfl, rfl⟩ := Outcome.of_inj (r := .ok (f m.world)) hr
  refine ⟨hw, fun a ha => ?_⟩
  cases ha
  exact h m.world hw

theorem pure {a : α} (h : P a) : Confined R P (Pure.pure a) := see fun _ _ => h

theorem change {f : World → World} (h : ∀ w, w.Within R → (f w).Within R) :
    Confined R (fun _ => True) (Run.change f) := by
  intro m r m' hw hr
  obtain ⟨rfl, rfl⟩ := Outcome.of_inj (r := .ok ()) hr
  exact ⟨h m.world hw, fun _ _ => trivial⟩

theorem fail (e : Error) : Confined R P (Run.fail e) := by
  intro m r m' hw hr
  obtain ⟨rfl, rfl⟩ := Outcome.of_inj (r := .error e) hr
  exact ⟨hw, nofun⟩

theorem halt (s : Halt) : Confined R P (Run.halt s) := by
  intro m r m' hw hr
  cases r <;> contradiction

theorem ofExcept {x : Except Error α} (h : ∀ a, x = .ok a → P a) :
    Confined R P (Run.ofExcept x) := by
  cases x with
  | ok a => exact pure (h a rfl)
  | error e => exact fail e

theorem bind {run : Run α} {f : α → Run β} (hr : Confined R P run)
    (hf : ∀ a, P a → Confined R Q (f a)) : Confined R Q (run >>= f) := by
  intro m r m' hw h
  rcases Run.of_bind h with ⟨a, m₁, h₁, h₂⟩ | ⟨e, h₁, rfl⟩
  · obtain ⟨hw₁, ha⟩ := hr hw h₁
    exact hf a (ha a rfl) hw₁ h₂
  · exact ⟨(hr hw h₁).1, nofun⟩

theorem print (s : String) : Confined R (fun _ => True) (Run.print s) :=
  change fun _ hw => ⟨hw.bindings, hw.atoms, hw.hosts⟩

theorem readFile (context path : String) :
    Confined R (fun _ => True) (Run.readFile context path) := by
  refine bind (see (P := fun _ => True) fun _ _ => trivial) fun found _ => ?_
  split
  · exact pure trivial
  · exact fail _
  · exact halt _

theorem textOf (style : Style) (sep : String) (vs : List Value) :
    Confined R (fun _ => True) (TextOp.textOf style sep vs) := see fun _ _ => trivial

theorem textOp (op : TextOp) (args : List Value) :
    Confined R (Value.Within R) (op.run args) := by
  unfold TextOp.run
  split
  any_goals exact pure trivial
  · exact bind (textOf ..) fun _ _ => pure trivial
  · exact bind (textOf ..) fun _ _ => pure trivial
  · exact bind (textOf ..) fun _ _ => bind (print _) fun _ _ => pure trivial
  · exact bind (textOf ..) fun _ _ => bind (print _) fun _ _ => pure trivial
  · next s =>
    split
    · next found h =>
      cases found with
      | none => exact pure trivial
      | some v => exact pure (Form.within_readFirst h)
    · exact fail _
  · exact bind (readFile ..) fun _ _ => pure trivial
  · exact fail _

theorem writeAtom {v : Value} (hv : v.Within R) (i : AtomId) :
    Confined R (Value.Within R) (Run.writeAtom i v) :=
  bind (change fun _ hw => hw.setCell hv i) fun _ _ => pure hv

theorem atomOp {apply : Value → List Value → Run Value}
    (happly : ∀ f args, Confined R (Value.Within R) (apply f args)) (op : AtomOp)
    {args : List Value} (ha : ∀ a ∈ args, a.Within R) :
    Confined R (Value.Within R) (op.run apply args) := by
  unfold AtomOp.run
  split
  any_goals exact fail _
  · exact bind (see (P := fun _ => True) fun _ _ => trivial) fun _ _ =>
      bind (change fun _ hw => hw.newAtom (ha _ (by simp))) fun _ _ => pure trivial
  · exact bind (ofExcept (P := fun _ => True) fun _ _ => trivial) fun _ _ =>
      see fun w hw => hw.cell _
  · exact bind (ofExcept (P := fun _ => True) fun _ _ => trivial) fun _ _ =>
      writeAtom (ha _ (by simp)) _
  · exact bind (ofExcept (P := fun _ => True) fun _ _ => trivial) fun i _ =>
      bind (see (P := fun _ => True) fun _ _ => trivial) fun _ _ =>
        bind (happly _ _) fun _ hv => writeAtom hv i

theorem hostReply (index : Nat) {args : List Value} (ha : ∀ a ∈ args, a.Within R) :
    Confined R (Reply.Within R) (Run.hostReply index args) := by
  intro m r m' hw h
  unfold Run.hostReply at h
  cases hh : m.world.hosts[index]? with
  | some f =>
    rw [hh] at h
    obtain ⟨rfl, rfl⟩ := Outcome.of_inj (r := .ok (f.run args)) h
    refine ⟨hw, fun reply hreply => ?_⟩
    cases hreply
    exact hw.hosts hh args ha
  | none =>
    rw [hh] at h
    obtain ⟨rfl, rfl⟩ := Outcome.of_inj (r := .error _) h
    exact ⟨hw, nofun⟩

theorem play {apply : Value → List Value → Run Value}
    (happly : ∀ f args, Confined R (Value.Within R) (apply f args)) {reply : Reply}
    (hr : reply.Within R) : Confined R (Value.Within R) (reply.play apply) := by
  induction reply with
  | give v => exact pure hr
  | fail e => exact fail e
  | call f args resume ih => exact bind (happly f args) fun v hv => ih v (hr.2.2 v hv)

/-- Where nothing can be evaluated or applied no function makes another `eval`. -/
theorem alone (f : Native) {args : List Value} (ha : ∀ a ∈ args, a.Within R) :
    Confined R (Value.Within R) (f.alone args) := by
  have happly (f : Value) (args : List Value) : Confined R (Value.Within R)
      ((fun _ _ => Run.halt .outOfFuel : Value → List Value → Run Value) f args) := halt _
  unfold Native.alone Native.run
  split
  · next b =>
    cases b with
    | atom op => exact atomOp happly op ha
    | text op => exact textOp op args
    | arithmetic op => exact ofExcept fun _ h => Arithmetic.within_run h
    | equal => exact ofExcept fun _ h => within_allEqual h
    | relation r => exact ofExcept fun _ h => Relation.within_run h
    | sequence op => exact ofExcept fun _ h => SequenceOp.within_run h ha
    | kind t => exact ofExcept fun _ h => KindTest.within_run h
  · exact halt _
  · exact fail _
  · exact bind (hostReply _ ha) fun _ hr => play happly hr

end Run.Confined

/-! ## Derivations -/

/-- An end of a derivation at which no `eval` of another root is held or has been called. -/
structure Confines (R : FrameId → Prop) (P : α → Prop) (t : List Event) (r : Except Error α)
    (w' : World) : Prop where
  world : w'.Within R
  value : ∀ a, r = .ok a → P a
  roots : ∀ root, Event.asked root ∈ t → R root

namespace Confines

variable {P : α → Prop} {Q : β → Prop} {s t : List Event} {r : Except Error α}
  {w w' w₁ w₂ : World}

theorem ended (hw : w'.Within R) (hr : ∀ a, r = .ok a → P a) : Confines R P [] r w' :=
  ⟨hw, hr, nofun⟩

theorem given {a : α} (hw : w'.Within R) (ha : P a) : Confines R P [] (.ok a) w' := by
  refine .ended hw fun b hb => ?_
  cases hb
  exact ha

theorem error {e : Error} (h : Confines R P t (.error e) w') :
    Confines R Q t (.error e) w' := ⟨h.world, nofun, h.roots⟩

theorem map {f : α → β} (h : Confines R P t r w') (hf : ∀ a, P a → Q (f a)) :
    Confines R Q t (r.map f) w' := by
  cases r with
  | error e => exact h.error
  | ok a =>
    refine ⟨h.world, fun b hb => ?_, h.roots⟩
    cases hb
    exact hf a (h.value a rfl)

theorem andThen {r' : Except Error β} (h₁ : Confines R P s r w₁)
    (h₂ : Confines R Q t r' w₂) : Confines R Q (s ++ t) r' w₂ := by
  refine ⟨h₂.world, h₂.value, fun root hr => ?_⟩
  exact (List.mem_append.mp hr).elim (h₁.roots root) (h₂.roots root)

theorem deeper (h : Confines R P t r w') (w : World) :
    Confines R P (.attempt 1 w :: t.map .deeper) r w' := by
  refine ⟨h.world, h.value, fun root hr => ?_⟩
  rcases List.mem_cons.mp hr with hr | hr
  · contradiction
  · obtain ⟨e, he, hd⟩ := List.mem_map.mp hr
    cases e with
    | attempt level world => contradiction
    | asked root' =>
      cases hd
      exact h.roots root he

theorem asked {root : FrameId} (h : Confines R P t r w') (hroot : R root) :
    Confines R P (.asked root :: t) r w' := by
  refine ⟨h.world, h.value, fun root' hr => ?_⟩
  rcases List.mem_cons.mp hr with hr | hr
  · cases hr
    exact hroot
  · exact h.roots root' hr

end Confines

mutual

theorem Evaluates.confined {g : Guard} {form : Value} {frame : FrameId} {w w' : World}
    {t : List Event} {r : Except Error Value} (h : Evaluates g form frame w t r w')
    (hf : form.Within R) (hw : w.Within R) : Confines R (Value.Within R) t r w' := by
  match form, h with
  | _, .symbol => exact .ended hw fun v hv => hw.lookup hv
  | form, .constant hc => exact .given hw hf
  | .seq .vector xs, .vector hs =>
    have hxs : ∀ x ∈ xs.toList, x.Within R := Value.within_seq.mp hf
    exact (EvaluatesAll.confined hs hxs hw).map fun vs hv => Value.within_vector.mpr hv
  | .map es, .map hs =>
    have hes : ∀ e ∈ es.toList, e.1.Within R ∧ e.2.Within R := Value.within_map.mp hf
    have hvs : ∀ v ∈ es.toList.map Prod.snd, v.Within R := by
      simpa using fun v k hm => (hes (k, v) hm).2
    refine (EvaluatesAll.confined hs hvs hw).map fun vs hv => Value.within_mapOf fun e he => ?_
    obtain ⟨hk, hm⟩ := List.of_mem_zip he
    obtain ⟨e', he', hk⟩ := List.mem_map.mp hk
    exact ⟨hk ▸ (hes e' he').1, hv e.2 hm⟩
  | _, .special hc hp => exact Performs.confined hp (Value.within_clause? hc hf) hw
  | .seq .list xs, .call hn hs hc =>
    have hvs := EvaluatesAll.confined hs (Value.within_seq.mp hf) hw
    obtain ⟨hfun, hargs⟩ := List.forall_mem_cons.mp (hvs.value _ rfl)
    exact hvs.andThen (Calls.confined hc hfun hargs hvs.world)
  | .seq .list xs, .callError hn hs =>
    exact (EvaluatesAll.confined hs (Value.within_seq.mp hf) hw).error

theorem Enters.confined {g : Guard} {form : Value} {frame : FrameId} {w w' : World}
    {t : List Event} {r : Except Error Value} (h : Enters g form frame w t r w')
    (hf : form.Within R) (hw : w.Within R) : Confines R (Value.Within R) t r w' := by
  match h with
  | .free h => exact (Evaluates.confined h hf hw).deeper w
  | .admitted h => exact (Evaluates.confined h hf hw).deeper w
  | .refused => exact (Confines.ended hw nofun).deeper w

theorem EvaluatesAll.confined {g : Guard} {forms : List Value} {frame : FrameId}
    {w w' : World} {t : List Event} {rs : Except Error (List Value)}
    (h : EvaluatesAll g forms frame w t rs w') (hf : ∀ form ∈ forms, form.Within R)
    (hw : w.Within R) : Confines R (fun vs => ∀ v ∈ vs, v.Within R) t rs w' := by
  match h with
  | .nil => exact .given hw (by simp)
  | .cons h hs =>
    obtain ⟨hform, hforms⟩ := List.forall_mem_cons.mp hf
    have hv := Enters.confined h hform hw
    have hvs := EvaluatesAll.confined hs hforms hv.world
    exact hv.andThen (hvs.map fun vs hvs => List.forall_mem_cons.mpr ⟨hv.value _ rfl, hvs⟩)
  | .error h => exact (Enters.confined h (List.forall_mem_cons.mp hf).1 hw).error

theorem Performs.confined {g : Guard} {c : Clause} {frame : FrameId} {w w' : World}
    {t : List Event} {r : Except Error Value} (h : Performs g c frame w t r w')
    (hc : c.Within R) (hw : w.Within R) : Confines R (Value.Within R) t r w' := by
  match c, h with
  | _, .define h =>
    have hv := Enters.confined h hc hw
    exact ⟨hv.world.bindName (hv.value _ rfl), hv.value, hv.roots⟩
  | _, .defineError h => exact Enters.confined h hc hw
  | .bind _ _, .bind hb h =>
    have hs := Binds.confined hb hc.1 hw.withChild
    exact hs.andThen (Evaluates.confined h hc.2 hs.world)
  | .bind _ _, .bindError hb => exact (Binds.confined hb hc.1 hw.withChild).error
  | .sequence _ _, .sequence hs h =>
    have hvs := EvaluatesAll.confined hs hc.1 hw
    exact hvs.andThen (Evaluates.confined h hc.2 hvs.world)
  | .sequence _ _, .sequenceError hs => exact (EvaluatesAll.confined hs hc.1 hw).error
  | .branch _ _ _, .branch hcond h =>
    have hv := Enters.confined hcond hc.1 hw
    refine hv.andThen (Evaluates.confined h ?_ hv.world)
    split
    · exact hc.2.1
    · exact hc.2.2
  | .branch _ _ _, .branchError hcond => exact Enters.confined hcond hc.1 hw
  | .lambda _ _, .lambda => exact .given ⟨hw.bindings, hw.atoms, hw.hosts⟩ hc
  | _, .quote => exact .given hw hc
  | _, .quasiquote h => exact Evaluates.confined h (Template.within_expand _ hc) hw
  | _, .expand => exact .given hw (Template.within_expand _ hc)
  | _, .malformed => exact .ended hw nofun

theorem Binds.confined {g : Guard} {bindings : List (Value × Value)} {frame : FrameId}
    {w w' : World} {t : List Event} {r : Except Error Unit}
    (h : Binds g bindings frame w t r w') (hb : ∀ b ∈ bindings, b.2.Within R)
    (hw : w.Within R) : Confines R (fun _ => True) t r w' := by
  match h with
  | .nil => exact .given hw trivial
  | .cons h hs =>
    obtain ⟨hform, hrest⟩ := List.forall_mem_cons.mp hb
    have hv := Enters.confined h hform hw
    exact hv.andThen (Binds.confined hs hrest (hv.world.bindName (hv.value _ rfl)))
  | .error h => exact (Enters.confined h (List.forall_mem_cons.mp hb).1 hw).error
  | .notSymbol hn => exact .ended hw nofun

theorem Calls.confined {g : Guard} {f : Value} {args : List Value} {w w' : World}
    {t : List Event} {r : Except Error Value} (h : Calls g f args w t r w') (hf : f.Within R)
    (ha : ∀ a ∈ args, a.Within R) (hw : w.Within R) : Confines R (Value.Within R) t r w' := by
  match h with
  | .closure he h => exact Evaluates.confined h hf (hw.entered ha he)
  | .arity he => exact .ended hw nofun
  | .native h => exact Invokes.confined h hf ha hw
  | .notCallable _ => exact .ended hw nofun

theorem Applies.confined {g : Guard} {f : Value} {args : List Value} {w w' : World}
    {t : List Event} {r : Except Error Value} (h : Applies g f args w t r w')
    (hf : f.Within R) (ha : ∀ a ∈ args, a.Within R) (hw : w.Within R) :
    Confines R (Value.Within R) t r w' := by
  match h with
  | .closure he h => exact Enters.confined h hf (hw.entered ha he)
  | .arity he => exact .ended hw nofun
  | .native h => exact Invokes.confined h hf ha hw
  | .notCallable _ => exact .ended hw nofun

theorem Invokes.confined {g : Guard} {f : Native} {args : List Value} {w w' : World}
    {t : List Event} {r : Except Error Value} (h : Invokes g f args w t r w')
    (hf : (Value.native f).Within R) (ha : ∀ a ∈ args, a.Within R) (hw : w.Within R) :
    Confines R (Value.Within R) t r w' := by
  match args, h with
  | _, .alone h =>
    obtain ⟨hw', hv⟩ := Run.Confined.alone f ha hw (h 0 0)
    exact .ended hw' hv
  | _, .evalIn h =>
    exact (Enters.confined h (ha _ (by simp)) hw).asked hf
  | .atom i :: f :: args, .swap h =>
    have hargs : ∀ a ∈ w.cell i :: args, a.Within R :=
      List.forall_mem_cons.mpr ⟨hw.cell i, fun a hm => ha a (by simp [hm])⟩
    have hv := Applies.confined h (ha f (by simp)) hargs hw
    exact ⟨hv.world.setCell (hv.value _ rfl) i, hv.value, hv.roots⟩
  | .atom i :: f :: args, .swapError h =>
    have hargs : ∀ a ∈ w.cell i :: args, a.Within R :=
      List.forall_mem_cons.mpr ⟨hw.cell i, fun a hm => ha a (by simp [hm])⟩
    exact Applies.confined h (ha f (by simp)) hargs hw
  | _, .host hh h => exact Plays.confined h (hw.hosts hh _ ha) hw

theorem Plays.confined {g : Guard} {reply : Reply} {w w' : World} {t : List Event}
    {r : Except Error Value} (h : Plays g reply w t r w') (hr : reply.Within R)
    (hw : w.Within R) : Confines R (Value.Within R) t r w' := by
  match reply, h with
  | .give v, .give => exact .given hw hr
  | .fail _, .fail => exact .ended hw nofun
  | .call _ _ _, .call h hs =>
    have hv := Applies.confined h hr.1 hr.2.1 hw
    exact hv.andThen (Plays.confined hs (hr.2.2 _ (hv.value _ rfl)) hv.world)
  | .call _ _ _, .callError h => exact Applies.confined h hr.1 hr.2.1 hw

end

end Lisplet

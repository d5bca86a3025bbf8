import Lisplet.Engine
import Lisplet.Proofs.Application
import Lisplet.Proofs.Inert
import Lisplet.Proofs.NewRoot
import Lisplet.Proofs.RoundTrip

/-! Evaluation without closures ends. Code that does not mention `fn*` makes no closure, and code
that does not mention `eval` cannot have other code evaluated. Then all that is ever evaluated are
parts of the code and what its templates expand to, and of a template too only parts of the code are
evaluated. So there is an induction on the code that is about both: evaluating it and evaluating
what it expands to as a template. Functions that `swap!` applies to each other get one argument less
each time. -/

namespace Lisplet

/-- The name is among the symbols in a value. -/
inductive Value.Mentions (name : String) : Value → Prop where
  | symbol : Mentions name (.symbol name)
  | element (hx : x ∈ xs.toList) (h : Mentions name x) : Mentions name (.seq shape xs)
  | key (he : e ∈ es.toList) (h : Mentions name e.1) : Mentions name (.map es)
  | value (he : e ∈ es.toList) (h : Mentions name e.2) : Mentions name (.map es)

namespace Value

variable {name other : String} {xs : Rope Value} {es : Rope (Value × Value)} {shape : Shape}

@[simp] theorem mentions_symbol_iff : (symbol other).Mentions name ↔ other = name := by
  constructor
  · intro h
    cases h
    rfl
  · rintro rfl
    exact .symbol

@[simp] theorem mentions_seq_iff :
    (seq shape xs).Mentions name ↔ ∃ x ∈ xs.toList, x.Mentions name := by
  constructor
  · intro h
    cases h with
    | element hx h => exact ⟨_, hx, h⟩
  · rintro ⟨x, hx, h⟩
    exact .element hx h

@[simp] theorem mentions_map_iff :
    (map es).Mentions name ↔ ∃ e ∈ es.toList, e.1.Mentions name ∨ e.2.Mentions name := by
  constructor
  · intro h
    cases h with
    | key he h => exact ⟨_, he, .inl h⟩
    | value he h => exact ⟨_, he, .inr h⟩
  · rintro ⟨e, he, h | h⟩
    · exact .key he h
    · exact .value he h

end Value

variable {root frame : FrameId} {base : AtomId} {g : Guard} {w : World} {P : α → Prop}

/-! ## Derivations that end -/

/-- A sealed world is left, and if there is a value it is as `P` says. -/
structure Leaves (root : FrameId) (base : AtomId) (P : α → Prop) (r : Except Error α) (w' : World) :
    Prop where
  world : w'.Sealed root base
  value : ∀ a, r = .ok a → P a

namespace Leaves

variable {Q : β → Prop} {r : Except Error α} {w' : World}

theorem ok {a : α} (hw : w'.Sealed root base) (ha : P a) : Leaves root base P (.ok a) w' := by
  refine ⟨hw, fun b hb => ?_⟩
  cases hb
  exact ha

theorem error {e : Error} (hw : w'.Sealed root base) : Leaves root base P (.error e) w' :=
  ⟨hw, nofun⟩

theorem map {f : α → β} (h : Leaves root base P r w') (hf : ∀ a, P a → Q (f a)) :
    Leaves root base Q (r.map f) w' := by
  cases r with
  | error e => exact error h.world
  | ok a => exact ok h.world (hf a (h.value a rfl))

end Leaves

/-- Wherever names stand for inert values the evaluation of the form ends. -/
def Value.Ends (root : FrameId) (base : AtomId) (form : Value) : Prop :=
  ∀ ⦃g frame w⦄, root ≤ frame → w.Sealed root base →
    ∃ t r w', Evaluates g form frame w t r w' ∧ Leaves root base (Value.Inert base) r w'

section

variable {form : Value} {forms : List Value} (hf : root ≤ frame) (hw : w.Sealed root base)

include hf hw

theorem Value.Ends.enters (h : form.Ends root base) :
    ∃ t r w', Enters g form frame w t r w' ∧ Leaves root base (Value.Inert base) r w' := by
  cases g with
  | free =>
    obtain ⟨t, r, w', h, hl⟩ := h hf hw
    exact ⟨_, r, w', .free h, hl⟩
  | upTo room limit =>
    cases room with
    | zero => exact ⟨_, _, w, .refused, .error hw⟩
    | succ room =>
      obtain ⟨t, r, w', h, hl⟩ := h hf hw
      exact ⟨_, r, w', .admitted h, hl⟩

theorem exists_evaluatesAll (h : ∀ form ∈ forms, form.Ends root base) :
    ∃ t rs w', EvaluatesAll g forms frame w t rs w' ∧
      Leaves root base (fun vs => ∀ v ∈ vs, v.Inert base) rs w' := by
  induction forms generalizing w with
  | nil => exact ⟨_, _, w, .nil, .ok hw (List.forall_mem_nil _)⟩
  | cons form forms ih =>
    obtain ⟨hform, hforms⟩ := List.forall_mem_cons.mp h
    obtain ⟨t, r, w₁, hr, hl⟩ := hform.enters hf hw (g := g)
    cases r with
    | error e => exact ⟨_, _, w₁, .error hr, .error hl.world⟩
    | ok v =>
      obtain ⟨s, rs, w₂, hrs, hls⟩ := ih hl.world hforms
      refine ⟨_, _, w₂, .cons hr hrs, hls.map fun vs hvs => ?_⟩
      exact List.forall_mem_cons.mpr ⟨hl.value v rfl, hvs⟩

theorem exists_binds {bindings : List (Value × Value)} (h : ∀ b ∈ bindings, b.2.Ends root base) :
    ∃ t r w', Binds g bindings frame w t r w' ∧ Leaves root base (fun _ => True) r w' := by
  induction bindings generalizing w with
  | nil => exact ⟨_, _, w, .nil, .ok hw trivial⟩
  | cons b bindings ih =>
    obtain ⟨name, form⟩ := b
    obtain ⟨hform, hforms⟩ := List.forall_mem_cons.mp h
    by_cases hn : ∃ x, name = .symbol x
    · obtain ⟨x, rfl⟩ := hn
      obtain ⟨t, r, w₁, hr, hl⟩ := hform.enters hf hw (g := g)
      cases r with
      | error e => exact ⟨_, _, w₁, .error hr, .error hl.world⟩
      | ok v =>
        obtain ⟨s, rs, w₂, hrs, hls⟩ := ih (hl.world.bindName (hl.value v rfl)) hforms
        exact ⟨_, _, w₂, .cons hr hrs, hls⟩
    · exact ⟨_, _, w, .notSymbol fun x hx => hn ⟨x, hx⟩, .error hw⟩

end

/-! ## Functions -/

/-- A function of the language ends if those that it applies do. -/
theorem exists_invokes (b : Builtin) {args : List Value} (ha : ∀ a ∈ args, a.Inert base)
    (hw : w.Sealed root base)
    (happly : ∀ i f rest, args = .atom i :: f :: rest →
      ∃ t r w', Applies g f (w.cell i :: rest) w t r w' ∧
        Leaves root base (Value.Inert base) r w') :
    ∃ t r w', Invokes g (.builtin b) args w t r w' ∧ Leaves root base (Value.Inert base) r w' := by
  by_cases hs : b = .atom .swap ∧ ∃ i f rest, args = .atom i :: f :: rest
  · obtain ⟨rfl, i, f, rest, rfl⟩ := hs
    obtain ⟨t, r, w', h, hl⟩ := happly i f rest rfl
    cases r with
    | error e => exact ⟨_, _, w', .swapError h, hl⟩
    | ok v => exact ⟨_, _, _, .swap h, .ok (hl.world.setCell (hl.value v rfl)) (hl.value v rfl)⟩
  · obtain ⟨r, w', h, hw', hr⟩ :=
      Run.Ends.alone b ha (fun hb i f rest he => hs ⟨hb, i, f, rest, he⟩) hw
    exact ⟨_, r, w', .alone h, hw', hr⟩

/-- The further arguments that `swap!` is given get fewer when it hands them on. -/
theorem exists_applies {f : Value} {args : List Value} (hf : f.Inert base)
    (ha : ∀ a ∈ args, a.Inert base) (hw : w.Sealed root base) :
    ∃ t r w', Applies g f args w t r w' ∧ Leaves root base (Value.Inert base) r w' := by
  induction hn : args.length using Nat.strongRecOn generalizing f args with
  | ind n ih =>
    cases hfun : f.isFunction with
    | false => exact ⟨_, _, w, .notCallable hfun, .error hw⟩
    | true =>
      obtain ⟨b, rfl⟩ := hf.of_isFunction hfun
      have h := exists_invokes (g := g) b ha hw fun i f rest he => by
        subst he
        have hi : base ≤ i := Value.inert_atom_iff.mp (ha _ (by simp))
        refine ih (rest.length + 1) ?_ (ha f (by simp)) ?_ rfl
        · rw [← hn]
          exact Nat.lt_succ_self _
        · intro a hm
          rcases List.mem_cons.mp hm with rfl | hm
          · exact hw.cell hi
          · exact ha a (by simp [hm])
      obtain ⟨t, r, w', h, hl⟩ := h
      exact ⟨t, r, w', .native h, hl⟩

theorem exists_calls {f : Value} {args : List Value} (hf : f.Inert base)
    (ha : ∀ a ∈ args, a.Inert base) (hw : w.Sealed root base) :
    ∃ t r w', Calls g f args w t r w' ∧ Leaves root base (Value.Inert base) r w' := by
  obtain ⟨t, r, w', h, hl⟩ := exists_applies (g := g) hf ha hw
  cases h with
  | closure | arity =>
    obtain ⟨b, hb⟩ := hf.of_isFunction rfl
    contradiction
  | native h => exact ⟨t, r, w', .native h, hl⟩
  | notCallable h => exact ⟨_, _, w, .notCallable h, hl⟩

/-! ## Forms -/

namespace Value

variable {form : Value}

theorem ends_of_isConstant (hc : form.isConstant = true) (hi : form.Inert base) :
    form.Ends root base :=
  fun _ _ w _ hw => ⟨_, _, w, .constant hc, .ok hw hi⟩

theorem ends_symbol {name : String} (hn : name ≠ "eval") : (symbol name).Ends root base :=
  fun _ _ w hf hw => ⟨_, _, w, .symbol, hw, fun _ hv => hw.lookup hf hn hv⟩

theorem ends_vector {xs : Rope Value} (h : ∀ x ∈ xs.toList, x.Ends root base) :
    (seq .vector xs).Ends root base := by
  intro g frame w hf hw
  obtain ⟨t, rs, w', hs, hl⟩ := exists_evaluatesAll hf hw h (g := g)
  exact ⟨t, _, w', .vector hs, hl.map fun vs hvs => inert_vector_iff.mpr hvs⟩

theorem ends_map {es : Rope (Value × Value)} (hk : ∀ e ∈ es.toList, e.1.Inert base)
    (h : ∀ e ∈ es.toList, e.2.Ends root base) : (map es).Ends root base := by
  intro g frame w hf hw
  have hvalues : ∀ v ∈ es.toList.map Prod.snd, v.Ends root base := List.forall_mem_map.mpr h
  obtain ⟨t, rs, w', hs, hl⟩ := exists_evaluatesAll hf hw hvalues (g := g)
  refine ⟨t, _, w', .map hs, hl.map fun vs hvs => inert_mapOf fun e he => ?_⟩
  obtain ⟨hkey, hvalue⟩ := List.of_mem_zip he
  obtain ⟨e', he', hkey⟩ := List.mem_map.mp hkey
  exact ⟨hkey ▸ hk e' he', hvs _ hvalue⟩

/-- A list that is no special form is a call, or it has no elements. -/
theorem ends_of_items {xs : Rope Value} (hn : (seq .list xs).clause? = none)
    (h : ∀ x ∈ xs.toList, x.Ends root base) : (seq .list xs).Ends root base := by
  intro g frame w hf hw
  cases hx : xs.toList with
  | nil =>
    have hc : (seq .list xs).isConstant = true := by rw [isConstant, hx, List.isEmpty_nil]
    have hi : (seq .list xs).Inert base := by
      rw [inert_seq_iff, hx]
      exact List.forall_mem_nil _
    exact ends_of_isConstant hc hi hf hw
  | cons x rest =>
    obtain ⟨t, rs, w₁, hs, hl⟩ := exists_evaluatesAll hf hw h (g := g)
    cases rs with
    | error e => exact ⟨_, _, w₁, .callError hn hs, .error hl.world⟩
    | ok vs =>
      cases vs with
      | nil =>
        rw [hx] at hs
        exact (hs.ne_ok_nil rfl).elim
      | cons f args =>
        obtain ⟨hfun, hargs⟩ := List.forall_mem_cons.mp (hl.value _ rfl)
        obtain ⟨s, r, w₂, hcall, hl₂⟩ := exists_calls hfun hargs hl.world (g := g)
        exact ⟨_, r, w₂, .call hn hs hcall, hl₂⟩

theorem ends_call {name : String} {args : List Value} (hs : SpecialForm.ofName? name = none)
    (hn : name ≠ "eval") (h : ∀ a ∈ args, a.Ends root base) :
    (Template.call name args).Ends root base := by
  refine ends_of_items (Template.clause?_call hs) ?_
  rw [Rope.toList_ofList, List.forall_mem_cons]
  exact ⟨ends_symbol hn, h⟩

end Value

/-- What has to end if the special form is to end. -/
def Clause.Ends (root : FrameId) (base : AtomId) : Clause → Prop
  | define _ form => form.Ends root base
  | bind bindings body => (∀ b ∈ bindings, b.2.Ends root base) ∧ body.Ends root base
  | sequence effects last => (∀ form ∈ effects, form.Ends root base) ∧ last.Ends root base
  | branch condition consequent alternative =>
    condition.Ends root base ∧ consequent.Ends root base ∧ (alternative.getD .nil).Ends root base
  | lambda _ _ => False
  | quote form => form.Inert base
  | quasiquote template => (Template.expand template).Ends root base
  | expand template => (Template.expand template).Inert base
  | malformed _ _ => True

theorem Clause.Ends.exists_performs {c : Clause} (h : c.Ends root base) (hf : root ≤ frame)
    (hw : w.Sealed root base) :
    ∃ t r w', Performs g c frame w t r w' ∧ Leaves root base (Value.Inert base) r w' := by
  cases c with
  | define name form =>
    obtain ⟨t, r, w', hr, hl⟩ := Value.Ends.enters hf hw h (g := g)
    cases r with
    | error e => exact ⟨_, _, w', .defineError hr, hl⟩
    | ok v =>
      exact ⟨_, _, _, .define hr, .ok (hl.world.bindName (hl.value v rfl)) (hl.value v rfl)⟩
  | bind bindings body =>
    have hinner : root ≤ w.frames.next := hw.framesFrom
    obtain ⟨t, r, w₁, hr, hl⟩ := exists_binds hinner (hw.withChild hf) h.1 (g := g)
    cases r with
    | error e => exact ⟨_, _, w₁, .bindError hr, .error hl.world⟩
    | ok u =>
      obtain ⟨s, r₂, w₂, hbody, hl₂⟩ := h.2 hinner hl.world (g := g)
      exact ⟨_, r₂, w₂, .bind hr hbody, hl₂⟩
  | sequence effects last =>
    obtain ⟨t, rs, w₁, hs, hl⟩ := exists_evaluatesAll hf hw h.1 (g := g)
    cases rs with
    | error e => exact ⟨_, _, w₁, .sequenceError hs, .error hl.world⟩
    | ok vs =>
      obtain ⟨s, r₂, w₂, hlast, hl₂⟩ := h.2 hf hl.world (g := g)
      exact ⟨_, r₂, w₂, .sequence hs hlast, hl₂⟩
  | branch condition consequent alternative =>
    obtain ⟨hcondition, hconsequent, halternative⟩ := h
    obtain ⟨t, r, w₁, hr, hl⟩ := hcondition.enters hf hw (g := g)
    cases r with
    | error e => exact ⟨_, _, w₁, .branchError hr, .error hl.world⟩
    | ok v =>
      have hchosen : Value.Ends root base
          (if v.isTruthy then consequent else alternative.getD .nil) := by
        split
        · exact hconsequent
        · exact halternative
      obtain ⟨s, r₂, w₂, hbranch, hl₂⟩ := hchosen hf hl.world (g := g)
      exact ⟨_, r₂, w₂, .branch hr hbranch, hl₂⟩
  | lambda => exact h.elim
  | quote form => exact ⟨_, _, w, .quote, .ok hw h⟩
  | quasiquote template =>
    obtain ⟨t, r, w', hr, hl⟩ := h hf hw (g := g)
    exact ⟨t, r, w', .quasiquote hr, hl⟩
  | expand template => exact ⟨_, _, w, .expand, .ok hw h⟩
  | malformed => exact ⟨_, _, w, .malformed, .error hw⟩

theorem Value.ends_of_clause {form : Value} {c : Clause} (hc : form.clause? = some c)
    (h : c.Ends root base) : form.Ends root base := by
  intro g frame w hf hw
  obtain ⟨t, r, w', hr, hl⟩ := h.exists_performs hf hw (g := g)
  exact ⟨t, r, w', .special hc hr, hl⟩

/-! ## Code -/

namespace Value

/-- Code that does not mention how closures are made, nor the function `eval`. -/
structure IsTame (base : AtomId) (v : Value) : Prop where
  inert : v.Inert base
  no_lambda : ¬ v.Mentions SpecialForm.lambda.name
  no_eval : ¬ v.Mentions "eval"

/-- Evaluating the form ends, and so does evaluating what it expands to as a template. -/
structure EndsEitherWay (root : FrameId) (base : AtomId) (v : Value) : Prop where
  inert : v.Inert base
  plain : v.Ends root base
  expanded : (Template.expand v).Ends root base

/-- That is so for the form and for its elements. -/
def EndsThroughout (root : FrameId) (base : AtomId) (v : Value) : Prop :=
  v.EndsEitherWay root base ∧ ∀ x ∈ v.elements, x.EndsEitherWay root base

variable {x v : Value} {xs : Rope Value} {es : Rope (Value × Value)} {shape : Shape}

theorem IsTame.element (h : (seq shape xs).IsTame base) (hx : x ∈ xs.toList) : x.IsTame base :=
  ⟨inert_seq_iff.mp h.inert x hx, fun hm => h.no_lambda (.element hx hm),
    fun hm => h.no_eval (.element hx hm)⟩

theorem IsTame.value {e : Value × Value} (h : (map es).IsTame base) (he : e ∈ es.toList) :
    e.2.IsTame base :=
  ⟨(inert_map_iff.mp h.inert e he).2, fun hm => h.no_lambda (.value he hm),
    fun hm => h.no_eval (.value he hm)⟩

end Value

namespace Template

theorem mem_elements_of_argumentOf? {name : String} {v x : Value}
    (h : argumentOf? name v = some x) : x ∈ v.elements := by
  obtain ⟨xs, rfl, hx⟩ := argumentOf?_eq_some_iff.mp h
  rw [Value.elements, hx]
  exact .tail _ (.head _)

theorem ends_expandElements {xs : List Value} (h : ∀ x ∈ xs, x.EndsThroughout root base) :
    (xs.foldr expandElement (.list [])).Ends root base := by
  induction xs with
  | nil =>
    rw [List.foldr_nil, Value.list, Rope.ofList_nil]
    exact Value.ends_of_isConstant rfl (Value.inert_seq_iff.mpr (List.forall_mem_nil _))
  | cons x xs ih =>
    obtain ⟨⟨hx, helements⟩, hxs⟩ := List.forall_mem_cons.mp h
    have hrest := ih hxs
    rw [List.foldr_cons, expandElement]
    split
    · next y hy =>
      have hy := (helements y (mem_elements_of_argumentOf? hy)).plain
      exact Value.ends_call rfl (by decide) (by simpa using ⟨hy, hrest⟩)
    · exact Value.ends_call rfl (by decide) (by simpa using ⟨hx.expanded, hrest⟩)

theorem ends_quoted {v : Value} (h : v.Inert base) :
    (call SpecialForm.quote.name [v]).Ends root base :=
  Value.ends_of_clause (clause?_quote v) h

end Template

/-- Only the form that makes a closure has to be left out. -/
theorem SpecialForm.ends_clause {f : SpecialForm} (hf : f ≠ .lambda) {args : List Value}
    (h : ∀ a ∈ args, a.EndsThroughout root base) : (f.clause args).Ends root base := by
  have hplain {a : Value} (ha : a ∈ args) : a.Ends root base := (h a ha).1.plain
  fun_cases clause f args
  any_goals exact trivial
  any_goals contradiction
  case case1 => exact hplain (by simp)
  case case6 bindings body items hi ps hp =>
    have hitems : bindings.elements = items.toList := by
      cases bindings with
      | seq => cases hi; rfl
      | _ => contradiction
    have hbindings := (h bindings (by simp)).2
    rw [hitems] at hbindings
    exact ⟨fun b hb => (hbindings b.2 (Form.mem_pairs? hp b hb).2).plain, hplain (by simp)⟩
  case case9 last hl =>
    exact ⟨fun form hm => hplain (List.dropLast_subset _ hm), hplain (List.mem_of_getLast? hl)⟩
  case case10 =>
    exact ⟨hplain (by simp), hplain (by simp), Value.ends_of_isConstant rfl .nil⟩
  case case11 => exact ⟨hplain (by simp), hplain (by simp), hplain (by simp)⟩
  case case16 form => exact (h form (by simp)).1.inert
  case case17 template => exact (h template (by simp)).1.expanded
  case case18 template => exact Template.alike_expand (h template (by simp)).1.inert

namespace Value

variable {v : Value} {xs : Rope Value}

theorem endsEitherWay_of_isConstant (hc : v.isConstant = true) (he : Template.expand v = v)
    (hi : v.Inert base) : v.EndsEitherWay root base := by
  have h : v.Ends root base := ends_of_isConstant hc hi
  exact ⟨hi, h, he.symm ▸ h⟩

theorem eq_symbol_of_specialForm? {f : SpecialForm} (h : v.specialForm? = some f) :
    v = .symbol f.name := by
  cases v with
  | symbol name =>
    have hfind : SpecialForm.all.find? (fun g => g.name == name) = some f := h
    have hname : f.name = name := by simpa using List.find?_some hfind
    rw [hname]
  | _ => contradiction

theorem endsEitherWay_list (h : (seq .list xs).IsTame base)
    (ih : ∀ x ∈ xs.toList, x.EndsThroughout root base) :
    (seq .list xs).EndsEitherWay root base := by
  refine ⟨h.inert, ?_, ?_⟩
  · cases hc : (seq .list xs).clause? with
    | none => exact ends_of_items hc fun x hx => (ih x hx).1.plain
    | some c =>
      obtain ⟨f, hf, rfl⟩ := Option.map_eq_some_iff.mp hc
      obtain ⟨x, hx, hf⟩ := Option.bind_eq_some_iff.mp hf
      have hlambda : f ≠ .lambda := by
        intro he
        subst he
        have hsymbol := eq_symbol_of_specialForm? hf
        subst hsymbol
        exact h.no_lambda (.element (List.mem_of_head? hx) .symbol)
      exact ends_of_clause hc
        (SpecialForm.ends_clause hlambda fun a ha => ih a (List.mem_of_mem_tail ha))
  · rw [Template.expand]
    split
    · next x hx => exact (ih x (Template.mem_elements_of_argumentOf? hx)).1.plain
    · rw [Template.expandItems_eq]
      exact Template.ends_expandElements ih

theorem endsEitherWay_vector (h : (seq .vector xs).IsTame base)
    (ih : ∀ x ∈ xs.toList, x.EndsThroughout root base) :
    (seq .vector xs).EndsEitherWay root base := by
  refine ⟨h.inert, ends_vector fun x hx => (ih x hx).1.plain, ?_⟩
  have hitems : (Template.expandItems xs (.list [])).Ends root base := by
    rw [Template.expandItems_eq]
    exact Template.ends_expandElements ih
  exact ends_call rfl (by decide) (by simpa using hitems)

/-- **Code that makes no closure ends**, also what it expands to as a template. -/
theorem IsTame.endsThroughout (h : v.IsTame base) : v.EndsThroughout root base := by
  induction v using Value.induct with
  | seq shape xs ih =>
    have hxs : ∀ x ∈ xs.toList, x.EndsThroughout root base := fun x hx => ih x hx (h.element hx)
    refine ⟨?_, fun x hx => (hxs x hx).1⟩
    cases shape with
    | list => exact endsEitherWay_list h hxs
    | vector => exact endsEitherWay_vector h hxs
  | map es ih =>
    have hkeys : ∀ e ∈ es.toList, e.1.Inert base := fun e he => (inert_map_iff.mp h.inert e he).1
    have hends : (map es).Ends root base :=
      ends_map hkeys fun e he => ((ih e he).2 (h.value he)).1.plain
    exact ⟨⟨h.inert, hends, Template.ends_quoted h.inert⟩, nofun⟩
  | symbol name =>
    have hn : name ≠ "eval" := fun hn => h.no_eval (hn ▸ .symbol)
    exact ⟨⟨h.inert, ends_symbol hn, Template.ends_quoted h.inert⟩, nofun⟩
  | nil | bool | int | str | keyword | native | closure | atom =>
    exact ⟨endsEitherWay_of_isConstant rfl rfl h.inert, nofun⟩

end Value

/-! ## Engines -/

/-- Expressions are evaluated in turn in the root of an engine, each under a limit of its own. An
error does not keep those behind it from being evaluated. -/
def Engine.evalEach (fuel : Nat) (engine : Engine) (steps : List (Nat × Value)) :
    Run (List (Except Error Value)) :=
  steps.mapM fun s => (Run.withLimit s.1 (Lisplet.eval fuel s.2 engine.root)).attempt

/-- The form is read from a text, and neither of the names is in it. -/
structure ReadsTame (form : Value) : Prop where
  read : ∃ code, .ok form ∈ Form.sequence code
  no_lambda : ¬ form.Mentions "fn*"
  no_eval : ¬ form.Mentions "eval"

theorem ReadsTame.isTame {form : Value} (h : ReadsTame form) : form.IsTame base := by
  obtain ⟨code, hr⟩ := h.read
  exact ⟨Form.alike_of_mem_sequence hr _, h.no_lambda, h.no_eval⟩

theorem Frames.eq_of_getElem?_push {fs : Frames} {f f' : Frame} {i : FrameId} (hi : fs.next ≤ i)
    (h : (fs.push f).all[i]? = some f') : f' = f := by
  have hsize : i < (fs.push f).next := lt_next h
  have hlast : i = fs.next := by
    rw [next, push, Array.size_push] at hsize
    exact Nat.le_antisymm (Nat.le_of_lt_succ hsize) hi
  subst hlast
  exact (Option.some.inj ((Array.getElem?_push_size ..).symm.trans h)).symm

/-- A new root is sealed off from what was there before. -/
theorem World.sealed_withBareRoot {w : World} (hd : ∀ path, (w.disk.read? path).isSome = true) :
    w.withBareRoot.Sealed w.frames.next w.atoms.size where
  parents hi hf hp := by
    rw [Frames.eq_of_getElem?_push hi hf] at hp
    contradiction
  bindings {i name v} hi hn hv := by
    obtain ⟨f, hf, hb⟩ := Option.bind_eq_some_iff.mp hv
    rw [Frames.eq_of_getElem?_push hi hf] at hb
    rcases Bindings.getElem?_insertAll hb with hb | hm
    · simp at hb
    · rcases List.mem_append.mp hm with hm | hm
      · obtain ⟨b, -, hb⟩ := List.mem_map.mp hm
        cases hb
        exact Value.inert_builtin b
      · exact (hn (congrArg Prod.fst (List.mem_singleton.mp hm))).elim
  atoms hi hv := by
    have hsize : _ < w.atoms.size := (Array.getElem?_eq_some_iff.mp hv).1
    exact (Nat.not_lt_of_le hi hsize).elim
  framesFrom := by
    have hsize : w.withBareRoot.frames.next = w.frames.next + 1 := Array.size_push _
    rw [hsize]
    exact Nat.le_succ _
  atomsFrom := Nat.le_refl _
  disk := hd

/-- Each of the evaluations ends, with a value or an error. -/
theorem Engine.exists_evalEach {engine : Engine} {steps : List (Nat × Value)}
    (hs : ∀ s ∈ steps, s.2.Ends engine.root base) (hw : w.Sealed engine.root base) (d l : Nat) :
    ∃ rs w' k, ∀ fuel, k ≤ fuel →
      engine.evalEach fuel steps ⟨w, d, l⟩ = .value rs ⟨w', d, l⟩ := by
  induction steps generalizing w with
  | nil => exact ⟨[], w, 0, fun fuel _ => rfl⟩
  | cons s steps ih =>
    obtain ⟨hform, hsteps⟩ := List.forall_mem_cons.mp hs
    obtain ⟨t, r, w₁, he, hl⟩ :=
      Value.Ends.enters (Nat.le_refl _) hw hform (g := .at d s.1)
    obtain ⟨k₁, h₁⟩ := he.eventually
    obtain ⟨rs, w₂, k₂, h₂⟩ := ih hsteps hl.world
    refine ⟨r :: rs, w₂, max k₁ k₂, fun fuel hfuel => ?_⟩
    have hlimited : Run.withLimit s.1 (Lisplet.eval fuel s.2 engine.root) ⟨w, d, l⟩ =
        .of r ⟨w₁, d, l⟩ :=
      Run.withLimit_of (m := ⟨w, d, l⟩) (h₁ fuel (Nat.le_trans (Nat.le_max_left ..) hfuel))
    have hfirst := Run.attempt_of hlimited
    have hrest : engine.evalEach fuel steps ⟨w₁, d, l⟩ = .of (.ok rs) ⟨w₂, d, l⟩ :=
      h₂ fuel (Nat.le_trans (Nat.le_max_right ..) hfuel)
    rw [evalEach, List.mapM_cons, Run.bind_of_ok hfirst]
    exact Run.map_of hrest

/-- **Evaluation without closures ends.** In the root of a new engine without the prelude,
expressions that are read from text and mention neither `fn*` nor `eval` are evaluated in turn, each
under any limit, and each evaluation ends in a value or an error. -/
theorem closure_free_ends {m : Machine}
    (hd : ∀ path, (m.world.disk.read? path).isSome = true) :
    ∃ engine m₁, Engine.newBare m = .value engine m₁ ∧
      ∀ steps : List (Nat × Value), (∀ s ∈ steps, ReadsTame s.2) →
        ∃ rs m₂ k, ∀ fuel, k ≤ fuel → engine.evalEach fuel steps m₁ = .value rs m₂ := by
  let engine : Engine := ⟨m.world.frames.next, m.limit⟩
  refine ⟨engine, { m with world := m.world.withBareRoot }, ?_, fun steps hs => ?_⟩
  · have hroot : Run.newBareRoot m =
        .of (.ok m.world.frames.next) { m with world := m.world.withBareRoot } := newBareRoot_eq m
    exact Run.bind_of_ok hroot
  · have hends : ∀ s ∈ steps, s.2.Ends engine.root m.world.atoms.size :=
      fun s hm => (hs s hm).isTame.endsThroughout.1.plain
    obtain ⟨rs, w', k, hk⟩ :=
      Engine.exists_evalEach hends (World.sealed_withBareRoot hd) m.depth m.limit
    exact ⟨rs, _, k, hk⟩

/-- The text "`(atom swap!)" is evaluated under one limit and again under a lower one. -/
theorem closure_free_ends_quasiquote :
    let atoms := Value.list [.symbol "atom", .symbol "swap!"]
    let form := Form.marked .quasiquote atoms
    (∀ path, ((Machine.start default).world.disk.read? path).isSome = true) ∧ ReadsTame form ∧
      ∃ engine m₁, Engine.newBare (.start default) = .value engine m₁ ∧
        ∃ rs m₂ k, ∀ fuel, k ≤ fuel →
          engine.evalEach fuel [(9, form), (0, form)] m₁ = .value rs m₂ := by
  intro atoms form
  have hlexed : Lexed "`(atom swap!)".toList
      [.sigil .quasiquote, .opening .round, .symbol "atom", .symbol "swap!", .closing .round] := by
    have hclose : Lexed [')'] [.closing .round] := Lexed.nil.closing .round
    have hswap : Lexed ("swap!".toList ++ [')']) [.symbol "swap!", .closing .round] :=
      hclose.word (Lexed.delimited_closer .round) nofun (List.all_eq_true.mp rfl) nofun rfl
    have hblank := hswap.separator (c := ' ') (.inl (by decide))
    have hdelimited : Delimited " swap!)".toList := by
      rintro _ ⟨⟩
      rfl
    have hatom : Lexed ("atom".toList ++ " swap!)".toList) _ :=
      hblank.word hdelimited nofun (List.all_eq_true.mp rfl) nofun rfl
    exact (hatom.opening .round).mark rfl
  have hparses : Parses [.opening .round, .symbol "atom", .symbol "swap!", .closing .round] atoms :=
    .bracket (.cons (.literal rfl) (Parses.literal rfl).single) rfl
  have hread : Form.readAll "`(atom swap!)" = .ok [form] :=
    (Form.readAll_eq_ok_iff_of_lexed hlexed).mpr ⟨by decide, hparses.mark.single⟩
  have hsequence : Form.sequence "`(atom swap!)" = [.ok form] := Form.collect_eq_ok_iff.mp hread
  have htame : ReadsTame form := by
    refine ⟨⟨_, hsequence.symm ▸ List.mem_singleton.mpr rfl⟩, ?_, ?_⟩
    · simp [form, atoms, Form.marked, Value.list, Sigil.name]
    · simp [form, atoms, Form.marked, Value.list, Sigil.name]
  have hdisk : ∀ path, ((Machine.start default).world.disk.read? path).isSome = true :=
    fun _ => rfl
  obtain ⟨engine, m₁, hnew, h⟩ := closure_free_ends hdisk
  refine ⟨hdisk, htame, engine, m₁, hnew, h _ ?_⟩
  simp [htame]

end Lisplet

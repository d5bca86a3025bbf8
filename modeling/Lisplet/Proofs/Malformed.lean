import Lisplet.Proofs.Acceptance
import Lisplet.Proofs.Application
import Lisplet.Proofs.Parameters

/-! Malformed special forms. Each special form asks for a shape of what stands behind its name. If
the shape is another one the evaluation ends in the complaint that the form is malformed, before any
part of it is evaluated and without a trace in the world. There is one exception. Names to be bound
are looked at one by one, each when the value in front of it has been bound, so a name that is no
symbol is found only after the values of all names in front of it have been evaluated. -/

namespace Lisplet

/-! ## Shapes -/

namespace SpecialForm

/-- Names and forms in turns, the names being symbols. -/
def NamesForms (xs : List Value) : Prop :=
  ∃ ps, xs = Value.alternating ps ∧ ∀ p ∈ ps, ∃ name, p.1 = .symbol name

/-- Names of parameters: the marker is not among them, or it is once, in front of the last one. -/
def ParamNames (names : List String) : Prop :=
  Params.marker ∉ names ∨
    names.count Params.marker = 1 ∧ ∃ front last, names = front ++ [Params.marker, last]

/-- The arguments of a special form have the shape that it asks for. -/
def Shaped : SpecialForm → List Value → Prop
  | define, args => ∃ name form, args = [.symbol name, form]
  | bind, args => ∃ shape xs body, args = [.seq shape xs, body] ∧ NamesForms xs.toList
  | sequence, args => args ≠ []
  | branch, args => args.length = 2 ∨ args.length = 3
  | lambda, args =>
    ∃ shape xs names body, args = [.seq shape xs, body] ∧ xs.toList = names.map .symbol ∧
      ParamNames names
  | quote, args => args.length = 1
  | quasiquote, args => args.length = 1
  | expand, args => args.length = 1

/-- The first of the names to be bound is a symbol, and nothing is wrong with the form but perhaps
with names behind it. -/
def BindsFirst (f : SpecialForm) (args : List Value) : Prop :=
  f = bind ∧ ∃ shape xs body name form ps,
    args = [.seq shape xs, body] ∧ xs.toList = Value.alternating ((.symbol name, form) :: ps)

end SpecialForm

/-- The parts of a special form are as it asks for. -/
def Clause.Shaped : Clause → Prop
  | malformed _ _ => False
  | bind bindings _ => ∀ b ∈ bindings, ∃ name, b.1 = .symbol name
  | _ => True

theorem Form.pairs?_eq_some_iff {xs : List Value} {ps : List (Value × Value)} :
    pairs? xs = some ps ↔ xs = Value.alternating ps := by
  constructor
  · intro h
    exact alternating_of_pairs? h
  · intro h
    rw [h, Value.pairs?_alternating]

theorem Params.exists_unmarked_iff {names : List String} :
    (∃ p : Params, p.names = names ∧ p.Unmarked) ↔ SpecialForm.ParamNames names := by
  constructor
  · intro h
    obtain ⟨⟨fixed, rest⟩, rfl, h⟩ := h
    have hfixed : fixed.count marker = 0 := List.count_eq_zero.mpr h.fixed
    cases rest with
    | none => exact .inl h.fixed
    | some r =>
      have hr : r ≠ marker := fun hr => h.rest (congrArg some hr)
      refine .inr ⟨?_, fixed, r, rfl⟩
      simp [Params.names, hfixed, hr]
  · intro h
    rcases h with h | ⟨hone, front, last, rfl⟩
    · exact ⟨⟨names, none⟩, rfl, h, (Option.some_ne_none marker).symm⟩
    · rw [List.count_append, List.count_cons_self] at hone
      have hfront : front.count marker = 0 := by omega
      have hlast : [last].count marker = 0 := by omega
      refine ⟨⟨front, some last⟩, rfl, List.count_eq_zero.mp hfront, fun hr => ?_⟩
      exact List.count_eq_zero.mp hlast (Option.some.inj hr ▸ List.mem_singleton_self _)

namespace SpecialForm

variable {f g : SpecialForm} {args : List Value} {flaw : Flaw} {bindings body : Value}

/-- A form says of its own arguments that they are malformed, not of others. -/
theorem eq_of_clause_malformed (h : f.clause args = .malformed g flaw) : f = g := by
  revert h
  fun_cases clause f args <;> intro h <;> cases h <;> rfl

theorem eq_of_clause_bind {ps : List (Value × Value)} (h : f.clause args = .bind ps body) :
    f = bind ∧ ∃ shape xs, args = [.seq shape xs, body] ∧ xs.toList = Value.alternating ps := by
  revert h
  fun_cases clause f args with
  | case6 bindings body items hi qs hq =>
    intro h
    cases h
    cases bindings with
    | seq shape _ =>
      cases hi
      exact ⟨rfl, shape, _, rfl, Form.pairs?_eq_some_iff.mp hq⟩
    | _ => contradiction
  | _ => intro h; contradiction

theorem shaped_bind_iff :
    bind.Shaped [bindings, body] ↔ (bind.clause [bindings, body]).Shaped := by
  cases bindings with
  | seq shape xs =>
    cases hp : Form.pairs? xs.toList with
    | none =>
      have hc : bind.clause [.seq shape xs, body] = .malformed bind .oddBindings := by
        simp only [clause, Value.items?, hp]
      rw [hc]
      constructor
      · intro h
        obtain ⟨_, _, _, he, ps, hps, -⟩ := h
        cases he
        rw [Form.pairs?_eq_some_iff.mpr hps] at hp
        contradiction
      · exact False.elim
    | some ps =>
      have hc : bind.clause [.seq shape xs, body] = .bind ps body := by
        simp only [clause, Value.items?, hp]
      rw [hc]
      constructor
      · intro h
        obtain ⟨_, _, _, he, qs, hqs, h⟩ := h
        cases he
        cases hp.symm.trans (Form.pairs?_eq_some_iff.mpr hqs)
        exact h
      · intro h
        exact ⟨shape, xs, body, rfl, ps, Form.pairs?_eq_some_iff.mp hp, h⟩
  | _ =>
    refine ⟨fun h => ?_, False.elim⟩
    obtain ⟨_, _, _, h, -⟩ := h
    cases h

theorem shaped_lambda_iff :
    lambda.Shaped [bindings, body] ↔ (lambda.clause [bindings, body]).Shaped := by
  have hp : lambda.Shaped [bindings, body] ↔ ∃ p, Params.ofForm bindings = .ok p := by
    simp only [Params.ofForm_eq_ok_iff]
    constructor
    · intro h
      obtain ⟨shape, xs, names, _, he, hx, hn⟩ := h
      cases he
      obtain ⟨p, rfl, hp⟩ := Params.exists_unmarked_iff.mpr hn
      exact ⟨p, shape, xs, rfl, hx, hp⟩
    · intro h
      obtain ⟨p, shape, xs, rfl, hx, hp⟩ := h
      exact ⟨shape, xs, p.names, body, rfl, hx, Params.exists_unmarked_iff.mp ⟨p, rfl, hp⟩⟩
  rw [hp, clause]
  cases Params.ofForm bindings with
  | ok p => exact ⟨fun _ => trivial, fun _ => ⟨p, rfl⟩⟩
  | error flaw =>
    refine ⟨fun h => ?_, False.elim⟩
    obtain ⟨_, h⟩ := h
    cases h

/-- Arguments have the shape that is asked for if the parts that they come apart in do. -/
theorem shaped_iff (f : SpecialForm) (args : List Value) :
    f.Shaped args ↔ (f.clause args).Shaped := by
  cases f with
  | define =>
    rcases args with _ | ⟨a, _ | ⟨b, _ | ⟨c, rest⟩⟩⟩
    · simp [Shaped, clause, Clause.Shaped]
    · simp [Shaped, clause, Clause.Shaped]
    · cases a <;> simp [Shaped, clause, Clause.Shaped]
    · simp [Shaped, clause, Clause.Shaped]
  | bind =>
    rcases args with _ | ⟨a, _ | ⟨b, _ | ⟨c, rest⟩⟩⟩
    · simp [Shaped, clause, Clause.Shaped]
    · simp [Shaped, clause, Clause.Shaped]
    · exact shaped_bind_iff
    · simp [Shaped, clause, Clause.Shaped]
  | sequence =>
    cases hl : args.getLast? with
    | none => simp [Shaped, clause, Clause.Shaped, List.getLast?_eq_none_iff.mp hl]
    | some last =>
      have hne : args ≠ [] := by
        intro he
        rw [he] at hl
        contradiction
      simp [Shaped, clause, Clause.Shaped, hl, hne]
  | branch =>
    rcases args with _ | ⟨a, _ | ⟨b, _ | ⟨c, _ | ⟨d, rest⟩⟩⟩⟩ <;>
      simp [Shaped, clause, Clause.Shaped]
  | lambda =>
    rcases args with _ | ⟨a, _ | ⟨b, _ | ⟨c, rest⟩⟩⟩
    · simp [Shaped, clause, Clause.Shaped]
    · simp [Shaped, clause, Clause.Shaped]
    · exact shaped_lambda_iff
    · simp [Shaped, clause, Clause.Shaped]
  | quote | quasiquote | expand =>
    rcases args with _ | ⟨a, _ | ⟨b, rest⟩⟩ <;> simp [Shaped, clause, Clause.Shaped]

end SpecialForm

/-! ## Evaluation -/

/-- Every frame, every atom and the printed text are as they were, and nothing else has changed
either, but that there may be new frames. -/
structure World.Intact (w w' : World) : Prop where
  frames : ∀ ⦃i : FrameId⦄ ⦃f⦄, w.frames.all[i]? = some f → w'.frames.all[i]? = some f
  rest : { w' with frames := w.frames } = w

namespace World.Intact

theorem refl {w : World} : w.Intact w := ⟨fun _ _ h => h, rfl⟩

theorem withChild (w : World) (frame : FrameId) : w.Intact (w.withChild frame) :=
  ⟨fun _ _ h => Frames.getElem?_push h _, rfl⟩

end World.Intact

/-- The evaluation ends in the complaint that it is the special form `f` and malformed, and leaves
the world intact. -/
def SpecialForm.Rejects (f : SpecialForm) (form : Value) (frame : FrameId) (m : Machine) : Prop :=
  ∃ flaw w', m.world.Intact w' ∧
    ∀ r w'', Settles form frame m r w'' ↔ r = .error (.malformed f flaw) ∧ w'' = w'

section

variable {f : SpecialForm} {g : Guard} {form other body : Value} {c : Clause} {xs : Rope Value}
  {args : List Value} {before after : List (Value × Value)} {frame : FrameId} {w w' : World}
  {m : Machine} {d L : Nat} {flaw : Flaw} {r : Except Error Value} {rb : Except Error Unit}

theorem settles_iff_performs (hc : form.clause? = some c) (h : d < L) :
    Settles form frame ⟨w, d, L⟩ r w' ↔ ∃ t, Performs (.at (d + 1) L) c frame w t r w' := by
  rw [settles_iff_enters, enters_iff_evaluates h]
  constructor
  · intro h
    obtain ⟨t, h⟩ := h
    exact ⟨t, h.performs hc⟩
  · intro h
    obtain ⟨t, h⟩ := h
    exact ⟨t, .special hc h⟩

theorem performs_malformed_iff :
    (∃ t, Performs g (.malformed f flaw) frame w t r w') ↔
      r = .error (.malformed f flaw) ∧ w' = w := by
  constructor
  · intro h
    obtain ⟨t, h⟩ := h
    cases h
    exact ⟨rfl, rfl⟩
  · intro h
    obtain ⟨rfl, rfl⟩ := h
    exact ⟨_, .malformed⟩

/-- Binding comes to an end at the first name that is no symbol, if it comes there. -/
theorem binds_append_iff (ho : ∀ name, other ≠ .symbol name) :
    (∃ t, Binds g (before ++ (other, form) :: after) frame w t rb w') ↔
      ∃ t rb', Binds g before frame w t rb' w' ∧
        rb = rb'.bind fun _ => .error (.malformed .bind (.bindingNotSymbol other.typeName)) := by
  induction before generalizing w with
  | nil =>
    constructor
    · intro h
      obtain ⟨t, h⟩ := h
      cases h with
      | cons | error => exact absurd rfl (ho _)
      | notSymbol => exact ⟨_, _, .nil, rfl⟩
    · intro h
      obtain ⟨t, rb', h, rfl⟩ := h
      cases h
      exact ⟨_, .notSymbol ho⟩
  | cons b before ih =>
    obtain ⟨name, form⟩ := b
    constructor
    · intro h
      obtain ⟨t, h⟩ := h
      cases h with
      | cons hv hs =>
        obtain ⟨t', rb', hs, he⟩ := ih.mp ⟨_, hs⟩
        exact ⟨_, rb', .cons hv hs, he⟩
      | error hv => exact ⟨_, _, .error hv, rfl⟩
      | notSymbol hn => exact ⟨_, _, .notSymbol hn, rfl⟩
    · intro h
      obtain ⟨t, rb', h, he⟩ := h
      cases h with
      | cons hv hs =>
        obtain ⟨t', hs⟩ := ih.mpr ⟨_, rb', hs, he⟩
        exact ⟨_, .cons hv hs⟩
      | error hv =>
        subst he
        exact ⟨_, .error hv⟩
      | notSymbol hn =>
        subst he
        exact ⟨_, .notSymbol hn⟩

/-- With a name among the others that is no symbol the body is never come to. -/
theorem performs_bind_iff (before : List (Value × Value)) (ho : ∀ name, other ≠ .symbol name) :
    (∃ t, Performs g (.bind (before ++ (other, form) :: after) body) frame w t r w') ↔
      ∃ t rb, Binds g before w.frames.next (w.withChild frame) t rb w' ∧
        r = rb.bind fun _ => .error (.malformed .bind (.bindingNotSymbol other.typeName)) := by
  constructor
  · intro h
    obtain ⟨t, h⟩ := h
    cases h with
    | bind hb =>
      obtain ⟨_, rb, -, he⟩ := (binds_append_iff ho).mp ⟨_, hb⟩
      cases rb <;> contradiction
    | bindError hb =>
      obtain ⟨t, rb, hb, he⟩ := (binds_append_iff ho).mp ⟨_, hb⟩
      refine ⟨t, rb, hb, ?_⟩
      cases rb <;> cases he <;> rfl
  · intro h
    obtain ⟨t, rb, hb, rfl⟩ := h
    have hbs : ∃ t, Binds g (before ++ (other, form) :: after) w.frames.next (w.withChild frame) t
        (rb.bind fun _ => .error (.malformed .bind (.bindingNotSymbol other.typeName))) w' :=
      (binds_append_iff ho).mpr ⟨t, rb, hb, rfl⟩
    obtain ⟨t, hbs⟩ := hbs
    cases rb with
    | ok => exact ⟨t, .bindError hbs⟩
    | error e => exact ⟨t, .bindError hbs⟩

theorem rejects_of_malformed (hc : form.clause? = some (.malformed f flaw))
    (hm : m.depth < m.limit) : f.Rejects form frame m := by
  refine ⟨flaw, m.world, .refl, fun r w'' => ?_⟩
  exact (settles_iff_performs hc hm).trans performs_malformed_iff

/-- Nothing is evaluated in front of the first name. -/
theorem rejects_of_first_name (ho : ∀ name, other ≠ .symbol name)
    (hc : (Value.seq .list xs).clause? = some (.bind ((other, form) :: after) body))
    (hm : m.depth < m.limit) : SpecialForm.bind.Rejects (.seq .list xs) frame m := by
  refine ⟨.bindingNotSymbol other.typeName, m.world.withChild frame, .withChild m.world frame, ?_⟩
  intro r w''
  refine ((settles_iff_performs hc hm).trans (performs_bind_iff [] ho)).trans ?_
  constructor
  · intro h
    obtain ⟨t, rb, hb, rfl⟩ := h
    cases hb
    exact ⟨rfl, rfl⟩
  · intro h
    obtain ⟨rfl, rfl⟩ := h
    exact ⟨_, _, .nil, rfl⟩

end

/-- **A malformed special form is rejected before any of it is evaluated**, with one exception. If
names and forms are in turns, and the first name is a symbol but a later one is not, then the names
in front of that one are bound to their values first. The result is the error of that, if it comes
to one, and else the complaint; and what the evaluation of the values has done stays. -/
theorem rejects_of_not_shaped {f : SpecialForm} {xs : Rope Value} {args : List Value}
    {frame : FrameId} {m : Machine} (hx : xs.toList = .symbol f.name :: args)
    (hs : ¬ f.Shaped args) (hm : m.depth < m.limit) :
    (¬ f.BindsFirst args → f.Rejects (.seq .list xs) frame m) ∧
    ∀ shape ys body before other form after, f = .bind → args = [.seq shape ys, body] →
      ys.toList = Value.alternating (before ++ (other, form) :: after) →
      (∀ name, other ≠ .symbol name) → ∀ r w',
      Settles (.seq .list xs) frame m r w' ↔
        ∃ t rb, Binds (.at (m.depth + 1) m.limit) before m.world.frames.next
            (m.world.withChild frame) t rb w' ∧
          r = rb.bind fun _ => .error (.malformed .bind (.bindingNotSymbol other.typeName)) := by
  have hc := clause?_of_toList hx
  constructor
  · intro hfirst
    rw [SpecialForm.shaped_iff] at hs
    cases hp : f.clause args with
    | malformed g flaw =>
      rw [hp, ← SpecialForm.eq_of_clause_malformed hp] at hc
      exact rejects_of_malformed hc hm
    | bind ps body =>
      rw [hp] at hc hs
      obtain ⟨rfl, shape, ys, rfl, hy⟩ := SpecialForm.eq_of_clause_bind hp
      cases ps with
      | nil => exact (hs nofun).elim
      | cons p ps =>
        obtain ⟨other, form⟩ := p
        refine rejects_of_first_name ?_ hc hm
        intro name ho
        subst ho
        exact hfirst ⟨rfl, shape, ys, body, name, form, ps, rfl, hy⟩
    | define | sequence | branch | lambda | quote | quasiquote | expand =>
      rw [hp] at hs
      exact (hs trivial).elim
  · intro shape ys body before other form after hf ha hy ho r w'
    subst hf ha
    have hb : SpecialForm.bind.clause [.seq shape ys, body] =
        .bind (before ++ (other, form) :: after) body := by
      simp only [SpecialForm.clause, Value.items?, Form.pairs?_eq_some_iff.mpr hy]
    rw [hb] at hc
    exact (settles_iff_performs hc hm).trans (performs_bind_iff _ ho)

/-- In `(fn* [& a b] 7)` the marker is in front of two names. In `(let* [x 1 5 6] 7)` a number is
where a name should be, and when it is come to `x` has been bound in a new frame. -/
theorem rejects_of_not_shaped_marker :
    let w := (World.empty default).withFrame ⟨none, ∅⟩
    let names : Rope Value :=
      .node (.node .nil (.symbol "&") .nil) (.symbol "a") (.node .nil (.symbol "b") .nil)
    let bindings : Rope Value :=
      .node (.node .nil (.symbol "x") .nil) (.int 1)
        (.node (.node .nil (.int 5) .nil) (.int 6) .nil)
    let form (name : String) (xs : Rope Value) : Value :=
      .seq .list (.node (.node .nil (.symbol name) .nil) (.seq .vector xs)
        (.node .nil (.int 7) .nil))
    SpecialForm.lambda.Rejects (form "fn*" names) 0 ⟨w, 0, 9⟩ ∧
    Settles (form "let*" bindings) 0 ⟨w, 0, 9⟩
      (.error (.malformed .bind (.bindingNotSymbol "int")))
      ((w.withChild 0).bindName w.frames.next "x" (.int 1)) := by
  intro w names bindings form
  have hroom : 0 < 9 := by decide
  constructor
  · have hs : ¬ SpecialForm.lambda.Shaped [.seq .vector names, .int 7] := by
      rw [SpecialForm.shaped_iff]
      exact id
    refine (rejects_of_not_shaped (m := ⟨w, 0, 9⟩) rfl hs hroom).1 ?_
    exact fun h => nomatch h.1
  · have hs : ¬ SpecialForm.bind.Shaped [.seq .vector bindings, .int 7] := by
      rw [SpecialForm.shaped_iff]
      intro h
      obtain ⟨_, h⟩ := h (.int 5, .int 6) (.tail _ (.head _))
      contradiction
    refine ((rejects_of_not_shaped (m := ⟨w, 0, 9⟩) rfl hs hroom).2 .vector bindings (.int 7)
      [(.symbol "x", .int 1)] (.int 5) (.int 6) [] rfl rfl rfl nofun _ _).mpr ?_
    exact ⟨_, .ok (), .cons (.admitted (.constant rfl)) .nil, rfl⟩

/-- In `(let* [x (5) 5 6] 7)` a number is where a name should be. It is not come to: `(5)` fails for
another reason before. -/
theorem not_rejects_of_not_shaped_name :
    let call : Value := .seq .list (.node .nil (.int 5) .nil)
    let bindings : Rope Value :=
      .node (.node .nil (.symbol "x") .nil) call (.node (.node .nil (.int 5) .nil) (.int 6) .nil)
    let form : Value :=
      .seq .list (.node (.node .nil (.symbol "let*") .nil) (.seq .vector bindings)
        (.node .nil (.int 7) .nil))
    let w := (World.empty default).withFrame ⟨none, ∅⟩
    ¬ SpecialForm.bind.Shaped [.seq .vector bindings, .int 7] ∧
    Settles form 0 ⟨w, 0, 9⟩ (.error (.notCallable (.int 5))) (w.withChild 0) ∧
    ¬ SpecialForm.bind.Rejects form 0 ⟨w, 0, 9⟩ := by
  intro call bindings form w
  have hcall : Settles form 0 ⟨w, 0, 9⟩ (.error (.notCallable (.int 5))) (w.withChild 0) := by
    have hc : form.clause? =
        some (.bind ([(.symbol "x", call)] ++ (.int 5, .int 6) :: []) (.int 7)) := rfl
    have ho (name : String) : Value.int 5 ≠ .symbol name := nofun
    refine (settles_iff_performs hc (by decide)).mpr ((performs_bind_iff _ ho).mpr ?_)
    have hitems : EvaluatesAll (.at 2 9) [.int 5] w.frames.next (w.withChild 0) _
        (.ok [.int 5]) (w.withChild 0) := .cons (.admitted (.constant rfl)) .nil
    exact ⟨_, _, .error (.admitted (.call rfl hitems (.notCallable rfl))), rfl⟩
  refine ⟨?_, hcall, ?_⟩
  · rw [SpecialForm.shaped_iff]
    intro h
    obtain ⟨_, h⟩ := h (.int 5, .int 6) (.tail _ (.head _))
    contradiction
  · intro h
    obtain ⟨flaw, w', -, h⟩ := h
    cases ((h _ _).mp hcall).1

end Lisplet

import Lisplet.Proofs.Malformed
import Lisplet.Proofs.NewRoot
import Lisplet.Proofs.RoundTrip

/-! Parameters and arguments. What is read as parameters when a closure is made, and what becomes
of the arguments when it is called, are settled in two places; both go by the position of the
marker. A call makes a new frame inside the one that the closure was made in. Of several
parameters with one name the last one counts, and the rest parameter comes behind all others. -/

namespace Lisplet

/-- A name that begins with neither a digit nor a sign is that of a symbol, unless it is a word of
its own. -/
theorem IsSymbolName.of_cons {name : String} {c : Char} {cs : List Char} (h : IsName name)
    (hcs : name.toList = c :: cs) (hdigit : c.isDigit = false) (hsign : c ≠ '-' ∧ c ≠ '+')
    (hword : name ∉ ["nil", "true", "false"]) : IsSymbolName name where
  toIsName := h
  not_number := by
    rintro ⟨sign, digit, rest, hn, hs, hd⟩
    rw [hcs] at hn
    rcases hs with rfl | rfl | rfl
    · cases hn
      exact Bool.false_ne_true (hdigit.symm.trans hd)
    · exact hsign.1 (List.cons.inj hn).1
    · exact hsign.2 (List.cons.inj hn).1
  not_nil hn := hword (by simp [hn])
  not_true hn := hword (by simp [hn])
  not_false hn := hword (by simp [hn])

namespace Params

variable {names : List String} {args : List Value} {name : String} {v : Value} {p : Params}

/-! ## Reading parameters that have been written -/

/-- The marker is a name like others. -/
theorem isSymbolName_marker : IsSymbolName marker :=
  .of_cons (.of_all (by decide) (by decide) (by decide)) rfl (by decide) (by decide)
    (by decide)

theorem isSymbolName_of_mem_names (h : ∀ x ∈ p.fixed ++ p.rest.toList, IsSymbolName x) :
    ∀ x ∈ p.names, IsSymbolName x := by
  obtain ⟨fixed, rest⟩ := p
  intro x hx
  cases rest with
  | none => exact h x (List.mem_append_left _ hx)
  | some r =>
    rcases List.mem_append.mp hx with hx | hx
    · exact h x (List.mem_append_left _ hx)
    · rcases List.mem_cons.mp hx with rfl | hx
      · exact isSymbolName_marker
      · exact h x (List.mem_append_right _ hx)

/-- Parameters are written like the list of their names. -/
theorem text_eq (p : Params) :
    p.text = Value.text .readable #[] (.list (p.names.map .symbol)) := by
  have hnames (atomText : AtomId → List Char → List Char) (tail : List Char) :
      Value.spaced (Value.write .readable atomText) [] (p.names.map .symbol) tail =
        (" ".intercalate p.names).toList ++ tail := by
    rw [String.toList_intercalate]
    refine Value.spaced_eq_intercalate ?_ tail
    rw [List.forall₂_map_left_iff, List.forall₂_map_right_iff]
    exact List.forall₂_same.mpr fun x _ => Value.write_symbol x
  refine String.toList_inj.mp ?_
  rw [Value.text_eq_ofList, Value.writeIn, Value.list, Value.write_seq, Rope.toList_ofList, hnames,
    text, String.toList_ofList, String.toList_append, String.toList_append]
  rfl

/-- Parameters with readable names come back when what they are written as is read. -/
theorem readAll_text (hp : p.Unmarked) (h : ∀ x ∈ p.fixed ++ p.rest.toList, IsSymbolName x) :
    ∃ form, Form.readAll p.text = .ok [form] ∧ ofForm form = .ok p := by
  have hdata : (Value.list (p.names.map .symbol)).IsData := by
    refine .seq .list fun x hx => ?_
    rw [Rope.toList_ofList] at hx
    obtain ⟨name, hn, rfl⟩ := List.mem_map.mp hx
    exact .symbol (isSymbolName_of_mem_names h name hn)
  have hall : ∀ v ∈ [Value.list (p.names.map .symbol)], v.IsData := by
    intro v hv
    cases List.mem_singleton.mp hv
    exact hdata
  have hspace : " " ≠ "" := by decide
  have hlexed := Value.lexed_textAll #[] hspace
    (fun c hc => .inl (by cases List.mem_singleton.mp hc; decide)) fun v hv => (hall v hv).isForm
  rw [Value.textAll, List.map_singleton, String.intercalate_singleton, ← text_eq] at hlexed
  refine ⟨_, Form.readAll_of_lexed hall hlexed, ?_⟩
  refine ofForm_eq_ok_iff.mpr ⟨.list, _, Value.canon_seq .list _, ?_, hp⟩
  rw [Rope.toList_ofList, Rope.toList_ofList, List.map_map]
  exact List.map_congr_left fun x _ => rfl

/-! ## Giving arguments to parameters -/

/-- The place at which a name stands for the last time. -/
def LastAt (names : List String) (name : String) (j : Nat) : Prop :=
  names[j]? = some name ∧ ∀ k, j < k → names[k]? ≠ some name

/-- The value that a name comes to have when the parameters are given the arguments. -/
def Gives (p : Params) (args : List Value) (name : String) (v : Value) : Prop :=
  (p.rest = some name ∧ v = .list (args.drop p.arity)) ∨
    (p.rest ≠ some name ∧ ∃ j, LastAt p.fixed name j ∧ args[j]? = some v)

theorem lastAt_cons_zero_iff {x : String} :
    LastAt (x :: names) name 0 ↔ x = name ∧ name ∉ names := by
  constructor
  · rintro ⟨hx, hlast⟩
    refine ⟨Option.some.inj hx, fun hm => ?_⟩
    obtain ⟨k, hk⟩ := List.getElem?_of_mem hm
    exact hlast (k + 1) (Nat.succ_pos k) hk
  · rintro ⟨rfl, hn⟩
    refine ⟨rfl, fun k hk hm => ?_⟩
    obtain ⟨k, rfl⟩ := Nat.exists_eq_succ_of_ne_zero (Nat.ne_of_gt hk)
    exact hn (List.mem_of_getElem? hm)

theorem lastAt_cons_succ_iff {x : String} {j : Nat} :
    LastAt (x :: names) name (j + 1) ↔ LastAt names name j := by
  constructor
  · rintro ⟨hj, hlast⟩
    exact ⟨hj, fun k hk => hlast (k + 1) (Nat.succ_lt_succ hk)⟩
  · rintro ⟨hj, hlast⟩
    refine ⟨hj, fun k hk => ?_⟩
    obtain ⟨k, rfl⟩ := Nat.exists_eq_succ_of_ne_zero (Nat.ne_zero_of_lt hk)
    exact hlast k (Nat.lt_of_succ_lt_succ hk)

/-- Of several arguments for one name the last one is found first from behind. -/
theorem lookup_reverse_zip_iff (h : names.length ≤ args.length) :
    (names.zip args).reverse.lookup name = some v ↔
      ∃ j, LastAt names name j ∧ args[j]? = some v := by
  induction names generalizing args with
  | nil => exact ⟨nofun, fun ⟨_, ⟨hj, _⟩, _⟩ => by simp at hj⟩
  | cons x names ih =>
    cases args with
    | nil => simp at h
    | cons a args =>
      have hlength : names.length ≤ args.length := Nat.le_of_succ_le_succ h
      rw [List.zip_cons_cons, List.reverse_cons, List.lookup_append]
      by_cases hm : name ∈ names
      · -- The name stands behind once more, and that is where it is found.
        obtain ⟨u, hu⟩ : ∃ u, (names.zip args).reverse.lookup name = some u := by
          refine Option.ne_none_iff_exists'.mp fun hn => ?_
          rw [← List.map_fst_zip hlength] at hm
          obtain ⟨⟨y, u⟩, hmem, rfl⟩ := List.mem_map.mp hm
          have hne := List.lookup_eq_none_iff.mp hn (y, u) (List.mem_reverse.mpr hmem)
          simp at hne
        rw [hu, Option.some_or, ← hu, ih hlength]
        constructor
        · rintro ⟨j, hj, ha⟩
          exact ⟨j + 1, lastAt_cons_succ_iff.mpr hj, ha⟩
        · rintro ⟨j, hj, ha⟩
          cases j with
          | zero => exact absurd hm (lastAt_cons_zero_iff.mp hj).2
          | succ j => exact ⟨j, lastAt_cons_succ_iff.mp hj, ha⟩
      · have hnone : (names.zip args).reverse.lookup name = none := by
          refine List.lookup_eq_none_iff.mpr fun q hq => ?_
          have hq1 : q.1 ∈ names := (List.of_mem_zip (List.mem_reverse.mp hq)).1
          exact bne_iff_ne.mpr fun he => hm (he ▸ hq1)
        rw [hnone, Option.none_or]
        constructor
        · intro hl
          by_cases hx : x = name
          · subst hx
            rw [List.lookup_cons_self] at hl
            exact ⟨0, lastAt_cons_zero_iff.mpr ⟨rfl, hm⟩, hl⟩
          · simp [List.lookup_cons, beq_eq_false_iff_ne.mpr (Ne.symm hx)] at hl
        · rintro ⟨j, hj, ha⟩
          cases j with
          | zero =>
            obtain ⟨rfl, -⟩ := lastAt_cons_zero_iff.mp hj
            rw [List.lookup_cons_self]
            exact ha
          | succ j => exact absurd (List.mem_of_getElem? (lastAt_cons_succ_iff.mp hj).1) hm

/-- What a frame binds that was made for the parameters. -/
theorem getElem?_insertAll_assign {news : List (String × Value)} (h : p.assign args = .ok news) :
    (Bindings.insertAll news ∅)[name]? = some v ↔ p.Gives args name v := by
  unfold assign at h
  split at h
  · contradiction
  · next hlt =>
    cases h
    have hlength : p.fixed.length ≤ args.length := Nat.le_of_not_lt hlt
    rw [Bindings.getElem?_insertAll_eq, List.reverse_append, List.lookup_append, Gives,
      ← lookup_reverse_zip_iff hlength]
    cases hr : p.rest with
    | none => simp [restBinding, hr]
    | some r =>
      by_cases hname : r = name
      · subst hname
        simp [restBinding, hr, eq_comm]
      · simp [restBinding, hr, hname, List.lookup_cons, beq_eq_false_iff_ne.mpr (Ne.symm hname)]

end Params

namespace Run

variable {p : Params} {args : List Value}

/-- With too few arguments a call comes to nothing. -/
theorem enter_of_lt (h : args.length < p.arity) (frame : FrameId) (m : Machine) :
    enter p args frame m = .error (.arity none p.expected args.length) m := by
  rw [enter, Params.assign, if_pos h]
  rfl

/-- With enough arguments a call makes a frame. -/
theorem enter_of_le (h : p.arity ≤ args.length) (frame : FrameId) (m : Machine) :
    ∃ f : Frame, enter p args frame m =
        .value m.world.frames.next { m with world := m.world.withFrame f } ∧
      f.parent = some frame ∧ ∀ name v, f.bindings[name]? = some v ↔ p.Gives args name v := by
  have ha : p.assign args = .ok (p.fixed.zip args ++ p.restBinding args) :=
    if_neg (Nat.not_lt_of_le h)
  refine ⟨⟨some frame, Bindings.insertAll _ ∅⟩, ?_, rfl, fun name v =>
    Params.getElem?_insertAll_assign ha⟩
  rw [enter, ha]
  rfl

end Run

/-- **Which parameters there are, and what they are bound to.** A form is read as parameters if it
is a list or vector of symbols among which the marker does not occur, or occurs once and in front
of the last one; the marker is no parameter then, and if the names can be read, so can what the
parameters are written as. A call with fewer arguments than there are fixed parameters is refused,
with nothing bound and nothing evaluated. Any other makes a new frame inside the given one, in
which the rest parameter has the list of the arguments that remain and each other parameter the
argument at the place where its name stands last. -/
theorem parameters_take_arguments :
    (∀ form, (∃ p, Params.ofForm form = .ok p) ↔
      ∃ shape xs names, form = .seq shape xs ∧ xs.toList = names.map .symbol ∧
        SpecialForm.ParamNames names) ∧
    (∀ form p, Params.ofForm form = .ok p →
      (∃ shape xs, form = .seq shape xs ∧ xs.toList = p.names.map .symbol) ∧
      Params.marker ∉ p.fixed ∧ p.rest ≠ some Params.marker ∧
      ((∀ x ∈ p.fixed ++ p.rest.toList, IsSymbolName x) →
        ∃ again, Form.readAll p.text = .ok [again] ∧ Params.ofForm again = .ok p)) ∧
    (∀ (p : Params) args frame (m : Machine), args.length < p.fixed.length →
      let refusal := Error.arity none
        (if p.rest.isSome then .atLeast p.fixed.length else .exactly p.fixed.length) args.length
      Run.enter p args frame m = .error refusal m ∧
      ∀ eval apply id body fuel,
        Eval.call eval apply (.closure id p body frame) args m = .error refusal m ∧
        Eval.applyWith eval (fuel + 1) (.closure id p body frame) args m = .error refusal m) ∧
    (∀ (p : Params) args frame (m : Machine), p.fixed.length ≤ args.length →
      ∃ f : Frame, Run.enter p args frame m =
          .value m.world.frames.next { m with world := m.world.withFrame f } ∧
        f.parent = some frame ∧
        (∀ name v, f.bindings[name]? = some v ↔ p.Gives args name v) ∧
        m.world.frames.all[m.world.frames.next]? = none ∧
        ∀ (i : FrameId) old, m.world.frames.all[i]? = some old →
          (m.world.withFrame f).frames.all[i]? = some old) := by
  refine ⟨fun form => ?_, fun form p h => ?_, fun p args frame m h => ?_,
    fun p args frame m h => ?_⟩
  · constructor
    · rintro ⟨p, hp⟩
      obtain ⟨shape, xs, hform, hx, hu⟩ := Params.ofForm_eq_ok_iff.mp hp
      exact ⟨shape, xs, p.names, hform, hx, Params.exists_unmarked_iff.mp ⟨p, rfl, hu⟩⟩
    · rintro ⟨shape, xs, names, hform, hx, hn⟩
      obtain ⟨p, rfl, hu⟩ := Params.exists_unmarked_iff.mpr hn
      exact ⟨p, Params.ofForm_eq_ok_iff.mpr ⟨shape, xs, hform, hx, hu⟩⟩
  · obtain ⟨shape, xs, hform, hx, hu⟩ := Params.ofForm_eq_ok_iff.mp h
    exact ⟨⟨shape, xs, hform, hx⟩, hu.fixed, hu.rest, Params.readAll_text hu⟩
  · have henter := Run.enter_of_lt h frame m
    refine ⟨henter, fun eval apply id body fuel => ⟨?_, ?_⟩⟩
    · exact Run.bind_of_error henter
    · exact Run.bind_of_error henter
  · obtain ⟨f, henter, hparent, hgives⟩ := Run.enter_of_le h frame m
    refine ⟨f, henter, hparent, hgives, Array.getElem?_size, fun i old hold => ?_⟩
    exact Frames.getElem?_push hold f

/-- The parameters `[a a & b]`, given three arguments: the second `a` counts. -/
theorem parameters_take_arguments_twice :
    let form := Value.vector [.symbol "a", .symbol "a", .symbol "&", .symbol "b"]
    let p : Params := ⟨["a", "a"], some "b"⟩
    Params.ofForm form = .ok p ∧
      (∃ again, Form.readAll "(a a & b)" = .ok [again] ∧ Params.ofForm again = .ok p) ∧
      (∃ e, Run.enter p [.int 1] 0 default = .error e default) ∧
      ∃ f m', Run.enter p [.int 1, .int 2, .int 3] 0 default = .value 0 m' ∧
        m'.world.frames.all[0]? = some f ∧ f.bindings["a"]? = some (.int 2) ∧
        f.bindings["b"]? = some (.list [.int 3]) := by
  intro form p
  obtain ⟨hread, htext, hfew, hmany⟩ := parameters_take_arguments
  have hp : Params.ofForm form = .ok p :=
    Params.ofForm_eq_ok_iff.mpr ⟨.vector, _, rfl, Rope.toList_ofList _, by decide, by decide⟩
  have ha : IsSymbolName "a" :=
    .of_cons (.of_all (by decide) (by decide) (by decide)) rfl (by decide) (by decide) (by decide)
  have hb : IsSymbolName "b" :=
    .of_cons (.of_all (by decide) (by decide) (by decide)) rfl (by decide) (by decide) (by decide)
  have hnames : ∀ x ∈ p.fixed ++ p.rest.toList, IsSymbolName x := by
    intro x hx
    simp only [p, List.cons_append, List.nil_append, Option.toList_some, List.mem_cons,
      List.not_mem_nil, or_false] at hx
    rcases hx with rfl | rfl | rfl
    · exact ha
    · exact ha
    · exact hb
  obtain ⟨f, henter, -, hgives, -, -⟩ := hmany p [.int 1, .int 2, .int 3] 0 default (by decide)
  refine ⟨hp, (htext form p hp).2.2.2 hnames, ⟨_, (hfew p [.int 1] 0 default (by decide)).1⟩,
    f, _, henter, rfl, (hgives "a" _).mpr (.inr ⟨by decide, 1, ?_, rfl⟩),
    (hgives "b" _).mpr (.inl ⟨rfl, rfl⟩)⟩
  exact Params.lastAt_cons_succ_iff.mpr (Params.lastAt_cons_zero_iff.mpr ⟨rfl, nofun⟩)

end Lisplet

import Lisplet.Proofs.Meaning

/-! Quasiquote fills its template. A template has places for values, which are forms that are
unquoted, and places for the elements of values, which are forms that are spliced in. What is
expanded is folded from the right, nested as deeply as the template is long; what is evaluated are
the forms of the places, from the left, each of them once, and the template comes out filled. -/

namespace Lisplet

/-- What a value counts as where a sequence is asked for: its elements, and none if it is nil. -/
def Value.elements? : Value → Option (Rope Value)
  | seq _ xs => some xs
  | nil => some .nil
  | _ => none

theorem Argument.items_of_elements? {v : Value} {xs : Rope Value} (h : v.elements? = some xs)
    (name : String) : items name v = .ok xs := by
  cases v with
  | seq shape ys =>
    cases h
    rfl
  | nil =>
    cases h
    rfl
  | _ => cases h

namespace Template

/-! ## Templates and their places -/

/-- A place in a template: the form whose value belongs there, and whether it is the elements of
that value that do. -/
structure Hole where
  form : Value
  spliced : Bool

/-- The form in `(unquote x)`. -/
def unquoted? : Value → Option Value
  | .seq .list xs =>
    match xs.toList with
    | [.symbol "unquote", x] => some x
    | _ => none
  | _ => none

/-- The form in `(splice-unquote x)`. -/
def spliced? : Value → Option Value
  | .seq .list xs =>
    match xs.toList with
    | [.symbol "splice-unquote", x] => some x
    | _ => none
  | _ => none

mutual

/-- The places of a template, from the left. Only a list can be a place, and what is in a map is
not looked at. -/
def holes : Value → List Hole
  | .seq .list xs =>
    match unquoted? (.seq .list xs) with
    | some x => [⟨x, false⟩]
    | none => itemHoles xs
  | .seq .vector xs => itemHoles xs
  | _ => []
termination_by structural v => v

/-- The places in the elements of a template. -/
def itemHoles : Rope Value → List Hole
  | .nil => []
  | .node l x r =>
    itemHoles l ++
      ((match spliced? x with
      | some y => [⟨y, true⟩]
      | none => holes x) ++ itemHoles r)
termination_by structural xs => xs

end

/-- The places in one element. -/
def elementHoles (x : Value) : List Hole :=
  match spliced? x with
  | some y => [⟨y, true⟩]
  | none => holes x

theorem itemHoles_eq (xs : Rope Value) : itemHoles xs = xs.toList.flatMap elementHoles := by
  induction xs with
  | nil => rfl
  | node l x r ihl ihr =>
    rw [itemHoles, Rope.toList_node, List.flatMap_append, List.flatMap_cons, ihl, ihr]
    rfl

mutual

/-- A template with values in its places, which are taken from the left. Every list and vector
keeps its shape. -/
def fill : Value → List Value → Value
  | .seq .list xs, vs =>
    match unquoted? (.seq .list xs) with
    | some _ => vs.headD .nil
    | none => .seq .list (fillItems xs vs .nil)
  | .seq .vector xs, vs => .seq .vector (fillItems xs vs .nil)
  | v, _ => v
termination_by structural v => v

/-- The elements of a template, filled, in front of others. -/
def fillItems : Rope Value → List Value → Rope Value → Rope Value
  | .nil, _, rest => rest
  | .node l x r, vs, rest =>
    let own := vs.drop (itemHoles l).length
    let behind := fillItems r (own.drop (elementHoles x).length) rest
    fillItems l (vs.take (itemHoles l).length)
      (match spliced? x with
      | some _ => ((own.headD .nil).elements?.getD .nil) ++ behind
      | none => behind.cons (fill x (own.take (elementHoles x).length)))
termination_by structural xs => xs

end

/-- An element of a template, filled, in front of others. -/
def fillElement (x : Value) (vs : List Value) (rest : Rope Value) : Rope Value :=
  match spliced? x with
  | some _ => ((vs.headD .nil).elements?.getD .nil) ++ rest
  | none => rest.cons (fill x (vs.take (elementHoles x).length))

/-- Elements of a template, each filled with as many of the values as it has places. -/
def fillAll : List Value → List Value → Rope Value → Rope Value
  | [], _, rest => rest
  | x :: xs, vs, rest =>
    fillElement x vs (fillAll xs (vs.drop (elementHoles x).length) rest)

theorem fillElement_take (x : Value) (n : Nat) (vs : List Value) (rest : Rope Value) :
    fillElement x (vs.take ((elementHoles x).length + n)) rest = fillElement x vs rest := by
  unfold fillElement
  split
  · next y hy =>
    have hone : (elementHoles x).length = 1 := by rw [elementHoles, hy, List.length_singleton]
    rw [hone, Nat.add_comm]
    cases vs <;> rfl
  · rw [List.take_take, Nat.min_eq_left (Nat.le_add_right ..)]

theorem fillAll_append (xs ys vs : List Value) (rest : Rope Value) :
    fillAll (xs ++ ys) vs rest =
      fillAll xs (vs.take (xs.flatMap elementHoles).length)
        (fillAll ys (vs.drop (xs.flatMap elementHoles).length) rest) := by
  induction xs generalizing vs with
  | nil => rfl
  | cons x xs ih =>
    rw [List.cons_append, fillAll, fillAll, ih, List.flatMap_cons, List.length_append,
      fillElement_take, List.drop_take, Nat.add_sub_cancel_left, List.drop_drop]

theorem fillItems_eq (xs : Rope Value) (vs : List Value) (rest : Rope Value) :
    fillItems xs vs rest = fillAll xs.toList vs rest := by
  induction xs generalizing vs rest with
  | nil => rfl
  | node l x r ihl ihr =>
    rw [Rope.toList_node, fillAll_append, ← itemHoles_eq, fillAll, fillItems, ihl, ihr]
    rfl

/-! ## The code of a template -/

/-- The expansion knows the places for values by their name and shape. -/
theorem argumentOf?_unquote (v : Value) : argumentOf? Sigil.unquote.name v = unquoted? v := by
  refine Option.ext fun x => ?_
  rw [argumentOf?_eq_some_iff]
  unfold unquoted?
  cases v with
  | seq shape xs => cases shape <;> grind [Sigil.name]
  | _ => simp

theorem argumentOf?_spliceUnquote (v : Value) :
    argumentOf? Sigil.spliceUnquote.name v = spliced? v := by
  refine Option.ext fun x => ?_
  rw [argumentOf?_eq_some_iff]
  unfold spliced?
  cases v with
  | seq shape xs => cases shape <;> grind [Sigil.name]
  | _ => simp

/-- Code for an element of a template in front of the list that `rest` makes. -/
def expandElement (x rest : Value) : Value :=
  match argumentOf? Sigil.spliceUnquote.name x with
  | some y => call "concat" [y, rest]
  | none => call "cons" [expand x, rest]

theorem expandItems_eq (xs : Rope Value) (rest : Value) :
    expandItems xs rest = xs.toList.foldr expandElement rest := by
  induction xs generalizing rest with
  | nil => rfl
  | node l x r ihl ihr =>
    rw [Rope.toList_node, List.foldr_append, List.foldr_cons, expandItems, ihl, ihr]
    rfl

end Template

/-! ## Filling by evaluation -/

/-- From a frame the functions that templates are built with go by their names. -/
structure World.KnowsBuilders (w : World) (frame : FrameId) : Prop where
  cons : w.lookup frame SequenceOp.cons.name = .ok (.native (.builtin (.sequence .cons)))
  concat : w.lookup frame SequenceOp.concat.name = .ok (.native (.builtin (.sequence .concat)))
  vec : w.lookup frame SequenceOp.vec.name = .ok (.native (.builtin (.sequence .vec)))

namespace Template

/-- While the forms of the places are evaluated in turn, the functions that templates are built
with keep their names, and what is to be spliced in is a list, a vector or nil. -/
def Undisturbed (frame : FrameId) : List Hole → World → Prop
  | [], w => w.KnowsBuilders frame
  | h :: hs, w =>
    w.KnowsBuilders frame ∧ ∀ v w', Derives h.form frame w (.ok v) w' →
      (h.spliced = true → v.elements?.isSome = true) ∧ Undisturbed frame hs w'

section

variable {frame : FrameId} {w w' w₁ : World} {hs hs' : List Hole} {vs : List Value}
  {h : Hole} {code a b : Value} {f g k : List Value → Value}

theorem Undisturbed.knowsBuilders (hu : Undisturbed frame hs w) : w.KnowsBuilders frame := by
  cases hs with
  | nil => exact hu
  | cons h hs => exact hu.1

theorem Undisturbed.left (hu : Undisturbed frame (hs ++ hs') w) : Undisturbed frame hs w := by
  induction hs generalizing w with
  | nil => exact hu.knowsBuilders
  | cons h hs ih =>
    refine ⟨hu.1, fun v w' hv => ?_⟩
    obtain ⟨hspread, hrest⟩ := hu.2 v w' hv
    exact ⟨hspread, ih hrest⟩

theorem Undisturbed.right (hu : Undisturbed frame (hs ++ hs') w)
    (hd : DerivesAll (hs.map Hole.form) frame w (.ok vs) w') : Undisturbed frame hs' w' := by
  induction hs generalizing w vs with
  | nil =>
    obtain ⟨-, rfl⟩ := hd.of_nil
    exact hu
  | cons h hs ih =>
    rcases hd.of_cons with ⟨e, hf, he⟩ | ⟨v, w₁, us, hf, hrest, he⟩
    · cases he
    · cases us with
      | error e => cases he
      | ok us => exact ih (hu.2 v w₁ hf).2 hrest

/-- Evaluating the code evaluates the forms of the places from the left, and nothing else that
could be noticed, and makes the value that `f` tells of theirs. -/
def Builds (frame : FrameId) (code : Value) (hs : List Hole) (f : List Value → Value) : Prop :=
  ∀ w, Undisturbed frame hs w → ∀ r w', Derives code frame w r w' ↔
    ∃ rs, DerivesAll (hs.map Hole.form) frame w rs w' ∧ r = rs.map f

theorem Builds.of_derives (hc : ∀ w, Derives code frame w (.ok (f [])) w) :
    Builds frame code [] f := by
  intro w hu r w'
  constructor
  · intro h
    obtain ⟨rfl, rfl⟩ := h.unique (hc w)
    exact ⟨_, .nil, rfl⟩
  · rintro ⟨rs, h, rfl⟩
    obtain ⟨rfl, rfl⟩ := h.of_nil
    exact hc w'

/-- A form builds its own value. -/
theorem Builds.hole (spliced : Bool) : Builds frame code [⟨code, spliced⟩] (·.headD .nil) := by
  intro w hu r w'
  change _ ↔ ∃ rs, DerivesAll [code] frame w rs w' ∧ _
  constructor
  · intro h
    refine ⟨_, DerivesAll.singleton_iff.mpr ⟨r, h, rfl⟩, ?_⟩
    cases r <;> rfl
  · rintro ⟨rs, h, rfl⟩
    obtain ⟨r, hr, rfl⟩ := DerivesAll.singleton_iff.mp h
    cases r <;> exact hr

/-- The value of a place for elements is a list, a vector or nil. -/
theorem elements?_of_derivesAll (hu : Undisturbed frame [h] w) (hsp : h.spliced = true)
    (hd : DerivesAll ([h].map Hole.form) frame w (.ok vs) w') :
    ∃ xs, (vs.headD .nil).elements? = some xs := by
  obtain ⟨r, hr, he⟩ := DerivesAll.singleton_iff.mp hd
  cases r with
  | error e => cases he
  | ok v =>
    cases he
    exact Option.isSome_iff_exists.mp ((hu.2 v w' hr).1 hsp)

/-- A call of a function for building with two arguments. -/
theorem Builds.pair {op : SequenceOp}
    (hop : ∀ w : World, w.KnowsBuilders frame →
      w.lookup frame op.name = .ok (.native (.builtin (.sequence op))))
    (ha : Builds frame a hs f) (hb : Builds frame b hs' g)
    (hk : ∀ w vs w' us, Undisturbed frame hs w →
      DerivesAll (hs.map Hole.form) frame w (.ok vs) w' →
      op.run [f vs, g us] = .ok (k (vs ++ us))) :
    Builds frame (call op.name [a, b]) (hs ++ hs') k := by
  intro w hu r w'
  rw [derives_sequenceOp_iff (hop w hu.knowsBuilders), List.map_append]
  constructor
  · rintro ⟨rs, hd, rfl⟩
    rcases hd.of_cons with ⟨e, h₁, rfl⟩ | ⟨v, w₁, us, h₁, hrest, rfl⟩
    · obtain ⟨rs, hrs, he⟩ := (ha w hu.left _ _).mp h₁
      cases rs with
      | error e' =>
        cases he
        exact ⟨_, hrs.append_error, rfl⟩
      | ok vs => cases he
    · obtain ⟨rs, hrs, he⟩ := (ha w hu.left _ _).mp h₁
      cases rs with
      | error e' => cases he
      | ok vs =>
        cases he
        obtain ⟨r₂, h₂, rfl⟩ := DerivesAll.singleton_iff.mp hrest
        obtain ⟨us, hus, rfl⟩ := (hb w₁ (hu.right hrs) _ _).mp h₂
        refine ⟨_, hrs.append hus, ?_⟩
        cases us with
        | error e => rfl
        | ok us => exact hk w vs w₁ us hu.left hrs
  · rintro ⟨rs, hd, rfl⟩
    rcases hd.of_append with ⟨e, hrs, rfl⟩ | ⟨vs, w₁, us, hrs, hus, rfl⟩
    · exact ⟨_, .error ((ha w hu.left _ _).mpr ⟨_, hrs, rfl⟩), rfl⟩
    · have h₁ : Derives a frame w (.ok (f vs)) w₁ := (ha w hu.left _ _).mpr ⟨_, hrs, rfl⟩
      have h₂ := (hb w₁ (hu.right hrs) _ _).mpr ⟨us, hus, rfl⟩
      refine ⟨_, .cons h₁ (DerivesAll.singleton_iff.mpr ⟨_, h₂, rfl⟩), ?_⟩
      cases us with
      | error e => rfl
      | ok us => exact (hk w vs w₁ us hu.left hrs).symm

/-- A call of the function for building vectors. -/
theorem Builds.vec {g : List Value → Rope Value}
    (hc : Builds frame code hs fun vs => .seq .list (g vs)) :
    Builds frame (call "vec" [code]) hs fun vs => .seq .vector (g vs) := by
  intro w hu r w'
  rw [← SequenceOp.name, derives_sequenceOp_iff hu.knowsBuilders.vec]
  constructor
  · rintro ⟨rs, hd, rfl⟩
    obtain ⟨r, hr, rfl⟩ := DerivesAll.singleton_iff.mp hd
    obtain ⟨us, hus, rfl⟩ := (hc w hu _ _).mp hr
    refine ⟨us, hus, ?_⟩
    cases us <;> rfl
  · rintro ⟨us, hus, rfl⟩
    refine ⟨_, DerivesAll.singleton_iff.mpr ⟨_, (hc w hu _ _).mpr ⟨us, hus, rfl⟩, rfl⟩, ?_⟩
    cases us <;> rfl

/-- One element more in front. -/
theorem Builds.element {x : Value} {g : List Value → Rope Value}
    (hx : Builds frame (expand x) (holes x) (fill x))
    (hc : Builds frame code hs fun vs => .seq .list (g vs)) :
    Builds frame (expandElement x code) (elementHoles x ++ hs) fun vs =>
      .seq .list (fillElement x vs (g (vs.drop (elementHoles x).length))) := by
  rw [expandElement, argumentOf?_spliceUnquote]
  unfold elementHoles fillElement
  split
  · next y hy =>
    refine Builds.pair (fun w hk => hk.concat) (.hole true) hc ?_
    intro w vs w' us hu hd
    obtain ⟨xs, hxs⟩ := elements?_of_derivesAll hu rfl hd
    obtain ⟨v, rfl⟩ := List.length_eq_one_iff.mp hd.length_eq
    change v.elements? = some xs at hxs
    have hjoined : SequenceOp.joined [v, .seq .list (g us)] = .ok (xs ++ g us) := by
      rw [SequenceOp.joined, Argument.items_of_elements? hxs]
      rfl
    change SequenceOp.concat.run [v, .seq .list (g us)] =
      .ok (.seq .list (v.elements?.getD .nil ++ g us))
    rw [SequenceOp.run, hjoined, hxs]
    rfl
  · next hy =>
    refine Builds.pair (fun w hk => hk.cons) hx hc ?_
    intro w vs w' us hu hd
    have hn : vs.length = (holes x).length := by rw [hd.length_eq, List.length_map]
    have ht : (vs ++ us).take (holes x).length = vs := List.take_left' hn
    have hr : (vs ++ us).drop (holes x).length = us := List.drop_left' hn
    simp only [elementHoles, hy, ht, hr]
    rfl

theorem Builds.items {xs : List Value}
    (hxs : ∀ x ∈ xs, Builds frame (expand x) (holes x) (fill x)) :
    Builds frame (xs.foldr expandElement (.list [])) (xs.flatMap elementHoles) fun vs =>
      .seq .list (fillAll xs vs .nil) := by
  induction xs with
  | nil =>
    have hempty : Value.list [] = .seq .list .nil := congrArg _ Rope.ofList_nil
    rw [List.foldr_nil, hempty]
    exact .of_derives fun w => derives_constant rfl
  | cons x xs ih =>
    rw [List.forall_mem_cons] at hxs
    exact .element hxs.1 (ih hxs.2)

/-- What a template expands to builds it, filled. -/
theorem builds_expand (frame : FrameId) (t : Value) :
    Builds frame (expand t) (holes t) (fill t) := by
  induction t using Value.induct with
  | seq shape xs ih =>
    have hitems : Builds frame (expandItems xs (.list [])) (itemHoles xs) fun vs =>
        .seq .list (fillItems xs vs .nil) := by
      simp only [expandItems_eq, itemHoles_eq, fillItems_eq]
      exact .items ih
    cases shape with
    | list =>
      cases hx : unquoted? (.seq .list xs) with
      | some x =>
        have hf : fill (.seq .list xs) = (·.headD .nil) := by
          funext vs
          rw [fill, hx]
        rw [expand, argumentOf?_unquote, holes, hx, hf]
        exact .hole false
      | none =>
        have hf : fill (.seq .list xs) = fun vs => .seq .list (fillItems xs vs .nil) := by
          funext vs
          rw [fill, hx]
        rw [expand, argumentOf?_unquote, holes, hx, hf]
        exact hitems
    | vector => exact hitems.vec
  | symbol name => exact .of_derives fun w => derives_quote_iff.mpr ⟨rfl, rfl⟩
  | map es => exact .of_derives fun w => derives_quote_iff.mpr ⟨rfl, rfl⟩
  | nil | bool | int | str | keyword | native | closure | atom =>
    exact .of_derives fun w => derives_constant rfl

end

/-- A quasiquote form means what its template expands to, however its list is laid out. -/
theorem derives_quasiquote_iff {xs : Rope Value} {t : Value} {frame : FrameId} {w w' : World}
    {r : Except Error Value}
    (hq : xs.toList = [.symbol SpecialForm.quasiquote.name, t]) :
    Derives (.seq .list xs) frame w r w' ↔ Derives (expand t) frame w r w' := by
  rw [derives_special (clause?_of_toList hq), derives_iff]
  constructor
  · rintro ⟨s, hp⟩
    cases hp with
    | quasiquote h => exact ⟨s, h⟩
  · rintro ⟨s, h⟩
    exact ⟨s, .quasiquote h⟩

end Template

/-- **Quasiquote fills its template.** Where the functions that templates are built with keep their
names and only lists, vectors and nil are spliced in, an evaluation of the form, which the limit
does not stop, evaluates the forms of the places from the left up to the first error, which is the
result, and fills their values into the template. -/
theorem quasiquote_fills {xs : Rope Value} {t : Value} {frame : FrameId} {m : Machine}
    (hq : xs.toList = [.symbol SpecialForm.quasiquote.name, t])
    (hl : LimitUnhit (.seq .list xs) frame m)
    (hu : Template.Undisturbed frame (Template.holes t) m.world)
    (r : Except Error Value) (w' : World) :
    Settles (.seq .list xs) frame m r w' ↔
      ∃ rs, DerivesAll ((Template.holes t).map Template.Hole.form) frame m.world rs w' ∧
        r = rs.map (Template.fill t) := by
  rw [← Template.builds_expand frame t m.world hu, ← Template.derives_quasiquote_iff hq]
  exact ⟨hl.derives, hl.settles⟩

/-- Under every high limit the template `(~7 ~@nil)` becomes `(7)`. -/
theorem quasiquote_fills_pair :
    let unquoted := Value.seq .list (.node (.node .nil (.symbol "unquote") .nil) (.int 7) .nil)
    let spliced := Value.seq .list (.node (.node .nil (.symbol "splice-unquote") .nil) .nil .nil)
    let t := Value.seq .list (.node (.node .nil unquoted .nil) spliced .nil)
    let xs : Rope Value := .node (.node .nil (.symbol "quasiquote") .nil) t .nil
    let builders : Bindings := Bindings.insertAll
      ([SequenceOp.cons, .concat, .vec].map fun op =>
        (op.name, .native (.builtin (.sequence op)))) ∅
    let w := (World.empty default).withFrame ⟨none, builders⟩
    ∃ L₀, ∀ L, L₀ ≤ L → LimitUnhit (.seq .list xs) 0 ⟨w, 0, L⟩ ∧
      Template.Undisturbed 0 (Template.holes t) w ∧
      Settles (.seq .list xs) 0 ⟨w, 0, L⟩ (.ok (.seq .list (.node .nil (.int 7) .nil))) w := by
  intro unquoted spliced t xs builders w
  have hk : w.KnowsBuilders 0 :=
    ⟨World.lookup_of_own? rfl, World.lookup_of_own? rfl, World.lookup_of_own? rfl⟩
  have h7 : Derives (.int 7) 0 w (.ok (.int 7)) w := derives_constant rfl
  have hnil : Derives .nil 0 w (.ok .nil) w := derives_constant rfl
  have hall : DerivesAll [.int 7, .nil] 0 w (.ok [.int 7, .nil]) w := .cons h7 (.cons hnil .nil)
  have hu : Template.Undisturbed 0 (Template.holes t) w := by
    refine ⟨hk, fun v w' hv => ⟨fun h => absurd h Bool.false_ne_true, ?_⟩⟩
    obtain ⟨-, rfl⟩ := h7.unique hv
    refine ⟨hk, fun v w' hv => ?_⟩
    obtain ⟨he, rfl⟩ := hnil.unique hv
    cases he
    exact ⟨fun _ => rfl, hk⟩
  have hcode := (Template.builds_expand 0 t w hu _ w).mpr ⟨_, hall, rfl⟩
  have hform : Derives (.seq .list xs) 0 w _ w := (Template.derives_quasiquote_iff rfl).mpr hcode
  obtain ⟨L₀, hL₀⟩ := hform.eventually_limitUnhit 0
  refine ⟨L₀, fun L hL => ⟨hL₀ L hL, hu, ?_⟩⟩
  exact (quasiquote_fills rfl (hL₀ L hL) hu _ w).mpr ⟨_, hall, rfl⟩

end Lisplet

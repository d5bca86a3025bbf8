import Lisplet.Proofs.BigStep.Agreement
import Lisplet.Proofs.Meaning

/-! Special forms cannot be shadowed. A form is known to be special by the name that it begins
with, and no frame is asked about that. So bindings for such names, put into a root frame, are
seen by nothing but the evaluation of such a name by itself; where that finds the name without
them, it finds it nearer than they are. An evaluation goes on as if they were not there, step by
step, unless it comes to a name that has no value without them, and then that is how it ends. That
this error ends the evaluation rests on what `Reply` assumes of the functions of the host: they
pass on the errors of the calls they make. -/

namespace Lisplet

/-! ## More bindings in a root frame -/

namespace Frames

variable {fs fs' : Frames} {root i : FrameId} {extra : Bindings} {name : String}

/-- The frame is there and stands in no other. -/
def IsRoot (fs : Frames) (root : FrameId) : Prop :=
  ∃ f, fs.all[root]? = some f ∧ f.parent = none

/-- The frames with the bindings `extra` in the frame `root`, except for names that it binds
itself. -/
def extended (root : FrameId) (extra : Bindings) (fs : Frames) : Frames :=
  ⟨fs.all.modify root fun f => { f with bindings := extra ∪ f.bindings }⟩

theorem IsRoot.lt_next (h : fs.IsRoot root) : root < fs.next := by
  obtain ⟨f, hf, -⟩ := h
  exact Frames.lt_next hf

theorem Kept.isRoot {P : FrameId → Prop} (hk : Kept P fs fs') (h : fs.IsRoot root) :
    fs'.IsRoot root := by
  obtain ⟨f, hf, hp⟩ := h
  obtain ⟨f', hf', hp', -⟩ := hk hf
  exact ⟨f', hf', hp'.trans hp⟩

theorem getElem?_extended (root : FrameId) (extra : Bindings) (fs : Frames) (i : FrameId) :
    (fs.extended root extra).all[i]? =
      if root = i then fs.all[i]?.map fun f => { f with bindings := extra ∪ f.bindings }
      else fs.all[i]? :=
  Array.getElem?_modify ..

@[simp] theorem next_extended : (fs.extended root extra).next = fs.next := Array.size_modify ..

/-- What the frames bind: what they did, and in the root frame what is new. -/
theorem own?_extended (h : fs.IsRoot root) :
    (fs.extended root extra).own? i name =
      (fs.own? i name <|> if i = root then extra[name]? else none) := by
  rw [own?, own?, getElem?_extended]
  by_cases hi : root = i
  · subst hi
    obtain ⟨f, hf, -⟩ := h
    simp [hf, Std.ExtTreeMap.getElem?_union]
  · rw [if_neg hi, if_neg (Ne.symm hi)]
    simp

theorem extended_push (h : root < fs.next) (f : Frame) :
    (fs.push f).extended root extra = (fs.extended root extra).push f := by
  have hne : ¬ root = fs.all.size := Nat.ne_of_lt h
  refine congrArg Frames.mk (Array.ext_getElem? fun i => ?_)
  simp only [push, extended, Array.getElem?_modify, Array.getElem?_push, Array.size_modify]
  by_cases hi : i = fs.all.size
  · subst hi
    simp [hne]
  · simp [hi]

theorem extended_bind (i : FrameId) (name : String) (v : Value) :
    (fs.bind i name v).extended root extra = (fs.extended root extra).bind i name v := by
  have hinsert (b : Bindings) : extra ∪ b.insert name v = (extra ∪ b).insert name v := by
    refine Std.ExtTreeMap.ext_getElem? fun x => ?_
    simp only [Std.ExtTreeMap.getElem?_union, Bindings.getElem?_insert_eq]
    by_cases hx : name = x <;> simp [hx]
  refine congrArg Frames.mk (Array.ext_getElem? fun j => ?_)
  simp only [bind, extended, Array.getElem?_modify]
  by_cases hi : i = j <;> by_cases hr : root = j <;>
    simp [hi, hr, hinsert, Function.comp_def]

/-- A name that is seen without the new bindings, or that they do not bind, is seen with them as
it was. -/
theorem get?_extended (hroot : fs.IsRoot root)
    (h : fs.get? i name = none → extra[name]? = none) :
    (fs.extended root extra).get? i name = fs.get? i name := by
  induction i using Nat.strongRecOn with
  | ind i ih =>
    rw [get?_eq] at h
    rw [get?_eq, get?_eq fs, getElem?_extended]
    by_cases hi : root = i
    · subst hi
      obtain ⟨f, hf, hp⟩ := hroot
      simp only [hf, hp, Option.bind_some, Option.bind_none, Option.map_some, if_pos] at h ⊢
      rw [Std.ExtTreeMap.getElem?_union]
      cases hb : f.bindings[name]? with
      | some v => rfl
      | none => simp_all
    · rw [if_neg hi]
      cases hf : fs.all[i]? with
      | none => rfl
      | some f =>
        simp only [hf, Option.bind_some] at h ⊢
        cases hb : f.bindings[name]? with
        | some v => rfl
        | none =>
          cases hp : f.parent with
          | none => rfl
          | some outer =>
            simp only [hb, hp, Option.bind_some] at h ⊢
            by_cases ho : outer < i
            · rw [if_pos ho] at h
              rw [if_pos ho, if_pos ho, ih outer ho (by simpa using h)]
            · rw [if_neg ho, if_neg ho]

end Frames

/-- The result is no complaint that one of the names has no value. -/
def Finds (extra : Bindings) (r : Except Error α) : Prop :=
  ∀ name ∈ extra, r ≠ .error (.unbound name)

namespace Finds

variable {extra : Bindings}

theorem ok (a : α) : Finds extra (.ok a) := fun _ _ => nofun

theorem of_map {f : α → β} {r : Except Error α} (h : Finds extra (r.map f)) : Finds extra r := by
  intro name hn hr
  subst hr
  exact h name hn rfl

/-- An error ends what it is a part of. -/
theorem of_error {e : Error} (h : Finds extra (.error e : Except Error α)) :
    Finds extra (.error e : Except Error β) := by
  intro name hn he
  cases he
  exact h name hn rfl

end Finds

namespace World

variable {w w₁ : World} {root frame : FrameId} {extra : Bindings} {name : String} {v : Value}

/-- The world with more bindings in a root frame, except for names that it binds itself. -/
def extended (root : FrameId) (extra : Bindings) (w : World) : World :=
  { w with frames := w.frames.extended root extra }

@[simp] theorem next_extended : (w.extended root extra).frames.next = w.frames.next :=
  Frames.next_extended

theorem setCell_extended (i : AtomId) (v : Value) :
    (w.setCell i v).extended root extra = (w.extended root extra).setCell i v := rfl

theorem lookup_extended (hw : w.frames.IsRoot root) (h : Finds extra (w.lookup frame name)) :
    (w.extended root extra).lookup frame name = w.lookup frame name := by
  have hg : (w.frames.extended root extra).get? frame name = w.frames.get? frame name := by
    refine Frames.get?_extended hw fun hn => ?_
    refine Std.ExtTreeMap.getElem?_eq_none fun hm => h name hm ?_
    rw [lookup, hn]
  rw [lookup, lookup]
  simp only [extended, hg]

theorem bindName_extended (frame : FrameId) (name : String) (v : Value) :
    (w.bindName frame name v).extended root extra =
      (w.extended root extra).bindName frame name v := by
  simp [bindName, extended, Frames.extended_bind]

theorem withFrame_extended (hw : w.frames.IsRoot root) (f : Frame) :
    (w.withFrame f).extended root extra = (w.extended root extra).withFrame f := by
  simp [withFrame, extended, Frames.extended_push hw.lt_next]

theorem withChild_extended (hw : w.frames.IsRoot root) (frame : FrameId) :
    (w.withChild frame).extended root extra = (w.extended root extra).withChild frame :=
  withFrame_extended hw _

theorem isRoot_withFrame (hw : w.frames.IsRoot root) (f : Frame) :
    (w.withFrame f).frames.IsRoot root := by
  obtain ⟨f₁, hf, hp⟩ := hw
  exact ⟨f₁, Frames.getElem?_push hf f, hp⟩

theorem isRoot_bindName (hw : w.frames.IsRoot root) :
    (w.bindName frame name v).frames.IsRoot root :=
  (Frames.Kept.bind (t := []) name v).isRoot hw

theorem entered_extended {p : Params} {args : List Value} (hw : w.frames.IsRoot root)
    (h : w.entered p args frame = .ok w₁) :
    w₁.frames.IsRoot root ∧
      (w.extended root extra).entered p args frame = .ok (w₁.extended root extra) := by
  obtain ⟨news, ha, rfl⟩ := entered_eq_ok_iff.mp h
  exact ⟨isRoot_withFrame hw _,
    entered_eq_ok_iff.mpr ⟨news, ha, withFrame_extended hw _⟩⟩

theorem entered_extended_error {p : Params} {args : List Value} {e : Error}
    (h : w.entered p args frame = .error e) :
    (w.extended root extra).entered p args frame = .error e :=
  entered_eq_error_iff.mpr (entered_eq_error_iff.mp h)

end World

/-! ## Derivations -/

section

variable {root : FrameId} {extra : Bindings}

mutual

/-- Step by step the same is done where there are more bindings. -/
theorem Evaluates.extended {g : Guard} {form : Value} {frame : FrameId} {w w' : World}
    {t : List Event} {r : Except Error Value} (h : Evaluates g form frame w t r w')
    (hw : w.frames.IsRoot root) (hr : Finds extra r) :
    ∃ t', Evaluates g form frame (w.extended root extra) t' r (w'.extended root extra) := by
  match h with
  | .symbol =>
    rw [← World.lookup_extended hw hr]
    exact ⟨_, .symbol⟩
  | .constant hc => exact ⟨_, .constant hc⟩
  | .vector hs =>
    obtain ⟨t', hs'⟩ := EvaluatesAll.extended hs hw hr.of_map
    exact ⟨t', .vector hs'⟩
  | .map hs =>
    obtain ⟨t', hs'⟩ := EvaluatesAll.extended hs hw hr.of_map
    exact ⟨t', .map hs'⟩
  | .special hc hp =>
    obtain ⟨t', hp'⟩ := Performs.extended hp hw hr
    exact ⟨t', .special hc hp'⟩
  | .call hn hs hf =>
    obtain ⟨t₁, hs'⟩ := EvaluatesAll.extended hs hw (.ok _)
    obtain ⟨t₂, hf'⟩ := Calls.extended hf (hs.kept.isRoot hw) hr
    exact ⟨_, .call hn hs' hf'⟩
  | .callError hn hs =>
    obtain ⟨t', hs'⟩ := EvaluatesAll.extended hs hw hr.of_error
    exact ⟨t', .callError hn hs'⟩

theorem Enters.extended {g : Guard} {form : Value} {frame : FrameId} {w w' : World}
    {t : List Event} {r : Except Error Value} (h : Enters g form frame w t r w')
    (hw : w.frames.IsRoot root) (hr : Finds extra r) :
    ∃ t', Enters g form frame (w.extended root extra) t' r (w'.extended root extra) := by
  match h with
  | .free h =>
    obtain ⟨t', h'⟩ := Evaluates.extended h hw hr
    exact ⟨_, .free h'⟩
  | .admitted h =>
    obtain ⟨t', h'⟩ := Evaluates.extended h hw hr
    exact ⟨_, .admitted h'⟩
  | .refused => exact ⟨_, .refused⟩

theorem EvaluatesAll.extended {g : Guard} {forms : List Value} {frame : FrameId} {w w' : World}
    {t : List Event} {rs : Except Error (List Value)} (h : EvaluatesAll g forms frame w t rs w')
    (hw : w.frames.IsRoot root) (hr : Finds extra rs) :
    ∃ t', EvaluatesAll g forms frame (w.extended root extra) t' rs (w'.extended root extra) := by
  match h with
  | .nil => exact ⟨_, .nil⟩
  | .cons h hs =>
    obtain ⟨t₁, h'⟩ := Enters.extended h hw (.ok _)
    obtain ⟨t₂, hs'⟩ := EvaluatesAll.extended hs (h.kept.isRoot hw) hr.of_map
    exact ⟨_, .cons h' hs'⟩
  | .error h =>
    obtain ⟨t', h'⟩ := Enters.extended h hw hr.of_error
    exact ⟨t', .error h'⟩

theorem Performs.extended {g : Guard} {c : Clause} {frame : FrameId} {w w' : World}
    {t : List Event} {r : Except Error Value} (h : Performs g c frame w t r w')
    (hw : w.frames.IsRoot root) (hr : Finds extra r) :
    ∃ t', Performs g c frame (w.extended root extra) t' r (w'.extended root extra) := by
  match h with
  | .define h =>
    obtain ⟨t', h'⟩ := Enters.extended h hw hr
    rw [World.bindName_extended]
    exact ⟨t', .define h'⟩
  | .defineError h =>
    obtain ⟨t', h'⟩ := Enters.extended h hw hr
    exact ⟨t', .defineError h'⟩
  | .bind hb h =>
    have hchild := World.isRoot_withFrame hw ⟨some frame, ∅⟩
    obtain ⟨t₁, hb'⟩ := Binds.extended hb hchild (.ok ())
    obtain ⟨t₂, h'⟩ := Evaluates.extended h (hb.kept.isRoot hchild) hr
    rw [World.withChild_extended hw, ← World.next_extended] at hb'
    rw [← World.next_extended] at h'
    exact ⟨_, .bind hb' h'⟩
  | .bindError hb =>
    have hchild := World.isRoot_withFrame hw ⟨some frame, ∅⟩
    obtain ⟨t', hb'⟩ := Binds.extended hb hchild hr.of_error
    rw [World.withChild_extended hw, ← World.next_extended] at hb'
    exact ⟨t', .bindError hb'⟩
  | .sequence hs h =>
    obtain ⟨t₁, hs'⟩ := EvaluatesAll.extended hs hw (.ok _)
    obtain ⟨t₂, h'⟩ := Evaluates.extended h (hs.kept.isRoot hw) hr
    exact ⟨_, .sequence hs' h'⟩
  | .sequenceError hs =>
    obtain ⟨t', hs'⟩ := EvaluatesAll.extended hs hw hr.of_error
    exact ⟨t', .sequenceError hs'⟩
  | .branch hc h =>
    obtain ⟨t₁, hc'⟩ := Enters.extended hc hw (.ok _)
    obtain ⟨t₂, h'⟩ := Evaluates.extended h (hc.kept.isRoot hw) hr
    exact ⟨_, .branch hc' h'⟩
  | .branchError hc =>
    obtain ⟨t', hc'⟩ := Enters.extended hc hw hr
    exact ⟨t', .branchError hc'⟩
  | .lambda => exact ⟨_, .lambda⟩
  | .quote => exact ⟨_, .quote⟩
  | .quasiquote h =>
    obtain ⟨t', h'⟩ := Evaluates.extended h hw hr
    exact ⟨t', .quasiquote h'⟩
  | .expand => exact ⟨_, .expand⟩
  | .malformed => exact ⟨_, .malformed⟩

theorem Binds.extended {g : Guard} {bindings : List (Value × Value)} {frame : FrameId}
    {w w' : World} {t : List Event} {r : Except Error Unit}
    (h : Binds g bindings frame w t r w') (hw : w.frames.IsRoot root) (hr : Finds extra r) :
    ∃ t', Binds g bindings frame (w.extended root extra) t' r (w'.extended root extra) := by
  match h with
  | .nil => exact ⟨_, .nil⟩
  | .cons h hs =>
    obtain ⟨t₁, h'⟩ := Enters.extended h hw (.ok _)
    obtain ⟨t₂, hs'⟩ := Binds.extended hs (World.isRoot_bindName (h.kept.isRoot hw)) hr
    rw [World.bindName_extended] at hs'
    exact ⟨_, .cons h' hs'⟩
  | .error h =>
    obtain ⟨t', h'⟩ := Enters.extended h hw hr.of_error
    exact ⟨t', .error h'⟩
  | .notSymbol hn => exact ⟨_, .notSymbol hn⟩

theorem Calls.extended {g : Guard} {f : Value} {args : List Value} {w w' : World}
    {t : List Event} {r : Except Error Value} (h : Calls g f args w t r w')
    (hw : w.frames.IsRoot root) (hr : Finds extra r) :
    ∃ t', Calls g f args (w.extended root extra) t' r (w'.extended root extra) := by
  match h with
  | .closure he h =>
    obtain ⟨hw₁, he'⟩ := World.entered_extended hw he
    obtain ⟨t', h'⟩ := Evaluates.extended h hw₁ hr
    rw [← World.next_extended] at h'
    exact ⟨t', .closure he' h'⟩
  | .arity he => exact ⟨_, .arity (World.entered_extended_error he)⟩
  | .native h =>
    obtain ⟨t', h'⟩ := Invokes.extended h hw hr
    exact ⟨t', .native h'⟩
  | .notCallable hf => exact ⟨_, .notCallable hf⟩

theorem Applies.extended {g : Guard} {f : Value} {args : List Value} {w w' : World}
    {t : List Event} {r : Except Error Value} (h : Applies g f args w t r w')
    (hw : w.frames.IsRoot root) (hr : Finds extra r) :
    ∃ t', Applies g f args (w.extended root extra) t' r (w'.extended root extra) := by
  match h with
  | .closure he h =>
    obtain ⟨hw₁, he'⟩ := World.entered_extended hw he
    obtain ⟨t', h'⟩ := Enters.extended h hw₁ hr
    rw [← World.next_extended] at h'
    exact ⟨t', .closure he' h'⟩
  | .arity he => exact ⟨_, .arity (World.entered_extended_error he)⟩
  | .native h =>
    obtain ⟨t', h'⟩ := Invokes.extended h hw hr
    exact ⟨t', .native h'⟩
  | .notCallable hf => exact ⟨_, .notCallable hf⟩

theorem Invokes.extended {g : Guard} {f : Native} {args : List Value} {w w' : World}
    {t : List Event} {r : Except Error Value} (h : Invokes g f args w t r w')
    (hw : w.frames.IsRoot root) (hr : Finds extra r) :
    ∃ t', Invokes g f args (w.extended root extra) t' r (w'.extended root extra) := by
  match h with
  | .alone h =>
    obtain ⟨w₁, hm, hf, hall⟩ := Run.Blind.alone f args (h 0 0)
    cases hm
    refine ⟨_, .alone fun depth limit => ?_⟩
    rw [World.extended, World.extended, hf]
    exact hall depth limit _
  | .evalIn h =>
    obtain ⟨t', h'⟩ := Enters.extended h hw hr
    exact ⟨_, .evalIn h'⟩
  | .swap h =>
    obtain ⟨t', h'⟩ := Applies.extended h hw (.ok _)
    rw [World.setCell_extended]
    exact ⟨t', .swap h'⟩
  | .swapError h =>
    obtain ⟨t', h'⟩ := Applies.extended h hw hr
    exact ⟨t', .swapError h'⟩
  | .host hh h =>
    obtain ⟨t', h'⟩ := Plays.extended h hw hr
    exact ⟨t', .host hh h'⟩

theorem Plays.extended {g : Guard} {reply : Reply} {w w' : World} {t : List Event}
    {r : Except Error Value} (h : Plays g reply w t r w') (hw : w.frames.IsRoot root)
    (hr : Finds extra r) :
    ∃ t', Plays g reply (w.extended root extra) t' r (w'.extended root extra) := by
  match h with
  | .give => exact ⟨_, .give⟩
  | .fail => exact ⟨_, .fail⟩
  | .call h hs =>
    obtain ⟨t₁, h'⟩ := Applies.extended h hw (.ok _)
    obtain ⟨t₂, hs'⟩ := Plays.extended hs (h.kept.isRoot hw) hr
    exact ⟨_, .call h' hs'⟩
  | .callError h =>
    obtain ⟨t', h'⟩ := Applies.extended h hw hr
    exact ⟨t', .callError h'⟩

end

end

/-- More bindings in a root frame change nothing but what complains that they are missing. -/
theorem Settles.extended {root frame : FrameId} {extra : Bindings} {form : Value} {m : Machine}
    {r : Except Error Value} {w' : World} (h : Settles form frame m r w')
    (hroot : m.world.frames.IsRoot root) (hr : Finds extra r) :
    Settles form frame { m with world := m.world.extended root extra } r
      (w'.extended root extra) := by
  obtain ⟨w, d, L⟩ := m
  obtain ⟨t, ht⟩ := h.derivation
  obtain ⟨t', ht'⟩ := ht.extended hroot hr
  exact ht'.settled

/-- **Special forms cannot be shadowed.** Let an evaluation end, and not with the complaint that
the name of a special form has no value. With whatever bindings for such names in a root frame
besides those that it has, it ends in the same result, with the same text printed, and in the
same world but for those of the new bindings that it has not replaced by its own. Functions of the
host are assumed to pass on the errors of their calls and to keep no state. -/
theorem Settles.unshadowed {root frame : FrameId} {extra : Bindings} {form : Value} {m : Machine}
    {r : Except Error Value} {w' : World} (hroot : m.world.frames.IsRoot root)
    (hextra : ∀ name ∈ extra, ∃ f : SpecialForm, f.name = name)
    (h : Settles form frame m r w') (hr : ∀ f : SpecialForm, r ≠ .error (.unbound f.name)) :
    Settles form frame { m with world := m.world.extended root extra } r
        (w'.extended root extra) ∧
      (w'.extended root extra).printed = w'.printed ∧
      ∀ i name, (w'.extended root extra).frames.own? i name =
        (w'.frames.own? i name <|> if i = root then extra[name]? else none) := by
  have hfinds : Finds extra r := by
    intro name hn he
    obtain ⟨f, rfl⟩ := hextra name hn
    exact hr f he
  have hroot' : w'.frames.IsRoot root := by
    obtain ⟨t, ht⟩ := h.derivation
    exact ht.kept.isRoot hroot
  exact ⟨h.extended hroot hfinds, rfl, fun i name => Frames.own?_extended hroot'⟩

/-- Where `if` and `do` are bound to numbers, `(do (def! if 3) (if true 1 2))` is what it is where
they are not. Afterwards `if` is bound to what it has been defined to be, and `do` is as before. -/
theorem Settles.unshadowed_redefined :
    let list (x y z : Value) := Value.seq .list (.node (.node .nil x .nil) y (.node .nil z .nil))
    let branch := Value.seq .list (.node (.node (.node .nil (.symbol "if") .nil) (.bool true) .nil)
      (.int 1) (.node .nil (.int 2) .nil))
    let form := list (.symbol "do") (list (.symbol "def!") (.symbol "if") (.int 3)) branch
    let w := (World.empty default).withFrame ⟨none, ∅⟩
    let extra := Bindings.insertAll [("if", .int 7), ("do", .int 8)] ∅
    ∃ w', Settles form 0 ⟨w.extended 0 extra, 0, 5⟩ (.ok (.int 1)) w' ∧
      w'.frames.own? 0 "if" = some (.int 3) ∧ w'.frames.own? 0 "do" = some (.int 8) := by
  intro list branch form w extra
  have hroot : w.frames.IsRoot 0 := ⟨⟨none, ∅⟩, rfl, rfl⟩
  have hextra : ∀ name ∈ extra, ∃ f : SpecialForm, f.name = name := by
    intro name hn
    have hcases : "do" = name ∨ "if" = name := by simpa [extra, Bindings.insertAll] using hn
    rcases hcases with rfl | rfl
    · exact ⟨.sequence, rfl⟩
    · exact ⟨.branch, rfl⟩
  have h : Settles form 0 ⟨w, 0, 5⟩ (.ok (.int 1)) (w.bindName 0 "if" (.int 3)) := ⟨5, rfl⟩
  obtain ⟨hs, -, hown⟩ := h.unshadowed hroot hextra nofun
  refine ⟨_, hs, ?_, ?_⟩
  · rw [hown]
    rfl
  · rw [hown]
    rfl

end Lisplet

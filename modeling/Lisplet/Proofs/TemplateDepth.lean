import Lisplet.Proofs.Levels
import Lisplet.Proofs.NewRoot
import Lisplet.Proofs.Quasiquote
import Lisplet.Proofs.RoundTrip.Data

/-! How deep a template without places goes. What it expands to makes one call for each element, and
all calls behind it are an argument of that call. So a template is built as many levels down as it
is long, and an element one level further down than those in front of it, with its own levels on
top. -/

namespace Lisplet

namespace Template

/-! ## Levels of a template -/

mutual

/-- The levels that it takes to build a template without places. -/
def need : Value → Nat
  | .seq .list xs => max (xs.size + 1) (deepest 0 xs)
  | .seq .vector xs => 1 + max (xs.size + 1) (deepest 0 xs)
  | _ => 1
termination_by structural v => v

/-- Of elements with `i` others in front, the levels of the one that goes deepest. -/
def deepest : Nat → Rope Value → Nat
  | _, .nil => 0
  | i, .node l x r =>
    max (deepest i l) (max (i + l.size + 1 + need x) (deepest (i + l.size + 1) r))
termination_by structural _ xs => xs

end

/-- The same for elements that are given as a list. -/
def deepestOf : Nat → List Value → Nat
  | _, [] => 0
  | i, x :: xs => max (i + 1 + need x) (deepestOf (i + 1) xs)

theorem deepestOf_append (i : Nat) (xs ys : List Value) :
    deepestOf i (xs ++ ys) = max (deepestOf i xs) (deepestOf (i + xs.length) ys) := by
  induction xs generalizing i with
  | nil => simp [deepestOf]
  | cons x xs ih =>
    have hi : i + (x :: xs).length = i + 1 + xs.length := by
      rw [List.length_cons]
      omega
    rw [List.cons_append, deepestOf, deepestOf, ih, hi, Nat.max_assoc]

theorem deepest_eq (i : Nat) (xs : Rope Value) : deepest i xs = deepestOf i xs.toList := by
  induction xs generalizing i with
  | nil => rfl
  | node l x r ihl ihr =>
    rw [Rope.toList_node, deepestOf_append, deepest, deepestOf, ihl, ihr, Rope.size_eq]

theorem need_vector (xs : Rope Value) :
    need (.seq .vector xs) = 1 + need (.seq .list xs) := by
  rw [need, need]

theorem one_le_need (t : Value) : 1 ≤ need t := by
  cases t with
  | seq shape xs =>
    cases shape with
    | list =>
      rw [need]
      omega
    | vector =>
      rw [need]
      omega
  | _ => exact Nat.le_refl _

/-- The levels of the code for elements, call by call. -/
def codeNeed : List Value → Nat
  | [] => 1
  | x :: xs => max (need x) (codeNeed xs) + 1

theorem codeNeed_eq (xs : List Value) (i : Nat) :
    codeNeed xs + i = max (xs.length + 1 + i) (deepestOf i xs) := by
  induction xs generalizing i with
  | nil => simp [codeNeed, deepestOf]
  | cons x xs ih =>
    have h := ih (i + 1)
    rw [codeNeed, deepestOf, List.length_cons]
    omega

theorem need_list_eq_codeNeed (xs : Rope Value) : need (.seq .list xs) = codeNeed xs.toList := by
  have h := codeNeed_eq xs.toList 0
  rw [Nat.add_zero, Nat.add_zero] at h
  rw [need, deepest_eq, Rope.size_eq, h]

/-! ## Evaluation -/

theorem elementHoles_eq_nil {x : Value} (h : elementHoles x = []) :
    spliced? x = none ∧ holes x = [] := by
  unfold elementHoles at h
  split at h
  · contradiction
  · next hx => exact ⟨hx, h⟩

section

variable {frame : FrameId} {w : World}

/-- The code takes `n` levels and makes the value `v`, however its elements are laid out. -/
def Remakes (frame : FrameId) (w : World) (n : Nat) (code v : Value) : Prop :=
  ∃ u, u.canon = v.canon ∧ Descends n code frame w (.ok u) w

theorem Remakes.items (hk : w.KnowsBuilders frame) {xs : List Value}
    (hx : ∀ x ∈ xs, spliced? x = none)
    (ih : ∀ x ∈ xs, Remakes frame w (need x) (expand x) x) :
    ∃ ys : Rope Value, ys.toList.map Value.canon = xs.map Value.canon ∧
      Descends (codeNeed xs) (xs.foldr expandElement (.list [])) frame w (.ok (.seq .list ys))
        w := by
  induction xs with
  | nil =>
    refine ⟨.nil, rfl, ?_⟩
    have hempty : Value.list [] = .seq .list .nil := congrArg _ Rope.ofList_nil
    rw [List.foldr_nil, hempty]
    exact .constant _ rfl
  | cons x xs ihs =>
    rw [List.forall_mem_cons] at hx ih
    obtain ⟨⟨v, hv, hx'⟩, hrest⟩ := ih
    obtain ⟨ys, hys, hs⟩ := ihs hx.2 hrest
    refine ⟨ys.cons v, by rw [Rope.toList_cons, List.map_cons, List.map_cons, hv, hys], ?_⟩
    have hcall : Descends (max 1 (max (need x) (codeNeed xs)) + 1)
        (call SequenceOp.cons.name [expand x, xs.foldr expandElement (.list [])]) frame w
        (.ok (.seq .list (ys.cons v))) w :=
      .builtin (b := .sequence .cons) hk.cons (.pair hx' hs) fun depth limit => rfl
    rw [Nat.max_eq_right (Nat.le_trans (one_le_need x) (Nat.le_max_left ..))] at hcall
    rw [List.foldr_cons, expandElement, argumentOf?_spliceUnquote, hx.1, codeNeed]
    exact hcall

theorem remakes_expand (hk : w.KnowsBuilders frame) (t : Value) (ht : holes t = []) :
    Remakes frame w (need t) (expand t) t := by
  induction t using Value.induct with
  | seq shape xs ih =>
    have hitems (hi : itemHoles xs = []) :
        ∃ ys : Rope Value, ys.toList.map Value.canon = xs.toList.map Value.canon ∧
          Descends (need (.seq .list xs)) (expandItems xs (.list [])) frame w
            (.ok (.seq .list ys)) w := by
      rw [itemHoles_eq, List.flatMap_eq_nil_iff] at hi
      rw [need_list_eq_codeNeed, expandItems_eq]
      refine Remakes.items hk (fun x hx => (elementHoles_eq_nil (hi x hx)).1) fun x hx => ?_
      exact ih x hx (elementHoles_eq_nil (hi x hx)).2
    cases shape with
    | list =>
      cases hx : unquoted? (.seq .list xs) with
      | some x =>
        rw [holes, hx] at ht
        contradiction
      | none =>
        rw [holes, hx] at ht
        obtain ⟨ys, hys, h⟩ := hitems ht
        refine ⟨.seq .list ys, Value.canon_seq_eq_iff.mpr ⟨rfl, hys⟩, ?_⟩
        rw [expand, argumentOf?_unquote, hx]
        exact h
    | vector =>
      obtain ⟨ys, hys, h⟩ := hitems ht
      refine ⟨.seq .vector ys, Value.canon_seq_eq_iff.mpr ⟨rfl, hys⟩, ?_⟩
      have hcall : Descends (max 1 (max (need (.seq .list xs)) 0) + 1)
          (call SequenceOp.vec.name [expandItems xs (.list [])]) frame w
          (.ok (.seq .vector ys)) w :=
        .builtin (b := .sequence .vec) hk.vec (.cons h .nil) fun depth limit => rfl
      rw [Nat.max_zero, Nat.max_eq_right (one_le_need _), Nat.add_comm, ← need_vector] at hcall
      exact hcall
  | symbol name => exact ⟨_, rfl, .quoted _⟩
  | map es => exact ⟨_, rfl, .quoted _⟩
  | nil | bool | int | str | keyword | native | closure | atom => exact ⟨_, rfl, .constant _ rfl⟩

end

end Template

/-- **The depth of a template without places is exact.** Where the functions that templates are
built with go by their names, the evaluation of the form from depth 0 gives the template, as it is
written, if the limit is not lower than the levels that the template needs. If it is lower the
evaluation is too deep. -/
theorem quasiquote_depth_exact {xs : Rope Value} {t : Value} {frame : FrameId} {w : World}
    (hq : xs.toList = [.symbol SpecialForm.quasiquote.name, t]) (ht : Template.holes t = [])
    (hk : w.KnowsBuilders frame) (L : Nat) :
    (Template.need t ≤ L →
      ∃ v, v.canon = t.canon ∧ Settles (.seq .list xs) frame ⟨w, 0, L⟩ (.ok v) w) ∧
    (L < Template.need t →
      ∃ w', Settles (.seq .list xs) frame ⟨w, 0, L⟩ (.error (.tooDeep L)) w') := by
  obtain ⟨v, hv, h⟩ := Template.remakes_expand hk t ht
  have hform := Descends.quasiquoted (clause?_of_toList hq) h
  exact ⟨fun hL => ⟨v, hv, hform.settles hL⟩, fun hL => hform.tooDeep hL⟩

theorem World.knowsBuilders_withRoot (w : World) : w.withRoot.KnowsBuilders w.frames.next :=
  ⟨lookup_withRoot w rfl, lookup_withRoot w rfl, lookup_withRoot w rfl⟩

/-- The template `(1 [2])` takes two levels for the calls that make the list, and three for the
vector. -/
theorem quasiquote_depth_exact_pair :
    let w := (World.empty default).withRoot
    let t := Value.seq .list
      (.node (.node .nil (.int 1) .nil) (.seq .vector (.node .nil (.int 2) .nil)) .nil)
    let xs : Rope Value := .node (.node .nil (.symbol "quasiquote") .nil) t .nil
    (∃ v, v.canon = t.canon ∧ Settles (.seq .list xs) 0 ⟨w, 0, 5⟩ (.ok v) w) ∧
    ∃ w', Settles (.seq .list xs) 0 ⟨w, 0, 4⟩ (.error (.tooDeep 4)) w' := by
  intro w t xs
  have hq : xs.toList = [.symbol SpecialForm.quasiquote.name, t] := rfl
  have ht : Template.holes t = [] := rfl
  have hneed : Template.need t = 5 := rfl
  have hk : w.KnowsBuilders 0 := World.knowsBuilders_withRoot _
  have h := quasiquote_depth_exact hq ht hk
  exact ⟨(h 5).1 (Nat.le_of_eq hneed), (h 4).2 (Nat.lt_of_lt_of_eq (by decide) hneed.symm)⟩

end Lisplet

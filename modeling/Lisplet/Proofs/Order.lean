import Lisplet.Proofs.Roots
import Lisplet.Proofs.RoundTrip.Data

/-! The order of values is a total order of classes of equal values: turning a comparison
around swaps its outcome, and comparisons in a row compose. Both are shown of one value
against all others, by induction on that value, since the parts of the others are not at
hand. So the entries that a map is made of end up in ascending order of their keys. -/

namespace Lisplet

/-- Comparisons with `x` can be turned around, and go on over a thing in the middle. -/
structure Coherent (f : α → α → Ordering) (x : α) : Prop where
  swap (y : α) : f y x = (f x y).swap
  lt (y z : α) : f x y = .lt → f y z ≠ .gt → f x z = .lt
  eq (y z : α) : f x y = .eq → f x z = f y z
  gt (y z : α) : f x y = .gt → f y z ≠ .lt → f x z = .gt

namespace Coherent

variable {f : α → α → Ordering} {g : β → β → Ordering}

theorem of_transCmp [Std.TransCmp f] (x : α) : Coherent f x where
  swap _ := Std.OrientedCmp.eq_swap
  lt _ _ h h' := Std.TransCmp.lt_of_lt_of_isLE h (Ordering.isLE_iff_ne_gt.mpr h')
  eq _ _ h := Std.TransCmp.congr_left h
  gt _ _ h h' := Std.TransCmp.gt_of_gt_of_isGE h (Ordering.isGE_iff_ne_lt.mpr h')

theorem comap (h : α → β) {x : α} (hx : Coherent g (h x)) :
    Coherent (fun y z => g (h y) (h z)) x where
  swap y := hx.swap (h y)
  lt y z := hx.lt (h y) (h z)
  eq y z := hx.eq (h y) (h z)
  gt y z := hx.gt (h y) (h z)

/-- One comparison decides, and another one where that finds no difference. -/
theorem lex {f' : α → α → Ordering} {x : α} (hx : Coherent f x) (hx' : Coherent f' x) :
    Coherent (fun y z => (f y z).then (f' y z)) x where
  swap y := by rw [hx.swap, hx'.swap, Ordering.swap_then]
  lt y z hy hz := by
    rcases Ordering.then_eq_lt.mp hy with hy | ⟨hy, hy'⟩
    · have hle : f y z ≠ .gt := fun hgt => hz (by simp [hgt])
      simp [hx.lt y z hy hle]
    · rw [hx.eq y z hy]
      cases h : f y z with
      | lt => rfl
      | gt => simp [h] at hz
      | eq => exact hx'.lt y z hy' (by simpa [h] using hz)
  eq y z hy := by
    obtain ⟨hy, hy'⟩ := Ordering.then_eq_eq.mp hy
    rw [hx.eq y z hy, hx'.eq y z hy']
  gt y z hy hz := by
    rcases Ordering.then_eq_gt.mp hy with hy | ⟨hy, hy'⟩
    · have hge : f y z ≠ .lt := fun hlt => hz (by simp [hlt])
      simp [hx.gt y z hy hge]
    · rw [hx.eq y z hy]
      cases h : f y z with
      | gt => rfl
      | lt => simp [h] at hz
      | eq => exact hx'.gt y z hy' (by simpa [h] using hz)

theorem list {xs : List α} (h : ∀ x ∈ xs, Coherent f x) : Coherent (List.compareLex f) xs := by
  induction xs with
  | nil =>
    constructor
    · intro ys
      cases ys <;> rfl
    · intro ys zs hlt hle
      cases zs with
      | cons z zs => rfl
      | nil => cases ys <;> contradiction
    · intro ys zs heq
      cases ys with
      | nil => rfl
      | cons y ys => contradiction
    · intro ys zs hgt
      cases ys <;> contradiction
  | cons x xs ih =>
    obtain ⟨hx, hxs⟩ := List.forall_mem_cons.mp h
    have hp : Coherent (fun p q : α × List α => (f p.1 q.1).then (List.compareLex f p.2 q.2))
        (x, xs) :=
      (hx.comap Prod.fst).lex ((ih hxs).comap Prod.snd)
    constructor
    · intro ys
      cases ys with
      | nil => rfl
      | cons y ys =>
        rw [List.compareLex_cons_cons, List.compareLex_cons_cons]
        exact hp.swap (y, ys)
    · intro ys zs hlt hle
      cases ys with
      | nil => contradiction
      | cons y ys =>
        cases zs with
        | nil => exact (hle rfl).elim
        | cons z zs =>
          rw [List.compareLex_cons_cons] at hlt hle ⊢
          exact hp.lt (y, ys) (z, zs) hlt hle
    · intro ys zs heq
      cases ys with
      | nil => contradiction
      | cons y ys =>
        cases zs with
        | nil => rfl
        | cons z zs =>
          rw [List.compareLex_cons_cons] at heq
          rw [List.compareLex_cons_cons, List.compareLex_cons_cons]
          exact hp.eq (y, ys) (z, zs) heq
    · intro ys zs hgt hge
      cases ys with
      | nil =>
        cases zs with
        | nil => rfl
        | cons z zs => exact (hge rfl).elim
      | cons y ys =>
        cases zs with
        | nil => rfl
        | cons z zs =>
          rw [List.compareLex_cons_cons] at hgt hge ⊢
          exact hp.gt (y, ys) (z, zs) hgt hge

end Coherent

namespace Value

/-! ## What comparing looks at -/

def flag : Value → Bool
  | bool b => b
  | _ => false

def number : Value → Int
  | int n => n.toInt
  | _ => 0

def label : Value → String
  | str s => s
  | keyword name => name
  | symbol name => name
  | native f => f.name
  | _ => ""

def identity : Value → Nat
  | closure id .. => id
  | atom id => id
  | _ => 0

def elements : Value → List Value
  | seq _ xs => xs.toList
  | _ => []

def entries : Value → List (Value × Value)
  | map es => es.toList
  | _ => []

theorem order_eq_lex (v w : Value) :
    order v w = (compare v.rank w.rank).then ((compare v.flag w.flag).then
      ((compare v.number w.number).then ((compare v.label w.label).then
        ((compare v.identity w.identity).then ((List.compareLex order v.elements w.elements).then
          (List.compareLex orderEntry v.entries w.entries)))))) := by
  cases v <;> cases w
  all_goals first
    | rfl
    | simp [order, rank, flag, number, label, identity, elements, entries, orderItems_eq,
        orderEntries_eq, List.compareLex_nil_nil]

/-- A value is compared coherently if its parts are. -/
theorem coherent_of_parts {v : Value} (hx : ∀ x ∈ v.elements, Coherent order x)
    (he : ∀ e ∈ v.entries, Coherent order e.1 ∧ Coherent order e.2) : Coherent order v := by
  have hentries : ∀ e ∈ v.entries, Coherent orderEntry e := by
    intro e hmem
    obtain ⟨hk, hv⟩ := he e hmem
    exact (hk.comap Prod.fst).lex (hv.comap Prod.snd)
  have h := ((Coherent.of_transCmp v.rank (f := compare)).comap rank).lex <|
    ((Coherent.of_transCmp v.flag (f := compare)).comap flag).lex <|
    ((Coherent.of_transCmp v.number (f := compare)).comap number).lex <|
    ((Coherent.of_transCmp v.label (f := compare)).comap label).lex <|
    ((Coherent.of_transCmp v.identity (f := compare)).comap identity).lex <|
    ((Coherent.list hx).comap elements).lex ((Coherent.list hentries).comap entries)
  have horder : order = _ := funext fun v => funext fun w => order_eq_lex v w
  rw [horder]
  exact h

theorem coherent_order (v : Value) : Coherent order v := by
  induction v using Value.induct with
  | seq shape xs ih => exact coherent_of_parts ih nofun
  | map es ih => exact coherent_of_parts nofun ih
  | _ => exact coherent_of_parts nofun nofun

instance : Std.TransCmp order where
  eq_swap {v w} := (coherent_order w).swap v
  isLE_trans {u v w} huv hvw := by
    cases h : order u v with
    | lt => rw [(coherent_order u).lt v w h (Ordering.isLE_iff_ne_gt.mp hvw)]; rfl
    | eq => rw [(coherent_order u).eq v w h]; exact hvw
    | gt => rw [h] at huv; contradiction

/-! ## The entries of maps -/

theorem ascending_cons_iff {e : Value × Value} {es : List (Value × Value)} :
    Ascending (e :: es) ↔ (∀ f ∈ es, order e.1 f.1 = .lt) ∧ Ascending es := List.pairwise_cons

theorem ascending_union {es fs : List (Value × Value)} (he : Ascending es) (hf : Ascending fs) :
    Ascending (union es fs) := by
  fun_induction union es fs with
  | case1 fs => exact hf
  | case2 e es => exact he
  | case3 k v es l w fs h ih =>
    obtain ⟨hk, he⟩ := ascending_cons_iff.mp he
    refine ascending_cons_iff.mpr ⟨fun e hm => ?_, ih he hf⟩
    rcases mem_union hm with hm | hm
    · exact hk e hm
    · rcases List.mem_cons.mp hm with rfl | hm
      · exact h
      · exact Std.TransCmp.lt_trans h ((ascending_cons_iff.mp hf).1 e hm)
  | case4 k v es l w fs h ih =>
    obtain ⟨hk, he⟩ := ascending_cons_iff.mp he
    obtain ⟨hl, hf⟩ := ascending_cons_iff.mp hf
    refine ascending_cons_iff.mpr ⟨fun e hm => ?_, ih he hf⟩
    rcases mem_union hm with hm | hm
    · rw [← Std.TransCmp.congr_left h]
      exact hk e hm
    · exact hl e hm
  | case5 k v es l w fs h ih =>
    obtain ⟨hl, hf⟩ := ascending_cons_iff.mp hf
    have h' : order l k = .lt := Std.OrientedCmp.lt_of_gt h
    refine ascending_cons_iff.mpr ⟨fun e hm => ?_, ih he hf⟩
    rcases mem_union hm with hm | hm
    · rcases List.mem_cons.mp hm with rfl | hm
      · exact h'
      · exact Std.TransCmp.lt_trans h' ((ascending_cons_iff.mp he).1 e hm)
    · exact hl e hm

/-- The entries of a map made of pairs are in ascending order, whatever the pairs are. -/
theorem ascending_entriesOf (ps : List (Value × Value)) : Ascending (entriesOf ps) := by
  fun_induction entriesOf ps with
  | case1 => exact .nil
  | case2 p => exact List.pairwise_singleton ..
  | case3 p q ps half ih₁ ih₂ => exact ascending_union ih₁ ih₂

end Value

end Lisplet

import Lisplet.Builtin.Sequence
import Lisplet.Proofs.Coherence

/-! What functions of sequences make of related arguments. The functions take values apart and
put values together in few ways. A relation that goes along with these is kept by all of them, be
it equality, which looks through the shapes of sequences, or the renaming of what a value holds. -/

namespace Lisplet

section

variable {α α' β β' : Type}

/-- Two results that come to the same: related values, or related complaints. -/
inductive Correspond (E : Error → Error → Prop) (R : α → β → Prop) :
    Except Error α → Except Error β → Prop where
  | ok {a : α} {b : β} (h : R a b) : Correspond E R (.ok a) (.ok b)
  | error {e f : Error} (h : E e f) : Correspond E R (.error e) (.error f)

namespace Correspond

variable {E : Error → Error → Prop} {R : α → α' → Prop} {S : β → β' → Prop} {x : Except Error α}
  {x' : Except Error α'}

theorem bind {f : α → Except Error β} {f' : α' → Except Error β'} (h : Correspond E R x x')
    (hf : ∀ a a', R a a' → Correspond E S (f a) (f' a')) :
    Correspond E S (x >>= f) (x' >>= f') := by
  cases h with
  | ok h => exact hf _ _ h
  | error h => exact .error h

theorem map {f : α → β} {f' : α' → β'} (h : Correspond E R x x')
    (hf : ∀ a a', R a a' → S (f a) (f' a')) : Correspond E S (f <$> x) (f' <$> x') := by
  cases h with
  | ok h => exact .ok (hf _ _ h)
  | error h => exact .error h

end Correspond

end

/-- How many elements or entries there are. -/
def Argument.extent (name : String) : Value → Except Error Nat
  | .map es => .ok es.size
  | v => (·.size) <$> items name v

/-- A relation between values that goes along with how sequences are taken apart and put
together; `E` relates the complaints. -/
structure Congruent (E : Error → Error → Prop) (V : Value → Value → Prop) : Prop where
  nil : V .nil .nil
  bool (b : Bool) : V (.bool b) (.bool b)
  int (n : Int64) : V (.int n) (.int n)
  seq (shape : Shape) {xs ys : Rope Value} (h : List.Forall₂ V xs.toList ys.toList) :
    V (.seq shape xs) (.seq shape ys)
  items (name : String) {v w : Value} (h : V v w) :
    Correspond E (fun xs ys : Rope Value => List.Forall₂ V xs.toList ys.toList)
      (Argument.items name v) (Argument.items name w)
  extent (name : String) {v w : Value} (h : V v w) :
    Correspond E (· = ·) (Argument.extent name v) (Argument.extent name w)
  integer (name : String) {v w : Value} (h : V v w) :
    Correspond E (· = ·) (Argument.int name v) (Argument.int name w)
  arity (name : String) (n m : Nat) :
    E (.arity (some name) (.exactly n) m) (.arity (some name) (.exactly n) m)
  overflow (name : String) : E (.overflow name) (.overflow name)
  outOfBounds (index : Int64) (length : Nat) :
    E (.outOfBounds index length) (.outOfBounds index length)

theorem Congruent.notExactly {E : Error → Error → Prop} {V : Value → Value → Prop}
    {args args' : List Value} (hc : Congruent E V) (name : String) (n : Nat)
    (h : List.Forall₂ V args args') :
    E (Argument.notExactly name n args) (Argument.notExactly name n args') := by
  rw [Argument.notExactly, Argument.notExactly, h.length_eq]
  exact hc.arity ..

theorem forall₂_getElem? {R : α → β → Prop} {xs : List α} {ys : List β} (h : List.Forall₂ R xs ys)
    (i : Nat) : Option.Rel R xs[i]? ys[i]? := by
  induction h generalizing i with
  | nil => exact .none
  | cons hR _ ih =>
    cases i with
    | zero => exact .some hR
    | succ i => exact ih i

namespace SequenceOp

theorem run_isEmpty (v : Value) :
    isEmpty.run [v] = (fun n => .bool (n = 0)) <$> Argument.extent isEmpty.name v := by
  cases v <;> rfl

theorem run_count (v : Value) : count.run [v] = Argument.extent count.name v >>= counted := by
  cases v <;> rfl

/-- The functions of one argument. -/
inductive IsUnary : SequenceOp → Prop where
  | isEmpty : IsUnary isEmpty
  | count : IsUnary count
  | vec : IsUnary vec
  | first : IsUnary first
  | rest : IsUnary rest

theorem IsUnary.run_eq {op : SequenceOp} {args : List Value} (hop : IsUnary op)
    (hl : args.length ≠ 1) : op.run args = .error (Argument.notExactly op.name 1 args) := by
  rcases args with _ | ⟨v, _ | ⟨w, vs⟩⟩
  · cases hop <;> rfl
  · contradiction
  · cases hop <;> cases v <;> rfl

section

variable {E : Error → Error → Prop} {V : Value → Value → Prop} {args args' : List Value}
  {v w i j : Value}

theorem congr_counted (hc : Congruent E V) (n : Nat) : Correspond E V (counted n) (counted n) := by
  unfold counted
  split
  · exact .ok (hc.int _)
  · exact .error (hc.overflow _)

theorem congr_joined (hc : Congruent E V) (h : List.Forall₂ V args args') :
    Correspond E (fun xs ys : Rope Value => List.Forall₂ V xs.toList ys.toList)
      (joined args) (joined args') := by
  induction h with
  | nil => exact .ok .nil
  | cons hv _ ih =>
    refine (hc.items concat.name hv).bind fun xs xs' hx => ih.bind fun ys ys' hy => .ok ?_
    rw [Rope.toList_append, Rope.toList_append]
    exact List.rel_append hx hy

theorem congr_first (hc : Congruent E V) (h : V v w) :
    Correspond E V (first.run [v]) (first.run [w]) := by
  refine (hc.items first.name h).map fun xs ys hxs => ?_
  have hfirst : Option.Rel V xs.first? ys.first? := by
    rw [Rope.first?, Rope.first?, Rope.get?_eq, Rope.get?_eq]
    exact forall₂_getElem? hxs 0
  generalize xs.first? = x at hfirst ⊢
  generalize ys.first? = y at hfirst ⊢
  cases hfirst with
  | none => exact hc.nil
  | some hx => exact hx

theorem congr_rest (hc : Congruent E V) (h : V v w) :
    Correspond E V (rest.run [v]) (rest.run [w]) := by
  refine (hc.items rest.name h).map fun xs ys hxs => hc.seq .list ?_
  rw [Rope.toList_tail, Rope.toList_tail, ← List.drop_one, ← List.drop_one]
  exact List.forall₂_drop 1 hxs

theorem at?_rel {xs ys : Rope Value} (h : List.Forall₂ V xs.toList ys.toList) (index : Int64) :
    Option.Rel V (at? xs index) (at? ys index) := by
  unfold at?
  split
  · exact .none
  · rw [Rope.get?_eq, Rope.get?_eq]
    exact forall₂_getElem? h _

theorem congr_nth (hc : Congruent E V) (h : V v w) (hi : V i j) :
    Correspond E V (nth.run [v, i]) (nth.run [w, j]) := by
  refine (hc.items nth.name h).bind fun xs ys hxs =>
    (hc.integer nth.name hi).bind fun index _ hindex => ?_
  cases hindex
  have hat := at?_rel hxs index
  generalize at? xs index = x at hat ⊢
  generalize at? ys index = y at hat ⊢
  cases hat with
  | some h => exact .ok h
  | none =>
    simp only [Rope.size_eq, hxs.length_eq]
    exact .error (hc.outOfBounds _ _)

theorem congr_run_of_one {op : SequenceOp} (hop : IsUnary op) (hc : Congruent E V)
    (hone : ∀ v w, V v w → Correspond E V (op.run [v]) (op.run [w]))
    (h : List.Forall₂ V args args') : Correspond E V (op.run args) (op.run args') := by
  by_cases hl : args.length = 1
  · obtain ⟨v, rfl⟩ := List.length_eq_one_iff.mp hl
    obtain ⟨w, _, hv, hnil, rfl⟩ := List.forall₂_cons_left_iff.mp h
    cases hnil
    exact hone v w hv
  · rw [hop.run_eq hl, hop.run_eq (h.length_eq ▸ hl)]
    exact .error (hc.notExactly _ _ h)

/-- Related arguments give related results, or related complaints. -/
theorem congr_run (hc : Congruent E V) (op : SequenceOp) (h : List.Forall₂ V args args') :
    Correspond E V (op.run args) (op.run args') := by
  cases op with
  | list => exact .ok (hc.seq .list (by rwa [Rope.toList_ofList, Rope.toList_ofList]))
  | vector => exact .ok (hc.seq .vector (by rwa [Rope.toList_ofList, Rope.toList_ofList]))
  | concat => exact (congr_joined hc h).map fun _ _ => hc.seq .list
  | isEmpty =>
    refine congr_run_of_one .isEmpty hc (fun v w hv => ?_) h
    rw [run_isEmpty, run_isEmpty]
    exact (hc.extent isEmpty.name hv).map fun n m hn => hn ▸ hc.bool _
  | count =>
    refine congr_run_of_one .count hc (fun v w hv => ?_) h
    rw [run_count, run_count]
    exact (hc.extent count.name hv).bind fun n m hn => hn ▸ congr_counted hc n
  | vec =>
    exact congr_run_of_one .vec hc
      (fun v w hv => (hc.items vec.name hv).map fun _ _ => hc.seq .vector) h
  | first => exact congr_run_of_one .first hc (fun v w => congr_first hc) h
  | rest => exact congr_run_of_one .rest hc (fun v w => congr_rest hc) h
  | cons =>
    rcases h with _ | ⟨hv, _ | ⟨hw, _ | ⟨hu, h⟩⟩⟩
    · exact .error (hc.arity ..)
    · exact .error (hc.arity ..)
    · refine (hc.items cons.name hw).map fun xs ys hxs => hc.seq .list ?_
      rw [Rope.toList_cons, Rope.toList_cons]
      exact .cons hv hxs
    · exact .error (hc.notExactly _ _ (.cons hv (.cons hw (.cons hu h))))
  | nth =>
    rcases h with _ | ⟨hv, _ | ⟨hw, _ | ⟨hu, h⟩⟩⟩
    · exact .error (hc.arity ..)
    · exact .error (hc.arity ..)
    · exact congr_nth hc hv hw
    · exact .error (hc.notExactly _ _ (.cons hv (.cons hw (.cons hu h))))

end

end SequenceOp

end Lisplet

import Lisplet.Builtin.Comparison
import Lisplet.Proofs.Coherence
import Mathlib.Data.List.Pairwise

/-! Comparisons of several arguments. Only neighbours are compared. That this says something of any
two arguments is because equality, at whatever depth, and the four orders go on over what is in
the middle. The types of all arguments are looked at before any two of them are compared. -/

namespace Lisplet

/-- What an order relation says of two exact integers. -/
def Relation.Holds : Relation → Int → Int → Prop
  | lt, i, j => i < j
  | gt, i, j => i > j
  | le, i, j => i ≤ j
  | ge, i, j => i ≥ j

/-- The relation that holds of two integers if the given one holds of them the other way round. -/
def Relation.converse : Relation → Relation
  | lt => gt
  | gt => lt
  | le => ge
  | ge => le

section

variable {α : Type} {related : α → α → Bool} {xs : List α}

theorem chain_eq_true_iff :
    chain related xs = true ↔ xs.IsChain fun x y => related x y = true := by
  fun_induction chain related xs with
  | case1 => simp
  | case2 x => simp
  | case3 x y rest ih => rw [Bool.and_eq_true, ih, List.isChain_cons_cons]

/-- Neighbours stand for all where a relation goes on over what is in the middle. -/
theorem chain_eq_true_iff_pairwise
    (h : ∀ x y z, related x y = true → related y z = true → related x z = true) :
    chain related xs = true ↔ xs.Pairwise fun x y => related x y = true := by
  have htrans : Trans (fun x y => related x y = true) (fun x y => related x y = true)
      (fun x y => related x y = true) := ⟨h _ _ _⟩
  rw [chain_eq_true_iff, List.isChain_iff_pairwise]

end

/-! ## Equality -/

section

variable {v : Value} {vs args args' : List Value}

theorem chain_beq_iff : chain Value.beq vs = true ↔ ∀ x ∈ vs, ∀ y ∈ vs, (x == y) = true := by
  have hsymm : Std.Symm fun x y : Value => (x == y) = true := ⟨fun _ _ => BEq.symm⟩
  have hpairs : vs.Pairwise (fun x y => (x == y) = true) ↔ ∀ x ∈ vs, ∀ y ∈ vs, (x == y) = true :=
    ⟨fun h x hx y hy => h.forall_of_forall (fun _ _ => BEq.rfl) hx hy,
      fun h => List.pairwise_of_forall_mem_list h⟩
  have htrans (x y z : Value) : (x == y) = true → (y == z) = true → (x == z) = true := BEq.trans
  rw [← hpairs]
  exact chain_eq_true_iff_pairwise htrans

theorem allEqual_cons : allEqual (v :: vs) = .ok (.bool (chain Value.beq (v :: vs))) := rfl

/-- The order of the arguments makes no difference to whether all are equal. -/
theorem allEqual_of_perm (h : args.Perm args') : allEqual args = allEqual args' := by
  have hchain : chain Value.beq args = chain Value.beq args' := by
    rw [Bool.eq_iff_iff, chain_beq_iff, chain_beq_iff]
    simp only [h.mem_iff]
  cases args with
  | nil => rw [h.nil_eq]
  | cons v vs =>
    cases args' with
    | nil => exact absurd h.eq_nil nofun
    | cons w ws => rw [allEqual_cons, allEqual_cons, hchain]

end

/-! ## Order -/

namespace Relation

variable {r : Relation} {m n : Int64} {ns : List Int64} {v : Value}

theorem holds_eq_true_iff : r.holds m n = true ↔ r.Holds m.toInt n.toInt := by
  cases r <;> exact decide_eq_true_iff

theorem Holds.trans {i j k : Int} (h : r.Holds i j) (h' : r.Holds j k) : r.Holds i k := by
  cases r <;> simp only [Holds] at h h' ⊢ <;> omega

theorem holds_converse (m n : Int64) : r.converse.holds m n = r.holds n m := by
  cases r <;> rfl

theorem chain_holds_iff :
    chain r.holds ns = true ↔ ns.Pairwise fun m n => r.Holds m.toInt n.toInt := by
  simp only [← holds_eq_true_iff]
  refine chain_eq_true_iff_pairwise fun l m n h h' => ?_
  rw [holds_eq_true_iff] at h h' ⊢
  exact h.trans h'

theorem chain_converse (ns : List Int64) :
    chain r.converse.holds ns.reverse = chain r.holds ns := by
  rw [Bool.eq_iff_iff, chain_holds_iff, chain_holds_iff, List.pairwise_reverse]
  simp only [← holds_eq_true_iff, holds_converse]

end Relation

/-! ## What is answered -/

section

variable {r : Relation} {ns : List Int64} {v : Value}

theorem Argument.ints_map_int (name : String) (ns : List Int64) :
    ints name (ns.map .int) = .ok ns := by
  induction ns with
  | nil => rfl
  | cons n ns ih =>
    change ints name (ns.map .int) >>= (fun ms => Except.ok (n :: ms)) = _
    rw [ih]
    rfl

/-- The first argument that is no integer is complained of, whatever stands behind it. -/
theorem Argument.ints_eq_error {name : String} {e : Error} (h : int name v = .error e)
    (ns : List Int64) (behind : List Value) :
    ints name (ns.map .int ++ v :: behind) = .error e := by
  induction ns with
  | nil =>
    change int name v >>= _ = _
    rw [h]
    rfl
  | cons n ns ih =>
    change ints name (ns.map .int ++ v :: behind) >>= (fun ms => Except.ok (n :: ms)) = _
    rw [ih]
    rfl

theorem Relation.run_eq (hne : ns ≠ []) :
    r.run (ns.map .int) = .ok (.bool (chain r.holds ns)) := by
  obtain ⟨n, ms, rfl⟩ := List.exists_cons_of_ne_nil hne
  change Argument.ints r.name ((n :: ms).map .int) >>= _ = _
  rw [Argument.ints_map_int]
  rfl

theorem Relation.run_eq_error (hv : ∀ n, v ≠ .int n) (ns : List Int64) (behind : List Value) :
    r.run (ns.map .int ++ v :: behind) = .error (.type (some r.name) "int" v.typeName) := by
  have hint : Argument.int r.name v = .error (.type (some r.name) "int" v.typeName) :=
    Argument.int_eq_error_iff.mpr ⟨hv, rfl⟩
  have hints := Argument.ints_eq_error hint ns behind
  cases ns <;> exact congrArg (· >>= _) hints

/-- The integers do not stand in the relation, but that is not what is wrong. -/
example : Relation.lt.run [.int 2, .int 1, .nil] = .error (.type (some "<") "int" "nil") := rfl

/-- **Comparisons are of all pairs.** One or more arguments are equal, by the answer, if and only if
any two of them are, and the answer is the same in whatever order they stand. Integers stand in an
order relation, by the answer, if and only if each does to each behind it; the converse relation
holds of them in reverse. The first argument that is no integer is complained of, even behind
integers that do not stand in the relation. -/
theorem comparisons_of_all_pairs :
    (∀ args, args ≠ [] → ∃ b, allEqual args = .ok (.bool b) ∧
      (b = true ↔ ∀ v ∈ args, ∀ w ∈ args, (v == w) = true)) ∧
    (∀ args args', args.Perm args' → allEqual args = allEqual args') ∧
    (∀ (r : Relation) (ns : List Int64), ns ≠ [] → ∃ b, r.run (ns.map .int) = .ok (.bool b) ∧
      (b = true ↔ ns.Pairwise fun m n => r.Holds m.toInt n.toInt)) ∧
    (∀ (r : Relation) (ns : List Int64), ns ≠ [] →
      r.run (ns.map .int) = r.converse.run (ns.reverse.map .int)) ∧
    (∀ (r : Relation) (ns : List Int64) v behind, (∀ n, v ≠ .int n) →
      r.run (ns.map .int ++ v :: behind) = .error (.type (some r.name) "int" v.typeName)) := by
  refine ⟨fun args hne => ?_, fun _ _ => allEqual_of_perm,
    fun r ns hne => ⟨_, Relation.run_eq hne, Relation.chain_holds_iff⟩, fun r ns hne => ?_,
    fun r ns v behind hv => Relation.run_eq_error hv ns behind⟩
  · obtain ⟨v, vs, rfl⟩ := List.exists_cons_of_ne_nil hne
    exact ⟨_, allEqual_cons, chain_beq_iff⟩
  · rw [Relation.run_eq hne, Relation.run_eq (List.reverse_ne_nil_iff.mpr hne),
      Relation.chain_converse]

end

end Lisplet

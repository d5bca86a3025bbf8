import Lisplet.Proofs.Congruence
import Mathlib.Algebra.Ring.Int.Defs
import Mathlib.Algebra.Ring.Nat

/-! The algebra of sequences. Lists, vectors and nil are what they have as elements, and each
function of sequences is known by what it does to these. The laws that relate the functions to
one another follow from that. Counting is the one function that a sequence can be too long for. -/

namespace Lisplet

namespace Value

/-- What serves as a sequence. Nil has no elements. -/
inductive IsSequence : Value → Prop where
  | nil : IsSequence nil
  | seq (shape : Shape) (xs : Rope Value) : IsSequence (seq shape xs)

/-- Every function is given the same elements, whatever they are in. -/
theorem IsSequence.exists_items {s : Value} (h : s.IsSequence) :
    ∃ xs : Rope Value, xs.toList = s.elements ∧ ∀ name, Argument.items name s = .ok xs := by
  cases h with
  | nil => exact ⟨.nil, rfl, fun _ => rfl⟩
  | seq shape xs => exact ⟨xs, rfl, fun _ => rfl⟩

theorem IsSequence.extent_eq {s : Value} (h : s.IsSequence) (name : String) :
    Argument.extent name s = .ok s.elements.length := by
  cases h with
  | nil => rfl
  | seq shape xs => exact congrArg Except.ok (Rope.size_eq xs)

/-- A sequence is equal to another that has its elements, but nil to no other. -/
theorem seq_beq_of_elements_eq {shape : Shape} {xs : Rope Value} {s : Value} (h : s.IsSequence)
    (hne : s ≠ nil) (hxs : xs.toList = s.elements) : (seq shape xs == s) = true := by
  cases h with
  | nil => contradiction
  | seq q ys => exact (beq_iff _ _).mpr (.seq shape q (hxs ▸ List.forall₂_same.mpr fun x _ =>
      (beq_iff x x).mp (beq_self x)))

end Value

/-- The result is a new sequence of this shape with these elements. -/
def Makes (shape : Shape) (elements : List Value) (result : Except Error Value) : Prop :=
  ∃ xs : Rope Value, result = .ok (.seq shape xs) ∧ xs.toList = elements

theorem Makes.exists_isSequence {shape : Shape} {xs : List Value} {r : Except Error Value}
    (h : Makes shape xs r) : ∃ c, r = .ok c ∧ c.IsSequence ∧ c.elements = xs := by
  obtain ⟨ys, rfl, hys⟩ := h
  exact ⟨_, rfl, .seq shape ys, hys⟩

namespace SequenceOp

section

variable {s c x : Value} {ss : List Value} {i j : Int64}

/-! ## What each function does to the elements -/

theorem makes_cons (x : Value) (hs : s.IsSequence) :
    Makes .list (x :: s.elements) (cons.run [x, s]) := by
  obtain ⟨xs, hxs, hitems⟩ := hs.exists_items
  refine ⟨xs.cons x, ?_, by rw [Rope.toList_cons, hxs]⟩
  rw [run, hitems]
  rfl

theorem makes_rest (hs : s.IsSequence) : Makes .list s.elements.tail (rest.run [s]) := by
  obtain ⟨xs, hxs, hitems⟩ := hs.exists_items
  refine ⟨xs.tail, ?_, by rw [Rope.toList_tail, hxs]⟩
  rw [run, hitems]
  rfl

theorem makes_vec (hs : s.IsSequence) : Makes .vector s.elements (vec.run [s]) := by
  obtain ⟨xs, hxs, hitems⟩ := hs.exists_items
  refine ⟨xs, ?_, hxs⟩
  rw [run, hitems]
  rfl

theorem exists_joined (hss : ∀ s ∈ ss, s.IsSequence) :
    ∃ xs, joined ss = .ok xs ∧ xs.toList = ss.flatMap Value.elements := by
  induction ss with
  | nil => exact ⟨.nil, rfl, rfl⟩
  | cons s ss ih =>
    obtain ⟨hs, hss⟩ := List.forall_mem_cons.mp hss
    obtain ⟨xs, hxs, hitems⟩ := hs.exists_items
    obtain ⟨ys, hys, htoList⟩ := ih hss
    refine ⟨xs ++ ys, ?_, by rw [Rope.toList_append, hxs, htoList, List.flatMap_cons]⟩
    rw [joined, hitems, hys]
    rfl

theorem makes_concat (hss : ∀ s ∈ ss, s.IsSequence) :
    Makes .list (ss.flatMap Value.elements) (concat.run ss) := by
  obtain ⟨xs, hjoined, hxs⟩ := exists_joined hss
  refine ⟨xs, ?_, hxs⟩
  rw [run, hjoined]
  rfl

theorem run_first (hs : s.IsSequence) : first.run [s] = .ok (s.elements.head?.getD .nil) := by
  obtain ⟨xs, hxs, hitems⟩ := hs.exists_items
  rw [run, hitems, ← hxs, ← Rope.first?_eq]
  rfl

theorem counted_eq_ok_iff {n : Nat} {k : Int64} : counted n = .ok (.int k) ↔ k.toInt = n := by
  rw [counted, ← Word.ofInt?_eq_some_iff]
  cases Word.ofInt? n <;> simp

theorem counted_eq_error_iff {n : Nat} {e : Error} :
    counted n = .error e ↔ ¬ Word.Fits n ∧ e = .overflow count.name := by
  rw [counted, ← Word.ofInt?_eq_none_iff]
  cases Word.ofInt? n <;> simp [eq_comm]

theorem run_count_eq (hs : s.IsSequence) : count.run [s] = counted s.elements.length := by
  rw [run_count, hs.extent_eq]
  rfl

theorem run_count_eq_ok_iff (hs : s.IsSequence) {k : Int64} :
    count.run [s] = .ok (.int k) ↔ k.toInt = s.elements.length := by
  rw [run_count_eq hs, counted_eq_ok_iff]

theorem run_count_eq_error_iff (hs : s.IsSequence) {e : Error} :
    count.run [s] = .error e ↔ ¬ Word.Fits s.elements.length ∧ e = .overflow count.name := by
  rw [run_count_eq hs, counted_eq_error_iff]

theorem run_isEmpty_eq (hs : s.IsSequence) :
    isEmpty.run [s] = .ok (.bool (s.elements.length = 0)) := by
  rw [run_isEmpty, hs.extent_eq]
  rfl

/-- A sequence is empty if there is nothing to count. -/
theorem exists_run_isEmpty (hs : s.IsSequence) :
    ∃ b, isEmpty.run [s] = .ok (.bool b) ∧ (b = true ↔ count.run [s] = .ok (.int 0)) := by
  refine ⟨_, run_isEmpty_eq hs, ?_⟩
  rw [run_count_eq_ok_iff hs, Int64.toInt_zero, decide_eq_true_iff]
  omega

theorem run_nth_of_getElem? (hs : s.IsSequence) (hi : 0 ≤ i.toInt)
    (hx : s.elements[i.toInt.toNat]? = some x) : nth.run [s, .int i] = .ok x := by
  obtain ⟨xs, hxs, hitems⟩ := hs.exists_items
  have hat : at? xs i = some x := by
    rw [at?, if_neg (by omega), Rope.get?_eq, hxs, hx]
  rw [run, hitems]
  simp only [bind, Except.bind, Argument.int, hat]

theorem run_nth_of_out (hs : s.IsSequence) (hi : i.toInt < 0 ∨ s.elements.length ≤ i.toInt) :
    nth.run [s, .int i] = .error (.outOfBounds i s.elements.length) := by
  obtain ⟨xs, hxs, hitems⟩ := hs.exists_items
  have hat : at? xs i = none := by
    unfold at?
    split
    · rfl
    · rw [Rope.get?_eq, hxs, List.getElem?_eq_none (by omega)]
  rw [run, hitems, ← hxs, ← Rope.size_eq]
  simp only [bind, Except.bind, Argument.int, hat]

theorem run_nth_eq_ok_iff (hs : s.IsSequence) : nth.run [s, .int i] = .ok x ↔
    0 ≤ i.toInt ∧ s.elements[i.toInt.toNat]? = some x := by
  constructor
  · intro h
    by_cases hout : i.toInt < 0 ∨ s.elements.length ≤ i.toInt
    · rw [run_nth_of_out hs hout] at h
      contradiction
    · have hlt : i.toInt.toNat < s.elements.length := by omega
      have hget := List.getElem?_eq_getElem hlt
      rw [run_nth_of_getElem? hs (by omega) hget] at h
      exact ⟨by omega, Except.ok.inj h ▸ hget⟩
  · rintro ⟨hi, hx⟩
    exact run_nth_of_getElem? hs hi hx

theorem run_nth_eq_error_iff (hs : s.IsSequence) {e : Error} : nth.run [s, .int i] = .error e ↔
    (i.toInt < 0 ∨ s.elements.length ≤ i.toInt) ∧ e = .outOfBounds i s.elements.length := by
  by_cases hout : i.toInt < 0 ∨ s.elements.length ≤ i.toInt
  · rw [run_nth_of_out hs hout]
    simp [hout, eq_comm]
  · have hlt : i.toInt.toNat < s.elements.length := by omega
    rw [run_nth_of_getElem? hs (by omega) (List.getElem?_eq_getElem hlt)]
    simp [hout]

/-! ## The first element and the others -/

theorem cons_first_rest (hs : s.IsSequence) (hne : s.elements ≠ []) :
    ∃ x r c, first.run [s] = .ok x ∧ rest.run [s] = .ok r ∧ cons.run [x, r] = .ok c ∧
      (c == s) = true := by
  obtain ⟨x, xs, hxs⟩ := List.exists_cons_of_ne_nil hne
  obtain ⟨r, hr, hseq, hrest⟩ := (makes_rest hs).exists_isSequence
  obtain ⟨ys, hc, hys⟩ := makes_cons x hseq
  have hfirst : first.run [s] = .ok x := by
    rw [run_first hs, hxs]
    rfl
  have hnil : s ≠ .nil := by
    rintro rfl
    exact hne rfl
  refine ⟨x, r, _, hfirst, hr, hc, Value.seq_beq_of_elements_eq hs hnil ?_⟩
  rw [hys, hrest, hxs, List.tail_cons]

theorem first_rest_cons (x : Value) (hs : s.IsSequence) :
    ∃ c r, cons.run [x, s] = .ok c ∧ first.run [c] = .ok x ∧ rest.run [c] = .ok r ∧
      r.elements = s.elements ∧ (s ≠ .nil → (r == s) = true) := by
  obtain ⟨c, hc, hseq, hxs⟩ := (makes_cons x hs).exists_isSequence
  obtain ⟨ys, hr, hys⟩ := makes_rest hseq
  rw [hxs, List.tail_cons] at hys
  have hfirst : first.run [c] = .ok x := by
    rw [run_first hseq, hxs]
    rfl
  exact ⟨c, _, hc, hfirst, hr, hys, fun hnil => Value.seq_beq_of_elements_eq hs hnil hys⟩

/-! ## Sequences one behind another -/

/-- In what the sequences `ss` make one behind another, the index `i` falls into `s`, and is the
index `j` there. -/
def FallsInto (ss : List Value) (i : Int64) (s : Value) (j : Int64) : Prop :=
  ∃ before behind, ss = before ++ s :: behind ∧ 0 ≤ j.toInt ∧ j.toInt < s.elements.length ∧
    i.toInt = (before.flatMap Value.elements).length + j.toInt

theorem FallsInto.mem (h : FallsInto ss i s j) : s ∈ ss := by
  obtain ⟨before, behind, rfl, -⟩ := h
  exact List.mem_append_right before List.mem_cons_self

theorem exists_part {f : α → List β} {xs : List α} {n : Nat} (h : n < (xs.flatMap f).length) :
    ∃ before x behind m, xs = before ++ x :: behind ∧ m < (f x).length ∧
      n = (before.flatMap f).length + m := by
  induction xs generalizing n with
  | nil => contradiction
  | cons x xs ih =>
    rw [List.flatMap_cons, List.length_append] at h
    by_cases hn : n < (f x).length
    · exact ⟨[], x, xs, n, rfl, hn, (Nat.zero_add n).symm⟩
    · obtain ⟨before, y, behind, m, rfl, hm, hsum⟩ := ih (n := n - (f x).length) (by omega)
      refine ⟨x :: before, y, behind, m, rfl, hm, ?_⟩
      rw [List.flatMap_cons, List.length_append]
      omega

/-- Every index that is not out of bounds falls into one of the sequences. -/
theorem exists_fallsInto (hi : 0 ≤ i.toInt)
    (hlt : i.toInt < (ss.flatMap Value.elements).length) : ∃ s j, FallsInto ss i s j := by
  have hn : i.toInt.toNat < (ss.flatMap Value.elements).length := by omega
  obtain ⟨before, s, behind, m, hss, hm, hsum⟩ := exists_part hn
  have hfits : Word.Fits m := Word.fits_natCast (k := i) (by omega)
  refine ⟨s, Int64.ofInt m, before, behind, hss, ?_⟩
  rw [Word.toInt_ofInt hfits]
  omega

theorem run_nth_of_fallsInto (hc : c.IsSequence) (hs : s.IsSequence)
    (helements : c.elements = ss.flatMap Value.elements) (h : FallsInto ss i s j) :
    nth.run [c, .int i] = nth.run [s, .int j] := by
  obtain ⟨before, behind, rfl, hj, hlt, hi⟩ := h
  have hget : s.elements[j.toInt.toNat]? = some s.elements[j.toInt.toNat] :=
    List.getElem?_eq_getElem (by omega)
  have hindex : i.toInt.toNat = (before.flatMap Value.elements).length + j.toInt.toNat := by omega
  rw [run_nth_of_getElem? hs hj hget]
  refine run_nth_of_getElem? hc (by omega) ?_
  rw [helements, List.flatMap_append, List.flatMap_cons, hindex,
    List.getElem?_append_right (Nat.le_add_right ..), Nat.add_sub_cancel_left,
    List.getElem?_append_left (by omega), hget]

theorem sum_counts {ks : List Int64} (hss : ∀ s ∈ ss, s.IsSequence)
    (h : List.Forall₂ (fun s k => count.run [s] = .ok (.int k)) ss ks) :
    (ks.map Int64.toInt).sum = (ss.flatMap Value.elements).length := by
  induction h with
  | nil => rfl
  | cons hk _ ih =>
    obtain ⟨hs, hss⟩ := List.forall_mem_cons.mp hss
    rw [List.map_cons, List.sum_cons, ih hss, (run_count_eq_ok_iff hs).mp hk, List.flatMap_cons,
      List.length_append, Int.natCast_add]

theorem length_le_flatMap (hs : s ∈ ss) :
    s.elements.length ≤ (ss.flatMap Value.elements).length := by
  obtain ⟨before, behind, rfl⟩ := List.append_of_mem hs
  rw [List.flatMap_append, List.flatMap_cons, List.length_append, List.length_append]
  omega

/-- What the whole counts is the sum of what its parts count. No part is too long to be counted if
the whole is not. -/
theorem run_count_of_parts (hss : ∀ s ∈ ss, s.IsSequence) (hc : c.IsSequence)
    (helements : c.elements = ss.flatMap Value.elements) (k : Int64) :
    count.run [c] = .ok (.int k) ↔
      ∃ ks : List Int64, List.Forall₂ (fun s k => count.run [s] = .ok (.int k)) ss ks ∧
        k.toInt = (ks.map Int64.toInt).sum := by
  rw [run_count_eq_ok_iff hc, helements]
  constructor
  · intro hk
    have hcounts : ∀ s ∈ ss, ∃ l, count.run [s] = .ok (.int l) := by
      intro s hs
      have hle := length_le_flatMap hs
      have hfits : Word.Fits s.elements.length := Word.fits_natCast (k := k) (by omega)
      exact ⟨Int64.ofInt s.elements.length,
        (run_count_eq_ok_iff (hss s hs)).mpr (Word.toInt_ofInt hfits)⟩
    obtain ⟨ks, hks⟩ := exists_forall₂_iff.mpr hcounts
    exact ⟨ks, hks, hk.trans (sum_counts hss hks).symm⟩
  · rintro ⟨ks, hks, hk⟩
    exact hk.trans (sum_counts hss hks)

end

end SequenceOp

/-! ## Equal arguments -/

/-- Complaints of one kind about the same, which differ at most in the type that was met. -/
inductive Error.SameKind : Error → Error → Prop where
  | same (e : Error) : SameKind e e
  | type (context : Option String) (expected got got' : String) :
    SameKind (.type context expected got) (.type context expected got')

/-- Taking sequences apart and putting them together goes along with equality. -/
theorem congruent_equal : Congruent Error.SameKind Value.Equal where
  nil := .nil
  bool := .bool
  int := .int
  seq shape _ _ := .seq shape shape
  items name v w h := by
    cases h with
    | seq p q h => exact .ok h
    | nil => exact .ok .nil
    | _ => exact .error (.type ..)
  extent name v w h := by
    cases h with
    | @seq p q xs ys h =>
      refine .ok ?_
      simp only [Rope.size_eq, h.length_eq]
    | @map es fs hk hv =>
      refine .ok ?_
      rw [Rope.size_eq, Rope.size_eq, (Value.forall₂_entries.mpr ⟨hk, hv⟩).length_eq]
    | nil => exact .ok rfl
    | _ => exact .error (.type ..)
  integer name v w h := by
    cases h with
    | int n => exact .ok rfl
    | _ => exact .error (.type ..)
  arity _ _ _ := .same _
  overflow _ := .same _
  outOfBounds _ _ := .same _

namespace SequenceOp

/-- **The functions of sequences form one algebra**, which only looks at elements. What each of
them makes has the elements that are to be expected, in their order. A concatenation counts as much
as its parts do together, unless that is no integer of the language any more, and each index in it
falls into one of them. There is an element at an index if and only if it is not out of bounds.
Taking the first element off and putting one in front undo each other. Equal arguments are as good
as one another. Lengths are natural numbers here: sequences with more elements than a machine's own
word can count are outside the model. -/
theorem sequence_laws :
    (∀ x s, s.IsSequence → Makes .list (x :: s.elements) (cons.run [x, s])) ∧
    (∀ s, s.IsSequence → Makes .list s.elements.tail (rest.run [s])) ∧
    (∀ s, s.IsSequence → Makes .vector s.elements (vec.run [s])) ∧
    (∀ s, s.IsSequence → first.run [s] = .ok (s.elements.head?.getD .nil)) ∧
    (∀ ss, (∀ s ∈ ss, s.IsSequence) →
      Makes .list (ss.flatMap Value.elements) (concat.run ss) ∧
        ∀ c, concat.run ss = .ok c →
          (∀ k, count.run [c] = .ok (.int k) ↔
            ∃ ks : List Int64, List.Forall₂ (fun s l => count.run [s] = .ok (.int l)) ss ks ∧
              k.toInt = (ks.map Int64.toInt).sum) ∧
          (∀ e, count.run [c] = .error e ↔
            ¬ Word.Fits (ss.flatMap Value.elements).length ∧ e = .overflow count.name) ∧
          (∀ i : Int64, 0 ≤ i.toInt → i.toInt < (ss.flatMap Value.elements).length →
            ∃ s j, FallsInto ss i s j) ∧
          (∀ i s j, FallsInto ss i s j → nth.run [c, .int i] = nth.run [s, .int j])) ∧
    (∀ s, s.IsSequence →
      (∀ k, count.run [s] = .ok (.int k) ↔ k.toInt = s.elements.length) ∧
      (∀ e, count.run [s] = .error e ↔
        ¬ Word.Fits s.elements.length ∧ e = .overflow count.name) ∧
      (∃ b, isEmpty.run [s] = .ok (.bool b) ∧ (b = true ↔ count.run [s] = .ok (.int 0)))) ∧
    (∀ s i, s.IsSequence →
      (∀ x, nth.run [s, .int i] = .ok x ↔
        0 ≤ i.toInt ∧ s.elements[i.toInt.toNat]? = some x) ∧
      (∀ e, nth.run [s, .int i] = .error e ↔
        (i.toInt < 0 ∨ s.elements.length ≤ i.toInt) ∧
          e = .outOfBounds i s.elements.length)) ∧
    (∀ s, s.IsSequence → s.elements ≠ [] → ∃ x r c, first.run [s] = .ok x ∧
      rest.run [s] = .ok r ∧ cons.run [x, r] = .ok c ∧ (c == s) = true) ∧
    (∀ x s, s.IsSequence → ∃ c r, cons.run [x, s] = .ok c ∧ first.run [c] = .ok x ∧
      rest.run [c] = .ok r ∧ r.elements = s.elements ∧ (s ≠ .nil → (r == s) = true)) ∧
    (∀ (op : SequenceOp) args args', List.Forall₂ (fun v w : Value => (v == w) = true) args args' →
      Correspond Error.SameKind (fun v w : Value => (v == w) = true)
        (op.run args) (op.run args')) := by
  refine ⟨fun x s => makes_cons x, fun s => makes_rest, fun s => makes_vec, fun s => run_first,
    fun ss hss => ⟨makes_concat hss, fun c hrun => ?_⟩,
    fun s hs => ⟨fun k => run_count_eq_ok_iff hs, fun e => run_count_eq_error_iff hs,
      exists_run_isEmpty hs⟩,
    fun s i hs => ⟨fun x => run_nth_eq_ok_iff hs, fun e => run_nth_eq_error_iff hs⟩,
    fun s => cons_first_rest, fun x s => first_rest_cons x, fun op args args' h => ?_⟩
  · obtain ⟨c', hc', hseq, helements⟩ := (makes_concat hss).exists_isSequence
    cases Except.ok.inj (hc'.symm.trans hrun)
    refine ⟨run_count_of_parts hss hseq helements, fun e => ?_, fun i => exists_fallsInto,
      fun i s j h => run_nth_of_fallsInto hseq (hss s h.mem) helements h⟩
    rw [run_count_eq_error_iff hseq, helements]
  · simp only [Value.beq_iff] at h ⊢
    exact congr_run congruent_equal op h

/-- A sequence of `2 ^ n` elements that takes no more room than `n` of them. -/
def doubled : Nat → Rope Value
  | 0 => .ofList [.nil]
  | n + 1 => doubled n ++ doubled n

theorem length_doubled (n : Nat) : (doubled n).toList.length = 2 ^ n := by
  induction n with
  | zero =>
    rw [doubled, Rope.toList_ofList]
    rfl
  | succ n ih =>
    rw [doubled, Rope.toList_append, List.length_append, ih]
    omega

/-- Two lists that can be counted make one that is too long to be. -/
theorem count_concat_overflows :
    count.run [.seq .list (doubled 62)] = .ok (.int 4611686018427387904) ∧
      ∃ c, concat.run [.seq .list (doubled 62), .seq .list (doubled 62)] = .ok c ∧
        count.run [c] = .error (.overflow count.name) := by
  have hs : (Value.seq .list (doubled 62)).IsSequence := .seq ..
  have hlength : (Value.seq .list (doubled 62)).elements.length = 2 ^ 62 := length_doubled 62
  have hss : ∀ s ∈ [Value.seq .list (doubled 62), .seq .list (doubled 62)], s.IsSequence := by
    simp [hs]
  obtain ⟨c, hc, hseq, helements⟩ := (makes_concat hss).exists_isSequence
  refine ⟨(run_count_eq_ok_iff hs).mpr ?_, c, hc, (run_count_eq_error_iff hseq).mpr ⟨?_, rfl⟩⟩
  · rw [hlength]
    decide
  · rw [helements, List.flatMap_cons, List.flatMap_cons, List.flatMap_nil, List.append_nil,
      List.length_append, hlength]
    decide

end SequenceOp

end Lisplet

import Lisplet.Value

/-! Equality of values and their total order, which sorts the keys of maps. A list
and a vector with equal elements are equal. Natives are told apart by name, closures
and atoms by identity. Values of different kinds are ordered by kind alone. -/

namespace Lisplet.Value

/-- The place of a value's kind in the order of kinds. -/
def rank : Value → Nat
  | nil => 0
  | bool _ => 1
  | int _ => 2
  | str _ => 3
  | keyword _ => 4
  | symbol _ => 5
  | seq .. => 6
  | map _ => 7
  | native _ => 8
  | closure .. => 9
  | atom _ => 10

/-- An answer to the question whether two things are equal that is yes if they are the same. -/
abbrev Answer (x y : α) : Type := { b : Bool // x = y → b = true }

/-- An answer that is known at once where both things are one and the same object. -/
@[inline] def Answer.shared (x y : α) (answer : Unit → Answer x y) : Answer x y :=
  ⟨withPtrEq x y (fun _ => (answer ()).1) (answer ()).2, (answer ()).2⟩

mutual
/-- Whether two values are equal. -/
def decideEqual : (v w : Value) → Answer v w
  | nil, nil => ⟨true, fun _ => rfl⟩
  | bool a, bool b => ⟨a == b, by rintro ⟨⟩; simp⟩
  | int m, int n => ⟨m == n, by rintro ⟨⟩; simp⟩
  | str s, str t => ⟨s == t, by rintro ⟨⟩; simp⟩
  | keyword s, keyword t => ⟨s == t, by rintro ⟨⟩; simp⟩
  | symbol s, symbol t => ⟨s == t, by rintro ⟨⟩; simp⟩
  | seq _ s, seq _ t =>
    ⟨s.size == t.size && (Answer.shared s t fun _ => equalItems s t).1, by
      rintro ⟨⟩
      rw [beq_self_eq_true, Bool.true_and]
      exact (Answer.shared s s _).2 rfl⟩
  | map s, map t =>
    ⟨s.size == t.size && (Answer.shared s t fun _ => equalEntries s t).1, by
      rintro ⟨⟩
      rw [beq_self_eq_true, Bool.true_and]
      exact (Answer.shared s s _).2 rfl⟩
  | native f, native g => ⟨f.name == g.name, by rintro ⟨⟩; simp⟩
  | closure i _ _ _, closure j _ _ _ => ⟨i == j, by rintro ⟨⟩; simp⟩
  | atom i, atom j => ⟨i == j, by rintro ⟨⟩; simp⟩
  | v, w => ⟨v.rank == w.rank, by rintro rfl; simp⟩
termination_by structural v => v

/-- Cuts the second rope where the first one has its node, and compares the parts. -/
def equalItems : (s t : Rope Value) → Answer s t
  | .nil, t => ⟨t.isEmpty, by rintro ⟨⟩; rfl⟩
  | .node l x r, t =>
    match h : t.splitAt? l.size with
    | none => ⟨false, by rintro ⟨⟩; rw [Rope.splitAt?_node] at h; contradiction⟩
    | some (a, y, b) =>
      ⟨(Answer.shared l a fun _ => equalItems l a).1 && (decideEqual x y).1 &&
          (Answer.shared r b fun _ => equalItems r b).1, by
        rintro ⟨⟩
        rw [Rope.splitAt?_node] at h
        cases h
        rw [(Answer.shared l l _).2 rfl, (decideEqual x x).2 rfl, (Answer.shared r r _).2 rfl]
        rfl⟩
termination_by structural s => s

def equalEntries : (s t : Rope (Value × Value)) → Answer s t
  | .nil, t => ⟨t.isEmpty, by rintro ⟨⟩; rfl⟩
  | .node l (k, v) r, t =>
    match h : t.splitAt? l.size with
    | none => ⟨false, by rintro ⟨⟩; rw [Rope.splitAt?_node] at h; contradiction⟩
    | some (a, (k', v'), b) =>
      ⟨(Answer.shared l a fun _ => equalEntries l a).1 &&
          ((decideEqual k k').1 && (decideEqual v v').1) &&
            (Answer.shared r b fun _ => equalEntries r b).1, by
        rintro ⟨⟩
        rw [Rope.splitAt?_node] at h
        cases h
        rw [(Answer.shared l l _).2 rfl, (decideEqual k k).2 rfl, (decideEqual v v).2 rfl,
          (Answer.shared r r _).2 rfl]
        rfl⟩
termination_by structural s => s
end

/-- Equality of values. -/
def beq (v w : Value) : Bool := (decideEqual v w).1

instance : BEq Value := ⟨beq⟩

theorem beq_self (v : Value) : beq v v = true := (decideEqual v v).2 rfl

theorem beq_append [BEq α] {xs ys : List α} (h : xs.length = ys.length) (xs' ys' : List α) :
    (xs ++ xs' == ys ++ ys') = (xs == ys && xs' == ys') := by
  induction xs generalizing ys with
  | nil =>
    cases ys with
    | nil => rfl
    | cons y ys => contradiction
  | cons x xs ih =>
    cases ys with
    | nil => contradiction
    | cons y ys =>
      rw [List.cons_append, List.cons_append, List.cons_beq_cons, List.cons_beq_cons,
        ih (Nat.succ.inj h), Bool.and_assoc]

theorem beq_of_length_ne [BEq α] {xs ys : List α} (h : xs.length ≠ ys.length) :
    (xs == ys) = false := by
  induction xs generalizing ys with
  | nil =>
    cases ys with
    | nil => contradiction
    | cons y ys => rfl
  | cons x xs ih =>
    cases ys with
    | nil => rfl
    | cons y ys =>
      rw [List.cons_beq_cons, ih fun he => h (congrArg Nat.succ he), Bool.and_false]

theorem equalItems_eq (s t : Rope Value) : (equalItems s t).1 = (s.toList == t.toList) := by
  induction s generalizing t with
  | nil =>
    change t.isEmpty = _
    rw [Rope.isEmpty_eq]
    cases t.toList <;> rfl
  | node l x r ihl ihr =>
    rw [equalItems, Rope.toList_node]
    split
    · next h =>
      have hl := Rope.splitAt?_eq_none h
      rw [Rope.size_eq] at hl
      rw [beq_of_length_ne]
      rw [List.length_append, List.length_cons]
      omega
    · next a y b h =>
      obtain ⟨ht, hl⟩ := Rope.splitAt?_eq_some h
      rw [Rope.size_eq] at hl
      rw [ht, beq_append hl.symm, List.cons_beq_cons, ← ihl, ← ihr]
      exact Bool.and_assoc ..

theorem equalEntries_eq (s t : Rope (Value × Value)) :
    (equalEntries s t).1 = (s.toList == t.toList) := by
  induction s generalizing t with
  | nil =>
    change t.isEmpty = _
    rw [Rope.isEmpty_eq]
    cases t.toList <;> rfl
  | node l x r ihl ihr =>
    rw [equalEntries, Rope.toList_node]
    split
    · next h =>
      have hl := Rope.splitAt?_eq_none h
      rw [Rope.size_eq] at hl
      rw [beq_of_length_ne]
      rw [List.length_append, List.length_cons]
      omega
    · next a k v b h =>
      obtain ⟨ht, hl⟩ := Rope.splitAt?_eq_some h
      rw [Rope.size_eq] at hl
      rw [ht, beq_append hl.symm, List.cons_beq_cons, ← ihl, ← ihr]
      exact Bool.and_assoc ..

theorem beq_map (s t : Rope (Value × Value)) : beq (map s) (map t) = (s.toList == t.toList) := by
  change (s.size == t.size && (equalEntries s t).1) = _
  rw [equalEntries_eq, Rope.size_eq, Rope.size_eq]
  cases h : s.toList.length == t.toList.length with
  | true => rfl
  | false => rw [beq_of_length_ne (by simpa using h), Bool.false_and]

theorem beq_seq (p q : Shape) (s t : Rope Value) :
    beq (seq p s) (seq q t) = (s.toList == t.toList) := by
  change (s.size == t.size && (equalItems s t).1) = _
  rw [equalItems_eq, Rope.size_eq, Rope.size_eq]
  cases h : s.toList.length == t.toList.length with
  | true => rfl
  | false => rw [beq_of_length_ne (by simpa using h), Bool.false_and]

mutual
/-- Sequences and maps are compared element by element, a shorter one before those it begins. -/
def order : Value → Value → Ordering
  | bool a, bool b => compare a b
  | int m, int n => compare m.toInt n.toInt
  | str s, str t => compare s t
  | keyword s, keyword t => compare s t
  | symbol s, symbol t => compare s t
  | seq _ s, seq _ t => orderItems s t
  | map s, map t => orderEntries s t
  | native f, native g => compare f.name g.name
  | closure i _ _ _, closure j _ _ _ => compare i j
  | atom i, atom j => compare i j
  | v, w => compare v.rank w.rank
termination_by structural v => v

/-- Cuts the second rope where the first one has its node, and compares the parts. -/
def orderItems : Rope Value → Rope Value → Ordering
  | .nil, t => if t.isEmpty then .eq else .lt
  | .node l x r, t =>
    match t.splitAt? l.size with
    | none => (orderItems l t).then .gt
    | some (a, y, b) => (orderItems l a).then ((order x y).then (orderItems r b))
termination_by structural s => s

def orderEntries : Rope (Value × Value) → Rope (Value × Value) → Ordering
  | .nil, t => if t.isEmpty then .eq else .lt
  | .node l (k, v) r, t =>
    match t.splitAt? l.size with
    | none => (orderEntries l t).then .gt
    | some (a, (k', v'), b) =>
      (orderEntries l a).then (((order k k').then (order v v')).then (orderEntries r b))
termination_by structural s => s
end

instance : Ord Value := ⟨order⟩

theorem compareLex_append {f : α → α → Ordering} {xs ys : List α} (h : xs.length = ys.length)
    (xs' ys' : List α) :
    List.compareLex f (xs ++ xs') (ys ++ ys') =
      (List.compareLex f xs ys).then (List.compareLex f xs' ys') := by
  induction xs generalizing ys with
  | nil =>
    cases ys with
    | nil => rfl
    | cons y ys => contradiction
  | cons x xs ih =>
    cases ys with
    | nil => contradiction
    | cons y ys =>
      rw [List.cons_append, List.cons_append, List.compareLex_cons_cons,
        List.compareLex_cons_cons, ih (Nat.succ.inj h), Ordering.then_assoc]

/-- A list that goes on where the other one has ended comes after it. -/
theorem compareLex_append_of_length_le {f : α → α → Ordering} {xs ys : List α}
    (h : ys.length ≤ xs.length) (x : α) (xs' : List α) :
    List.compareLex f (xs ++ x :: xs') ys = (List.compareLex f xs ys).then .gt := by
  induction xs generalizing ys with
  | nil =>
    cases ys with
    | nil => rfl
    | cons y ys => contradiction
  | cons z xs ih =>
    cases ys with
    | nil => rfl
    | cons y ys =>
      rw [List.cons_append, List.compareLex_cons_cons, List.compareLex_cons_cons,
        ih (Nat.le_of_succ_le_succ h), Ordering.then_assoc]

theorem orderItems_eq (s t : Rope Value) :
    orderItems s t = List.compareLex order s.toList t.toList := by
  induction s generalizing t with
  | nil =>
    rw [orderItems, Rope.isEmpty_eq]
    cases t.toList <;> rfl
  | node l x r ihl ihr =>
    rw [orderItems, Rope.toList_node]
    split
    · next h =>
      have hl := Rope.splitAt?_eq_none h
      rw [Rope.size_eq] at hl
      rw [compareLex_append_of_length_le hl, ihl]
    · next a y b h =>
      obtain ⟨ht, hl⟩ := Rope.splitAt?_eq_some h
      rw [Rope.size_eq] at hl
      rw [ht, compareLex_append hl.symm, List.compareLex_cons_cons, ihl, ihr]

/-- The order of entries: by key, and by value where the keys are equal. -/
def orderEntry (e f : Value × Value) : Ordering := (order e.1 f.1).then (order e.2 f.2)

theorem orderEntries_eq (s t : Rope (Value × Value)) :
    orderEntries s t = List.compareLex orderEntry s.toList t.toList := by
  induction s generalizing t with
  | nil =>
    rw [orderEntries, Rope.isEmpty_eq]
    cases t.toList <;> rfl
  | node l x r ihl ihr =>
    rw [orderEntries, Rope.toList_node]
    split
    · next h =>
      have hl := Rope.splitAt?_eq_none h
      rw [Rope.size_eq] at hl
      rw [compareLex_append_of_length_le hl, ihl]
    · next a k v b h =>
      obtain ⟨ht, hl⟩ := Rope.splitAt?_eq_some h
      rw [Rope.size_eq] at hl
      rw [ht, compareLex_append hl.symm, List.compareLex_cons_cons, ihl, ihr, orderEntry]

theorem order_seq (p q : Shape) (s t : Rope Value) :
    order (seq p s) (seq q t) = List.compareLex order s.toList t.toList := by
  rw [order, orderItems_eq]

theorem order_map (s t : Rope (Value × Value)) :
    order (map s) (map t) = List.compareLex orderEntry s.toList t.toList := by
  rw [order, orderEntries_eq]

/-- What hashing a value takes in, piece by piece. -/
inductive Mark where
  | rank (n : Nat)
  | bool (b : Bool)
  | int (n : Int64)
  | text (s : String)
  | identity (n : Nat)
deriving DecidableEq

mutual
/-- Puts the marks of a value in front of `tail`: its rank and then what tells it from others
of that rank. -/
def digestOnto : Value → List Mark → List Mark
  | nil, tail => .rank 0 :: tail
  | bool b, tail => .rank 1 :: .bool b :: tail
  | int n, tail => .rank 2 :: .int n :: tail
  | str s, tail => .rank 3 :: .text s :: tail
  | keyword s, tail => .rank 4 :: .text s :: tail
  | symbol s, tail => .rank 5 :: .text s :: tail
  | seq _ xs, tail => .rank 6 :: digestItems xs tail
  | map es, tail => .rank 7 :: digestEntries es tail
  | native f, tail => .rank 8 :: .text f.name :: tail
  | closure i _ _ _, tail => .rank 9 :: .identity i :: tail
  | atom i, tail => .rank 10 :: .identity i :: tail
termination_by structural v => v

def digestItems : Rope Value → List Mark → List Mark
  | .nil, tail => tail
  | .node l x r, tail => digestItems l (digestOnto x (digestItems r tail))
termination_by structural xs => xs

def digestEntries : Rope (Value × Value) → List Mark → List Mark
  | .nil, tail => tail
  | .node l (k, v) r, tail =>
    digestEntries l (digestOnto k (digestOnto v (digestEntries r tail)))
termination_by structural es => es
end

/-- The marks of a value. -/
def digest (v : Value) : List Mark := digestOnto v []

mutual
/-- Whether a closure or an atom occurs in a value; what an atom holds is not looked at. -/
def hasIdentity : Value → Bool
  | closure .. => true
  | atom _ => true
  | seq _ xs => anyIdentity xs
  | map es => anyEntryIdentity es
  | _ => false
termination_by structural v => v

def anyIdentity : Rope Value → Bool
  | .nil => false
  | .node l x r => anyIdentity l || hasIdentity x || anyIdentity r
termination_by structural xs => xs

def anyEntryIdentity : Rope (Value × Value) → Bool
  | .nil => false
  | .node l (k, v) r => anyEntryIdentity l || hasIdentity k || hasIdentity v || anyEntryIdentity r
termination_by structural es => es
end

/-- The entries of two maps together. Where keys are equal the entry of the second map
counts, key and all. -/
def union : List (Value × Value) → List (Value × Value) → List (Value × Value)
  | [], fs => fs
  | e :: es, [] => e :: es
  | (k, v) :: es, (l, w) :: fs =>
    match order k l with
    | .lt => (k, v) :: union es ((l, w) :: fs)
    | .eq => (l, w) :: union es fs
    | .gt => (l, w) :: union ((k, v) :: es) fs
termination_by es fs => es.length + fs.length

/-- The entries of a map made of `pairs`, a later pair winning over an equal key before it. -/
def entriesOf : List (Value × Value) → List (Value × Value)
  | [] => []
  | [p] => [p]
  | p :: q :: ps =>
    let half := (ps.length + 2) / 2
    union (entriesOf ((p :: q :: ps).take half)) (entriesOf ((p :: q :: ps).drop half))
termination_by ps => ps.length
decreasing_by
  all_goals simp only [List.length_take, List.length_drop, List.length_cons]; omega

def mapOf (pairs : List (Value × Value)) : Value := map (.ofList (entriesOf pairs))

/-- The entry of a map whose key equals `k`. -/
def entry? (k : Value) : List (Value × Value) → Option (Value × Value)
  | [] => none
  | (l, w) :: es =>
    match order k l with
    | .lt => none
    | .eq => some (l, w)
    | .gt => entry? k es

/-- Sorts values by their order; equal ones stay as they stood. -/
def sort (vs : List Value) : List Value := vs.mergeSort (fun v w => (order v w).isLE)

end Lisplet.Value

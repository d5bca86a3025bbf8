/-! Ropes: sequences that are cheap to take apart and to put together. A rope is a tree
that has its elements in its nodes, from left to right, and is kept in balance by weight.
Whatever a rope is made of it shares, so that a rope that is joined to itself many times
over takes no more room than the steps that made it. What a rope stands for is the list of
its elements, and each operation is known by what it does to that list. -/

namespace Lisplet

section

-- With `α` as a variable the size is defined by recursion on the rope alone.
variable (α : Type)

/-- A sequence as a tree: all of `left`, then `x`, then all of `right`. -/
inductive Rope (α : Type) where
  | nil
  | node (left : Rope α) (x : α) (right : Rope α)
with
  /-- The number of elements, which each node keeps. -/
  @[computed_field] size : Rope α → Nat
    | .nil => 0
    | .node left _ right => left.size + 1 + right.size

end

namespace Rope

variable {α β : Type}

instance : Inhabited (Rope α) := ⟨nil⟩

/-! ## The list of a rope -/

/-- The elements in front of `tail`. -/
def toListOnto : Rope α → List α → List α
  | nil, tail => tail
  | node l x r, tail => l.toListOnto (x :: r.toListOnto tail)

def toList (s : Rope α) : List α := s.toListOnto []

theorem toListOnto_eq (s : Rope α) (tail : List α) : s.toListOnto tail = s.toList ++ tail := by
  induction s generalizing tail with
  | nil => rfl
  | node l x r ihl ihr =>
    rw [toList, toListOnto, toListOnto, ihl, ihr, ihl (x :: r.toListOnto []), ihr [],
      List.append_nil, List.append_assoc, List.cons_append]

@[simp] theorem toList_nil : (nil : Rope α).toList = [] := rfl

@[simp] theorem toList_node (l : Rope α) (x : α) (r : Rope α) :
    (node l x r).toList = l.toList ++ x :: r.toList := by
  rw [toList, toListOnto, toListOnto_eq, toListOnto_eq, List.append_nil]

theorem size_eq (s : Rope α) : s.size = s.toList.length := by
  induction s with
  | nil => rfl
  | node l x r ihl ihr =>
    rw [toList_node, List.length_append, List.length_cons, ← ihl, ← ihr]
    change l.size + 1 + r.size = _
    omega

def isEmpty (s : Rope α) : Bool := s.size = 0

theorem isEmpty_eq (s : Rope α) : s.isEmpty = s.toList.isEmpty := by
  rw [isEmpty, size_eq]
  cases s.toList <;> simp

/-! ## Looking at elements -/

def get? : Rope α → Nat → Option α
  | nil, _ => none
  | node l x r, i =>
    if i < l.size then l.get? i
    else if i = l.size then some x
    else r.get? (i - l.size - 1)

theorem get?_eq (s : Rope α) (i : Nat) : s.get? i = s.toList[i]? := by
  induction s generalizing i with
  | nil => rfl
  | node l x r ihl ihr =>
    rw [get?, toList_node, size_eq]
    split
    · next h => rw [ihl, List.getElem?_append_left h]
    · next h =>
      rw [List.getElem?_append_right (by omega)]
      split
      · next he => rw [he, Nat.sub_self]; rfl
      · next he =>
        rw [ihr, show i - l.toList.length = (i - l.toList.length - 1) + 1 by omega,
          List.getElem?_cons_succ]
        rfl

def first? (s : Rope α) : Option α := s.get? 0

theorem first?_eq (s : Rope α) : s.first? = s.toList.head? := by
  rw [first?, get?_eq, List.head?_eq_getElem?]

/-- A rope cut at an index: what stands in front of the element there, the element, and
what stands behind it. -/
def splitAt? : Rope α → Nat → Option (Rope α × α × Rope α)
  | nil, _ => none
  | node l x r, i =>
    if i < l.size then (l.splitAt? i).map fun (a, y, b) => (a, y, node b x r)
    else if i = l.size then some (l, x, r)
    else (r.splitAt? (i - l.size - 1)).map fun (a, y, b) => (node l x a, y, b)

theorem splitAt?_node (l : Rope α) (x : α) (r : Rope α) :
    (node l x r).splitAt? l.size = some (l, x, r) := by
  rw [splitAt?, if_neg (Nat.lt_irrefl _), if_pos rfl]

theorem splitAt?_eq_none {s : Rope α} {i : Nat} (h : s.splitAt? i = none) :
    s.toList.length ≤ i := by
  induction s generalizing i with
  | nil => exact Nat.zero_le _
  | node l x r ihl ihr =>
    rw [splitAt?, size_eq] at h
    split at h
    · next hi =>
      have := ihl (Option.map_eq_none_iff.mp h)
      omega
    · split at h
      · contradiction
      · have := ihr (Option.map_eq_none_iff.mp h)
        rw [toList_node, List.length_append, List.length_cons]
        omega

theorem splitAt?_eq_some {s a b : Rope α} {i : Nat} {y : α} (h : s.splitAt? i = some (a, y, b)) :
    s.toList = a.toList ++ y :: b.toList ∧ a.toList.length = i := by
  induction s generalizing i a y b with
  | nil => contradiction
  | node l x r ihl ihr =>
    rw [splitAt?, size_eq] at h
    split at h
    · obtain ⟨⟨c, z, d⟩, hs, he⟩ := Option.map_eq_some_iff.mp h
      obtain ⟨hc, hi⟩ := ihl hs
      cases he
      exact ⟨by simp [hc], hi⟩
    · split at h
      · next hi =>
        cases h
        exact ⟨toList_node .., hi.symm⟩
      · obtain ⟨⟨c, z, d⟩, hs, he⟩ := Option.map_eq_some_iff.mp h
        obtain ⟨hc, hi⟩ := ihr hs
        cases he
        refine ⟨by simp [hc], ?_⟩
        rw [toList_node, List.length_append, List.length_cons, hi]
        omega

/-! ## Making ropes -/

/-- How many times as heavy as the other one side of a node may be. -/
def delta : Nat := 3

/-- How many times as heavy as its outer side the inner side of a node has to be for both
to be parted when the node is turned. -/
def ratio : Nat := 2

/-- A node that is too heavy on its right, turned to the left. -/
def turnLeft (l : Rope α) (x : α) (r : Rope α) : Rope α :=
  match r with
  | nil => node l x r
  | node inner y outer =>
    if inner.size < ratio * outer.size then node (node l x inner) y outer
    else
      match inner with
      | nil => node (node l x inner) y outer
      | node a z b => node (node l x a) z (node b y outer)

/-- A node that is too heavy on its left, turned to the right. -/
def turnRight (l : Rope α) (x : α) (r : Rope α) : Rope α :=
  match l with
  | nil => node l x r
  | node outer y inner =>
    if inner.size < ratio * outer.size then node outer y (node inner x r)
    else
      match inner with
      | nil => node outer y (node inner x r)
      | node a z b => node (node outer y a) z (node b x r)

/-- A node whose sides may be a little out of balance. -/
def balance (l : Rope α) (x : α) (r : Rope α) : Rope α :=
  if l.size + r.size ≤ 1 then node l x r
  else if delta * l.size < r.size then turnLeft l x r
  else if delta * r.size < l.size then turnRight l x r
  else node l x r

@[simp] theorem toList_balance (l : Rope α) (x : α) (r : Rope α) :
    (balance l x r).toList = l.toList ++ x :: r.toList := by
  have hl : (turnLeft l x r).toList = l.toList ++ x :: r.toList := by
    unfold turnLeft
    split
    · simp
    · split
      · simp
      · split <;> simp
  have hr : (turnRight l x r).toList = l.toList ++ x :: r.toList := by
    unfold turnRight
    split
    · simp
    · split
      · simp
      · split <;> simp
  unfold balance
  repeat' split
  all_goals first | exact hl | exact hr | exact toList_node l x r

/-- A rope with one more element in front. -/
def cons (x : α) : Rope α → Rope α
  | nil => node nil x nil
  | node l y r => balance (cons x l) y r

@[simp] theorem toList_cons (x : α) (s : Rope α) : (cons x s).toList = x :: s.toList := by
  induction s with
  | nil => rfl
  | node l y r ihl _ => simp [cons, ihl]

/-- A rope with one more element behind. -/
def push : Rope α → α → Rope α
  | nil, x => node nil x nil
  | node l y r, x => balance l y (r.push x)

@[simp] theorem toList_push (s : Rope α) (x : α) : (s.push x).toList = s.toList ++ [x] := by
  induction s with
  | nil => rfl
  | node l y r _ ihr => simp [push, ihr]

/-- A rope without its first element. -/
def tail : Rope α → Rope α
  | nil => nil
  | node nil _ r => r
  | node l x r => balance l.tail x r

@[simp] theorem toList_tail (s : Rope α) : s.tail.toList = s.toList.tail := by
  induction s with
  | nil => rfl
  | node l x r ihl _ =>
    cases l with
    | nil => simp [tail]
    | node a y b =>
      rw [tail, toList_balance, ihl, toList_node _ x r,
        List.tail_append_of_ne_nil (by simp)]
      nofun

/-- A rope and an element in front of a rope that is heavier. -/
def linkFront (s : Rope α) (x : α) (t : Rope α) : Rope α :=
  match t with
  | nil => s.push x
  | node l y r =>
    if delta * s.size < t.size then balance (linkFront s x l) y r else node s x t

theorem toList_linkFront (s : Rope α) (x : α) (t : Rope α) :
    (linkFront s x t).toList = s.toList ++ x :: t.toList := by
  induction t with
  | nil => simp [linkFront]
  | node l y r ihl _ =>
    rw [linkFront]
    split
    · simp [ihl]
    · simp

/-- An element and a rope behind a rope that is heavier. -/
def linkBehind (s : Rope α) (x : α) (t : Rope α) : Rope α :=
  match s with
  | nil => t.cons x
  | node l y r =>
    if delta * t.size < s.size then balance l y (linkBehind r x t) else node s x t

theorem toList_linkBehind (s : Rope α) (x : α) (t : Rope α) :
    (linkBehind s x t).toList = s.toList ++ x :: t.toList := by
  induction s with
  | nil => simp [linkBehind]
  | node l y r _ ihr =>
    rw [linkBehind]
    split
    · simp [ihr]
    · simp

/-- Two ropes with an element between them. -/
def link (s : Rope α) (x : α) (t : Rope α) : Rope α :=
  if s.size < t.size then linkFront s x t else linkBehind s x t

@[simp] theorem toList_link (s : Rope α) (x : α) (t : Rope α) :
    (link s x t).toList = s.toList ++ x :: t.toList := by
  unfold link
  split
  · exact toList_linkFront s x t
  · exact toList_linkBehind s x t

protected def append (s t : Rope α) : Rope α :=
  match t.first? with
  | none => s
  | some x => if s.isEmpty then t else link s x t.tail

instance : Append (Rope α) := ⟨Rope.append⟩

@[simp] theorem toList_append (s t : Rope α) : (s ++ t).toList = s.toList ++ t.toList := by
  change (Rope.append s t).toList = _
  have h := first?_eq t
  unfold Rope.append
  split
  · next hn =>
    rw [hn] at h
    rw [List.head?_eq_none_iff.mp h.symm, List.append_nil]
  · next x hx =>
    rw [hx] at h
    split
    · next he =>
      rw [isEmpty_eq, List.isEmpty_iff] at he
      rw [he, List.nil_append]
    · obtain ⟨xs, hxs⟩ := List.head?_eq_some_iff.mp h.symm
      simp [hxs]

/-- A rope of the first `n` elements of a list, or of all if there are fewer, and the
elements that remain. -/
def build (n : Nat) (xs : List α) : Rope α × List α :=
  match n with
  | 0 => (nil, xs)
  | n + 1 =>
    match build (n / 2) xs with
    | (l, []) => (l, [])
    | (l, x :: rest) =>
      let (r, rest) := build (n - n / 2) rest
      (node l x r, rest)

def ofList (xs : List α) : Rope α := (build xs.length xs).1

theorem build_eq (n : Nat) (xs : List α) :
    (build n xs).1.toList ++ (build n xs).2 = xs ∧
      (build n xs).2.length = xs.length - n := by
  induction n using Nat.strongRecOn generalizing xs with
  | _ n ih =>
    cases n with
    | zero =>
      rw [build]
      exact ⟨rfl, rfl⟩
    | succ n =>
      obtain ⟨hl, hn⟩ := ih (n / 2) (by omega) xs
      rw [build]
      split
      · next l h =>
        rw [h] at hl hn
        simp only [List.length_nil] at hl hn ⊢
        exact ⟨hl, by omega⟩
      · next l x rest h =>
        rw [h] at hl hn
        obtain ⟨hr, hm⟩ := ih (n - n / 2) (by omega) rest
        simp only [List.length_cons] at hl hn ⊢
        rw [toList_node, List.append_assoc, List.cons_append, hr, hm]
        exact ⟨hl, by omega⟩

@[simp] theorem toList_ofList (xs : List α) : (ofList xs).toList = xs := by
  obtain ⟨h, hn⟩ := build_eq xs.length xs
  rw [Nat.sub_self, List.length_eq_zero_iff] at hn
  rwa [hn, List.append_nil] at h

theorem ofList_nil : ofList ([] : List α) = nil := by simp [ofList, build]

theorem ofList_singleton (x : α) : ofList [x] = node nil x nil := by simp [ofList, build]

/-! ## Going through ropes -/

/-- What a function makes of each element, from the left, up to the first that it refuses. -/
def mapM (f : α → Except ε β) : Rope α → Except ε (Rope β)
  | nil => .ok nil
  | node l x r => do
    let l ← l.mapM f
    let x ← f x
    let r ← r.mapM f
    return node l x r

theorem toList_mapM (f : α → Except ε β) (s : Rope α) :
    toList <$> s.mapM f = s.toList.mapM f := by
  induction s with
  | nil => rfl
  | node l x r ihl ihr => simp [mapM, ← ihl, ← ihr]

end Rope

end Lisplet

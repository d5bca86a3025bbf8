import Lisplet.Form

/-! Values that are data: what can be written down in a program text and read back. Values
know their elements as ropes, and a rope that is read need not be laid out like the one that
was written, so each value has a canonical form in which all ropes are laid out afresh. -/

namespace Lisplet

open Text (isNameChar)

/-! ## Names -/

/-- A text that can stand for a name: name characters, and no colon in front. -/
structure IsName (name : String) : Prop where
  ne_empty : name.toList ≠ []
  chars : ∀ c ∈ name.toList, isNameChar c = true
  no_colon : name.toList.head? ≠ some ':'

theorem IsName.of_all {name : String} (hne : name.toList ≠ [])
    (hc : name.toList.all isNameChar = true) (hcolon : name.toList.head? ≠ some ':') :
    IsName name := ⟨hne, List.all_eq_true.mp hc, hcolon⟩

/-- A text that begins with a digit, or with a sign and a digit. -/
def BeginsLikeNumber (cs : List Char) : Prop :=
  ∃ sign digit rest, cs = sign ++ digit :: rest ∧
    (sign = [] ∨ sign = ['-'] ∨ sign = ['+']) ∧ digit.isDigit = true

/-- A name that is read as a symbol, and as nothing else. -/
structure IsSymbolName (name : String) : Prop extends IsName name where
  not_number : ¬ BeginsLikeNumber name.toList
  not_nil : name ≠ "nil"
  not_true : name ≠ "true"
  not_false : name ≠ "false"

namespace Value

/-- The keys of entries are in ascending order, and no two are equal. -/
def Ascending (es : List (Value × Value)) : Prop := es.Pairwise fun e f => order e.1 f.1 = .lt

/-- A value that is made of literals alone. -/
inductive IsData : Value → Prop where
  | nil : IsData nil
  | bool (b : Bool) : IsData (bool b)
  | int (n : Int64) : IsData (int n)
  | str (s : String) : IsData (str s)
  | symbol (h : IsSymbolName name) : IsData (symbol name)
  | keyword (h : IsName name) : IsData (keyword name)
  | seq (shape : Shape) (h : ∀ x ∈ xs.toList, IsData x) : IsData (seq shape xs)
  | map (hk : ∀ e ∈ es.toList, IsData e.1) (hv : ∀ e ∈ es.toList, IsData e.2)
    (ha : Ascending es.toList) : IsData (map es)

/-- A value that is a form of a program text: like data, but for keywords, the names of which
may begin with a colon or have no characters at all. -/
inductive IsForm : Value → Prop where
  | nil : IsForm nil
  | bool (b : Bool) : IsForm (bool b)
  | int (n : Int64) : IsForm (int n)
  | str (s : String) : IsForm (str s)
  | symbol (h : IsSymbolName name) : IsForm (symbol name)
  | keyword (h : ∀ c ∈ name.toList, isNameChar c = true) : IsForm (keyword name)
  | seq (shape : Shape) (h : ∀ x ∈ xs.toList, IsForm x) : IsForm (seq shape xs)
  | map (hk : ∀ e ∈ es.toList, IsForm e.1) (hv : ∀ e ∈ es.toList, IsForm e.2)
    (ha : Ascending es.toList) : IsForm (map es)

theorem IsData.isForm {v : Value} (hv : v.IsData) : v.IsForm := by
  induction hv with
  | nil => exact .nil
  | bool b => exact .bool b
  | int n => exact .int n
  | str s => exact .str s
  | symbol h => exact .symbol h
  | keyword h => exact .keyword h.chars
  | seq shape h ih => exact .seq shape ih
  | map hk hv ha ihk ihv => exact .map ihk ihv ha

/-! ## Canonical values -/

mutual
/-- The same value, its elements and entries laid out as when they are given as lists. -/
def canon : Value → Value
  | seq shape xs => seq shape (.ofList (canonOnto xs []))
  | map es => map (.ofList (canonEntriesOnto es []))
  | v => v
termination_by structural v => v

def canonOnto : Rope Value → List Value → List Value
  | .nil, tail => tail
  | .node l x r, tail => canonOnto l (canon x :: canonOnto r tail)
termination_by structural xs => xs

def canonEntriesOnto : Rope (Value × Value) → List (Value × Value) → List (Value × Value)
  | .nil, tail => tail
  | .node l (k, v) r, tail => canonEntriesOnto l ((canon k, canon v) :: canonEntriesOnto r tail)
termination_by structural es => es
end

def canonEntry (e : Value × Value) : Value × Value := (canon e.1, canon e.2)

theorem canonOnto_eq (xs : Rope Value) (tail : List Value) :
    canonOnto xs tail = xs.toList.map canon ++ tail := by
  induction xs generalizing tail with
  | nil => rfl
  | node l x r ihl ihr => simp [canonOnto, ihl, ihr]

theorem canonEntriesOnto_eq (es : Rope (Value × Value)) (tail : List (Value × Value)) :
    canonEntriesOnto es tail = es.toList.map canonEntry ++ tail := by
  induction es generalizing tail with
  | nil => rfl
  | node l e r ihl ihr => simp [canonEntriesOnto, ihl, ihr, canonEntry]

@[simp] theorem canon_seq (shape : Shape) (xs : Rope Value) :
    canon (seq shape xs) = seq shape (.ofList (xs.toList.map canon)) := by
  rw [canon, canonOnto_eq, List.append_nil]

@[simp] theorem canon_map (es : Rope (Value × Value)) :
    canon (map es) = map (.ofList (es.toList.map canonEntry)) := by
  rw [canon, canonEntriesOnto_eq, List.append_nil]

/-- Sequences have one canonical form if they have one shape and their elements do. -/
theorem canon_seq_eq_iff {p q : Shape} {xs ys : Rope Value} :
    canon (seq p xs) = canon (seq q ys) ↔ p = q ∧ xs.toList.map canon = ys.toList.map canon := by
  rw [canon_seq, canon_seq]
  constructor
  · intro h
    obtain ⟨hp, hx⟩ := Value.seq.inj h
    have hl := congrArg Rope.toList hx
    rw [Rope.toList_ofList, Rope.toList_ofList] at hl
    exact ⟨hp, hl⟩
  · rintro ⟨rfl, hx⟩
    rw [hx]

/-! ## Order and canonical values -/

theorem compareLex_map {α β : Type} {f : α → α → Ordering} {g : β → β → Ordering} {h : α → β}
    {xs : List α} (hx : ∀ x ∈ xs, ∀ y, g (h x) (h y) = f x y) (ys : List α) :
    List.compareLex g (xs.map h) (ys.map h) = List.compareLex f xs ys := by
  induction xs generalizing ys with
  | nil => cases ys <;> rfl
  | cons x xs ih =>
    obtain ⟨hx, hxs⟩ := List.forall_mem_cons.mp hx
    cases ys with
    | nil => rfl
    | cons y ys =>
      rw [List.map_cons, List.map_cons, List.compareLex_cons_cons, List.compareLex_cons_cons,
        hx, ih hxs]

/-- Laying a value out afresh does not change its place in the order. -/
theorem order_canon {v : Value} (hv : v.IsData) (w : Value) :
    order v.canon w.canon = order v w := by
  induction hv generalizing w with
  | nil | bool | int | str | symbol | keyword => cases w <;> rfl
  | @seq xs shape h ih =>
    cases w with
    | seq shape' ys =>
      rw [canon_seq, canon_seq, order_seq, order_seq, Rope.toList_ofList, Rope.toList_ofList]
      exact compareLex_map ih ys.toList
    | _ => rfl
  | @map es hk hv ha ihk ihv =>
    cases w with
    | map fs =>
      rw [canon_map, canon_map, order_map, order_map, Rope.toList_ofList, Rope.toList_ofList]
      refine compareLex_map (fun e he f => ?_) fs.toList
      rw [orderEntry, orderEntry, canonEntry, canonEntry, ihk e he, ihv e he]
    | _ => rfl

theorem Ascending.canon {es : List (Value × Value)} (ha : Ascending es)
    (hk : ∀ e ∈ es, e.1.IsData) : Ascending (es.map canonEntry) := by
  rw [Ascending, List.pairwise_map]
  refine ha.imp_of_mem fun {e f} he _ h => ?_
  rw [← h]
  exact order_canon (hk e he) f.1

theorem union_of_ascending {es fs : List (Value × Value)} (h : Ascending (es ++ fs)) :
    union es fs = es ++ fs := by
  induction es with
  | nil => simp [union]
  | cons e es ih =>
    obtain ⟨hlt, hrest⟩ := List.pairwise_cons.mp h
    cases fs with
    | nil => simp [union]
    | cons f fs =>
      rw [union, hlt f (by simp)]
      exact congrArg (e :: ·) (ih hrest)

/-- Entries in ascending order are the entries of the map made of them. -/
theorem entriesOf_of_ascending {es : List (Value × Value)} (h : Ascending es) :
    entriesOf es = es := by
  fun_induction entriesOf es with
  | case1 => rfl
  | case2 p => rfl
  | case3 p q ps half ih₁ ih₂ =>
    have hs := List.take_append_drop half (p :: q :: ps)
    rw [ih₁ (h.sublist (List.take_sublist ..)), ih₂ (h.sublist (List.drop_sublist ..)),
      union_of_ascending (hs.symm ▸ h), hs]

theorem mapOf_of_ascending {es : List (Value × Value)} (h : Ascending es) :
    mapOf es = map (.ofList es) := by
  rw [mapOf, entriesOf_of_ascending h]

end Value

end Lisplet

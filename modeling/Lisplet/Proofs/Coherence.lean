import Lisplet.Proofs.Order
import Mathlib.Data.List.Forall2

/-! Comparing, testing for equality and hashing look at the same things in a value. What two
equal values are is said once, as a relation that goes down both of them, and each of the three
functions is shown to follow it. Names are told apart by where they are stored, which comes to
the same as telling them apart by their text. -/

namespace Lisplet

theorem exists_forall₂_iff {R : α → β → Prop} {xs : List α} :
    (∃ ys, List.Forall₂ R xs ys) ↔ ∀ x ∈ xs, ∃ y, R x y := by
  constructor
  · rintro ⟨ys, h⟩
    induction h with
    | nil => simp
    | cons hR _ ih => exact List.forall_mem_cons.mpr ⟨⟨_, hR⟩, ih⟩
  · intro h
    induction xs with
    | nil => exact ⟨[], .nil⟩
    | cons x xs ih =>
      obtain ⟨⟨y, hy⟩, h⟩ := List.forall_mem_cons.mp h
      obtain ⟨ys, hys⟩ := ih h
      exact ⟨y :: ys, .cons hy hys⟩

namespace Value

/-! ## What equal values are -/

/-- Two values that count as the same data. The shape of a sequence makes no difference, at
whatever depth it stands, nor does what a native or a closure is made of. -/
inductive Equal : Value → Value → Prop where
  | nil : Equal nil nil
  | bool (b : Bool) : Equal (bool b) (bool b)
  | int (n : Int64) : Equal (int n) (int n)
  | str (s : String) : Equal (str s) (str s)
  | keyword (name : String) : Equal (keyword name) (keyword name)
  | symbol (name : String) : Equal (symbol name) (symbol name)
  | seq (p q : Shape) {xs ys : Rope Value} (h : List.Forall₂ Equal xs.toList ys.toList) :
    Equal (seq p xs) (seq q ys)
  /-- Maps are equal if their keys are, one by one, and their values. -/
  | map {es fs : Rope (Value × Value)}
    (keys : List.Forall₂ Equal (es.toList.map Prod.fst) (fs.toList.map Prod.fst))
    (values : List.Forall₂ Equal (es.toList.map Prod.snd) (fs.toList.map Prod.snd)) :
    Equal (map es) (map fs)
  | native {f g : Native} (h : f.name = g.name) : Equal (native f) (native g)
  | closure (id : ClosureId) (p q : Params) (body body' : Value) (frame frame' : FrameId) :
    Equal (closure id p body frame) (closure id q body' frame')
  | atom (id : AtomId) : Equal (atom id) (atom id)

theorem forall₂_entries {R : Value → Value → Prop} {es fs : List (Value × Value)} :
    List.Forall₂ (fun e f => R e.1 f.1 ∧ R e.2 f.2) es fs ↔
      List.Forall₂ R (es.map Prod.fst) (fs.map Prod.fst) ∧
        List.Forall₂ R (es.map Prod.snd) (fs.map Prod.snd) := by
  induction es generalizing fs with
  | nil => cases fs <;> simp
  | cons e es ih =>
    cases fs with
    | nil => simp
    | cons f fs =>
      simp only [List.forall₂_cons, List.map_cons, ih]
      exact and_and_and_comm

theorem compareLex_eq_iff {f : α → α → Ordering} {R : α → α → Prop} {xs : List α}
    (h : ∀ x ∈ xs, ∀ y, f x y = .eq ↔ R x y) (ys : List α) :
    List.compareLex f xs ys = .eq ↔ List.Forall₂ R xs ys := by
  induction xs generalizing ys with
  | nil => cases ys <;> simp [List.compareLex_nil_nil, List.compareLex_nil_cons]
  | cons x xs ih =>
    cases ys with
    | nil => simp [List.compareLex_cons_nil]
    | cons y ys =>
      obtain ⟨hx, hxs⟩ := List.forall_mem_cons.mp h
      rw [List.compareLex_cons_cons, Ordering.then_eq_eq, List.forall₂_cons, hx, ih hxs]

theorem beq_list_iff [BEq α] {R : α → α → Prop} {xs : List α}
    (h : ∀ x ∈ xs, ∀ y, (x == y) = true ↔ R x y) (ys : List α) :
    (xs == ys) = true ↔ List.Forall₂ R xs ys := by
  induction xs generalizing ys with
  | nil => cases ys <;> simp
  | cons x xs ih =>
    cases ys with
    | nil => simp
    | cons y ys =>
      obtain ⟨hx, hxs⟩ := List.forall_mem_cons.mp h
      rw [List.cons_beq_cons, Bool.and_eq_true, List.forall₂_cons, hx, ih hxs]

/-- Equal values are of one kind, and agree in everything that comparing looks at. -/
theorem equal_iff {v w : Value} :
    Equal v w ↔ v.rank = w.rank ∧ v.flag = w.flag ∧ v.number = w.number ∧ v.label = w.label ∧
      v.identity = w.identity ∧ List.Forall₂ Equal v.elements w.elements ∧
        List.Forall₂ (fun e f => Equal e.1 f.1 ∧ Equal e.2 f.2) v.entries w.entries := by
  constructor
  · intro h
    cases h with
    | seq p q h => exact ⟨rfl, rfl, rfl, rfl, rfl, h, .nil⟩
    | map hk hv => exact ⟨rfl, rfl, rfl, rfl, rfl, .nil, forall₂_entries.mpr ⟨hk, hv⟩⟩
    | native h => exact ⟨rfl, rfl, rfl, h, rfl, .nil, .nil⟩
    | _ => exact ⟨rfl, rfl, rfl, rfl, rfl, .nil, .nil⟩
  · intro ⟨hrank, hflag, hnumber, hlabel, hidentity, helements, hentries⟩
    cases v <;> cases w <;> try (simp [rank] at hrank; done)
    case nil.nil => exact .nil
    case bool.bool => cases hflag; exact .bool _
    case int.int => cases Int64.toInt_inj.mp hnumber; exact .int _
    case str.str => cases hlabel; exact .str _
    case keyword.keyword => cases hlabel; exact .keyword _
    case symbol.symbol => cases hlabel; exact .symbol _
    case seq.seq => exact .seq _ _ helements
    case map.map =>
      obtain ⟨hk, hv⟩ := forall₂_entries.mp hentries
      exact .map hk hv
    case native.native => exact .native hlabel
    case closure.closure => cases hidentity; exact .closure ..
    case atom.atom => cases hidentity; exact .atom _

/-! ## The three functions -/

/-- Induction on a value through its elements and entries, whatever its kind. -/
theorem induct_parts {P : Value → Prop}
    (parts : ∀ v, (∀ x ∈ v.elements, P x) → (∀ e ∈ v.entries, P e.1 ∧ P e.2) → P v) (v : Value) :
    P v := by
  induction v using Value.induct with
  | seq p xs ih => exact parts (seq p xs) ih nofun
  | map es ih => exact parts (map es) nofun ih
  | _ => exact parts _ nofun nofun

/-- Comparing finds no difference between equal values, and between no others. -/
theorem order_eq_iff (v w : Value) : order v w = .eq ↔ Equal v w := by
  induction v using induct_parts generalizing w with
  | parts v hx he =>
    have hentry : ∀ e ∈ v.entries, ∀ f, orderEntry e f = .eq ↔ Equal e.1 f.1 ∧ Equal e.2 f.2 := by
      intro e hm f
      obtain ⟨hk, hv⟩ := he e hm
      rw [orderEntry, Ordering.then_eq_eq, hk, hv]
    rw [order_eq_lex, equal_iff]
    simp only [Ordering.then_eq_eq, Std.LawfulEqCmp.compare_eq_iff_eq, compareLex_eq_iff hx,
      compareLex_eq_iff hentry]

theorem beq_eq_and (v w : Value) :
    (v == w) = (v.rank == w.rank && (v.flag == w.flag && (v.number == w.number &&
      (v.label == w.label && (v.identity == w.identity && (v.elements == w.elements &&
        v.entries == w.entries)))))) := by
  change beq v w = _
  cases v <;> cases w
  case seq.seq p xs q ys =>
    rw [beq_seq]
    simp [rank, flag, number, label, identity, elements, entries]
  case map.map es fs =>
    rw [beq_map]
    simp [rank, flag, number, label, identity, elements, entries]
  all_goals
    simp [beq, decideEqual, rank, flag, number, label, identity, elements, entries, Int64.toInt_inj]

/-- Equality of values is what it is to be. -/
theorem beq_iff (v w : Value) : (v == w) = true ↔ Equal v w := by
  induction v using induct_parts generalizing w with
  | parts v hx he =>
    have hentry : ∀ e ∈ v.entries, ∀ f, (e == f) = true ↔ Equal e.1 f.1 ∧ Equal e.2 f.2 := by
      intro e hm f
      obtain ⟨hk, hv⟩ := he e hm
      rw [← hk, ← hv, ← Bool.and_eq_true]
      rfl
    rw [beq_eq_and, equal_iff]
    simp only [Bool.and_eq_true, beq_iff_eq, beq_list_iff hx, beq_list_iff hentry]

theorem order_eq_iff_beq (k v : Value) : order k v = .eq ↔ (k == v) = true :=
  (order_eq_iff k v).trans (beq_iff k v).symm

/-- Equality can be turned around and goes on over a value in the middle, as comparing does. -/
instance : EquivBEq Value where
  rfl {v} := beq_self v
  symm {v w} h := by
    rw [← order_eq_iff_beq] at h ⊢
    exact Std.OrientedCmp.eq_symm h
  trans {u v w} h h' := by
    rw [← order_eq_iff_beq] at h h' ⊢
    exact Std.TransCmp.eq_trans h h'

theorem digestItems_eq (xs : Rope Value) (tail : List Mark) :
    digestItems xs tail = xs.toList.foldr digestOnto tail := by
  induction xs generalizing tail with
  | nil => rfl
  | node l x r ihl ihr =>
    rw [digestItems, ihl, ihr, Rope.toList_node, List.foldr_append, List.foldr_cons]

theorem digestEntries_eq (es : Rope (Value × Value)) (tail : List Mark) :
    digestEntries es tail =
      es.toList.foldr (fun e tail => digestOnto e.1 (digestOnto e.2 tail)) tail := by
  induction es generalizing tail with
  | nil => rfl
  | node l e r ihl ihr =>
    rw [digestEntries, ihl, ihr, Rope.toList_node, List.foldr_append, List.foldr_cons]

theorem foldr_congr {R : α → α → Prop} {f : α → β → β} {xs ys : List α}
    (h : ∀ x ∈ xs, ∀ y, R x y → f x = f y) (hxy : List.Forall₂ R xs ys) (b : β) :
    xs.foldr f b = ys.foldr f b := by
  induction hxy with
  | nil => rfl
  | cons hR _ ih =>
    obtain ⟨hx, hxs⟩ := List.forall_mem_cons.mp h
    rw [List.foldr_cons, List.foldr_cons, ih hxs, hx _ hR]

/-- Hashing takes in the same marks for equal values. -/
theorem digestOnto_congr {v w : Value} (h : Equal v w) : digestOnto v = digestOnto w := by
  induction v using induct_parts generalizing w with
  | parts v hx he =>
    funext tail
    cases h with
    | seq p q h =>
      rw [digestOnto, digestOnto, digestItems_eq, digestItems_eq]
      exact congrArg _ (foldr_congr hx h tail)
    | map hk hv =>
      rw [digestOnto, digestOnto, digestEntries_eq, digestEntries_eq]
      refine congrArg _ (foldr_congr (fun e hm f hf => ?_) (forall₂_entries.mpr ⟨hk, hv⟩) tail)
      obtain ⟨hk, hv⟩ := he e hm
      rw [hk hf.1, hv hf.2]
    | native h => rw [digestOnto, digestOnto, h]
    | _ => rfl

end Value

/-! ## Names are stored once

Symbols are told apart by where their names are stored, and so are keywords. A name is put where
it is met first and found there from then on. -/

inductive NameKind where
  | symbol | keyword
deriving DecidableEq

def NameKind.value : NameKind → String → Value
  | symbol => .symbol
  | keyword => .keyword

theorem NameKind.equal_value_iff {k l : NameKind} {a b : String} :
    (k.value a).Equal (l.value b) ↔ k = l ∧ a = b := by
  rw [Value.equal_iff]
  cases k <;> cases l <;> simp [value, Value.rank, Value.flag, Value.number, Value.label,
    Value.identity, Value.elements, Value.entries]

/-- The names met so far, in the order in which they were met. -/
structure Interner where
  names : NameKind → List String

/-- Where a name is stored. Names of different kinds are not stored together. -/
structure Place where
  kind : NameKind
  index : Nat
deriving DecidableEq

namespace Interner

def place (t : Interner) (kind : NameKind) (name : String) : Place :=
  ⟨kind, (t.names kind).idxOf name⟩

def add (t : Interner) (kind : NameKind) (name : String) : Interner :=
  if name ∈ t.names kind then t
  else ⟨fun k => if k = kind then t.names k ++ [name] else t.names k⟩

/-- The place of a name, which is stored there if it was not before. -/
def intern (t : Interner) (kind : NameKind) (name : String) : Place × Interner :=
  ((t.add kind name).place kind name, t.add kind name)

/-- Whatever else is stored after a name. -/
def addAll (t : Interner) (names : List (NameKind × String)) : Interner :=
  names.foldl (fun t n => t.add n.1 n.2) t

variable {t : Interner} {kind : NameKind} {name : String}

theorem mem_add : name ∈ (t.add kind name).names kind := by
  unfold add
  split
  · assumption
  · simp

theorem exists_names_add (t : Interner) (k : NameKind) (n : String) (kind : NameKind) :
    ∃ more, (t.add k n).names kind = t.names kind ++ more := by
  unfold add
  split
  · exact ⟨[], by simp⟩
  · by_cases h : kind = k
    · exact ⟨[n], by simp [h]⟩
    · exact ⟨[], by simp [h]⟩

/-- Storing more names leaves the ones there are where they are. -/
theorem exists_names_addAll (t : Interner) (ns : List (NameKind × String)) (kind : NameKind) :
    ∃ more, (t.addAll ns).names kind = t.names kind ++ more := by
  induction ns generalizing t with
  | nil => exact ⟨[], by simp [addAll]⟩
  | cons n ns ih =>
    obtain ⟨more, hmore⟩ := exists_names_add t n.1 n.2 kind
    obtain ⟨rest, hrest⟩ := ih (t.add n.1 n.2)
    exact ⟨more ++ rest, by rw [addAll, List.foldl_cons, ← addAll, hrest, hmore, List.append_assoc]⟩

theorem place_of_names_append {u : Interner} {more : List String}
    (h : u.names kind = t.names kind ++ more) (hm : name ∈ t.names kind) :
    u.place kind name = t.place kind name := by
  rw [place, place, h, List.idxOf_append_of_mem hm]

/-- Two names are stored at one place if and only if they are the same name of the same kind,
however many others were stored between them. -/
theorem intern_eq_iff (t : Interner) (between : List (NameKind × String)) (k l : NameKind)
    (a b : String) :
    (t.intern k a).1 = (((t.intern k a).2.addAll between).intern l b).1 ↔ k = l ∧ a = b := by
  have hlast : b ∈ (((t.add k a).addAll between).add l b).names l := mem_add
  obtain ⟨more, hmore⟩ := exists_names_addAll (t.add k a) between k
  obtain ⟨rest, hrest⟩ := exists_names_add ((t.add k a).addAll between) l b k
  rw [hmore, List.append_assoc] at hrest
  have hfirst := place_of_names_append hrest mem_add
  have hmem : a ∈ (((t.add k a).addAll between).add l b).names k := by
    rw [hrest]
    exact List.mem_append_left _ mem_add
  rw [intern, intern, ← hfirst]
  constructor
  · intro h
    obtain ⟨rfl, hindex⟩ := Place.mk.inj h
    exact ⟨rfl, (List.idxOf_inj hmem).mp hindex⟩
  · rintro ⟨rfl, rfl⟩
    rfl

end Interner

open Value in
/-- **Comparing, equality and hashing of values are coherent.** The order is total, it finds no
difference exactly where equality holds, equality is the equivalence that looks through the
shapes of sequences, and equal values are hashed alike. Telling names apart by where they are
stored, as equality and hashing may do, agrees with telling them apart by their text. -/
theorem order_coherent :
    (∀ u v, order v u = (order u v).swap) ∧
    (∀ u v w, (order u v).isLE → (order v w).isLE → (order u w).isLE) ∧
    (∀ u v w, order u v = .lt → order v w = .lt → order u w = .lt) ∧
    (∀ u v, order u v = .eq ↔ (u == v) = true) ∧
    Equivalence (fun u v : Value => (u == v) = true) ∧
    (∀ u v : Value, (u == v) = true ↔ Equal u v) ∧
    (∀ u v : Value, (u == v) = true → digest u = digest v) ∧
    (∀ (t : Interner) (between : List (NameKind × String)) (k l : NameKind) (a b : String),
      (t.intern k a).1 = (((t.intern k a).2.addAll between).intern l b).1 ↔
        (k.value a == l.value b) = true) := by
  have hbeq (u v : Value) : order u v = .eq ↔ (u == v) = true := by rw [order_eq_iff, beq_iff]
  refine ⟨fun u v => Std.OrientedCmp.eq_swap, fun u v w => Std.TransCmp.isLE_trans,
    fun u v w => Std.TransCmp.lt_trans, hbeq, ⟨beq_self, fun {u v} h => ?_, fun {u v w} h h' => ?_⟩,
    beq_iff, fun u v h => ?_, fun t between k l a b => ?_⟩
  · rw [← hbeq] at h ⊢
    exact Std.OrientedCmp.eq_symm h
  · rw [← hbeq] at h h' ⊢
    exact Std.TransCmp.eq_trans h h'
  · rw [digest, digest, digestOnto_congr ((beq_iff u v).mp h)]
  · rw [Interner.intern_eq_iff, beq_iff, NameKind.equal_value_iff]

/-- A vector as a key stands for the list of the same elements. -/
example : (Value.map (.ofList [(.vector [.int 1], .nil)]) ==
    Value.map (.ofList [(.list [.int 1], .nil)])) = true := by decide +kernel

end Lisplet

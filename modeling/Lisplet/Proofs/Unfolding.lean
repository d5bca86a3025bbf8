import Lisplet.Proofs.RoundTrip.Lexing
import Mathlib.Data.Finset.Card
import Mathlib.Logic.Relation

/-! The texts of values with atoms in them. Atoms may hold each other and themselves, so opening
every atom on the way into a value need not come to an end. It does when a way stops where it meets
an atom that was opened on it before: there are only so many atoms that are not opened yet, and
between two of them only the parts of one value. What is written is the value opened like this, and
an atom that stands beside itself, but not inside, is opened each time. -/

namespace Lisplet

/-- A value with its atoms opened. -/
inductive Unfolding where
  /-- A value that consists of no others. -/
  | leaf (v : Value)
  | bracketed (b : Bracket) (parts : List Unfolding)
  | atom (u : Unfolding)
  /-- An atom inside itself, which is not opened again. -/
  | cut

namespace Value

/-- The value is not written with the help of others. -/
def isLeaf : Value → Bool
  | seq .. | map _ | atom _ => false
  | _ => true

/-- The text of a value that consists of no others. -/
def leafText (style : Style) (v : Value) : List Char := v.write style (fun _ => cutAtom) []

/-- The atom stands somewhere in the value, as it is without opening any. -/
inductive Contains (i : AtomId) : Value → Prop where
  | atom : Contains i (.atom i)
  | item (hx : x ∈ xs.toList) (h : Contains i x) : Contains i (.seq shape xs)
  | part (hx : x ∈ alternating es.toList) (h : Contains i x) : Contains i (.map es)

end Value

/-- What an atom holds. -/
def content (cells : Array Value) (i : AtomId) : Value := cells[i]?.getD .nil

/-- The second atom stands in what the first one holds. -/
def Holds (cells : Array Value) (i j : AtomId) : Prop := (content cells i).Contains j

namespace Unfolding

mutual
def text (style : Style) : Unfolding → List Char
  | leaf v => v.leafText style
  | bracketed b parts => b.opener :: ([' '].intercalate (texts style parts) ++ [b.closer])
  | atom u => "(atom ".toList ++ (text style u ++ [')'])
  | cut => Value.cutAtom []
termination_by structural u => u

def texts (style : Style) : List Unfolding → List (List Char)
  | [] => []
  | u :: us => text style u :: texts style us
termination_by structural us => us
end

theorem text_bracketed (style : Style) (b : Bracket) (parts : List Unfolding) (tail : List Char) :
    text style (bracketed b parts) ++ tail =
      b.opener :: ([' '].intercalate (texts style parts) ++ b.closer :: tail) :=
  congrArg (b.opener :: ·) (List.append_assoc ..)

theorem text_atom (style : Style) (u : Unfolding) (tail : List Char) :
    text style (atom u) ++ tail = "(atom ".toList ++ (text style u ++ ')' :: tail) := by
  change "(atom ".toList ++ (text style u ++ [')']) ++ tail = _
  rw [List.append_assoc, List.append_assoc, List.singleton_append]

/-- Some atom is not opened. -/
inductive HasCut : Unfolding → Prop where
  | cut : HasCut .cut
  | part (hu : u ∈ parts) (h : HasCut u) : HasCut (.bracketed b parts)
  | atom (h : HasCut u) : HasCut (.atom u)

end Unfolding

mutual

/-- The unfolding of a value that is met on a way on which some atoms are open. -/
inductive Unfolds (cells : Array Value) : List AtomId → Value → Unfolding → Prop where
  | leaf (h : v.isLeaf) : Unfolds cells path v (.leaf v)
  | seq (h : UnfoldsAll cells path xs.toList parts) :
    Unfolds cells path (.seq shape xs) (.bracketed shape.bracket parts)
  | map (h : UnfoldsAll cells path (Value.alternating es.toList) parts) :
    Unfolds cells path (.map es) (.bracketed .curly parts)
  | cut (h : i ∈ path) : Unfolds cells path (.atom i) .cut
  | atom (hi : i ∉ path) (h : Unfolds cells (i :: path) (content cells i) u) :
    Unfolds cells path (.atom i) (.atom u)

/-- The unfoldings of values that stand beside each other. -/
inductive UnfoldsAll (cells : Array Value) : List AtomId → List Value → List Unfolding → Prop where
  | nil : UnfoldsAll cells path [] []
  | cons (h : Unfolds cells path v u) (hs : UnfoldsAll cells path vs us) :
    UnfoldsAll cells path (v :: vs) (u :: us)

end

mutual

/-- A value is written by someone who keeps a stack of the atoms that are open. It is given as it is
before and as it is left behind, the innermost atom first. -/
inductive Writes (style : Style) (cells : Array Value) :
    List AtomId → Value → List Char → List AtomId → Prop where
  | leaf (h : v.isLeaf) : Writes style cells stack v (v.leafText style) stack
  | seq (h : WritesAll style cells stack xs.toList texts left) :
    Writes style cells stack (.seq shape xs)
      (shape.bracket.opener :: ([' '].intercalate texts ++ [shape.bracket.closer])) left
  | map (h : WritesAll style cells stack (Value.alternating es.toList) texts left) :
    Writes style cells stack (.map es)
      (Bracket.curly.opener :: ([' '].intercalate texts ++ [Bracket.curly.closer])) left
  | cut (h : i ∈ stack) : Writes style cells stack (.atom i) (Value.cutAtom []) stack
  /-- The atom is put on the stack, and whatever lies on top is taken off afterwards. -/
  | atom (hi : i ∉ stack) (h : Writes style cells (i :: stack) (content cells i) cs left) :
    Writes style cells stack (.atom i) ("(atom ".toList ++ (cs ++ [')'])) left.tail

/-- Values are written one after the other, each with the stack that the one before left behind. -/
inductive WritesAll (style : Style) (cells : Array Value) :
    List AtomId → List Value → List (List Char) → List AtomId → Prop where
  | nil : WritesAll style cells stack [] [] stack
  | cons (h : Writes style cells stack v cs between)
    (hs : WritesAll style cells between vs texts left) :
    WritesAll style cells stack (v :: vs) (cs :: texts) left

end

/-! ## Every value has one unfolding -/

mutual

theorem Unfolds.unique {cells : Array Value} {path : List AtomId} {v : Value} {u u' : Unfolding}
    (h : Unfolds cells path v u) (h' : Unfolds cells path v u') : u = u' := by
  match h, h' with
  | .leaf _, .leaf _ => rfl
  | .seq hs, .seq hs' => rw [UnfoldsAll.unique hs hs']
  | .map hs, .map hs' => rw [UnfoldsAll.unique hs hs']
  | .cut _, .cut _ => rfl
  | .cut hi, .atom hn _ => exact absurd hi hn
  | .atom hn _, .cut hi => exact absurd hi hn
  | .atom _ hu, .atom _ hu' => rw [Unfolds.unique hu hu']

theorem UnfoldsAll.unique {cells : Array Value} {path : List AtomId} {vs : List Value}
    {us us' : List Unfolding} (h : UnfoldsAll cells path vs us)
    (h' : UnfoldsAll cells path vs us') : us = us' := by
  match h, h' with
  | .nil, .nil => rfl
  | .cons hu hs, .cons hu' hs' => rw [Unfolds.unique hu hu', UnfoldsAll.unique hs hs']

end

section

variable {cells : Array Value} {path : List AtomId} {vs : List Value} {i : AtomId}

/-- How many atoms are there that are not open yet. -/
def unopened (cells : Array Value) (path : List AtomId) : Nat :=
  (Finset.range cells.size \ path.toFinset).card

theorem unopened_lt (hi : i ∉ path) (hlt : i < cells.size) :
    unopened cells (i :: path) < unopened cells path := by
  rw [unopened, List.toFinset_cons, Finset.sdiff_insert]
  exact Finset.card_erase_lt_of_mem (by simp [hi, hlt])

theorem unopened_nil : unopened cells [] = cells.size := by
  rw [unopened, List.toFinset_nil, Finset.sdiff_empty, Finset.card_range]

theorem content_eq_nil (hi : ¬ i < cells.size) : content cells i = .nil := by
  rw [content, Array.getElem?_eq_none (Nat.le_of_not_lt hi)]
  rfl

theorem UnfoldsAll.exists (h : ∀ x ∈ vs, ∃ u, Unfolds cells path x u) :
    ∃ us, UnfoldsAll cells path vs us := by
  induction vs with
  | nil => exact ⟨[], .nil⟩
  | cons v vs ih =>
    obtain ⟨hv, hvs⟩ := List.forall_mem_cons.mp h
    obtain ⟨u, hu⟩ := hv
    obtain ⟨us, hus⟩ := ih hvs
    exact ⟨u :: us, .cons hu hus⟩

theorem Unfolds.exists (cells : Array Value) (path : List AtomId) (v : Value) :
    ∃ u, Unfolds cells path v u := by
  -- First come the atoms that are not open yet, then, with those as they are, the parts of a value.
  induction hn : unopened cells path using Nat.strongRecOn generalizing path v with
  | ind n ih =>
    induction v using Value.induct with
    | seq shape xs ihs =>
      obtain ⟨us, hus⟩ := UnfoldsAll.exists ihs
      exact ⟨_, .seq hus⟩
    | map es ihs =>
      obtain ⟨us, hus⟩ := UnfoldsAll.exists
        (Value.forall_alternating (fun e he => (ihs e he).1) fun e he => (ihs e he).2)
      exact ⟨_, .map hus⟩
    | atom i =>
      by_cases hi : i ∈ path
      · exact ⟨_, .cut hi⟩
      · by_cases hlt : i < cells.size
        · obtain ⟨u, hu⟩ := ih _ (hn ▸ unopened_lt hi hlt) (i :: path) (content cells i) rfl
          exact ⟨_, .atom hi hu⟩
        · exact ⟨_, .atom hi (.leaf (content_eq_nil hlt ▸ rfl))⟩
    | nil | bool | int | str | keyword | symbol | native | closure => exact ⟨_, .leaf rfl⟩

end

/-! ## What is written -/

mutual

/-- An unfolding is written with the stack as it is, and leaves it so. -/
theorem Unfolds.writes {cells : Array Value} {path : List AtomId} {v : Value} {u : Unfolding}
    (h : Unfolds cells path v u) (style : Style) :
    Writes style cells path v (u.text style) path := by
  match h with
  | .leaf hv => exact .leaf hv
  | .seq hs => exact .seq (UnfoldsAll.writes hs style)
  | .map hs => exact .map (UnfoldsAll.writes hs style)
  | .cut hi => exact .cut hi
  | .atom hi hu => exact .atom hi (Unfolds.writes hu style)

theorem UnfoldsAll.writes {cells : Array Value} {path : List AtomId} {vs : List Value}
    {us : List Unfolding} (h : UnfoldsAll cells path vs us) (style : Style) :
    WritesAll style cells path vs (Unfolding.texts style us) path := by
  match h with
  | .nil => exact .nil
  | .cons hu hs => exact .cons (Unfolds.writes hu style) (UnfoldsAll.writes hs style)

end

mutual

/-- Whatever is written is the unfolding, and the stack is left as it was. -/
theorem Writes.unfolds {style : Style} {cells : Array Value} {stack left : List AtomId}
    {v : Value} {cs : List Char} (h : Writes style cells stack v cs left) :
    ∃ u, Unfolds cells stack v u ∧ cs = u.text style ∧ left = stack := by
  match h with
  | .leaf hv => exact ⟨_, .leaf hv, rfl, rfl⟩
  | .seq hs =>
    obtain ⟨us, hus, rfl, rfl⟩ := WritesAll.unfolds hs
    exact ⟨_, .seq hus, rfl, rfl⟩
  | .map hs =>
    obtain ⟨us, hus, rfl, rfl⟩ := WritesAll.unfolds hs
    exact ⟨_, .map hus, rfl, rfl⟩
  | .cut hi => exact ⟨_, .cut hi, rfl, rfl⟩
  | .atom hi hw =>
    obtain ⟨u, hu, rfl, rfl⟩ := Writes.unfolds hw
    exact ⟨_, .atom hi hu, rfl, rfl⟩

theorem WritesAll.unfolds {style : Style} {cells : Array Value} {stack left : List AtomId}
    {vs : List Value} {texts : List (List Char)} (h : WritesAll style cells stack vs texts left) :
    ∃ us, UnfoldsAll cells stack vs us ∧ texts = Unfolding.texts style us ∧ left = stack := by
  match h with
  | .nil => exact ⟨_, .nil, rfl, rfl⟩
  | .cons hw hs =>
    obtain ⟨u, hu, rfl, rfl⟩ := Writes.unfolds hw
    obtain ⟨us, hus, rfl, rfl⟩ := WritesAll.unfolds hs
    exact ⟨_, .cons hu hus, rfl, rfl⟩

end

namespace Value

theorem exists_leafText {v : Value} (hv : v.isLeaf) (style : Style) :
    ∃ cs, ∀ atomText tail, v.write style atomText tail = cs ++ tail := by
  cases v with
  | seq | map | atom => contradiction
  | nil => exact ⟨"nil".toList, fun _ _ => rfl⟩
  | bool b =>
    cases b with
    | true => exact ⟨"true".toList, fun _ _ => rfl⟩
    | false => exact ⟨"false".toList, fun _ _ => rfl⟩
  | int n => exact ⟨Word.digits n, fun _ _ => rfl⟩
  | str s => exact ⟨writeString style s [], fun _ tail => (writeString_append s [] tail).symm⟩
  | keyword name => exact ⟨(Keyword.text name).toList, fun _ _ => rfl⟩
  | symbol name => exact ⟨name.toList, fun _ _ => rfl⟩
  | native f => exact ⟨("#<native-fn " ++ f.name ++ ">").toList, fun _ _ => rfl⟩
  | closure => exact ⟨"#<function>".toList, fun _ _ => rfl⟩

theorem write_leaf {v : Value} (hv : v.isLeaf) (style : Style)
    (atomText : AtomId → List Char → List Char) (tail : List Char) :
    v.write style atomText tail = v.leafText style ++ tail := by
  obtain ⟨cs, hcs⟩ := exists_leafText hv style
  rw [leafText, hcs, hcs, List.append_nil]

theorem writeAtom_cut {cells : Array Value} {path : List AtomId} {i : AtomId} (hi : i ∈ path)
    (style : Style) (fuel : Nat) (tail : List Char) :
    writeAtom style cells (fuel + 1) path i tail = cutAtom tail := by
  rw [writeAtom, if_pos (List.contains_iff_mem.mpr hi)]

theorem writeAtom_open {cells : Array Value} {path : List AtomId} {i : AtomId} (hi : i ∉ path)
    (style : Style) (fuel : Nat) (tail : List Char) :
    writeAtom style cells (fuel + 1) path i tail = "(atom ".toList ++
      (content cells i).write style (writeAtom style cells fuel (i :: path)) (')' :: tail) := by
  rw [writeAtom, if_neg (mt List.contains_iff_mem.mp hi), content]

end Value

mutual

/-- A bound on the atoms that are opened is not met if there are fewer atoms left. -/
theorem Unfolds.write_eq {cells : Array Value} {path : List AtomId} {v : Value} {u : Unfolding}
    (h : Unfolds cells path v u) (style : Style) {fuel : Nat} (hn : unopened cells path < fuel)
    (tail : List Char) :
    v.write style (Value.writeAtom style cells fuel path) tail = u.text style ++ tail := by
  match h with
  | .leaf hv => exact Value.write_leaf hv style _ tail
  | .seq hs =>
    rw [Value.write_seq, Value.spaced_eq_intercalate (UnfoldsAll.write_eq hs style hn),
      Unfolding.text_bracketed]
  | .map hs =>
    rw [Value.write_map, Value.spaced_eq_intercalate (UnfoldsAll.write_eq hs style hn),
      Unfolding.text_bracketed]
  | .cut hi =>
    obtain ⟨n, rfl⟩ := Nat.exists_eq_add_one_of_ne_zero (Nat.ne_zero_of_lt hn)
    exact Value.writeAtom_cut hi style n tail
  | .atom (i := i) (u := u) hi hu =>
    obtain ⟨n, rfl⟩ := Nat.exists_eq_add_one_of_ne_zero (Nat.ne_zero_of_lt hn)
    have hinner : (content cells i).write style (Value.writeAtom style cells n (i :: path))
        (')' :: tail) = u.text style ++ ')' :: tail := by
      by_cases hlt : i < cells.size
      · have hless := unopened_lt hi hlt
        exact Unfolds.write_eq hu style (by omega) _
      · have hnil := content_eq_nil hlt
        rw [hnil] at hu ⊢
        cases hu with
        | leaf hv => exact Value.write_leaf hv style _ _
    refine (Value.writeAtom_open hi style n tail).trans ?_
    rw [hinner, Unfolding.text_atom]

theorem UnfoldsAll.write_eq {cells : Array Value} {path : List AtomId} {vs : List Value}
    {us : List Unfolding} (h : UnfoldsAll cells path vs us) (style : Style) {fuel : Nat}
    (hn : unopened cells path < fuel) :
    List.Forall₂ (fun x cs => ∀ tail,
      x.write style (Value.writeAtom style cells fuel path) tail = cs ++ tail) vs
      (Unfolding.texts style us) := by
  match h with
  | .nil => exact .nil
  | .cons hu hs => exact .cons (Unfolds.write_eq hu style hn) (UnfoldsAll.write_eq hs style hn)

end

/-! ## What is cut -/

mutual

/-- If nothing is cut, there is no way without end from the value through atoms. -/
theorem Unfolds.acc {cells : Array Value} {path : List AtomId} {v : Value} {u : Unfolding}
    (h : Unfolds cells path v u) (hn : ¬ u.HasCut) {i : AtomId} (hi : v.Contains i) :
    Acc (Function.swap (Holds cells)) i := by
  match h with
  | .leaf hv => cases hi <;> contradiction
  | .seq hs =>
    obtain _ | ⟨hx, hi⟩ := hi
    exact UnfoldsAll.acc hs (fun _ hu hc => hn (.part hu hc)) hx hi
  | .map hs =>
    obtain _ | _ | ⟨hx, hi⟩ := hi
    exact UnfoldsAll.acc hs (fun _ hu hc => hn (.part hu hc)) hx hi
  | .cut _ => exact absurd .cut hn
  | .atom _ hu =>
    cases hi
    exact .intro _ fun j hj => Unfolds.acc hu (fun hc => hn (.atom hc)) hj

theorem UnfoldsAll.acc {cells : Array Value} {path : List AtomId} {vs : List Value}
    {us : List Unfolding} (h : UnfoldsAll cells path vs us) (hn : ∀ u ∈ us, ¬ u.HasCut)
    {x : Value} (hx : x ∈ vs) {i : AtomId} (hi : x.Contains i) :
    Acc (Function.swap (Holds cells)) i := by
  match h with
  | .cons hu hs =>
    obtain ⟨hn, hns⟩ := List.forall_mem_cons.mp hn
    rcases List.mem_cons.mp hx with rfl | hx
    · exact Unfolds.acc hu hn hi
    · exact UnfoldsAll.acc hs hns hx hi

end

/-- There is a way from the value through atoms to one from which some way leads back to itself, or
to one that is open. -/
def Circles (cells : Array Value) (path : List AtomId) (v : Value) : Prop :=
  ∃ i j, v.Contains i ∧ Relation.ReflTransGen (Holds cells) i j ∧
    (j ∈ path ∨ Relation.TransGen (Holds cells) j j)

theorem Circles.of_contains {cells : Array Value} {path : List AtomId} {v w : Value}
    (h : Circles cells path v) (hw : ∀ i, v.Contains i → w.Contains i) : Circles cells path w := by
  obtain ⟨i, j, hi, hj⟩ := h
  exact ⟨i, j, hw i hi, hj⟩

/-- What an atom holds is open inside it, so a way back there is one in a circle. -/
theorem Circles.open {cells : Array Value} {path : List AtomId} {k : AtomId}
    (h : Circles cells (k :: path) (content cells k)) : Circles cells path (.atom k) := by
  obtain ⟨i, j, hi, hij, hj⟩ := h
  refine ⟨k, j, .atom, hij.head hi, ?_⟩
  rcases hj with hj | hj
  · rcases List.mem_cons.mp hj with rfl | hj
    · exact .inr (.head' hi hij)
    · exact .inl hj
  · exact .inr hj

mutual

theorem Unfolds.circles {cells : Array Value} {path : List AtomId} {v : Value} {u : Unfolding}
    (h : Unfolds cells path v u) (hc : u.HasCut) : Circles cells path v := by
  match h with
  | .leaf _ => nomatch hc
  | .seq hs =>
    obtain _ | ⟨hu, hc⟩ := hc
    obtain ⟨x, hx, hcx⟩ := UnfoldsAll.circles hs hu hc
    exact hcx.of_contains fun _ => .item hx
  | .map hs =>
    obtain _ | ⟨hu, hc⟩ := hc
    obtain ⟨x, hx, hcx⟩ := UnfoldsAll.circles hs hu hc
    exact hcx.of_contains fun _ => .part hx
  | .cut hi => exact ⟨_, _, .atom, .refl, .inl hi⟩
  | .atom _ hu =>
    obtain _ | _ | ⟨hc⟩ := hc
    exact (Unfolds.circles hu hc).open

theorem UnfoldsAll.circles {cells : Array Value} {path : List AtomId} {vs : List Value}
    {us : List Unfolding} (h : UnfoldsAll cells path vs us) {u : Unfolding} (hu : u ∈ us)
    (hc : u.HasCut) : ∃ x ∈ vs, Circles cells path x := by
  match h with
  | .cons hv hs =>
    rcases List.mem_cons.mp hu with heq | hu
    · exact ⟨_, List.mem_cons_self, Unfolds.circles hv (heq ▸ hc)⟩
    · obtain ⟨x, hx, hcx⟩ := UnfoldsAll.circles hs hu hc
      exact ⟨x, List.mem_cons_of_mem _ hx, hcx⟩

end

/-- Something is cut just if a circle of atoms can be reached. -/
theorem Unfolds.hasCut_iff {cells : Array Value} {v : Value} {u : Unfolding}
    (h : Unfolds cells [] v u) :
    u.HasCut ↔ ∃ i j, v.Contains i ∧ Relation.ReflTransGen (Holds cells) i j ∧
      Relation.TransGen (Holds cells) j j := by
  constructor
  · intro hc
    obtain ⟨i, j, hi, hij, hj⟩ := h.circles hc
    exact ⟨i, j, hi, hij, hj.resolve_left List.not_mem_nil⟩
  · rintro ⟨i, j, hi, hij, hj⟩
    refine Classical.byContradiction fun hn => ?_
    have hfrom : ∀ k, Relation.ReflTransGen (Holds cells) i k →
        Acc (Function.swap (Holds cells)) k := by
      intro k hk
      induction hk with
      | refl => exact h.acc hn hi
      | tail _ hlast ih => exact ih.inv hlast
    have hacc : Acc (Relation.TransGen (Function.swap (Holds cells))) j :=
      acc_transGen_iff.mpr (hfrom j hij)
    have hback : Relation.TransGen (Function.swap (Holds cells)) j j :=
      Relation.transGen_swap.mpr hj
    clear hij hj
    induction hacc with
    | intro j _ ih => exact ih j hback hback

/-- **What is written is the unfolding.** Whatever atoms hold, be it themselves, every value has one
unfolding at each point of a way on which some atoms are open. Writing the value with these on the
stack comes to an end with the text of that unfolding and with the stack as it was, and in no other
way. The text of a value is that of its unfolding, whatever bound there is on how many atoms are
opened inside each other, if only it is more than there are; and something is cut in it just if an
atom that is reached from the value leads back to itself. -/
theorem text_is_unfolding (style : Style) (cells : Array Value) :
    (∀ path v, ∃ u, Unfolds cells path v u ∧ (∀ u', Unfolds cells path v u' → u' = u) ∧
      ∀ cs left, Writes style cells path v cs left ↔ cs = u.text style ∧ left = path) ∧
    ∀ v u, Unfolds cells [] v u →
      v.text style cells = String.ofList (u.text style) ∧
      (∀ bound > cells.size, ∀ tail,
        v.write style (Value.writeAtom style cells bound []) tail = u.text style ++ tail) ∧
      (u.HasCut ↔ ∃ i j, v.Contains i ∧ Relation.ReflTransGen (Holds cells) i j ∧
        Relation.TransGen (Holds cells) j j) := by
  refine ⟨fun path v => ?_, fun v u hu => ⟨?_, fun bound hb tail => ?_, hu.hasCut_iff⟩⟩
  · obtain ⟨u, hu⟩ := Unfolds.exists cells path v
    refine ⟨u, hu, fun u' hu' => hu'.unique hu, fun cs left => ⟨fun hw => ?_, ?_⟩⟩
    · obtain ⟨u', hu', hcs, hleft⟩ := hw.unfolds
      exact ⟨hu'.unique hu ▸ hcs, hleft⟩
    · rintro ⟨rfl, rfl⟩
      exact hu.writes style
  · rw [Value.text_eq_ofList, Value.writeIn, hu.write_eq style (by rw [unopened_nil]; omega),
      List.append_nil]
  · exact hu.write_eq style (by rw [unopened_nil]; exact hb) tail

/-- An atom that holds a list with itself in it, and another atom twice. -/
theorem text_is_unfolding_circle :
    let cells := #[.list [.int 1, .atom 0, .atom 1, .atom 1], .vector []]
    Value.text .readable cells (.atom 0) = "(atom (1 (atom ...) (atom []) (atom [])))" := by
  intro cells
  have hempty : Unfolds cells [1, 0] (content cells 1) (.bracketed Shape.vector.bracket []) := by
    refine .seq ?_
    rw [Rope.toList_ofList]
    exact .nil
  have hother : Unfolds cells [0] (.atom 1) (.atom (.bracketed .square [])) :=
    .atom (by decide) hempty
  have hitems : Unfolds cells [0] (content cells 0) (.bracketed Shape.list.bracket
      [.leaf (.int 1), .cut, .atom (.bracketed .square []), .atom (.bracketed .square [])]) := by
    refine .seq ?_
    rw [Rope.toList_ofList]
    exact .cons (.leaf rfl) (.cons (.cut (by decide)) (.cons hother (.cons hother .nil)))
  exact ((text_is_unfolding .readable cells).2 (.atom 0) _ (.atom (by decide) hitems)).1

end Lisplet

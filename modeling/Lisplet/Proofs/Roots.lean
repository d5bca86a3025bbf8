import Lisplet.Proofs.RunLaws

/-! Who can ask which root frames to evaluate. Only the function `eval` of a root evaluates
there, and no function of the language makes a new one: what a program gets hold of is among
the roots whose `eval` it began with. -/

namespace Lisplet

variable {R : FrameId → Prop}

/-! ## Values -/

namespace Value

mutual
/-- Every `eval` in a value, in the body of a closure too, is that of one of the roots. -/
def Within (R : FrameId → Prop) : Value → Prop
  | native (.evalIn root) => R root
  | seq _ xs => ItemsWithin R xs
  | map es => EntriesWithin R es
  | closure _ _ body _ => Within R body
  | _ => True
termination_by structural v => v

def ItemsWithin (R : FrameId → Prop) : Rope Value → Prop
  | .nil => True
  | .node l x r => ItemsWithin R l ∧ Within R x ∧ ItemsWithin R r
termination_by structural xs => xs

def EntriesWithin (R : FrameId → Prop) : Rope (Value × Value) → Prop
  | .nil => True
  | .node l (k, v) r => EntriesWithin R l ∧ Within R k ∧ Within R v ∧ EntriesWithin R r
termination_by structural es => es
end

@[simp] theorem within_seq {shape : Shape} {xs : Rope Value} :
    (seq shape xs).Within R ↔ ∀ x ∈ xs.toList, x.Within R := by
  change ItemsWithin R xs ↔ _
  induction xs with
  | nil => simp [ItemsWithin]
  | node l x r ihl ihr =>
    simp only [ItemsWithin, ihl, ihr, Rope.toList_node, List.forall_mem_append,
      List.forall_mem_cons]

@[simp] theorem within_map {es : Rope (Value × Value)} :
    (map es).Within R ↔ ∀ e ∈ es.toList, e.1.Within R ∧ e.2.Within R := by
  change EntriesWithin R es ↔ _
  induction es with
  | nil => simp [EntriesWithin]
  | node l e r ihl ihr =>
    simp only [EntriesWithin, ihl, ihr, Rope.toList_node, List.forall_mem_append,
      List.forall_mem_cons, and_assoc]

@[simp] theorem within_list {xs : List Value} : (list xs).Within R ↔ ∀ x ∈ xs, x.Within R := by
  simp [list]

@[simp] theorem within_vector {xs : List Value} :
    (vector xs).Within R ↔ ∀ x ∈ xs, x.Within R := by
  simp [vector]

theorem mem_union {es fs : List (Value × Value)} {e : Value × Value} (h : e ∈ union es fs) :
    e ∈ es ∨ e ∈ fs := by
  fun_induction union es fs <;> grind

theorem mem_entriesOf {ps : List (Value × Value)} {e : Value × Value} (h : e ∈ entriesOf ps) :
    e ∈ ps := by
  fun_induction entriesOf ps with
  | case1 => exact h
  | case2 p => exact h
  | case3 p q ps half ih₁ ih₂ =>
    rcases mem_union h with h | h
    · exact List.mem_of_mem_take (ih₁ h)
    · exact List.mem_of_mem_drop (ih₂ h)

theorem within_mapOf {ps : List (Value × Value)} (h : ∀ e ∈ ps, e.1.Within R ∧ e.2.Within R) :
    (mapOf ps).Within R := by
  rw [mapOf, within_map, Rope.toList_ofList]
  exact fun e he => h e (mem_entriesOf he)

end Value

/-! ## Code made from code -/

namespace Template

theorem argumentOf?_eq_some_iff {name : String} {v x : Value} :
    argumentOf? name v = some x ↔ ∃ xs, v = .seq .list xs ∧ xs.toList = [.symbol name, x] := by
  constructor
  · intro h
    unfold argumentOf? at h
    split at h
    · next xs =>
      split at h
      · split at h
        · next s y hl =>
          split at h
          · next hs =>
            cases h
            exact ⟨xs, rfl, hs ▸ hl⟩
          · contradiction
        · contradiction
      · contradiction
    · contradiction
  · rintro ⟨xs, rfl, hx⟩
    simp [argumentOf?, Rope.size_eq, hx]

theorem within_argumentOf? {name : String} {v x : Value} (h : argumentOf? name v = some x)
    (hv : v.Within R) : x.Within R := by
  obtain ⟨xs, rfl, hx⟩ := argumentOf?_eq_some_iff.mp h
  rw [Value.within_seq, hx] at hv
  exact hv x (.tail _ (.head _))

theorem within_call {name : String} {args : List Value} (h : ∀ a ∈ args, a.Within R) :
    (call name args).Within R := by
  rw [call, Value.within_list, List.forall_mem_cons]
  exact ⟨trivial, h⟩

mutual

theorem within_expand (v : Value) (hv : v.Within R) : (expand v).Within R := by
  match v with
  | .seq .list xs =>
    rw [expand]
    split
    · next h => exact within_argumentOf? h hv
    · exact within_expandItems xs _ hv (by simp)
  | .seq .vector xs =>
    rw [expand]
    exact within_call (by simpa using within_expandItems xs (.list []) hv (by simp))
  | .symbol name => exact within_call (by simpa using hv)
  | .map es => exact within_call (by simpa using hv)
  | .nil | .bool _ | .int _ | .str _ | .keyword _ | .native _ | .closure .. | .atom _ => exact hv
termination_by structural v

theorem within_expandItems (xs : Rope Value) (rest : Value) (hx : Value.ItemsWithin R xs)
    (hr : rest.Within R) : (expandItems xs rest).Within R := by
  match xs with
  | .nil => exact hr
  | .node l x r =>
    obtain ⟨hl, hx, hrest⟩ := hx
    have hright : (expandItems r rest).Within R := within_expandItems r rest hrest hr
    rw [expandItems]
    refine within_expandItems l _ hl ?_
    split
    · next y h => exact within_call (by simpa using ⟨within_argumentOf? h hx, hright⟩)
    · exact within_call (by simpa using ⟨within_expand x hx, hright⟩)
termination_by structural xs

end

end Template

theorem Form.mem_pairs? {xs : List Value} {ps : List (Value × Value)} (h : pairs? xs = some ps) :
    ∀ p ∈ ps, p.1 ∈ xs ∧ p.2 ∈ xs := by
  fun_induction pairs? xs generalizing ps with
  | case1 =>
    cases h
    simp
  | case2 => contradiction
  | case3 k v rest ih =>
    obtain ⟨qs, hq, rfl⟩ := Option.map_eq_some_iff.mp h
    intro p hp
    rcases List.mem_cons.mp hp with rfl | hp
    · simp
    · obtain ⟨hk, hv⟩ := ih hq p hp
      exact ⟨by simp [hk], by simp [hv]⟩

theorem Value.within_items? {v : Value} {xs : Rope Value} (h : v.items? = some xs)
    (hv : v.Within R) : ∀ x ∈ xs.toList, x.Within R := by
  cases v with
  | seq shape ys =>
    cases h
    exact within_seq.mp hv
  | _ => contradiction

/-- Every `eval` in a part of a special form is that of one of the roots. -/
def Clause.Within (R : FrameId → Prop) : Clause → Prop
  | define _ form => form.Within R
  | bind bindings body => (∀ b ∈ bindings, b.2.Within R) ∧ body.Within R
  | sequence effects last => (∀ form ∈ effects, form.Within R) ∧ last.Within R
  | branch condition consequent alternative =>
    condition.Within R ∧ consequent.Within R ∧ (alternative.getD .nil).Within R
  | lambda _ body => body.Within R
  | quote form => form.Within R
  | quasiquote template => template.Within R
  | expand template => template.Within R
  | malformed _ _ => True

theorem SpecialForm.within_clause (f : SpecialForm) {args : List Value}
    (h : ∀ a ∈ args, a.Within R) : (f.clause args).Within R := by
  fun_cases clause f args
  any_goals exact trivial
  case case6 bindings body items hi ps hp =>
    have hs : ∀ x ∈ items.toList, x.Within R := Value.within_items? hi (h bindings (by simp))
    exact ⟨fun b hb => hs b.2 (Form.mem_pairs? hp b hb).2, h body (by simp)⟩
  case case9 last hl =>
    exact ⟨fun form hf => h form (List.dropLast_subset _ hf),
      h last (List.mem_of_getLast? hl)⟩
  case case10 => exact ⟨h _ (by simp), h _ (by simp), trivial⟩
  case case11 => exact ⟨h _ (by simp), h _ (by simp), h _ (by simp)⟩
  all_goals exact h _ (by simp)

theorem Value.within_clause? {form : Value} {c : Clause} (hc : form.clause? = some c)
    (h : form.Within R) : c.Within R := by
  unfold clause? at hc
  split at hc
  · obtain ⟨f, -, rfl⟩ := Option.map_eq_some_iff.mp hc
    rw [within_seq] at h
    exact f.within_clause fun a ha => h a (List.mem_of_mem_tail ha)
  · contradiction

/-! ## Reading -/

namespace Form

/-- Every `eval` in what an open form has so far is that of one of the roots. -/
def Open.Within (R : FrameId → Prop) : Open → Prop
  | bracket _ done => ∀ v ∈ done, v.Within R
  | tagging data => data.Within R
  | _ => True

/-- What open forms and a finished one have become. -/
def Delivered (R : FrameId → Prop) : Value ⊕ List Open → Prop
  | .inl v => v.Within R
  | .inr opened => ∀ o ∈ opened, o.Within R

theorem within_deliver {opened : List Open} {v : Value} (ho : ∀ o ∈ opened, o.Within R)
    (hv : v.Within R) : Delivered R (deliver opened v) := by
  fun_induction deliver opened v with
  | case1 v => exact hv
  | case2 v b done outer =>
    obtain ⟨hb, ho⟩ := List.forall_mem_cons.mp ho
    exact List.forall_mem_cons.mpr ⟨List.forall_mem_cons.mpr ⟨hv, hb⟩, ho⟩
  | case3 v s outer ih =>
    refine ih (List.forall_mem_cons.mp ho).2 ?_
    simpa [marked] using ⟨trivial, hv⟩
  | case4 v outer => exact List.forall_mem_cons.mpr ⟨hv, (List.forall_mem_cons.mp ho).2⟩
  | case5 v data outer ih =>
    obtain ⟨hd, ho⟩ := List.forall_mem_cons.mp ho
    refine ih ho ?_
    simpa [tagged] using ⟨trivial, hv, hd⟩

theorem within_bracketed {b : Bracket} {items : List Value} {v : Value}
    (h : bracketed b items = .ok v) (hi : ∀ x ∈ items, x.Within R) : v.Within R := by
  unfold bracketed at h
  split at h
  · cases h
    exact Value.within_list.mpr hi
  · cases h
    exact Value.within_vector.mpr hi
  · split at h
    · next ps hp =>
      cases h
      refine Value.within_mapOf fun e he => ?_
      obtain ⟨hk, hv⟩ := mem_pairs? hp e he
      exact ⟨hi _ hk, hi _ hv⟩
    · contradiction

theorem within_accept {opened : List Open} {t : Token} {x : Value ⊕ List Open}
    (h : accept opened t = .ok x) (ho : ∀ o ∈ opened, o.Within R) : Delivered R x := by
  unfold accept at h
  split at h
  case h_2 b =>
    split at h
    · next b' done outer =>
      obtain ⟨hd, ho⟩ := List.forall_mem_cons.mp ho
      split at h
      · cases hb : bracketed b done.reverse with
        | error e =>
          rw [hb] at h
          contradiction
        | ok v =>
          rw [hb] at h
          cases h
          exact within_deliver ho (within_bracketed hb fun x hx => hd x (List.mem_reverse.mp hx))
      · contradiction
    · contradiction
  all_goals
    cases h
    first
      | exact within_deliver ho trivial
      | exact List.forall_mem_cons.mpr ⟨by simp [Open.Within], ho⟩

theorem within_readFrom {opened : List Open} {t : Token} {s : Source} {v : Value}
    (h : readFrom opened t s = .ok v) (ho : ∀ o ∈ opened, o.Within R) : v.Within R := by
  fun_induction readFrom opened t s
  any_goals contradiction
  case case3 ha | case6 ha =>
    cases h
    exact within_accept ha ho
  case case7 ha _ ih => exact ih h (within_accept ha ho)

/-- What is read from a text holds no function. -/
theorem within_readFirst {text : String} {v : Value} (h : readFirst text = .ok (some v)) :
    v.Within R := by
  unfold readFirst at h
  split at h
  · cases h
  · contradiction
  · next t behind hn =>
    cases hr : readFrom [] t behind with
    | error e =>
      rw [hr] at h
      contradiction
    | ok v' =>
      rw [hr] at h
      cases h
      exact within_readFrom hr nofun

end Form

/-! ## Functions that only look at their arguments -/

theorem Except.of_map {f : α → β} {x : Except ε α} {b : β} (h : f <$> x = .ok b) :
    ∃ a, x = .ok a ∧ b = f a := by
  cases x with
  | error e => contradiction
  | ok a =>
    cases h
    exact ⟨a, rfl, rfl⟩

theorem Except.of_bind {f : α → Except ε β} {x : Except ε α} {b : β} (h : x >>= f = .ok b) :
    ∃ a, x = .ok a ∧ f a = .ok b := by
  cases x with
  | error e => contradiction
  | ok a => exact ⟨a, rfl, h⟩

theorem Argument.within_items {name : String} {v : Value} {xs : Rope Value}
    (h : items name v = .ok xs) (hv : v.Within R) : ∀ x ∈ xs.toList, x.Within R := by
  unfold items at h
  split at h
  · cases h
    exact Value.within_seq.mp hv
  · cases h
    nofun
  · contradiction

namespace SequenceOp

theorem within_joined {args : List Value} {xs : Rope Value} (h : joined args = .ok xs)
    (ha : ∀ a ∈ args, a.Within R) : ∀ x ∈ xs.toList, x.Within R := by
  induction args generalizing xs with
  | nil =>
    cases h
    nofun
  | cons v vs ih =>
    obtain ⟨hv, hvs⟩ := List.forall_mem_cons.mp ha
    obtain ⟨ys, hy, h⟩ := Except.of_bind h
    obtain ⟨zs, hz, h⟩ := Except.of_bind h
    cases h
    rw [Rope.toList_append]
    exact List.forall_mem_append.mpr ⟨Argument.within_items hy hv, ih hz hvs⟩

theorem within_counted {n : Nat} {v : Value} (h : counted n = .ok v) : v.Within R := by
  unfold counted at h
  split at h
  · cases h
    trivial
  · contradiction

theorem within_run {op : SequenceOp} {args : List Value} {v : Value} (h : op.run args = .ok v)
    (ha : ∀ a ∈ args, a.Within R) : v.Within R := by
  unfold run at h
  split at h
  · cases h
    exact Value.within_list.mpr ha
  · cases h
    exact Value.within_vector.mpr ha
  · cases h
    trivial
  · obtain ⟨xs, -, rfl⟩ := Except.of_map h
    trivial
  · exact within_counted h
  · obtain ⟨xs, -, h⟩ := Except.of_bind h
    exact within_counted h
  · obtain ⟨xs, hx, rfl⟩ := Except.of_map h
    rw [Value.within_seq, Rope.toList_cons]
    exact List.forall_mem_cons.mpr ⟨ha _ (by simp), Argument.within_items hx (ha _ (by simp))⟩
  · obtain ⟨xs, hx, rfl⟩ := Except.of_map h
    exact Value.within_seq.mpr (within_joined hx ha)
  · obtain ⟨xs, hx, rfl⟩ := Except.of_map h
    exact Value.within_seq.mpr (Argument.within_items hx (ha _ (by simp)))
  · obtain ⟨xs, hx, rfl⟩ := Except.of_map h
    have hs : ∀ x ∈ xs.toList, x.Within R := Argument.within_items hx (ha _ (by simp))
    rw [Rope.first?_eq]
    cases hl : xs.toList with
    | nil => trivial
    | cons y ys => exact hs y (by simp [hl])
  · obtain ⟨xs, hx, rfl⟩ := Except.of_map h
    have hs : ∀ x ∈ xs.toList, x.Within R := Argument.within_items hx (ha _ (by simp))
    rw [Value.within_seq, Rope.toList_tail]
    exact fun x hx => hs x (List.mem_of_mem_tail hx)
  · obtain ⟨xs, hx, h⟩ := Except.of_bind h
    obtain ⟨index, -, h⟩ := Except.of_bind h
    have hs : ∀ x ∈ xs.toList, x.Within R := Argument.within_items hx (ha _ (by simp))
    cases hg : at? xs index with
    | none =>
      simp only [hg] at h
      contradiction
    | some x =>
      simp only [hg] at h
      cases h
      rw [at?, Rope.get?_eq] at hg
      split at hg
      · contradiction
      · exact hs _ (List.mem_of_getElem? hg)
  all_goals contradiction

end SequenceOp

theorem Arithmetic.within_run {op : Arithmetic} {args : List Value} {v : Value}
    (h : op.run args = .ok v) : v.Within R := by
  obtain ⟨n, -, rfl⟩ := Except.of_map h
  trivial

theorem Relation.within_run {r : Relation} {args : List Value} {v : Value}
    (h : r.run args = .ok v) : v.Within R := by
  unfold run at h
  split at h
  · contradiction
  · obtain ⟨ns, -, h⟩ := Except.of_bind h
    cases h
    trivial

theorem within_allEqual {args : List Value} {v : Value} (h : allEqual args = .ok v) :
    v.Within R := by
  unfold allEqual at h
  split at h
  · contradiction
  · cases h
    trivial

theorem KindTest.within_run {t : KindTest} {args : List Value} {v : Value}
    (h : t.run args = .ok v) : v.Within R := by
  unfold run at h
  split at h
  · cases h
    trivial
  · contradiction

end Lisplet

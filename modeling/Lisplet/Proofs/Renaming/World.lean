import Lisplet.Proofs.NewRoot
import Lisplet.Proofs.Renaming.Code
import Mathlib.Data.List.Perm.Subperm

/-! Worlds under a renaming. One of the two worlds may hold much else, so a renaming speaks only of
part of it: numbers that stand for each other are in use on both sides and hold the same but for
the numbers in it. What is looked up, bound, made or written is then the same, and whatever the
renaming does not speak of is left alone. -/

namespace Lisplet

variable {ρ σ τ : Renaming}

/-! ## Numbered things -/

namespace Matching

variable {p q r : Matching} {i i' n n' m k : Nat}

/-- Numbers that stand for each other have things in both arrays, and those are related. -/
def Stored (p : Matching) (R : α → β → Prop) (xs : Array α) (ys : Array β) : Prop :=
  ∀ ⦃i i'⦄, p.rel i i' → ∃ x y, xs[i]? = some x ∧ ys[i']? = some y ∧ R x y

/-- Of `m` numbers the first `n` were there before, and those stand for the same as before. -/
structure Extends (p q : Matching) (n m : Nat) : Prop where
  le : ∀ ⦃i i'⦄, p.rel i i' → q.rel i i'
  fresh : ∀ ⦃i i'⦄, q.rel i i' → p.rel i i' ∨ n ≤ i
  grown : n ≤ m

/-- The things whose numbers stand for nothing are the same as before. -/
def Spares (p : Matching) (xs ys : Array α) : Prop :=
  ∀ ⦃i⦄, i < xs.size → (∀ i', ¬ p.rel i i') → ys[i]? = xs[i]?

/-- No number stands for something under both. -/
def Apart (p q : Matching) : Prop := ∀ ⦃i i' j⦄, p.rel i i' → ¬ q.rel i j

theorem Apart.symm (h : p.Apart q) : q.Apart p := fun _ _ _ hq hp => h hp hq

namespace Extends

theorem refl (p : Matching) (n : Nat) : p.Extends p n n :=
  ⟨fun _ _ => id, fun _ _ => .inl, Nat.le_refl n⟩

theorem trans (h : p.Extends q n m) (h' : q.Extends r m k) : p.Extends r n k where
  le _ _ hi := h'.le (h.le hi)
  fresh _ _ hi := by
    rcases h'.fresh hi with hi | hi
    · exact h.fresh hi
    · exact .inr (Nat.le_trans h.grown hi)
  grown := Nat.le_trans h.grown h'.grown

theorem add (h : p.Below n n') : p.Extends (p.add n n' h) n (n + 1) where
  le _ _ := .inl
  fresh _ _ hi := hi.imp_right fun hi => Nat.le_of_eq hi.1.symm
  grown := Nat.le_succ n

/-- What is new to one matching is new to another one that does not know it yet. -/
theorem apart (h : q.Extends r n m) (hp : p.Below n n') (hpq : p.Apart q) : p.Apart r := by
  intro i i' j hi hj
  rcases h.fresh hj with hj | hj
  · exact hpq hi hj
  · exact Nat.not_lt.mpr hj (hp hi).1

end Extends

namespace Spares

theorem refl (p : Matching) (xs : Array α) : p.Spares xs xs := fun _ _ _ => rfl

variable {xs ys zs : Array α}

theorem trans (he : p.Extends q xs.size ys.size) (h : p.Spares xs ys) (h' : q.Spares ys zs) :
    p.Spares xs zs := by
  intro i hi hp
  rw [h' (Nat.lt_of_lt_of_le hi he.grown), h hi hp]
  intro i' hq
  rcases he.fresh hq with hq | hq
  · exact hp i' hq
  · exact Nat.not_lt.mpr hq hi

theorem push (p : Matching) (xs : Array α) (x : α) : p.Spares xs (xs.push x) := by
  intro i hi _
  rw [Array.getElem?_push_lt hi, Array.getElem?_eq_getElem hi]

theorem modify (hi : p.rel i i') (f : α → α) : p.Spares xs (xs.modify i f) := by
  intro j _ hp
  have hij : i ≠ j := fun hij => hp i' (hij ▸ hi)
  rw [Array.getElem?_modify, if_neg hij]

end Spares

namespace Stored

variable {R S : α → β → Prop} {xs : Array α} {ys : Array β} {x : α} {y : β}

theorem below (h : p.Stored R xs ys) : p.Below xs.size ys.size := by
  intro i i' hi
  obtain ⟨x, y, hx, hy, -⟩ := h hi
  exact ⟨(Array.getElem?_eq_some_iff.mp hx).1, (Array.getElem?_eq_some_iff.mp hy).1⟩

theorem imp (h : p.Stored R xs ys) (hRS : ∀ x y, R x y → S x y) : p.Stored S xs ys := by
  intro i i' hi
  obtain ⟨x, y, hx, hy, hxy⟩ := h hi
  exact ⟨x, y, hx, hy, hRS x y hxy⟩

theorem push (h : p.Stored R xs ys) (hxy : R x y) :
    (p.add xs.size ys.size h.below).Stored R (xs.push x) (ys.push y) := by
  rintro i i' (hi | ⟨rfl, rfl⟩)
  · obtain ⟨a, b, ha, hb, hab⟩ := h hi
    obtain ⟨hl, hr⟩ := h.below hi
    refine ⟨a, b, ?_, ?_, hab⟩
    · rw [Array.getElem?_push_lt hl, ← ha, Array.getElem?_eq_getElem hl]
    · rw [Array.getElem?_push_lt hr, ← hb, Array.getElem?_eq_getElem hr]
  · exact ⟨x, y, by simp, by simp, hxy⟩

theorem modify (h : p.Stored R xs ys) (hi : p.rel i i') {f : α → α} {g : β → β}
    (hfg : ∀ x y, R x y → R (f x) (g y)) : p.Stored R (xs.modify i f) (ys.modify i' g) := by
  intro j j' hj
  obtain ⟨a, b, ha, hb, hab⟩ := h hj
  rw [Array.getElem?_modify, Array.getElem?_modify, ha, hb]
  by_cases hij : i = j
  · rw [if_pos hij, if_pos ((p.eq_iff hi hj).mp hij)]
    exact ⟨f a, g b, rfl, rfl, hfg a b hab⟩
  · rw [if_neg hij, if_neg fun h => hij ((p.eq_iff hi hj).mpr h)]
    exact ⟨a, b, rfl, rfl, hab⟩

/-- What others do not speak of they do not change either. -/
theorem of_spares (h : p.Stored R xs ys) {xs' : Array α} (hs : q.Spares xs xs')
    (hpq : p.Apart q) : p.Stored R xs' ys := by
  intro i i' hi
  obtain ⟨x, y, hx, hy, hxy⟩ := h hi
  exact ⟨x, y, (hs (h.below hi).1 fun j => hpq hi).trans hx, hy, hxy⟩

end Stored

end Matching

/-! ## Frames -/

/-- Bindings for the same names of values that are the same but for the numbers in them. -/
def Bindings.Alike (ρ : Renaming) (b b' : Bindings) : Prop :=
  ∀ name : String, Option.Rel (Value.Alike ρ) b[name]? b'[name]?

/-- New bindings, each for the same name on both sides. -/
def NamedAlike (ρ : Renaming) (p q : String × Value) : Prop := p.1 = q.1 ∧ p.2.Alike ρ q.2

/-- Frames that are the same but for the numbers in them. -/
structure Frame.Alike (ρ : Renaming) (f f' : Frame) : Prop where
  parent : Option.Rel ρ.frames.rel f.parent f'.parent
  bindings : f.bindings.Alike ρ f'.bindings

theorem optionRel_imp {R S : α → β → Prop} (h : ∀ a b, R a b → S a b) {x : Option α} {y : Option β}
    (hxy : Option.Rel R x y) : Option.Rel S x y := by
  cases hxy with
  | none => exact .none
  | some hab => exact .some (h _ _ hab)

theorem Frame.Alike.mono {f f' : Frame} (hle : ρ ≤ σ) (h : f.Alike ρ f') : f.Alike σ f' where
  parent := optionRel_imp (fun _ _ hi => hle.frames hi) h.parent
  bindings name := optionRel_imp (fun _ _ hv => hv.mono hle) (h.bindings name)

namespace Bindings.Alike

variable {b b' : Bindings}

theorem empty : Bindings.Alike ρ ∅ ∅ := by
  intro name
  rw [Std.ExtTreeMap.getElem?_empty]
  exact .none

theorem insert (h : b.Alike ρ b') (name : String) {v v' : Value} (hv : v.Alike ρ v') :
    Bindings.Alike ρ (b.insert name v) (b'.insert name v') := by
  intro x
  rw [getElem?_insert_eq, getElem?_insert_eq]
  split
  · exact .some hv
  · exact h x

theorem insertAll (h : b.Alike ρ b') {news news' : List (String × Value)}
    (hn : List.Forall₂ (NamedAlike ρ) news news') :
    (Bindings.insertAll news b).Alike ρ (Bindings.insertAll news' b') := by
  induction hn generalizing b b' with
  | nil => exact h
  | @cons p q ps qs hp _ ih =>
    obtain ⟨x, v⟩ := p
    obtain ⟨y, v'⟩ := q
    obtain ⟨hxy, hv⟩ := hp
    cases hxy
    exact ih (h.insert x hv)

theorem mem_iff (h : b.Alike ρ b') (name : String) : name ∈ b ↔ name ∈ b' := by
  rw [Std.ExtTreeMap.mem_iff_isSome_getElem?, Std.ExtTreeMap.mem_iff_isSome_getElem?]
  have hn := h name
  generalize b[name]? = x at hn ⊢
  generalize b'[name]? = y at hn ⊢
  cases hn <;> rfl

end Bindings.Alike

namespace Frames

variable {fs fs' : Frames} {i i' : FrameId}

theorem alike_own? (h : ρ.frames.Stored (Frame.Alike ρ) fs.all fs'.all) (hi : ρ.frames.rel i i')
    (name : String) : Option.Rel (Value.Alike ρ) (fs.own? i name) (fs'.own? i' name) := by
  obtain ⟨f, f', hf, hf', hff⟩ := h hi
  rw [own?, own?, hf, hf']
  exact hff.bindings name

/-- A name is bound in frames that stand for each other. -/
theorem alike_resolve (h : ρ.frames.Stored (Frame.Alike ρ) fs.all fs'.all)
    (hi : ρ.frames.rel i i') (name : String) :
    Option.Rel ρ.frames.rel (fs.resolve i name) (fs'.resolve i' name) := by
  -- The way outwards leads to older frames on both sides, since the renaming keeps their order.
  induction i using Nat.strongRecOn generalizing i' with
  | _ i ih =>
    obtain ⟨f, f', hf, hf', hff⟩ := h hi
    rw [resolve, resolve, hf, hf']
    simp only [hff.bindings.mem_iff name]
    split
    · exact .some hi
    · have hp := hff.parent
      generalize f.parent = x at hp ⊢
      generalize f'.parent = y at hp ⊢
      cases hp with
      | none => exact .none
      | @some outer outer' ho =>
        simp only [ρ.frames.lt_iff ho hi]
        split
        · next hlt => exact ih outer ((ρ.frames.lt_iff ho hi).mpr hlt) ho
        · exact .none

theorem alike_get? (h : ρ.frames.Stored (Frame.Alike ρ) fs.all fs'.all) (hi : ρ.frames.rel i i')
    (name : String) : Option.Rel (Value.Alike ρ) (fs.get? i name) (fs'.get? i' name) := by
  have ho := alike_resolve h hi name
  rw [get?, get?]
  generalize fs.resolve i name = x at ho ⊢
  generalize fs'.resolve i' name = y at ho ⊢
  cases ho with
  | none => exact .none
  | some ho => exact alike_own? h ho name

end Frames

namespace Params

variable {args args' : List Value}

theorem alike_zip (names : List String) (h : List.Forall₂ (Value.Alike ρ) args args') :
    List.Forall₂ (NamedAlike ρ) (names.zip args) (names.zip args') := by
  induction names generalizing args args' with
  | nil => exact .nil
  | cons x names ih =>
    cases h with
    | nil => exact .nil
    | cons hv h => exact .cons ⟨rfl, hv⟩ (ih h)

theorem alike_assign (p : Params) (h : List.Forall₂ (Value.Alike ρ) args args') :
    ResultAlike ρ (List.Forall₂ (NamedAlike ρ)) (p.assign args) (p.assign args') := by
  have hrest : List.Forall₂ (NamedAlike ρ) (p.restBinding args) (p.restBinding args') := by
    unfold restBinding
    split
    · exact .nil
    · exact .cons ⟨rfl, Value.alike_list_iff.mpr (List.forall₂_drop _ h)⟩ .nil
  rw [assign, assign, h.length_eq]
  split
  · exact .error (.same _ nofun)
  · exact .ok (List.rel_append (alike_zip p.fixed h) hrest)

end Params

/-! ## Printing -/

namespace Value

variable {style : Style}

theorem alike_alternating {es fs : List (Value × Value)}
    (h : List.Forall₂ (EntryAlike ρ) es fs) :
    List.Forall₂ (Alike ρ) (alternating es) (alternating fs) := by
  induction h with
  | nil => exact .nil
  | cons he _ ih => exact .cons he.1 (.cons he.2 ih)

theorem spaced_congr {one one' : Value → List Char → List Char} {xs ys : List Value}
    (ho : ∀ x ∈ xs, ∀ y, x.Alike ρ y → one x = one' y) (h : List.Forall₂ (Alike ρ) xs ys)
    (lead tail : List Char) : spaced one lead xs tail = spaced one' lead ys tail := by
  induction h generalizing lead with
  | nil => rfl
  | cons hx _ ih =>
    obtain ⟨hox, hos⟩ := List.forall_mem_cons.mp ho
    rw [spaced, spaced, hox _ hx, ih hos]

theorem write_native {atomText : AtomId → List Char → List Char} (f : Native) (tail : List Char) :
    write style atomText (native f) tail = ("#<native-fn " ++ f.name ++ ">").toList ++ tail := rfl

/-- Values that are the same but for numbers are written the same if atoms are. -/
theorem write_congr {atomText atomText' : AtomId → List Char → List Char}
    (ha : ∀ i i', ρ.atoms.rel i i' → atomText i = atomText' i') {v v' : Value}
    (h : v.Alike ρ v') : write style atomText v = write style atomText' v' := by
  induction v using Value.induct generalizing v' with
  | seq shape xs ih =>
    cases h with
    | seq _ h =>
      funext tail
      rw [write_seq, write_seq, spaced_congr (fun x hx y hy => ih x hx hy) h]
  | map es ih =>
    cases h with
    | map hk hv =>
      have h := alike_alternating (forall₂_entries.mpr ⟨hk, hv⟩)
      have hparts := forall_alternating (P := fun x => ∀ y, x.Alike ρ y →
        write style atomText x = write style atomText' y)
        (fun e he y hy => (ih e he).1 hy) (fun e he y hy => (ih e he).2 hy)
      funext tail
      rw [write_map, write_map, spaced_congr hparts h]
  | native f =>
    cases h with
    | native h =>
      funext tail
      rw [write_native, write_native, h.name_eq]
  | atom i =>
    cases h with
    | atom h => exact ha _ _ h
  | closure i params body frame ih =>
    cases h
    rfl
  | bool b =>
    cases h
    cases b <;> rfl
  | nil | int | str | keyword | symbol =>
    cases h
    rfl

theorem length_le_of_nodup {is : List Nat} {n : Nat} (hd : is.Nodup) (h : ∀ i ∈ is, i < n) :
    is.length ≤ n := by
  have hsub : is ⊆ List.range n := fun i hi => List.mem_range.mpr (h i hi)
  simpa using (List.subperm_of_subset hd hsub).length_le

theorem forall₂_bounds {p : Matching} {n n' : Nat} (hp : p.Below n n') {is is' : List Nat}
    (h : List.Forall₂ p.rel is is') : (∀ i ∈ is, i < n) ∧ ∀ i ∈ is', i < n' := by
  induction h with
  | nil => exact ⟨nofun, nofun⟩
  | cons hi _ ih =>
    exact ⟨List.forall_mem_cons.mpr ⟨(hp hi).1, ih.1⟩, List.forall_mem_cons.mpr ⟨(hp hi).2, ih.2⟩⟩

theorem contains_congr {p : Matching} {i i' : Nat} (hi : p.rel i i') {is is' : List Nat}
    (h : List.Forall₂ p.rel is is') : is.contains i = is'.contains i' := by
  induction h with
  | nil => rfl
  | cons hj _ ih =>
    rw [List.contains_cons, List.contains_cons, ih]
    congr 1
    rw [Bool.eq_iff_iff, beq_iff_eq, beq_iff_eq, p.eq_iff hi hj]

section

variable {v v' : Value} {cells cells' : Array Value} (hc : ρ.atoms.Stored (Alike ρ) cells cells')

include hc

/-- The bound on how many atoms may be opened is not met on either side, however different the two
bounds are. -/
theorem writeAtom_congr {n n' : Nat} {opened opened' : List AtomId}
    (ho : List.Forall₂ ρ.atoms.rel opened opened') (hd : opened.Nodup) (hd' : opened'.Nodup)
    (hn : cells.size < n + opened.length) (hn' : cells'.size < n' + opened'.length)
    {i i' : AtomId} (hi : ρ.atoms.rel i i') :
    writeAtom style cells n opened i = writeAtom style cells' n' opened' i' := by
  have hb : (∀ j ∈ opened, j < cells.size) ∧ ∀ j ∈ opened', j < cells'.size :=
    forall₂_bounds hc.below ho
  -- Either bound is used up only if more atoms were open than there are.
  induction n generalizing n' opened opened' i i' with
  | zero =>
    have hle := length_le_of_nodup hd hb.1
    omega
  | succ n ih =>
    cases n' with
    | zero =>
      have hle := length_le_of_nodup hd' hb.2
      omega
    | succ n' =>
      obtain ⟨v, v', hv, hv', hvv⟩ := hc hi
      funext tail
      rw [writeAtom, writeAtom, contains_congr hi ho, hv, hv']
      split
      · rfl
      · next hnot =>
        have hnew' : i' ∉ opened' := by simpa using hnot
        have hnew : i ∉ opened := by
          rw [← contains_congr hi ho] at hnot
          simpa using hnot
        have hopen := List.Forall₂.cons hi ho
        have hstep {j j' : AtomId} (hj : ρ.atoms.rel j j') :
            writeAtom style cells n (i :: opened) j =
              writeAtom style cells' n' (i' :: opened') j' :=
          ih hopen (List.nodup_cons.mpr ⟨hnew, hd⟩) (List.nodup_cons.mpr ⟨hnew', hd'⟩)
            (by rw [List.length_cons]; omega) (by rw [List.length_cons]; omega) hj
            (forall₂_bounds hc.below hopen)
        rw [Option.getD_some, Option.getD_some, write_congr (fun j j' hj => hstep hj) hvv]

theorem writeIn_congr {v v' : Value} (h : v.Alike ρ v') :
    writeIn style cells v = writeIn style cells' v' :=
  write_congr (fun i i' hi => writeAtom_congr hc .nil .nil .nil (by simp) (by simp) hi) h

/-- The text of a value does not tell the numbers in it. -/
theorem Alike.text_eq (h : v.Alike ρ v') (style : Style) :
    v.text style cells = v'.text style cells' := by
  rw [text_eq_ofList, text_eq_ofList, writeIn_congr hc h]

theorem textAll_congr {vs vs' : List Value} (h : List.Forall₂ (Alike ρ) vs vs') (style : Style)
    (sep : String) : textAll style cells sep vs = textAll style cells' sep vs' := by
  have htexts : vs.map (text style cells) = vs'.map (text style cells') := by
    induction h with
    | nil => rw [List.map_nil, List.map_nil]
    | cons hv _ ih => rw [List.map_cons, List.map_cons, hv.text_eq hc style, ih]
  rw [textAll, textAll, htexts]

end

end Value

/-- What an error says does not tell the numbers in it. -/
theorem Error.Alike.message_eq {e e' : Error} (h : e.Alike ρ e') {cells cells' : Array Value}
    (hc : ρ.atoms.Stored (Value.Alike ρ) cells cells') : e.message cells = e'.message cells' := by
  cases h with
  | notCallable h => exact congrArg ("Cannot call value: " ++ ·) (h.text_eq hc .readable)
  | same e hne =>
    cases e with
    | notCallable v => exact (hne v rfl).elim
    | arity name => cases name <;> rfl
    | type context => cases context <;> rfl
    | file context path => cases path <;> rfl
    | _ => rfl

/-! ## Functions of the host -/

/-- Scripts that do the same with values that are the same but for the numbers in them, also where
more numbers have come to stand for each other meanwhile. -/
inductive Reply.Alike : Renaming → Reply → Reply → Prop where
  | give {ρ : Renaming} (h : v.Alike ρ v') : Alike ρ (.give v) (.give v')
  | fail {ρ : Renaming} (h : e.Alike ρ e') : Alike ρ (.fail e) (.fail e')
  | call {ρ : Renaming} (hf : f.Alike ρ f') (ha : List.Forall₂ (Value.Alike ρ) args args')
    (hr : ∀ σ, ρ ≤ σ → ∀ v v', v.Alike σ v' → Alike σ (resume v) (resume' v')) :
    Alike ρ (.call f args resume) (.call f' args' resume')

/-- Functions of the host that answer alike. -/
def HostFunction.Alike (ρ : Renaming) (f f' : HostFunction) : Prop :=
  ∀ σ, ρ ≤ σ → ∀ args args', List.Forall₂ (Value.Alike σ) args args' →
    Reply.Alike σ (f.run args) (f'.run args')

theorem HostFunction.Alike.mono {f f' : HostFunction} (hle : ρ ≤ σ) (h : f.Alike ρ f') :
    f.Alike σ f' := fun τ hτ => h τ (Renaming.le_trans hle hτ)

/-! ## Worlds -/

/-- Worlds that are the same but for numbers, as far as the renaming speaks of them. -/
structure World.Alike (ρ : Renaming) (w w' : World) : Prop where
  frames : ρ.frames.Stored (Frame.Alike ρ) w.frames.all w'.frames.all
  atoms : ρ.atoms.Stored (Value.Alike ρ) w.atoms w'.atoms
  closures : ρ.closures.Below w.closures w'.closures
  hosts : ρ.hosts.Stored (HostFunction.Alike ρ) w.hosts w'.hosts
  printed : w.printed = w'.printed
  disk : w.disk = w'.disk

/-- Machines that are the same but for numbers. -/
structure Machine.Alike (ρ : Renaming) (m m' : Machine) : Prop where
  world : m.world.Alike ρ m'.world
  depth : m.depth = m'.depth
  limit : m.limit = m'.limit

/-- What may have happened to a world, as others see it: only things that the renaming speaks of
have changed, and it has come to speak only of new things besides. -/
structure World.Grows (ρ : Renaming) (w : World) (σ : Renaming) (w₁ : World) : Prop where
  frames : ρ.frames.Extends σ.frames w.frames.next w₁.frames.next
  atoms : ρ.atoms.Extends σ.atoms w.atoms.size w₁.atoms.size
  closures : ρ.closures.Extends σ.closures w.closures w₁.closures
  hosts : ρ.hosts.Extends σ.hosts w.hosts.size w₁.hosts.size
  framesSpared : ρ.frames.Spares w.frames.all w₁.frames.all
  atomsSpared : ρ.atoms.Spares w.atoms w₁.atoms
  hostsSpared : ρ.hosts.Spares w.hosts w₁.hosts
  disk : w₁.disk = w.disk

/-- No number stands for something under both renamings. -/
structure Renaming.Apart (ρ σ : Renaming) : Prop where
  frames : ρ.frames.Apart σ.frames
  atoms : ρ.atoms.Apart σ.atoms
  closures : ρ.closures.Apart σ.closures
  hosts : ρ.hosts.Apart σ.hosts

theorem Renaming.Apart.symm (h : ρ.Apart σ) : σ.Apart ρ :=
  ⟨h.frames.symm, h.atoms.symm, h.closures.symm, h.hosts.symm⟩

namespace World.Grows

variable {w w' w₁ w₂ : World}

theorem le (h : w.Grows ρ σ w₁) : ρ ≤ σ := ⟨h.frames.le, h.atoms.le, h.closures.le, h.hosts.le⟩

theorem refl (ρ : Renaming) (w : World) : w.Grows ρ ρ w :=
  ⟨.refl _ _, .refl _ _, .refl _ _, .refl _ _, .refl _ _, .refl _ _, .refl _ _, rfl⟩

theorem trans (h : w.Grows ρ σ w₁) (h' : w₁.Grows σ τ w₂) : w.Grows ρ τ w₂ where
  frames := h.frames.trans h'.frames
  atoms := h.atoms.trans h'.atoms
  closures := h.closures.trans h'.closures
  hosts := h.hosts.trans h'.hosts
  framesSpared := .trans h.frames h.framesSpared h'.framesSpared
  atomsSpared := .trans h.atoms h.atomsSpared h'.atomsSpared
  hostsSpared := .trans h.hosts h.hostsSpared h'.hostsSpared
  disk := h'.disk.trans h.disk

/-- What is new in a world is new to others who know only what was there before. -/
theorem apart (h : w.Grows σ τ w₁) (hw : w.Alike ρ w') (ha : ρ.Apart σ) : ρ.Apart τ where
  frames := h.frames.apart hw.frames.below ha.frames
  atoms := h.atoms.apart hw.atoms.below ha.atoms
  closures := h.closures.apart hw.closures ha.closures
  hosts := h.hosts.apart hw.hosts.below ha.hosts

end World.Grows

namespace World

variable {w w' : World}

/-- The world with one frame changed. -/
def withChanged (w : World) (i : FrameId) (f : Frame → Frame) : World :=
  { w with frames := ⟨w.frames.all.modify i f⟩ }

theorem Alike.withChanged (h : w.Alike ρ w') {i i' : FrameId} (hi : ρ.frames.rel i i')
    {f g : Frame → Frame} (hfg : ∀ x y, Frame.Alike ρ x y → Frame.Alike ρ (f x) (g y)) :
    (w.withChanged i f).Alike ρ (w'.withChanged i' g) :=
  { h with frames := h.frames.modify hi hfg }

theorem grows_withChanged {i i' : FrameId} (hi : ρ.frames.rel i i') (w : World)
    (f : Frame → Frame) : w.Grows ρ ρ (w.withChanged i f) := by
  have hsize : (w.withChanged i f).frames.next = w.frames.next := Array.size_modify
  exact { Grows.refl ρ w with
    frames := hsize ▸ .refl _ _
    framesSpared := .modify hi _ }

/-- The numbers of the next frames stand for each other too. -/
def Alike.addFrame (h : w.Alike ρ w') : Renaming :=
  { ρ with frames := ρ.frames.add w.frames.next w'.frames.next h.frames.below }

theorem Alike.withFrame (h : w.Alike ρ w') {f f' : Frame} (hf : f.Alike ρ f') :
    (w.withFrame f).Alike h.addFrame (w'.withFrame f') := by
  have hle : ρ ≤ h.addFrame := ⟨fun _ _ => .inl, fun _ _ => id, fun _ _ => id, fun _ _ => id⟩
  exact {
    frames := (h.frames.push hf).imp fun _ _ hf => hf.mono hle
    atoms := h.atoms.imp fun _ _ hv => hv.mono hle
    closures := h.closures
    hosts := h.hosts.imp fun _ _ hf => hf.mono hle
    printed := h.printed
    disk := h.disk }

theorem Alike.grows_withFrame (h : w.Alike ρ w') (f : Frame) :
    w.Grows ρ h.addFrame (w.withFrame f) := by
  have hsize : (w.withFrame f).frames.next = w.frames.next + 1 := Array.size_push _
  exact { Grows.refl ρ w with
    frames := hsize ▸ .add h.frames.below
    framesSpared := .push _ _ _ }

/-- The world with one more atom, whose number is the next one. -/
def withAtom (w : World) (v : Value) : World := { w with atoms := w.atoms.push v }

/-- The numbers of the next atoms stand for each other too. -/
def Alike.addAtom (h : w.Alike ρ w') : Renaming :=
  { ρ with atoms := ρ.atoms.add w.atoms.size w'.atoms.size h.atoms.below }

theorem Alike.withAtom (h : w.Alike ρ w') {v v' : Value} (hv : v.Alike ρ v') :
    (w.withAtom v).Alike h.addAtom (w'.withAtom v') := by
  have hle : ρ ≤ h.addAtom := ⟨fun _ _ => id, fun _ _ => .inl, fun _ _ => id, fun _ _ => id⟩
  exact {
    frames := h.frames.imp fun _ _ hf => hf.mono hle
    atoms := (h.atoms.push hv).imp fun _ _ hv => hv.mono hle
    closures := h.closures
    hosts := h.hosts.imp fun _ _ hf => hf.mono hle
    printed := h.printed
    disk := h.disk }

theorem Alike.grows_withAtom (h : w.Alike ρ w') (v : Value) :
    w.Grows ρ h.addAtom (w.withAtom v) := by
  have hsize : (w.withAtom v).atoms.size = w.atoms.size + 1 := Array.size_push _
  exact { Grows.refl ρ w with
    atoms := hsize ▸ .add h.atoms.below
    atomsSpared := .push _ _ _ }

theorem Alike.cell (h : w.Alike ρ w') {i i' : AtomId} (hi : ρ.atoms.rel i i') :
    (w.cell i).Alike ρ (w'.cell i') := by
  obtain ⟨v, v', hv, hv', hvv⟩ := h.atoms hi
  rw [World.cell, World.cell, hv, hv']
  exact hvv

theorem Alike.setCell (h : w.Alike ρ w') {i i' : AtomId} (hi : ρ.atoms.rel i i') {v v' : Value}
    (hv : v.Alike ρ v') : (w.setCell i v).Alike ρ (w'.setCell i' v') :=
  { h with atoms := h.atoms.modify hi fun _ _ _ => hv }

theorem grows_setCell {i i' : AtomId} (hi : ρ.atoms.rel i i') (w : World) (v : Value) :
    w.Grows ρ ρ (w.setCell i v) := by
  have hsize : (w.setCell i v).atoms.size = w.atoms.size := Array.size_modify
  exact { Grows.refl ρ w with
    atoms := hsize ▸ .refl _ _
    atomsSpared := .modify hi _ }

/-- The numbers of the next closures stand for each other too. -/
def Alike.addClosure (h : w.Alike ρ w') : Renaming :=
  { ρ with closures := ρ.closures.add w.closures w'.closures h.closures }

theorem Alike.withClosure (h : w.Alike ρ w') : w.withClosure.Alike h.addClosure w'.withClosure := by
  have hle : ρ ≤ h.addClosure := ⟨fun _ _ => id, fun _ _ => id, fun _ _ => .inl, fun _ _ => id⟩
  refine {
    frames := h.frames.imp fun _ _ hf => hf.mono hle
    atoms := h.atoms.imp fun _ _ hv => hv.mono hle
    closures := ?_
    hosts := h.hosts.imp fun _ _ hf => hf.mono hle
    printed := h.printed
    disk := h.disk }
  rintro i i' (hi | ⟨rfl, rfl⟩)
  · exact ⟨Nat.lt_succ_of_lt (h.closures hi).1, Nat.lt_succ_of_lt (h.closures hi).2⟩
  · exact ⟨Nat.lt_succ_self _, Nat.lt_succ_self _⟩

theorem Alike.grows_withClosure (h : w.Alike ρ w') : w.Grows ρ h.addClosure w.withClosure :=
  { Grows.refl ρ w with closures := .add h.closures }

/-- The world with one more function of the host, whose number is the next one. -/
def withHost (w : World) (f : HostFunction) : World := { w with hosts := w.hosts.push f }

/-- The numbers of the next functions of the host stand for each other too. -/
def Alike.addHost (h : w.Alike ρ w') : Renaming :=
  { ρ with hosts := ρ.hosts.add w.hosts.size w'.hosts.size h.hosts.below }

theorem Alike.withHost (h : w.Alike ρ w') {f f' : HostFunction} (hf : f.Alike ρ f') :
    (w.withHost f).Alike h.addHost (w'.withHost f') := by
  have hle : ρ ≤ h.addHost := ⟨fun _ _ => id, fun _ _ => id, fun _ _ => id, fun _ _ => .inl⟩
  exact {
    frames := h.frames.imp fun _ _ hf => hf.mono hle
    atoms := h.atoms.imp fun _ _ hv => hv.mono hle
    closures := h.closures
    hosts := (h.hosts.push hf).imp fun _ _ hf => hf.mono hle
    printed := h.printed
    disk := h.disk }

theorem Alike.grows_withHost (h : w.Alike ρ w') (f : HostFunction) :
    w.Grows ρ h.addHost (w.withHost f) := by
  have hsize : (w.withHost f).hosts.size = w.hosts.size + 1 := Array.size_push _
  exact { Grows.refl ρ w with
    hosts := hsize ▸ .add h.hosts.below
    hostsSpared := .push _ _ _ }

end World

end Lisplet

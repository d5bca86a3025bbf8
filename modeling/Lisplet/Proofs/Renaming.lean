import Lisplet.Proofs.Coherence

/-! Values of two runs that differ in nothing but the numbers of frames, atoms, closures and
functions of the host. A renaming says which numbers stand for each other. Both runs give numbers
out in ascending order, so not even comparing them tells the runs apart. -/

namespace Lisplet

/-! ## Renamings -/

/-- Numbers that stand for each other. They stand in the same order on both sides. -/
structure Matching where
  rel : Nat → Nat → Prop
  compare_eq : ∀ {i i' j j' : Nat}, rel i i' → rel j j' → compare i j = compare i' j'

namespace Matching

variable {p : Matching} {i i' j j' n n' : Nat}

theorem lt_iff (h : p.rel i i') (h' : p.rel j j') : i < j ↔ i' < j' := by
  rw [← Nat.compare_eq_lt, ← Nat.compare_eq_lt, p.compare_eq h h']

theorem eq_iff (h : p.rel i i') (h' : p.rel j j') : i = j ↔ i' = j' := by
  rw [← Nat.compare_eq_eq, ← Nat.compare_eq_eq, p.compare_eq h h']

/-- No number stands for another. -/
def empty : Matching := ⟨fun _ _ => False, nofun⟩

/-- All numbers that stand for others are smaller than `n`, and those are smaller than `n'`. -/
def Below (p : Matching) (n n' : Nat) : Prop := ∀ ⦃i i'⦄, p.rel i i' → i < n ∧ i' < n'

/-- The numbers `n` and `n'`, which are larger than all others, stand for each other too. -/
def add (p : Matching) (n n' : Nat) (h : p.Below n n') : Matching where
  rel i i' := p.rel i i' ∨ (i = n ∧ i' = n')
  compare_eq hi hj := by
    rcases hi with hi | ⟨rfl, rfl⟩ <;> rcases hj with hj | ⟨rfl, rfl⟩
    · exact p.compare_eq hi hj
    · obtain ⟨hl, hr⟩ := h hi
      rw [Nat.compare_eq_lt.mpr hl, Nat.compare_eq_lt.mpr hr]
    · obtain ⟨hl, hr⟩ := h hj
      rw [Nat.compare_eq_gt.mpr hl, Nat.compare_eq_gt.mpr hr]
    · rw [Nat.compare_eq_eq.mpr rfl, Nat.compare_eq_eq.mpr rfl]

end Matching

/-- Which numbers of one run stand for which of another. -/
structure Renaming where
  frames : Matching
  atoms : Matching
  closures : Matching
  hosts : Matching

namespace Renaming

def empty : Renaming := ⟨.empty, .empty, .empty, .empty⟩

/-- What stands for each other under the one renaming does so under the other. -/
structure Le (ρ σ : Renaming) : Prop where
  frames : ∀ ⦃i i'⦄, ρ.frames.rel i i' → σ.frames.rel i i'
  atoms : ∀ ⦃i i'⦄, ρ.atoms.rel i i' → σ.atoms.rel i i'
  closures : ∀ ⦃i i'⦄, ρ.closures.rel i i' → σ.closures.rel i i'
  hosts : ∀ ⦃i i'⦄, ρ.hosts.rel i i' → σ.hosts.rel i i'

instance : LE Renaming := ⟨Le⟩

theorem le_refl (ρ : Renaming) : ρ ≤ ρ :=
  ⟨fun _ _ => id, fun _ _ => id, fun _ _ => id, fun _ _ => id⟩

theorem le_trans {ρ σ τ : Renaming} (h : ρ ≤ σ) (h' : σ ≤ τ) : ρ ≤ τ :=
  ⟨fun _ _ hi => h'.frames (h.frames hi), fun _ _ hi => h'.atoms (h.atoms hi),
    fun _ _ hi => h'.closures (h.closures hi), fun _ _ hi => h'.hosts (h.hosts hi)⟩

end Renaming

/-- Natives that do the same. The `eval` of a root goes with that root. -/
inductive Native.Alike (ρ : Renaming) : Native → Native → Prop where
  | builtin (b : Builtin) : Alike ρ (.builtin b) (.builtin b)
  | evalIn (h : ρ.frames.rel i i') : Alike ρ (.evalIn i) (.evalIn i')
  | host (name : String) (h : ρ.hosts.rel i i') : Alike ρ (.host name i) (.host name i')

theorem Native.Alike.name_eq {ρ : Renaming} {f g : Native} (h : f.Alike ρ g) : f.name = g.name := by
  cases h <;> rfl

namespace Value

/-- Values that are the same but for the numbers in them. -/
inductive Alike (ρ : Renaming) : Value → Value → Prop where
  | nil : Alike ρ nil nil
  | bool (b : Bool) : Alike ρ (bool b) (bool b)
  | int (n : Int64) : Alike ρ (int n) (int n)
  | str (s : String) : Alike ρ (str s) (str s)
  | keyword (name : String) : Alike ρ (keyword name) (keyword name)
  | symbol (name : String) : Alike ρ (symbol name) (symbol name)
  | seq (shape : Shape) {xs ys : Rope Value} (h : List.Forall₂ (Alike ρ) xs.toList ys.toList) :
    Alike ρ (seq shape xs) (seq shape ys)
  | map {es fs : Rope (Value × Value)}
    (keys : List.Forall₂ (Alike ρ) (es.toList.map Prod.fst) (fs.toList.map Prod.fst))
    (values : List.Forall₂ (Alike ρ) (es.toList.map Prod.snd) (fs.toList.map Prod.snd)) :
    Alike ρ (map es) (map fs)
  | native {f g : Native} (h : f.Alike ρ g) : Alike ρ (native f) (native g)
  | closure {i i' : ClosureId} (params : Params) {body body' : Value} {frame frame' : FrameId}
    (hi : ρ.closures.rel i i') (hb : Alike ρ body body') (hf : ρ.frames.rel frame frame') :
    Alike ρ (closure i params body frame) (closure i' params body' frame')
  | atom {i i' : AtomId} (h : ρ.atoms.rel i i') : Alike ρ (atom i) (atom i')

/-- Entries that are the same but for the numbers in them. -/
def EntryAlike (ρ : Renaming) (e f : Value × Value) : Prop := e.1.Alike ρ f.1 ∧ e.2.Alike ρ f.2

variable {ρ σ : Renaming} {v v' w w' : Value} {xs ys : List Value} {es fs : Rope (Value × Value)}

@[simp] theorem alike_list_iff : (list xs).Alike ρ (list ys) ↔ List.Forall₂ (Alike ρ) xs ys := by
  constructor
  · intro h
    cases h with
    | seq _ h => simpa using h
  · intro h
    exact .seq .list (by simpa using h)

theorem alike_map_iff :
    (map es).Alike ρ (map fs) ↔ List.Forall₂ (EntryAlike ρ) es.toList fs.toList := by
  rw [show List.Forall₂ (EntryAlike ρ) es.toList fs.toList ↔ _ from forall₂_entries]
  constructor
  · intro h
    cases h with
    | map hk hv => exact ⟨hk, hv⟩
  · intro ⟨hk, hv⟩
    exact .map hk hv

theorem forall₂_imp_of_mem {R S : α → β → Prop} {xs : List α} {ys : List β}
    (h : ∀ x ∈ xs, ∀ y, R x y → S x y) (hxy : List.Forall₂ R xs ys) : List.Forall₂ S xs ys := by
  induction hxy with
  | nil => exact .nil
  | cons hR _ ih =>
    obtain ⟨hx, hxs⟩ := List.forall_mem_cons.mp h
    exact .cons (hx _ hR) (ih hxs)

theorem Alike.mono (hle : ρ ≤ σ) (h : v.Alike ρ v') : v.Alike σ v' := by
  induction v using Value.induct generalizing v' with
  | seq shape xs ih =>
    cases h with
    | seq _ h => exact .seq shape (forall₂_imp_of_mem (fun x hx y hy => ih x hx hy) h)
  | map es ih =>
    cases h with
    | map hk hv =>
      have h : List.Forall₂ (EntryAlike ρ) _ _ := forall₂_entries.mpr ⟨hk, hv⟩
      exact alike_map_iff.mpr
        (forall₂_imp_of_mem (fun e he f hf => ⟨(ih e he).1 hf.1, (ih e he).2 hf.2⟩) h)
  | native f =>
    cases h with
    | native h =>
      cases h with
      | builtin b => exact .native (.builtin b)
      | evalIn h => exact .native (.evalIn (hle.frames h))
      | host name h => exact .native (.host name (hle.hosts h))
  | closure i params body frame ih =>
    cases h with
    | closure _ hi hb hf => exact .closure params (hle.closures hi) (ih hb) (hle.frames hf)
  | atom i =>
    cases h with
    | atom h => exact .atom (hle.atoms h)
  | _ =>
    cases h
    constructor

theorem forall₂_mono (hle : ρ ≤ σ) (h : List.Forall₂ (Alike ρ) xs ys) :
    List.Forall₂ (Alike σ) xs ys := h.imp fun _ _ => Alike.mono hle

/-! ## Comparing -/

namespace Alike

theorem rank_eq (h : v.Alike ρ v') : v.rank = v'.rank := by cases h <;> rfl

theorem flag_eq (h : v.Alike ρ v') : v.flag = v'.flag := by cases h <;> rfl

theorem number_eq (h : v.Alike ρ v') : v.number = v'.number := by cases h <;> rfl

theorem label_eq (h : v.Alike ρ v') : v.label = v'.label := by
  cases h with
  | native h => exact h.name_eq
  | _ => rfl

theorem typeName_eq (h : v.Alike ρ v') : v.typeName = v'.typeName := by
  cases h with
  | seq shape h => cases shape <;> rfl
  | _ => rfl

theorem isTruthy_eq (h : v.Alike ρ v') : v.isTruthy = v'.isTruthy := by cases h <;> rfl

theorem elements (h : v.Alike ρ v') : List.Forall₂ (Alike ρ) v.elements v'.elements := by
  cases h with
  | seq _ h => exact h
  | _ => exact .nil

theorem entries (h : v.Alike ρ v') : List.Forall₂ (EntryAlike ρ) v.entries v'.entries := by
  cases h with
  | map hk hv => exact forall₂_entries.mpr ⟨hk, hv⟩
  | _ => exact .nil

/-- Closures stand in the order of those that stand for them, and so do atoms. -/
theorem compare_identity (hv : v.Alike ρ v') (hw : w.Alike ρ w') (h : v.rank = w.rank) :
    compare v.identity w.identity = compare v'.identity w'.identity := by
  cases hv with
  | closure _ hi =>
    cases hw with
    | closure _ hj => exact ρ.closures.compare_eq hi hj
    | _ => cases h
  | atom hi =>
    cases hw with
    | atom hj => exact ρ.atoms.compare_eq hi hj
    | _ => cases h
  | _ =>
    cases hw with
    | closure | atom => cases h
    | _ => rfl

end Alike

theorem then_congr {o o' p p' : Ordering} (ho : o = o') (hp : o = .eq → p = p') :
    o.then p = o'.then p' := by
  subst ho
  cases o with
  | eq => exact hp rfl
  | lt | gt => rfl

theorem compareLex_congr {f : α → α → Ordering} {R : α → α → Prop} {xs xs' ys ys' : List α}
    (h : ∀ x ∈ xs, ∀ x' y y', R x x' → R y y' → f x y = f x' y') (hx : List.Forall₂ R xs xs')
    (hy : List.Forall₂ R ys ys') : List.compareLex f xs ys = List.compareLex f xs' ys' := by
  induction hx generalizing ys ys' with
  | nil => cases hy <;> rfl
  | cons hR _ ih =>
    obtain ⟨hf, hfs⟩ := List.forall_mem_cons.mp h
    cases hy with
    | nil => rfl
    | cons hR' hys =>
      rw [List.compareLex_cons_cons, List.compareLex_cons_cons, hf _ _ _ hR hR', ih hfs hys]

/-- Comparing finds no difference between the runs. -/
theorem Alike.order_eq (hv : v.Alike ρ v') (hw : w.Alike ρ w') : order v w = order v' w' := by
  induction v using induct_parts generalizing v' w w' with
  | parts v hx he =>
    rw [order_eq_lex v w, order_eq_lex v' w']
    refine then_congr (by rw [hv.rank_eq, hw.rank_eq]) fun hrank => ?_
    have hidentity := hv.compare_identity hw (Nat.compare_eq_eq.mp hrank)
    have helements := compareLex_congr (f := order)
      (fun x hm x' y y' h h' => hx x hm h h') hv.elements hw.elements
    have hentries : List.compareLex orderEntry v.entries w.entries =
        List.compareLex orderEntry v'.entries w'.entries := by
      refine compareLex_congr (fun e hm e' f f' h h' => ?_) hv.entries hw.entries
      rw [orderEntry, orderEntry, (he e hm).1 h.1 h'.1, (he e hm).2 h.2 h'.2]
    rw [hv.flag_eq, hw.flag_eq, hv.number_eq, hw.number_eq, hv.label_eq, hw.label_eq, hidentity,
      helements, hentries]

theorem Alike.beq_eq (hv : v.Alike ρ v') (hw : w.Alike ρ w') : (v == w) = (v' == w') := by
  rw [Bool.eq_iff_iff, beq_iff, beq_iff, ← order_eq_iff, ← order_eq_iff, hv.order_eq hw]

/-! ## Making maps -/

theorem forall₂_union {es es' fs fs' : List (Value × Value)}
    (he : List.Forall₂ (EntryAlike ρ) es es') (hf : List.Forall₂ (EntryAlike ρ) fs fs') :
    List.Forall₂ (EntryAlike ρ) (union es fs) (union es' fs') := by
  fun_induction union es fs generalizing es' fs' with
  | case1 fs =>
    cases he
    rw [union]
    exact hf
  | case2 e es =>
    cases hf
    cases he with
    | cons h hs =>
      rw [union]
      exact .cons h hs
  | case3 k v es l w fs h ih =>
    cases he with
    | cons hk hes =>
      cases hf with
      | cons hl hfs =>
        rw [union, ← hk.1.order_eq hl.1, h]
        exact .cons hk (ih hes (.cons hl hfs))
  | case4 k v es l w fs h ih =>
    cases he with
    | cons hk hes =>
      cases hf with
      | cons hl hfs =>
        rw [union, ← hk.1.order_eq hl.1, h]
        exact .cons hl (ih hes hfs)
  | case5 k v es l w fs h ih =>
    cases he with
    | cons hk hes =>
      cases hf with
      | cons hl hfs =>
        rw [union, ← hk.1.order_eq hl.1, h]
        exact .cons hl (ih (.cons hk hes) hfs)

theorem forall₂_entriesOf (ps : List (Value × Value)) : ∀ qs,
    List.Forall₂ (EntryAlike ρ) ps qs →
      List.Forall₂ (EntryAlike ρ) (entriesOf ps) (entriesOf qs) := by
  fun_induction entriesOf ps with
  | case1 =>
    rintro _ ⟨⟩
    rw [entriesOf]
    exact .nil
  | case2 p =>
    intro qs h
    cases h with
    | cons hp hps =>
      cases hps
      rw [entriesOf]
      exact .cons hp .nil
  | case3 p q ps half ih₁ ih₂ =>
    intro qs h
    cases h with
    | cons hp hps =>
      cases hps with
      | cons hq hps =>
        rw [entriesOf, ← hps.length_eq]
        exact forall₂_union (ih₁ _ (List.forall₂_take _ (.cons hp (.cons hq hps))))
          (ih₂ _ (List.forall₂_drop _ (.cons hp (.cons hq hps))))

theorem alike_mapOf {ps qs : List (Value × Value)} (h : List.Forall₂ (EntryAlike ρ) ps qs) :
    (mapOf ps).Alike ρ (mapOf qs) := by
  rw [mapOf, mapOf, alike_map_iff, Rope.toList_ofList, Rope.toList_ofList]
  exact forall₂_entriesOf ps qs h

end Value

end Lisplet

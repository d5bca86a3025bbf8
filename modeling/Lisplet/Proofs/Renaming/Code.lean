import Lisplet.Proofs.Congruence
import Lisplet.Proofs.Parameters
import Lisplet.Proofs.Quasiquote
import Lisplet.Proofs.Renaming
import Lisplet.Proofs.RoundTrip.Rereading

/-! Code and pure functions under a renaming. What is made of values without looking at the world
is the same in both runs but for the numbers in it: expanded templates, special forms taken apart,
and what the functions of the language give that only look at their arguments. What is read from a
text has no numbers in it at all. -/

namespace Lisplet

variable {ρ σ : Renaming}

/-- Errors that are the same but for the numbers in them. Only one of them holds a value. -/
inductive Error.Alike (ρ : Renaming) : Error → Error → Prop where
  | notCallable (h : v.Alike ρ v') : Alike ρ (.notCallable v) (.notCallable v')
  | same (e : Error) (h : ∀ v, e ≠ .notCallable v) : Alike ρ e e

theorem Error.Alike.mono {e e' : Error} (hle : ρ ≤ σ) (h : e.Alike ρ e') : e.Alike σ e' := by
  cases h with
  | notCallable h => exact .notCallable (h.mono hle)
  | same _ h => exact .same e h

/-- Results that are both values, which `R` relates, or both errors. -/
inductive ResultAlike (ρ : Renaming) (R : α → β → Prop) : Except Error α → Except Error β → Prop
    where
  | ok (h : R a b) : ResultAlike ρ R (.ok a) (.ok b)
  | error (h : e.Alike ρ e') : ResultAlike ρ R (.error e) (.error e')

namespace ResultAlike

variable {R : α → α' → Prop} {S : β → β' → Prop} {x : Except Error α} {x' : Except Error α'}

theorem bind {f : α → Except Error β} {f' : α' → Except Error β'} (h : ResultAlike ρ R x x')
    (hf : ∀ a a', R a a' → ResultAlike ρ S (f a) (f' a')) :
    ResultAlike ρ S (x >>= f) (x' >>= f') := by
  cases h with
  | ok h => exact hf _ _ h
  | error h => exact .error h

theorem map {f : α → β} {f' : α' → β'} (h : ResultAlike ρ R x x')
    (hf : ∀ a a', R a a' → S (f a) (f' a')) : ResultAlike ρ S (f <$> x) (f' <$> x') := by
  cases h with
  | ok h => exact .ok (hf _ _ h)
  | error h => exact .error h

theorem correspond (h : ResultAlike ρ R x x') : Correspond (Error.Alike ρ) R x x' := by
  cases h with
  | ok h => exact .ok h
  | error h => exact .error h

end ResultAlike

theorem Correspond.resultAlike {R : α → β → Prop} {x : Except Error α} {y : Except Error β}
    (h : Correspond (Error.Alike ρ) R x y) : ResultAlike ρ R x y := by
  cases h with
  | ok h => exact .ok h
  | error h => exact .error h

section

variable {v v' : Value} {args args' : List Value} {name : String} {n : Nat}

theorem alike_notAtLeast (h : List.Forall₂ (Value.Alike ρ) args args') :
    Error.Alike ρ (Argument.notAtLeast name n args) (Argument.notAtLeast name n args') := by
  rw [Argument.notAtLeast, Argument.notAtLeast, h.length_eq]
  exact .same _ nofun

end

/-! ## Templates -/

namespace Template

variable {v v' rest rest' : Value}

theorem alike_argumentOf? (name : String) (h : v.Alike ρ v') :
    Option.Rel (Value.Alike ρ) (argumentOf? name v) (argumentOf? name v') := by
  cases h with
  | @seq shape xs ys h =>
    cases shape with
    | vector => exact .none
    | list =>
      simp only [argumentOf?, Rope.size_eq, h.length_eq]
      split
      · generalize xs.toList = xs at h
        generalize ys.toList = ys at h
        cases h with
        | nil => exact .none
        | cons hx h =>
          cases h with
          | nil => cases hx <;> exact .none
          | cons hy h =>
            cases h with
            | cons => cases hx <;> exact .none
            | nil =>
              cases hx with
              | symbol s =>
                simp only
                split
                · exact .some hy
                · exact .none
              | _ => exact .none
      · exact .none
  | _ => exact .none

theorem alike_call (name : String) {args args' : List Value}
    (h : List.Forall₂ (Value.Alike ρ) args args') : (call name args).Alike ρ (call name args') :=
  Value.alike_list_iff.mpr (.cons (.symbol name) h)

theorem alike_expandElement (hv : v.Alike ρ v') (he : (expand v).Alike ρ (expand v'))
    (hr : rest.Alike ρ rest') : (expandElement v rest).Alike ρ (expandElement v' rest') := by
  unfold expandElement
  cases hs : argumentOf? Sigil.spliceUnquote.name v with
  | none =>
    have h := alike_argumentOf? Sigil.spliceUnquote.name hv
    rw [hs] at h
    generalize argumentOf? Sigil.spliceUnquote.name v' = x at h ⊢
    cases h
    exact alike_call "cons" (.cons he (.cons hr .nil))
  | some y =>
    have h := alike_argumentOf? Sigil.spliceUnquote.name hv
    rw [hs] at h
    generalize argumentOf? Sigil.spliceUnquote.name v' = x at h ⊢
    cases h with
    | some h => exact alike_call "concat" (.cons h (.cons hr .nil))

theorem alike_expandElements {xs ys : List Value}
    (ih : ∀ x ∈ xs, ∀ y, x.Alike ρ y → (expand x).Alike ρ (expand y))
    (h : List.Forall₂ (Value.Alike ρ) xs ys) (hr : rest.Alike ρ rest') :
    (xs.foldr expandElement rest).Alike ρ (ys.foldr expandElement rest') := by
  induction h with
  | nil => exact hr
  | cons hx _ ihs =>
    obtain ⟨he, hes⟩ := List.forall_mem_cons.mp ih
    exact alike_expandElement hx (he _ hx) (ihs hes)

/-- Expanding goes along with renaming. -/
theorem alike_expand (h : v.Alike ρ v') : (expand v).Alike ρ (expand v') := by
  induction v using Value.induct generalizing v' with
  | seq shape xs ih =>
    cases h with
    | @seq _ _ ys hxs =>
      have hitems : (expandItems xs (.list [])).Alike ρ (expandItems ys (.list [])) := by
        rw [expandItems_eq, expandItems_eq]
        exact alike_expandElements (fun x hx y hy => ih x hx hy) hxs (Value.alike_list_iff.mpr .nil)
      cases shape with
      | vector => exact alike_call "vec" (.cons hitems .nil)
      | list =>
        have ha := alike_argumentOf? Sigil.unquote.name (.seq .list hxs)
        rw [expand, expand]
        generalize argumentOf? Sigil.unquote.name (.seq .list xs) = x at ha ⊢
        generalize argumentOf? Sigil.unquote.name (.seq .list ys) = y at ha ⊢
        cases ha with
        | none => exact hitems
        | some ha => exact ha
  | symbol name =>
    cases h
    exact alike_call "quote" (.cons (.symbol name) .nil)
  | map es ih =>
    cases h with
    | map hk hv => exact alike_call "quote" (.cons (.map hk hv) .nil)
  | nil | bool | int | str | keyword | native | closure | atom =>
    cases h
    constructor <;> assumption

end Template

/-! ## Special forms -/

/-- Parts of special forms that are the same but for the numbers in them. -/
inductive Clause.Alike (ρ : Renaming) : Clause → Clause → Prop where
  | define (name : String) (h : form.Alike ρ form') :
    Alike ρ (.define name form) (.define name form')
  | bind (hb : List.Forall₂ (Value.EntryAlike ρ) bindings bindings') (h : body.Alike ρ body') :
    Alike ρ (.bind bindings body) (.bind bindings' body')
  | sequence (hs : List.Forall₂ (Value.Alike ρ) effects effects') (h : last.Alike ρ last') :
    Alike ρ (.sequence effects last) (.sequence effects' last')
  | branch (h : condition.Alike ρ condition') (hc : consequent.Alike ρ consequent')
    (ha : Option.Rel (Value.Alike ρ) alternative alternative') :
    Alike ρ (.branch condition consequent alternative) (.branch condition' consequent' alternative')
  | lambda (params : Params) (h : body.Alike ρ body') :
    Alike ρ (.lambda params body) (.lambda params body')
  | quote (h : form.Alike ρ form') : Alike ρ (.quote form) (.quote form')
  | quasiquote (h : form.Alike ρ form') : Alike ρ (.quasiquote form) (.quasiquote form')
  | expand (h : form.Alike ρ form') : Alike ρ (.expand form) (.expand form')
  | malformed (f : SpecialForm) (flaw : Flaw) : Alike ρ (.malformed f flaw) (.malformed f flaw)

section

variable {v v' : Value} {vs ws : List Value}

theorem Value.Alike.items? (h : v.Alike ρ v') :
    Option.Rel (fun xs ys : Rope Value => List.Forall₂ (Value.Alike ρ) xs.toList ys.toList)
      v.items? v'.items? := by
  cases h with
  | seq _ h => exact .some h
  | _ => exact .none

theorem Value.Alike.specialForm?_eq (h : v.Alike ρ v') : v.specialForm? = v'.specialForm? := by
  cases h <;> rfl

theorem Form.alike_pairs? (h : List.Forall₂ (Value.Alike ρ) vs ws) :
    Option.Rel (List.Forall₂ (Value.EntryAlike ρ)) (pairs? vs) (pairs? ws) := by
  fun_induction pairs? vs generalizing ws with
  | case1 =>
    cases h
    exact .some .nil
  | case2 v =>
    cases h with
    | cons hv h =>
      cases h
      exact .none
  | case3 k v rest ih =>
    cases h with
    | cons hk h =>
      cases h with
      | @cons _ w _ rest' hv h =>
        have hrest := ih h
        rw [pairs?]
        generalize pairs? rest = x at hrest ⊢
        generalize pairs? rest' = y at hrest ⊢
        cases hrest with
        | none => exact .none
        | some hps => exact .some (.cons ⟨hk, hv⟩ hps)

namespace Params

theorem nameOf_eq (h : v.Alike ρ v') : nameOf v = nameOf v' := by
  cases h with
  | seq shape h => cases shape <;> rfl
  | _ => rfl

theorem mapM_nameOf_eq (h : List.Forall₂ (Value.Alike ρ) vs ws) :
    vs.mapM nameOf = ws.mapM nameOf := by
  induction h with
  | nil => rfl
  | cons hv _ ih => rw [List.mapM_cons, List.mapM_cons, nameOf_eq hv, ih]

/-- Parameters have no numbers in them. -/
theorem ofForm_eq (h : v.Alike ρ v') : ofForm v = ofForm v' := by
  rw [ofForm_eq_mapM, ofForm_eq_mapM, h.typeName_eq]
  have hitems := h.items?
  generalize v.items? = x at hitems ⊢
  generalize v'.items? = y at hitems ⊢
  cases hitems with
  | none => rfl
  | some h => simp only [mapM_nameOf_eq h]

end Params

namespace SpecialForm

theorem alike_clause_bind (hb : v.Alike ρ v') {body body' : Value} (h : body.Alike ρ body') :
    ((SpecialForm.bind).clause [v, body]).Alike ρ ((SpecialForm.bind).clause [v', body']) := by
  simp only [clause, hb.typeName_eq]
  have hitems := hb.items?
  generalize v.items? = x at hitems ⊢
  generalize v'.items? = y at hitems ⊢
  cases hitems with
  | none => exact .malformed ..
  | @some xs ys hitems =>
    have hps := Form.alike_pairs? hitems
    simp only
    generalize Form.pairs? xs.toList = x at hps ⊢
    generalize Form.pairs? ys.toList = y at hps ⊢
    cases hps with
    | none => exact .malformed ..
    | some hps => exact .bind hps h

/-- The parts of a special form go along with renaming. -/
theorem alike_clause (f : SpecialForm) (h : List.Forall₂ (Value.Alike ρ) vs ws) :
    (f.clause vs).Alike ρ (f.clause ws) := by
  cases f with
  | define =>
    rcases h with _ | ⟨ha, _ | ⟨hb, _ | ⟨hc, h⟩⟩⟩
    · exact .malformed ..
    · cases ha <;> exact .malformed ..
    · cases ha with
      | symbol name => exact .define name hb
      | seq shape ha => cases shape <;> exact .malformed ..
      | _ => exact .malformed ..
    · have hl := h.length_eq
      cases ha <;> simp only [clause, List.length_cons, hl] <;> exact .malformed ..
  | bind =>
    rcases h with _ | ⟨ha, _ | ⟨hb, _ | ⟨hc, h⟩⟩⟩
    · exact .malformed ..
    · exact .malformed ..
    · exact alike_clause_bind ha hb
    · simp only [clause, List.length_cons, h.length_eq]
      exact .malformed ..
  | sequence =>
    have hlast : Option.Rel (Value.Alike ρ) vs.getLast? ws.getLast? := by
      rw [List.getLast?_eq_getElem?, List.getLast?_eq_getElem?, h.length_eq]
      exact forall₂_getElem? h _
    simp only [clause, List.dropLast_eq_take, h.length_eq]
    generalize vs.getLast? = x at hlast ⊢
    generalize ws.getLast? = y at hlast ⊢
    cases hlast with
    | none => exact .malformed ..
    | some hlast => exact .sequence (List.forall₂_take _ h) hlast
  | branch =>
    rcases h with _ | ⟨ha, _ | ⟨hb, _ | ⟨hc, _ | ⟨hd, h⟩⟩⟩⟩
    · exact .malformed ..
    · exact .malformed ..
    · exact .branch ha hb .none
    · exact .branch ha hb (.some hc)
    · simp only [clause, List.length_cons, h.length_eq]
      exact .malformed ..
  | lambda =>
    rcases h with _ | ⟨ha, _ | ⟨hb, _ | ⟨hc, h⟩⟩⟩
    · exact .malformed ..
    · exact .malformed ..
    · simp only [clause, Params.ofForm_eq ha]
      split
      · exact .lambda _ hb
      · exact .malformed ..
    · simp only [clause, List.length_cons, h.length_eq]
      exact .malformed ..
  | quote | quasiquote | expand =>
    rcases h with _ | ⟨ha, _ | ⟨hb, h⟩⟩
    · exact .malformed ..
    · constructor
      exact ha
    · simp only [clause, List.length_cons, h.length_eq]
      exact .malformed ..

end SpecialForm

theorem Value.Alike.clause? (h : v.Alike ρ v') :
    Option.Rel (Clause.Alike ρ) v.clause? v'.clause? := by
  cases h with
  | @seq shape xs ys h =>
    cases shape with
    | vector => exact .none
    | list =>
      rw [Value.clause?, Value.clause?]
      generalize xs.toList = xs at h ⊢
      generalize ys.toList = ys at h ⊢
      cases h with
      | nil => exact .none
      | @cons x y xs ys hx h =>
        simp only [List.head?_cons, Option.bind_some, hx.specialForm?_eq, List.tail_cons]
        cases y.specialForm? with
        | none => exact .none
        | some f => exact .some (f.alike_clause h)
  | _ => exact .none

end

/-! ## Reading -/

/-- What is read from a text has no numbers in it. -/
theorem Parses.alike {ts : List Token} {v : Value} (h : Parses ts v) (ρ : Renaming) :
    v.Alike ρ v := by
  refine h.closed (P := fun v => v.Alike ρ v) ⟨fun name _ => .symbol name, fun shape vs hv => ?_,
    fun ps hp => ?_⟩ fun t _ w ht => ?_
  · exact .seq shape (by simpa [List.forall₂_same] using hv)
  · exact Value.alike_mapOf (List.forall₂_same.mpr hp)
  · cases t with
    | opening | closing | sigil | tag => contradiction
    | nil | bool | int | str | symbol | keyword =>
      cases ht
      constructor

namespace Form

theorem alike_readFirst {s : String} {v : Value} (h : readFirst s = .ok (some v)) (ρ : Renaming) :
    v.Alike ρ v := by
  obtain ⟨ts, us, -, hv, -⟩ := readFirst_eq_ok_iff.mp h
  exact hv.alike ρ

theorem alike_of_mem_all {ts : Tokens} {v : Value} (h : .ok v ∈ all ts) (ρ : Renaming) :
    v.Alike ρ v := by
  fun_induction all ts with
  | case1 => contradiction
  | case2 ts found rest hn _ ih =>
    rcases List.mem_cons.mp h with rfl | h
    · obtain ⟨used, -, hv, -⟩ := next_eq_ok_iff.mp hn
      exact hv.alike ρ
    · exact ih h

theorem alike_of_mem_sequence {s : String} {v : Value} (h : .ok v ∈ sequence s) (ρ : Renaming) :
    v.Alike ρ v := by
  unfold sequence at h
  split at h
  · simp at h
  · exact alike_of_mem_all h ρ

end Form

/-! ## Functions that only look at their arguments -/

section

variable {v v' : Value} {args args' : List Value}

namespace Argument

theorem alike_int (name : String) (h : v.Alike ρ v') :
    ResultAlike ρ (· = ·) (int name v) (int name v') := by
  cases h with
  | int n => exact .ok rfl
  | seq shape h => cases shape <;> exact .error (.same _ nofun)
  | _ => exact .error (.same _ nofun)

theorem alike_ints (name : String) (h : List.Forall₂ (Value.Alike ρ) args args') :
    ResultAlike ρ (· = ·) (ints name args) (ints name args') := by
  induction h with
  | nil => exact .ok rfl
  | cons hv _ ih =>
    refine (alike_int name hv).bind fun n _ hn => ih.bind fun ns _ hns => ?_
    cases hn
    cases hns
    exact .ok rfl

theorem alike_items (name : String) (h : v.Alike ρ v') :
    ResultAlike ρ (fun xs ys : Rope Value => List.Forall₂ (Value.Alike ρ) xs.toList ys.toList)
      (items name v) (items name v') := by
  cases h with
  | seq shape h => exact .ok h
  | nil => exact .ok .nil
  | _ => exact .error (.same _ nofun)

theorem alike_atom (name : String) (h : v.Alike ρ v') :
    ResultAlike ρ ρ.atoms.rel (atom name v) (atom name v') := by
  cases h with
  | atom h => exact .ok h
  | seq shape h => cases shape <;> exact .error (.same _ nofun)
  | _ => exact .error (.same _ nofun)

end Argument

namespace Arithmetic

theorem alike_step (op : Arithmetic) (m n : Int64) :
    ResultAlike ρ (· = ·) (op.step m n) (op.step m n) := by
  unfold step
  split
  · exact .error (.same _ nofun)
  · split
    · exact .ok rfl
    · exact .error (.same _ nofun)

theorem alike_fold (op : Arithmetic) (acc : Int64) (h : List.Forall₂ (Value.Alike ρ) args args') :
    ResultAlike ρ (· = ·) (op.fold acc args) (op.fold acc args') := by
  induction h generalizing acc with
  | nil => exact .ok rfl
  | cons hv _ ih =>
    refine (Argument.alike_int op.name hv).bind fun n _ hn => ?_
    cases hn
    refine (alike_step op acc n).bind fun acc _ hacc => ?_
    cases hacc
    exact ih acc

theorem alike_run (op : Arithmetic) (h : List.Forall₂ (Value.Alike ρ) args args') :
    ResultAlike ρ (Value.Alike ρ) (op.run args) (op.run args') := by
  have hint (m n : Int64) (h : m = n) : (Value.int m).Alike ρ (.int n) := h ▸ .int m
  have hrest (op : Arithmetic) {v v' : Value} {vs vs' : List Value} (hv : v.Alike ρ v')
      (hvs : List.Forall₂ (Value.Alike ρ) vs vs') : ResultAlike ρ (· = ·)
      (Argument.int op.name v >>= fun first => op.fold first vs)
      (Argument.int op.name v' >>= fun first => op.fold first vs') :=
    (Argument.alike_int op.name hv).bind fun n _ hn => hn ▸ alike_fold op n hvs
  refine ResultAlike.map (R := fun m n => m = n) ?_ hint
  cases op with
  | add => exact alike_fold .add 0 h
  | mul => exact alike_fold .mul 1 h
  | sub =>
    rcases h with _ | ⟨hv, _ | ⟨hw, h⟩⟩
    · exact .error (.same _ nofun)
    · exact alike_fold .sub 0 (.cons hv .nil)
    · exact hrest .sub hv (.cons hw h)
  | div =>
    rcases h with _ | ⟨hv, _ | ⟨hw, h⟩⟩
    · exact .error (.same _ nofun)
    · exact alike_fold .div 1 (.cons hv .nil)
    · exact hrest .div hv (.cons hw h)

end Arithmetic

theorem Relation.alike_run (r : Relation) (h : List.Forall₂ (Value.Alike ρ) args args') :
    ResultAlike ρ (Value.Alike ρ) (r.run args) (r.run args') := by
  cases h with
  | nil => exact .error (.same _ nofun)
  | cons hv h =>
    refine (Argument.alike_ints r.name (.cons hv h)).bind fun ns _ hns => ?_
    cases hns
    exact .ok (.bool _)

theorem chain_beq_eq (h : List.Forall₂ (Value.Alike ρ) args args') :
    chain Value.beq args = chain Value.beq args' := by
  induction h with
  | nil => rfl
  | cons hv h ih =>
    cases h with
    | nil => rfl
    | cons hw h =>
      rw [chain, chain, ih]
      exact congrArg (· && _) (hv.beq_eq hw)

theorem alike_allEqual (h : List.Forall₂ (Value.Alike ρ) args args') :
    ResultAlike ρ (Value.Alike ρ) (allEqual args) (allEqual args') := by
  cases h with
  | nil => exact .error (.same _ nofun)
  | cons hv h =>
    have hchain := chain_beq_eq (.cons hv h)
    exact .ok (hchain ▸ .bool _)

theorem Argument.alike_extent (name : String) (h : v.Alike ρ v') :
    ResultAlike ρ (· = ·) (extent name v) (extent name v') := by
  cases h with
  | @seq shape xs ys h =>
    refine .ok ?_
    simp only [Rope.size_eq, h.length_eq]
  | @map es fs hk hv =>
    refine .ok ?_
    rw [Rope.size_eq, Rope.size_eq, (Value.alike_map_iff.mp (.map hk hv)).length_eq]
  | nil => exact .ok rfl
  | _ => exact .error (.same _ nofun)

theorem congruent_alike (ρ : Renaming) : Congruent (Error.Alike ρ) (Value.Alike ρ) where
  nil := .nil
  bool := .bool
  int := .int
  seq shape _ _ := .seq shape
  items name _ _ h := (Argument.alike_items name h).correspond
  extent name _ _ h := (Argument.alike_extent name h).correspond
  integer name _ _ h := (Argument.alike_int name h).correspond
  arity _ _ _ := .same _ nofun
  overflow _ := .same _ nofun
  outOfBounds _ _ := .same _ nofun

theorem alike_notExactly {name : String} {n : Nat} (h : List.Forall₂ (Value.Alike ρ) args args') :
    Error.Alike ρ (Argument.notExactly name n args) (Argument.notExactly name n args') :=
  (congruent_alike ρ).notExactly name n h

theorem KindTest.alike_run (t : KindTest) (h : List.Forall₂ (Value.Alike ρ) args args') :
    ResultAlike ρ (Value.Alike ρ) (t.run args) (t.run args') := by
  rcases h with _ | ⟨hv, _ | ⟨hw, h⟩⟩
  · exact .error (.same _ nofun)
  · refine .ok ?_
    cases hv with
    | seq shape h => cases shape <;> cases t <;> exact .bool _
    | _ => cases t <;> exact .bool _
  · exact .error (alike_notExactly (.cons hv (.cons hw h)))

theorem SequenceOp.alike_run (op : SequenceOp) (h : List.Forall₂ (Value.Alike ρ) args args') :
    ResultAlike ρ (Value.Alike ρ) (op.run args) (op.run args') :=
  (congr_run (congruent_alike ρ) op h).resultAlike

end

end Lisplet

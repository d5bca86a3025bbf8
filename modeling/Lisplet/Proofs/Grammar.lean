import Lisplet.Proofs.Cutting

/-! The grammar of forms. It says which tokens are a form and what value that has: a literal,
a bracket around forms, or a mark in front of a form. Reading follows the grammar in both
directions. Tokens that are forms are read as the values of these, whatever stands behind
them, unless it is a lexical fault; and what is read as a form is one by the grammar. -/

namespace Lisplet

open Text (Position)

/-- The value of a token that is a form by itself. -/
def Token.literal? : Token → Option Value
  | nil => some .nil
  | bool b => some (.bool b)
  | int n => some (.int n)
  | str s => some (.str s)
  | symbol name => some (.symbol name)
  | keyword name => some (.keyword (Keyword.nameOf name))
  | _ => none

mutual

/-- Tokens are a form that has a value. -/
inductive Parses : List Token → Value → Prop where
  | literal (h : t.literal? = some v) : Parses [t] v
  | bracket (hs : ParsesAll ts vs) (hb : Form.bracketed b vs = .ok v) :
    Parses (.opening b :: (ts ++ [.closing b])) v
  | mark (h : Parses ts v) : Parses (.sigil s :: ts) (Form.marked s v)
  | tag (hd : Parses ts data) (h : Parses us v) : Parses (.tag :: (ts ++ us)) (Form.tagged data v)

/-- Tokens are forms, one behind the other. -/
inductive ParsesAll : List Token → List Value → Prop where
  | nil : ParsesAll [] []
  | cons (h : Parses ts v) (hs : ParsesAll us vs) : ParsesAll (ts ++ us) (v :: vs)

end

section

variable {ts us : List Token} {v w : Value} {vs ws : List Value}

theorem Parses.ne_nil (h : Parses ts v) : ts ≠ [] := by
  cases h <;> exact List.cons_ne_nil _ _

theorem Parses.single (h : Parses ts v) : ParsesAll ts [v] := by
  have h' := ParsesAll.cons h .nil
  rwa [List.append_nil] at h'

theorem ParsesAll.append (h : ParsesAll ts vs) (h' : ParsesAll us ws) :
    ParsesAll (ts ++ us) (vs ++ ws) := by
  induction vs generalizing ts with
  | nil =>
    cases h
    exact h'
  | cons v vs ih =>
    cases h with
    | cons hv hs =>
      rw [List.append_assoc]
      exact .cons hv (ih hs)

theorem ParsesAll.append_iff :
    ParsesAll ts (vs ++ ws) ↔ ∃ us us', ts = us ++ us' ∧ ParsesAll us vs ∧ ParsesAll us' ws := by
  constructor
  · intro h
    induction vs generalizing ts with
    | nil => exact ⟨[], ts, rfl, .nil, h⟩
    | cons v vs ih =>
      cases h with
      | @cons first _ rest _ hv hs =>
        obtain ⟨us, us', rfl, hvs, hws⟩ := ih hs
        exact ⟨first ++ us, us', (List.append_assoc ..).symm, .cons hv hvs, hws⟩
  · rintro ⟨us, us', rfl, hvs, hws⟩
    exact hvs.append hws

theorem parsesAll_singleton_iff : ParsesAll ts [v] ↔ Parses ts v := by
  constructor
  · intro h
    cases h with
    | cons h hs =>
      cases hs
      rwa [List.append_nil]
  · exact Parses.single

theorem parses_opening_iff {b : Bracket} :
    Parses (.opening b :: ts) v ↔
      ∃ us vs, ts = us ++ [.closing b] ∧ ParsesAll us vs ∧ Form.bracketed b vs = .ok v := by
  constructor
  · intro h
    cases h with
    | literal h => contradiction
    | bracket hs hb => exact ⟨_, _, rfl, hs, hb⟩
  · rintro ⟨us, vs, rfl, hs, hb⟩
    exact .bracket hs hb

theorem parsesAll_literal_iff {t : Token} (ht : t.literal? = some v) :
    ParsesAll (t :: ts) vs ↔ ∃ ws, vs = v :: ws ∧ ParsesAll ts ws := by
  constructor
  · intro h
    generalize hts : t :: ts = all at h
    cases h with
    | nil => contradiction
    | cons hv hs =>
      cases hv with
      | literal hu =>
        obtain ⟨rfl, rfl⟩ := List.cons.inj hts
        cases ht.symm.trans hu
        exact ⟨_, rfl, hs⟩
      | bracket | mark | tag =>
        obtain ⟨rfl, -⟩ := List.cons.inj hts
        contradiction
  · rintro ⟨ws, rfl, hs⟩
    exact .cons (.literal ht) hs

theorem ParsesAll.eq_nil (h : ParsesAll [] vs) : vs = [] := by
  generalize hts : ([] : List Token) = ts at h
  cases h with
  | nil => rfl
  | cons h hs => exact absurd (List.append_eq_nil_iff.mp hts.symm).1 h.ne_nil

end

namespace Form

variable {fault : Option LexFault} {stop last p : Position} {opened outer : List Open}
  {t : Token} {items more : List (Token × Position)} {ts us : List Token} {v : Value}
  {vs : List Value}

/-! ## Forms are read -/

/-- What reading does with a finished form or with forms that are still open. -/
def resume (fault : Option LexFault) (stop last : Position) (items : List (Token × Position)) :
    Value ⊕ List Open → Except ReadError Value × Tokens
  | .inl v => (.ok v, ⟨items, fault, stop⟩)
  | .inr opened => finish fault stop opened last items

/-- No fault spoils the token in front of `more`. -/
def Clear (fault : Option LexFault) (more : List (Token × Position)) : Prop :=
  fault = none ∨ more ≠ []

theorem not_clear_iff : ¬ Clear fault more ↔ ∃ e, fault = some e ∧ more = [] := by
  cases fault <;> simp [Clear]

theorem finish_of_accept {x : Value ⊕ List Open} (h : accept opened t = .ok x)
    (hm : Clear fault more) :
    finish fault stop opened last ((t, p) :: more) = resume fault stop p more x := by
  rw [finish]
  · rw [h]
    cases x <;> rfl
  · rintro e rfl rfl
    rcases hm with hm | hm <;> contradiction

theorem finish_of_accept_error {e : ReadFault} (h : accept opened t = .error e)
    (hm : Clear fault more) :
    finish fault stop opened last ((t, p) :: more) = (.error ⟨e, p⟩, ⟨more, fault, stop⟩) := by
  rw [finish]
  · rw [h]
  · rintro e rfl rfl
    rcases hm with hm | hm <;> contradiction

theorem accept_literal (h : t.literal? = some v) (opened : List Open) :
    accept opened t = .ok (deliver opened v) := by
  cases t with
  | opening | closing | sigil | tag => contradiction
  | nil | bool | int | str | symbol | keyword =>
    cases h
    rfl

mutual

/-- The tokens of a form are read as its value, which is handed to the open forms. -/
theorem finish_of_parses {fault : Option LexFault} {stop : Position}
    {items more : List (Token × Position)} {ts : List Token} {v : Value} (h : Parses ts v)
    (opened : List Open) (last : Position) (hi : items.map Prod.fst = ts) (hm : Clear fault more) :
    ∃ last', finish fault stop opened last (items ++ more) =
      resume fault stop last' more (deliver opened v) := by
  match h with
  | .literal hl =>
    obtain ⟨⟨_, p⟩, rfl, rfl⟩ := List.map_eq_singleton_iff.mp hi
    exact ⟨p, finish_of_accept (accept_literal hl opened) hm⟩
  | @Parses.bracket ts vs b v hs hb =>
    obtain ⟨⟨_, p⟩, inner, rfl, rfl, hinner⟩ := List.map_eq_cons_iff.mp hi
    obtain ⟨inner, close, rfl, hts, hclose⟩ := List.map_eq_append_iff.mp hinner
    obtain ⟨⟨_, q⟩, rfl, rfl⟩ := List.map_eq_singleton_iff.mp hclose
    have hopen : accept opened (.opening b) = .ok (.inr (.bracket b [] :: opened)) := rfl
    have hend : accept (.bracket b (vs.reverse ++ []) :: opened) (.closing b) =
        .ok (deliver opened v) := by
      simp [accept, hb, Except.map]
    have hne : (.closing b, q) :: more ≠ [] := List.cons_ne_nil _ _
    obtain ⟨last', hf⟩ := finish_of_parsesAll hs b [] opened p hts hne
    refine ⟨q, ?_⟩
    have hmore : Clear fault (inner ++ (.closing b, q) :: more) := .inr (by simp)
    rw [List.cons_append, List.append_assoc, List.singleton_append,
      finish_of_accept hopen hmore]
    exact hf.trans (finish_of_accept hend hm)
  | @Parses.mark ts v s h =>
    obtain ⟨⟨_, p⟩, inner, rfl, rfl, hinner⟩ := List.map_eq_cons_iff.mp hi
    have hopen : accept opened (.sigil s) = .ok (.inr (.mark s :: opened)) := rfl
    have hne : inner ≠ [] := by
      rintro rfl
      exact h.ne_nil hinner.symm
    obtain ⟨last', hf⟩ := finish_of_parses h (.mark s :: opened) p hinner hm
    have hmore : Clear fault (inner ++ more) := .inr (by simp [hne])
    exact ⟨last', (finish_of_accept hopen hmore).trans hf⟩
  | @Parses.tag ts data us v hd h =>
    obtain ⟨⟨_, p⟩, inner, rfl, rfl, hinner⟩ := List.map_eq_cons_iff.mp hi
    obtain ⟨first, second, rfl, hfirst, hsecond⟩ := List.map_eq_append_iff.mp hinner
    have hopen : accept opened .tag = .ok (.inr (.tag :: opened)) := rfl
    have hne : second ≠ [] := by
      rintro rfl
      exact h.ne_nil hsecond.symm
    have hmore : Clear fault (second ++ more) := .inr (by simp [hne])
    have hall : Clear fault (first ++ (second ++ more)) := .inr (by simp [hne])
    obtain ⟨last₁, hf₁⟩ := finish_of_parses hd (.tag :: opened) p hfirst hmore
    obtain ⟨last₂, hf₂⟩ := finish_of_parses h (.tagging data :: opened) last₁ hsecond hm
    refine ⟨last₂, ?_⟩
    rw [List.cons_append, List.append_assoc, finish_of_accept hopen hall]
    exact hf₁.trans hf₂

/-- The values of forms inside a bracket are gathered, the last one first. -/
theorem finish_of_parsesAll {fault : Option LexFault} {stop : Position}
    {items more : List (Token × Position)} {ts : List Token} {vs : List Value}
    (h : ParsesAll ts vs) (b : Bracket) (done : List Value) (outer : List Open)
    (last : Position) (hi : items.map Prod.fst = ts) (hm : more ≠ []) :
    ∃ last', finish fault stop (.bracket b done :: outer) last (items ++ more) =
      finish fault stop (.bracket b (vs.reverse ++ done) :: outer) last' more := by
  match h with
  | .nil =>
    cases List.map_eq_nil_iff.mp hi
    exact ⟨last, rfl⟩
  | @ParsesAll.cons ts v us vs h hs =>
    obtain ⟨first, rest, rfl, hfirst, hrest⟩ := List.map_eq_append_iff.mp hi
    have hmore : Clear fault (rest ++ more) := .inr (by simp [hm])
    obtain ⟨last₁, hf₁⟩ := finish_of_parses h (.bracket b done :: outer) last hfirst hmore
    obtain ⟨last₂, hf₂⟩ := finish_of_parsesAll hs b (v :: done) outer last₁ hrest hm
    refine ⟨last₂, ?_⟩
    rw [List.append_assoc, hf₁, deliver, resume, hf₂]
    simp

end

/-! ## What is read is a form -/

/-- Forms are open behind the tokens. -/
inductive Pending : List Open → List Token → Prop where
  | nil : Pending [] []
  | bracket {outer : List Open} {us ts : List Token} {b : Bracket} {done : List Value}
    (ho : Pending outer us) (h : ParsesAll ts done.reverse) :
    Pending (.bracket b done :: outer) (us ++ .opening b :: ts)
  | mark {outer : List Open} {us : List Token} (ho : Pending outer us) :
    Pending (.mark s :: outer) (us ++ [.sigil s])
  | tag {outer : List Open} {us : List Token} (ho : Pending outer us) :
    Pending (.tag :: outer) (us ++ [.tag])
  | tagging {outer : List Open} {us ts : List Token} (ho : Pending outer us)
    (h : Parses ts data) : Pending (.tagging data :: outer) (us ++ .tag :: ts)

/-- Behind the tokens the outermost form is finished, or forms are open. -/
def Taken (us : List Token) : Value ⊕ List Open → Prop
  | .inl v => Parses us v
  | .inr opened => Pending opened us

theorem Pending.deliver (ho : Pending opened us) (h : Parses ts v) :
    Taken (us ++ ts) (deliver opened v) := by
  induction ho generalizing ts v with
  | nil => exact h
  | @bracket outer us ts' b done ho h' ih =>
    have hall : ParsesAll (ts' ++ ts) (v :: done).reverse := by
      rw [List.reverse_cons]
      exact h'.append h.single
    rw [List.append_assoc]
    exact .bracket ho hall
  | mark ho ih =>
    rw [List.append_assoc]
    exact ih (.mark h)
  | tag ho ih =>
    rw [List.append_assoc]
    exact .tagging ho h
  | tagging ho hd ih =>
    rw [List.append_assoc]
    exact ih (.tag hd h)

theorem Pending.accept {x : Value ⊕ List Open} (ho : Pending opened us)
    (h : accept opened t = .ok x) : Taken (us ++ [t]) x := by
  cases t with
  | opening b =>
    cases h
    exact .bracket ho .nil
  | closing b =>
    cases ho with
    | @bracket outer us ts b' done ho hs =>
      simp only [Form.accept] at h
      split at h
      · next hb =>
        subst hb
        cases hv : bracketed b done.reverse with
        | error e =>
          rw [hv] at h
          cases h
        | ok v =>
          rw [hv] at h
          cases h
          rw [List.append_assoc]
          exact ho.deliver (.bracket hs hv)
      · cases h
    | nil | mark | tag | tagging => cases h
  | sigil s =>
    cases h
    exact .mark ho
  | tag =>
    cases h
    exact .tag ho
  | nil | bool | int | str | symbol | keyword =>
    cases h
    exact ho.deliver (.literal rfl)

theorem parses_of_finish {rest : Tokens} (ho : Pending opened us)
    (h : finish fault stop opened last items = (.ok v, rest)) :
    ∃ used, (⟨items, fault, stop⟩ : Tokens) = rest.behind used ∧
      Parses (us ++ used.map Prod.fst) v ∧ Clear rest.fault rest.items := by
  induction items generalizing opened last us with
  | nil => cases h
  | cons item more ih =>
    obtain ⟨t, p⟩ := item
    by_cases hm : Clear fault more
    · cases hx : accept opened t with
      | error e =>
        rw [finish_of_accept_error hx hm] at h
        cases h
      | ok x =>
        rw [finish_of_accept hx hm] at h
        have hx := ho.accept hx
        cases x with
        | inl v =>
          cases h
          exact ⟨[(t, p)], rfl, hx, hm⟩
        | inr opened =>
          obtain ⟨used, hused, hv, hrest⟩ := ih hx h
          refine ⟨(t, p) :: used, ?_, ?_, hrest⟩
          · cases hused
            rfl
          · rwa [List.append_assoc] at hv
    · obtain ⟨e, rfl, rfl⟩ := not_clear_iff.mp hm
      cases h

theorem next_of_ne_nil {ts : Tokens} (h : ts.items ≠ []) :
    next ts = some (finish ts.fault ts.finish [] .start ts.items) := by
  unfold next
  split
  · contradiction
  · rfl

theorem next_eq_none {ts : Tokens} (h : next ts = none) : ts.items = [] := by
  unfold next at h
  split at h
  · assumption
  · contradiction

/-- **What is read next is a form**, with another token or the end of the text behind it. -/
theorem next_eq_ok_iff {ts rest : Tokens} :
    next ts = some (.ok v, rest) ↔
      ∃ used, ts = rest.behind used ∧ Parses (used.map Prod.fst) v ∧
        Clear rest.fault rest.items := by
  constructor
  · intro h
    unfold next at h
    split at h
    · contradiction
    · exact parses_of_finish .nil (Option.some.inj h)
  · rintro ⟨used, rfl, hv, hm⟩
    have hne : used ++ rest.items ≠ [] := fun h =>
      hv.ne_nil (by rw [(List.append_eq_nil_iff.mp h).1, List.map_nil])
    obtain ⟨last, hf⟩ := finish_of_parses hv [] .start rfl hm
    exact (next_of_ne_nil hne).trans (congrArg some hf)

/-! ## All forms of a text -/

/-- Tokens that are forms are read as these, and reading goes on behind them. -/
theorem all_behind {used : List (Token × Position)} {rest : Tokens}
    (h : ParsesAll (used.map Prod.fst) vs) (hm : Clear rest.fault rest.items) :
    all (rest.behind used) = vs.map .ok ++ all rest := by
  induction vs generalizing used with
  | nil =>
    generalize hts : used.map Prod.fst = ts at h
    cases h
    cases List.map_eq_nil_iff.mp hts
    rfl
  | cons v vs ih =>
    generalize hts : used.map Prod.fst = ts at h
    cases h with
    | cons hv hs =>
      obtain ⟨first, others, rfl, rfl, rfl⟩ := List.map_eq_append_iff.mp hts
      have hothers : Clear rest.fault (others ++ rest.items) := by
        rcases hm with hm | hm
        · exact .inl hm
        · exact .inr (by simp [hm])
      have hn : next (rest.behind (first ++ others)) = some (.ok v, rest.behind others) :=
        next_eq_ok_iff.mpr ⟨first, by simp [Tokens.behind], hv, hothers⟩
      rw [all_eq, hn]
      exact congrArg (Except.ok v :: ·) (ih hs)

/-- A fault behind the last token of a form is what reading that form gives. -/
theorem finish_spoiled {e : LexFault} (hne : items ≠ [])
    (h : finish none stop opened last items = (.ok v, ⟨[], none, stop⟩)) :
    finish (some e) stop opened last items = (.error ⟨.lexical e, stop⟩, ⟨[], none, stop⟩) := by
  induction items generalizing opened last with
  | nil => contradiction
  | cons item more ih =>
    obtain ⟨t, p⟩ := item
    cases more with
    | nil => rfl
    | cons next more =>
      have hm {fault : Option LexFault} : Clear fault (next :: more) := .inr (by simp)
      cases hx : accept opened t with
      | error e =>
        rw [finish_of_accept_error hx hm] at h
        cases h
      | ok x =>
        rw [finish_of_accept hx hm] at h ⊢
        cases x with
        | inl w => cases h
        | inr opened => exact @ih p opened (by simp) h

theorem all_spoiled {used : List (Token × Position)} {e : LexFault}
    (h : ParsesAll (used.map Prod.fst) (vs ++ [v])) :
    all ⟨used, some e, stop⟩ = vs.map .ok ++ [.error ⟨.lexical e, stop⟩] := by
  obtain ⟨ts, us, hts, hvs, hv⟩ := ParsesAll.append_iff.mp h
  obtain ⟨first, final, rfl, rfl, rfl⟩ := List.map_eq_append_iff.mp hts
  have hv := parsesAll_singleton_iff.mp hv
  have hne : final ≠ [] := by
    rintro rfl
    exact hv.ne_nil rfl
  have hclear : Clear none ([] : List (Token × Position)) := .inl rfl
  obtain ⟨last, hf⟩ := finish_of_parses hv [] .start rfl hclear
  rw [List.append_nil] at hf
  have hn : next ⟨final, some e, stop⟩ =
      some (.error ⟨.lexical e, stop⟩, ⟨[], none, stop⟩) :=
    (next_of_ne_nil hne).trans (congrArg some (finish_spoiled hne hf))
  have hfirst : all (Tokens.behind first ⟨final, some e, stop⟩) = _ := all_behind hvs (.inr hne)
  have hlast : all ⟨final, some e, stop⟩ = [.error ⟨.lexical e, stop⟩] := by
    rw [all_eq, hn]
    simp only
    rw [all_eq]
    rfl
  rw [← hlast]
  exact hfirst

theorem collect_eq_ok_iff {found : List (Except ReadError Value)} :
    collect found = .ok vs ↔ found = vs.map .ok := by
  constructor
  · intro h
    induction found generalizing vs with
    | nil =>
      cases h
      rfl
    | cons x found ih =>
      cases x with
      | error e => cases h
      | ok v =>
        cases hc : collect found with
        | error e =>
          rw [collect, hc] at h
          cases h
        | ok us =>
          rw [collect, hc] at h
          cases h
          exact congrArg (Except.ok v :: ·) (ih hc)
  · rintro rfl
    induction vs with
    | nil => rfl
    | cons v vs ih =>
      rw [List.map_cons, collect, ih]
      rfl

end Form

namespace Tokens

/-- The tokens without their places. -/
def toList (ts : Tokens) : List Token := ts.items.map Prod.fst

end Tokens

namespace Form

variable {vs : List Value} {ts : Tokens}

theorem all_eq_ok_iff (hm : Clear ts.fault ts.items) :
    all ts = vs.map .ok ↔ ts.fault = none ∧ ParsesAll ts.toList vs := by
  constructor
  · intro h
    rw [all_eq] at h
    induction vs generalizing ts with
    | nil =>
      split at h
      · next hn =>
        have hi : ts.items = [] := next_eq_none hn
        rcases hm with hf | hi'
        · exact ⟨hf, by rw [Tokens.toList, hi]; exact .nil⟩
        · contradiction
      · cases h
    | cons v vs ih =>
      split at h
      · cases h
      · next found rest hn =>
        obtain ⟨rfl, hall⟩ := List.cons.inj h
        obtain ⟨used, rfl, hv, hrest⟩ := next_eq_ok_iff.mp hn
        rw [all_eq] at hall
        obtain ⟨hf, hvs⟩ := ih hrest hall
        refine ⟨hf, ?_⟩
        rw [Tokens.toList, Tokens.behind, List.map_append]
        exact .cons hv hvs
  · rintro ⟨hf, hvs⟩
    have hts : ts = Tokens.behind ts.items ⟨[], none, ts.finish⟩ := by
      rw [Tokens.behind, List.append_nil, ← hf]
    have hend : all ⟨[], none, ts.finish⟩ = [] := by
      rw [all_eq]
      rfl
    rw [hts, all_behind hvs (.inl rfl), hend, List.append_nil]

/-- Reading begins with the first token, unless that is a fault. -/
theorem start_of_clear {s : String}
    (hm : Clear (Tokens.ofString s).fault (Tokens.ofString s).items) :
    start s = .ok (Tokens.ofString s) := by
  unfold start
  split
  · next h =>
    rw [h] at hm
    rcases hm with hm | hm <;> contradiction
  · rfl

theorem sequence_of_clear {s : String}
    (hm : Clear (Tokens.ofString s).fault (Tokens.ofString s).items) :
    sequence s = all (Tokens.ofString s) := by
  rw [sequence, start_of_clear hm]

/-- Where a text begins with a fault there is nothing to read but that. -/
theorem start_of_fault {s : String} {e : LexFault} {stop : Position}
    (h : Tokens.ofString s = ⟨[], some e, stop⟩) : start s = .error ⟨.lexical e, stop⟩ := by
  rw [start, h]

theorem sequence_of_fault {s : String} {e : LexFault} {stop : Position}
    (h : Tokens.ofString s = ⟨[], some e, stop⟩) :
    sequence s = [.error ⟨.lexical e, stop⟩] := by
  rw [sequence, start_of_fault h]

theorem ofString_of_not_clear {s : String}
    (hm : ¬ Clear (Tokens.ofString s).fault (Tokens.ofString s).items) :
    ∃ e stop, Tokens.ofString s = ⟨[], some e, stop⟩ := by
  obtain ⟨e, hf, hi⟩ := not_clear_iff.mp hm
  exact ⟨e, (Tokens.ofString s).finish, by rw [← hf, ← hi]⟩

/-- **Reading follows the grammar.** A text is read without complaint if and only if it is cut
without fault into tokens that are forms, and what is read are their values. -/
theorem readAll_eq_ok_iff {s : String} :
    readAll s = .ok vs ↔
      (Tokens.ofString s).fault = none ∧ ParsesAll (Tokens.ofString s).toList vs := by
  rw [readAll, collect_eq_ok_iff]
  by_cases hm : Clear (Tokens.ofString s).fault (Tokens.ofString s).items
  · rw [sequence_of_clear hm, all_eq_ok_iff hm]
  · obtain ⟨e, stop, hts⟩ := ofString_of_not_clear hm
    rw [sequence_of_fault hts, hts]
    constructor
    · intro h
      cases vs <;> cases h
    · rintro ⟨h, -⟩
      cases h

/-- A text is read without complaint if and only if its tokens can all be written and are
forms. -/
theorem readAll_eq_ok_iff_of_lexed {text : String} {ts : List Token}
    (h : Lexed text.toList ts) :
    readAll text = .ok vs ↔ ts.all Token.isNamed = true ∧ ParsesAll ts vs := by
  obtain ⟨items, stop, hi, hs⟩ := h .start
  rw [readAll_eq_ok_iff, Tokens.ofString, Source.ofString, hs, Tokens.toList, hi]
  by_cases hn : ts.all Token.isNamed = true
  · have hall : (ts ++ []).takeWhile Token.isNamed = ts ++ [] :=
      List.takeWhile_append_of_pos (List.all_eq_true.mp hn)
    rw [List.append_nil] at hall
    simp [hn, hall]
  · simp [hn]

/-- The first form of a text is made of its first tokens, and no fault stands right behind
them. -/
theorem readFirst_eq_ok_iff {s : String} {v : Value} :
    readFirst s = .ok (some v) ↔
      ∃ ts us, (Tokens.ofString s).toList = ts ++ us ∧ Parses ts v ∧
        ((Tokens.ofString s).fault = none ∨ us ≠ []) := by
  rw [readFirst_eq]
  by_cases hm : Clear (Tokens.ofString s).fault (Tokens.ofString s).items
  · rw [sequence_of_clear hm, all_eq]
    constructor
    · intro h
      cases hn : next (Tokens.ofString s) with
      | none => simp [hn] at h
      | some found =>
        obtain ⟨found, rest⟩ := found
        simp only [hn] at h
        cases found with
        | error e => cases h
        | ok w =>
          cases h
          obtain ⟨used, hused, hv, hrest⟩ := next_eq_ok_iff.mp hn
          rw [hused]
          refine ⟨used.map Prod.fst, rest.toList, List.map_append, hv, ?_⟩
          exact hrest.imp_right fun hne he => hne (List.map_eq_nil_iff.mp he)
    · rintro ⟨ts, us, hi, hv, hus⟩
      obtain ⟨used, more, hitems, rfl, rfl⟩ := List.map_eq_append_iff.mp hi
      have hmore : Clear (Tokens.ofString s).fault more :=
        hus.imp_right fun hne he => hne (congrArg _ he)
      have hn : next (Tokens.ofString s) =
          some (.ok v, ⟨more, (Tokens.ofString s).fault, (Tokens.ofString s).finish⟩) := by
        refine next_eq_ok_iff.mpr ⟨used, ?_, hv, hmore⟩
        rw [Tokens.behind, ← hitems]
      simp only [hn]
  · obtain ⟨e, stop, hts⟩ := ofString_of_not_clear hm
    rw [sequence_of_fault hts, hts]
    constructor
    · intro h
      cases h
    · rintro ⟨ts, us, hi, hv, -⟩
      obtain ⟨rfl, -⟩ := List.append_eq_nil_iff.mp hi.symm
      exact absurd rfl hv.ne_nil

/-- A text without tokens has no form. -/
theorem readFirst_eq_none {s : String} (h : readFirst s = .ok none) :
    (Tokens.ofString s).toList = [] := by
  unfold readFirst at h
  split at h
  · next behind hn => rw [Tokens.ofString, Tokens.ofSource_eq, hn]; rfl
  · cases h
  · next t behind hn => cases hr : readFrom [] t behind <;> rw [hr] at h <;> cases h

end Form

end Lisplet

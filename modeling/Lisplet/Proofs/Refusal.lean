import Lisplet.Proofs.Grammar

/-! What is no form, by the grammar of forms. Tokens with which a form begins and does not end wait
for a closing bracket or for the form behind a mark; the reader finds a fault with the first closing
bracket that they do not wait for, and with the end of the text where they still wait. So the tokens
that a call of the reader takes are told by the grammar alone, also where no form is found: no form
begins with those up to a bracket that is refused, and one does with those in front of it. -/

namespace Lisplet

open Text (Position)

/-- A form begins with these tokens and does not end with them. -/
def Unfinished (us : List Token) : Prop := ∃ more v, more ≠ [] ∧ Parses (us ++ more) v

/-- Behind these tokens the bracket `b` is the innermost one that is open, with nothing but whole
forms in it. -/
inductive Expects : List Token → Bracket → Prop where
  | bracket (h : Unfinished outer) (hs : ParsesAll ts vs) : Expects (outer ++ .opening b :: ts) b

/-- Behind these tokens a mark still stands in front of nothing. -/
inductive Dangling : List Token → Prop where
  | mark (h : Unfinished outer) : Dangling (outer ++ [.sigil s])
  | tag (h : Unfinished outer) : Dangling (outer ++ [.tag])
  /-- The metadata are there, and the form that has them is not. -/
  | tagging (h : Unfinished outer) (hd : Parses ts data) : Dangling (outer ++ .tag :: ts)

/-- What is wrong with a closing bracket behind tokens that do not wait for it, or with which it
makes a map without a value for its last key. -/
inductive Refused : List Token → Bracket → ReadFault → Prop where
  | first : Refused [] b (.unexpected b)
  | other (h : Expects us b') (hb : b ≠ b') : Refused us b (.unexpected b)
  | dangling (h : Dangling us) : Refused us b (.unexpected b)
  | odd (h : Unfinished outer) (hs : ParsesAll ts vs) (hodd : vs.length % 2 = 1) :
    Refused (outer ++ .opening .curly :: ts) .curly .oddMap

/-- What one call of the reader finds in the tokens that are left, and what is left behind that. -/
inductive Reads : Tokens → Except ReadError Value → Tokens → Prop where
  | form {used : List (Token × Position)} {rest : Tokens} {v : Value}
    (h : Parses (used.map Prod.fst) v) (hm : Form.Clear rest.fault rest.items) :
    Reads (rest.behind used) (.ok v) rest
  | refused {used : List (Token × Position)} {rest : Tokens} {b : Bracket} {e : ReadFault}
    (hu : Unfinished (used.map Prod.fst)) (h : Refused (used.map Prod.fst) b e)
    (hm : Form.Clear rest.fault rest.items) :
    Reads (rest.behind (used ++ [(.closing b, p)])) (.error ⟨e, p⟩) rest
  | missing (h : Expects ((used ++ [(t, p)]).map Prod.fst) b) :
    Reads ⟨used ++ [(t, p)], none, stop⟩ (.error ⟨.missing b, p⟩) ⟨[], none, stop⟩
  | endOfText (h : Dangling (used.map Prod.fst)) :
    Reads ⟨used, none, stop⟩ (.error ⟨.endOfText, stop⟩) ⟨[], none, stop⟩
  /-- A lexical fault takes the token in front of it with it, and ends the reading. -/
  | lexical (hu : Unfinished (used.map Prod.fst)) :
    Reads ⟨used ++ [(t, p)], some e, stop⟩ (.error ⟨.lexical e, stop⟩) ⟨[], none, stop⟩

section

variable {ts us more : List Token} {v w : Value} {vs : List Value} {b : Bracket} {e : ReadFault}
  {fault : Option LexFault} {stop last p : Position} {opened outer : List Form.Open}
  {items taken : List (Token × Position)} {found : Except ReadError Value} {rest : Tokens}
  {t : Token}

namespace Form

/-! ## Tokens that wait for more -/

/-- A form behind tokens that wait for one goes on to a whole form. -/
theorem Pending.complete (ho : Pending opened us) (h : Parses ts v) :
    ∃ more w, Parses (us ++ (ts ++ more)) w := by
  have hnil : Parses [.nil] .nil := .literal rfl
  induction ho generalizing ts v with
  | nil => exact ⟨[], v, by rwa [List.append_nil]⟩
  | @bracket outer us inner b done ho hs ih =>
    have hall : ParsesAll (inner ++ ts) (done.reverse ++ [v]) := hs.append h.single
    -- one more form if the bracket is that of a map and has to hold evenly many
    obtain ⟨fill, vs, w, hfill, hw⟩ : ∃ fill vs w,
        ParsesAll (inner ++ (ts ++ fill)) vs ∧ bracketed b vs = .ok w := by
      cases hp : bracketed b (done.reverse ++ [v]) with
      | ok w => exact ⟨[], _, w, by rwa [List.append_nil], hp⟩
      | error e =>
        have hmore := hall.append hnil.single
        rw [List.append_assoc] at hmore
        cases hq : bracketed b (done.reverse ++ [v] ++ [.nil]) with
        | ok w => exact ⟨[.nil], _, w, hmore, hq⟩
        | error e' =>
          obtain ⟨-, -, hodd⟩ := bracketed_eq_error_iff.mp hp
          obtain ⟨-, -, hodd'⟩ := bracketed_eq_error_iff.mp hq
          rw [List.length_append, List.length_singleton] at hodd'
          omega
    obtain ⟨more, u, hu⟩ := ih (.bracket hfill hw)
    exact ⟨fill ++ .closing b :: more, u, by simpa using hu⟩
  | mark ho ih =>
    obtain ⟨more, u, hu⟩ := ih (.mark h)
    exact ⟨more, u, by simpa using hu⟩
  | tag ho ih =>
    obtain ⟨more, u, hu⟩ := ih (.tag h hnil)
    exact ⟨.nil :: more, u, by simpa using hu⟩
  | tagging ho hd ih =>
    obtain ⟨more, u, hu⟩ := ih (.tag hd h)
    exact ⟨more, u, by simpa using hu⟩

/-- Tokens that a whole form goes on from leave forms open. -/
theorem exists_pending (ho : Pending opened us) (hm : items ≠ [])
    (h : finish fault stop opened last (taken ++ items) = (.ok v, rest)) (hr : rest.items = []) :
    ∃ opened', Pending opened' (us ++ taken.map Prod.fst) := by
  induction taken generalizing opened us last with
  | nil => exact ⟨opened, by simpa using ho⟩
  | cons item taken ih =>
    obtain ⟨t, p⟩ := item
    have hc : Clear fault (taken ++ items) := .inr (by simp [hm])
    rw [List.cons_append] at h
    cases hx : accept opened t with
    | error e =>
      rw [finish_of_accept_error hx hc] at h
      cases h
    | ok x =>
      rw [finish_of_accept hx hc] at h
      have ho' := ho.accept hx
      cases x with
      | inl w =>
        cases h
        exact absurd (List.append_eq_nil_iff.mp hr).2 hm
      | inr opened' =>
        obtain ⟨opened'', hp⟩ := ih ho' h
        exact ⟨opened'', by simpa using hp⟩

/-- Tokens at one and the same place, for the grammar does not look where they stand. -/
def atStart (ts : List Token) : List (Token × Position) := ts.map fun t => (t, .start)

@[simp] theorem map_fst_atStart (ts : List Token) : (atStart ts).map Prod.fst = ts := by
  simp [atStart, Function.comp_def]

theorem atStart_append (ts us : List Token) : atStart (ts ++ us) = atStart ts ++ atStart us :=
  List.map_append

theorem finish_atStart (h : Parses ts v) :
    finish none .start [] .start (atStart ts) = (.ok v, ⟨[], none, .start⟩) := by
  obtain ⟨last, hf⟩ : ∃ last, finish none .start [] .start (atStart ts ++ []) =
      resume none .start last [] (deliver [] v) :=
    finish_of_parses h [] .start (map_fst_atStart ts) (.inl rfl)
  rwa [List.append_nil] at hf

theorem unfinished_iff : Unfinished us ↔ ∃ opened, Pending opened us := by
  constructor
  · rintro ⟨more, v, hm, hv⟩
    have hf := finish_atStart hv
    rw [atStart_append] at hf
    obtain ⟨opened, ho⟩ := exists_pending .nil (by simpa [atStart] using hm) hf rfl
    rw [map_fst_atStart, List.nil_append] at ho
    exact ⟨opened, ho⟩
  · rintro ⟨opened, ho⟩
    have hnil : Parses [.nil] .nil := .literal rfl
    obtain ⟨more, v, hv⟩ := ho.complete hnil
    exact ⟨_, v, by simp, hv⟩

theorem expects_iff : Expects us b ↔ ∃ done outer, Pending (.bracket b done :: outer) us := by
  constructor
  · rintro ⟨h, hs⟩
    obtain ⟨opened, ho⟩ := unfinished_iff.mp h
    exact ⟨_, opened, .bracket ho (by rwa [List.reverse_reverse])⟩
  · rintro ⟨done, outer, ho⟩
    cases ho with
    | bracket ho hs => exact .bracket (unfinished_iff.mpr ⟨_, ho⟩) hs

theorem dangling_iff : Dangling us ↔
    ∃ o outer, Pending (o :: outer) us ∧ ∀ b done, o ≠ .bracket b done := by
  constructor
  · intro h
    cases h with
    | mark h =>
      obtain ⟨opened, ho⟩ := unfinished_iff.mp h
      exact ⟨_, opened, .mark ho, nofun⟩
    | tag h =>
      obtain ⟨opened, ho⟩ := unfinished_iff.mp h
      exact ⟨_, opened, .tag ho, nofun⟩
    | tagging h hd =>
      obtain ⟨opened, ho⟩ := unfinished_iff.mp h
      exact ⟨_, opened, .tagging ho hd, nofun⟩
  · rintro ⟨o, outer, ho, hb⟩
    cases ho with
    | bracket => exact absurd rfl (hb _ _)
    | mark ho => exact .mark (unfinished_iff.mpr ⟨_, ho⟩)
    | tag ho => exact .tag (unfinished_iff.mpr ⟨_, ho⟩)
    | tagging ho hd => exact .tagging (unfinished_iff.mpr ⟨_, ho⟩) hd

/-- Behind tokens that wait for more only closing brackets are refused. -/
theorem Pending.refused (ho : Pending opened us) (h : Form.accept opened t = .error e) :
    ∃ b, t = .closing b ∧ Refused us b e := by
  cases t with
  | closing b =>
    refine ⟨b, rfl, ?_⟩
    cases opened with
    | nil =>
      cases ho
      cases h
      exact .first
    | cons o outer =>
      cases o with
      | bracket b' done =>
        by_cases hb : b = b'
        · subst hb
          cases hx : bracketed b done.reverse with
          | ok v => simp [Form.accept, hx, Except.map] at h
          | error e' =>
            simp only [Form.accept, hx, if_true, Except.map, Except.error.injEq] at h
            subst h
            obtain ⟨rfl, rfl, hodd⟩ := bracketed_eq_error_iff.mp hx
            cases ho with
            | bracket ho hs => exact .odd (unfinished_iff.mpr ⟨_, ho⟩) hs hodd
        · simp only [Form.accept, if_neg hb, Except.error.injEq] at h
          subst h
          exact .other (expects_iff.mpr ⟨done, outer, ho⟩) hb
      | mark | tag | tagging =>
        cases h
        exact .dangling (dangling_iff.mpr ⟨_, outer, ho, nofun⟩)
  | opening | sigil | tag | nil | bool | int | str | symbol | keyword => cases h

/-- Reading tokens that wait for more comes to the forms that they leave open. -/
theorem Pending.finish (ho : Pending opened us) (hi : taken.map Prod.fst = us) (hm : items ≠ []) :
    ∃ last', Form.finish fault stop [] last (taken ++ items) =
      Form.finish fault stop opened last' items := by
  induction ho generalizing taken items with
  | nil =>
    cases List.map_eq_nil_iff.mp hi
    exact ⟨last, rfl⟩
  | @bracket outer us ts b done ho hs ih =>
    obtain ⟨before, more, rfl, hbefore, hmore⟩ := List.map_eq_append_iff.mp hi
    obtain ⟨⟨_, p⟩, inner, rfl, rfl, hinner⟩ := List.map_eq_cons_iff.mp hmore
    have hne : (Token.opening b, p) :: inner ++ items ≠ [] := by simp
    obtain ⟨last₁, hf₁⟩ := ih hbefore hne
    obtain ⟨last₂, hf₂⟩ : ∃ last₂, Form.finish fault stop (.bracket b [] :: outer) p
        (inner ++ items) = Form.finish fault stop (.bracket b (done.reverse.reverse ++ []) :: outer)
          last₂ items :=
      finish_of_parsesAll hs b [] outer p hinner hm
    refine ⟨last₂, ?_⟩
    rw [List.append_assoc, hf₁, List.cons_append, finish_of_accept rfl (.inr (by simp [hm]))]
    rwa [List.reverse_reverse, List.append_nil] at hf₂
  | mark ho ih | tag ho ih =>
    obtain ⟨before, more, rfl, hbefore, hmore⟩ := List.map_eq_append_iff.mp hi
    obtain ⟨item, rfl, ht⟩ := List.map_eq_singleton_iff.mp hmore
    obtain ⟨last₁, hf₁⟩ := ih hbefore (List.cons_ne_nil item items)
    obtain ⟨_, p⟩ := item
    cases ht
    refine ⟨p, ?_⟩
    rw [List.append_assoc, List.singleton_append, hf₁, finish_of_accept rfl (.inr hm)]
    rfl
  | @tagging data outer us ts ho hd ih =>
    obtain ⟨before, more, rfl, hbefore, hmore⟩ := List.map_eq_append_iff.mp hi
    obtain ⟨⟨_, p⟩, inner, rfl, rfl, hinner⟩ := List.map_eq_cons_iff.mp hmore
    have hne : (Token.tag, p) :: inner ++ items ≠ [] := by simp
    obtain ⟨last₁, hf₁⟩ := ih hbefore hne
    obtain ⟨last₂, hf₂⟩ : ∃ last₂, Form.finish fault stop (.tag :: outer) p (inner ++ items) =
        resume fault stop last₂ items (Form.deliver (.tag :: outer) data) :=
      finish_of_parses hd (.tag :: outer) p hinner (.inr hm)
    refine ⟨last₂, ?_⟩
    rw [List.append_assoc, hf₁, List.cons_append, finish_of_accept rfl (.inr (by simp [hm]))]
    exact hf₂

end Form

theorem Expects.unfinished (h : Expects us b) : Unfinished us := by
  obtain ⟨done, outer, ho⟩ := Form.expects_iff.mp h
  exact Form.unfinished_iff.mpr ⟨_, ho⟩

theorem Dangling.unfinished (h : Dangling us) : Unfinished us := by
  obtain ⟨o, outer, ho, -⟩ := Form.dangling_iff.mp h
  exact Form.unfinished_iff.mpr ⟨_, ho⟩

theorem Dangling.ne_nil (h : Dangling us) : us ≠ [] := by
  cases h <;> simp

/-- The forms that tokens leave open refuse a closing bracket which the grammar refuses. -/
theorem Refused.exists_pending (h : Refused us b e) :
    ∃ opened, Form.Pending opened us ∧ Form.accept opened (.closing b) = .error e := by
  cases h with
  | first => exact ⟨[], .nil, rfl⟩
  | other h hb =>
    obtain ⟨done, outer, ho⟩ := Form.expects_iff.mp h
    exact ⟨_, ho, if_neg hb⟩
  | dangling h =>
    obtain ⟨o, outer, ho, hb⟩ := Form.dangling_iff.mp h
    refine ⟨_, ho, ?_⟩
    cases o with
    | bracket b done => exact absurd rfl (hb b done)
    | mark | tag | tagging => rfl
  | @odd outer ts vs h hs hodd =>
    obtain ⟨opened, ho⟩ := Form.unfinished_iff.mp h
    rw [← vs.reverse_reverse] at hs
    refine ⟨_, .bracket ho hs, ?_⟩
    have hb : Form.bracketed .curly vs.reverse.reverse = .error .oddMap := by
      rw [vs.reverse_reverse]
      exact Form.bracketed_eq_error_iff.mpr ⟨rfl, rfl, hodd⟩
    rw [Form.accept, if_pos rfl, hb]
    rfl

/-- **No form begins with tokens and a closing bracket that is refused behind them.** -/
theorem Refused.not_parses (h : Refused us b e) (more : List Token) (v : Value) :
    ¬ Parses (us ++ .closing b :: more) v := by
  intro hv
  obtain ⟨opened, ho, hx⟩ := h.exists_pending
  obtain ⟨last, hp⟩ : ∃ last, Form.finish none .start [] .start
      (Form.atStart us ++ Form.atStart (.closing b :: more)) =
        Form.finish none .start opened last (Form.atStart (.closing b :: more)) :=
    ho.finish (Form.map_fst_atStart us) (List.cons_ne_nil _ _)
  have hf := Form.finish_atStart hv
  have hstop : Form.finish none .start opened last (Form.atStart (.closing b :: more)) = _ :=
    Form.finish_of_accept_error hx (.inl rfl)
  rw [Form.atStart_append, hp, hstop] at hf
  cases hf

/-- A bracket is refused for what stands in front of it, not for what its characters are. -/
theorem Refused.ne_lexical (h : Refused us b e) (l : LexFault) : e ≠ .lexical l := by
  cases h <;> simp

/-! ## Calls of the reader -/

namespace Form

/-- Reading on behind the tokens `taken`, which leave forms open. -/
theorem reads_of_finish (ho : Pending opened (taken.map Prod.fst))
    (hlast : ∀ item, taken.getLast? = some item → item.2 = last)
    (hend : items = [] → fault = none ∧ taken ≠ []) :
    Reads ⟨taken ++ items, fault, stop⟩ (finish fault stop opened last items).1
      (finish fault stop opened last items).2 := by
  induction items generalizing opened taken last with
  | nil =>
    obtain ⟨rfl, hne⟩ := hend rfl
    rw [List.append_nil]
    cases opened with
    | nil =>
      generalize hts : taken.map Prod.fst = ts at ho
      cases ho
      exact absurd (List.map_eq_nil_iff.mp hts) hne
    | cons o outer =>
      cases o with
      | bracket b done =>
        obtain ⟨used, ⟨t, p⟩, rfl⟩ := (List.eq_nil_or_concat' taken).resolve_left hne
        have hp : p = last := hlast (t, p) (by simp)
        subst hp
        exact .missing (expects_iff.mpr ⟨done, outer, ho⟩)
      | mark | tag | tagging => exact .endOfText (dangling_iff.mpr ⟨_, outer, ho, nofun⟩)
  | cons item more ih =>
    obtain ⟨t, p⟩ := item
    have hu : Unfinished (taken.map Prod.fst) := unfinished_iff.mpr ⟨opened, ho⟩
    by_cases hm : Clear fault more
    · cases hx : accept opened t with
      | error e =>
        obtain ⟨b, rfl, hr⟩ := ho.refused hx
        rw [finish_of_accept_error hx hm]
        have h : Reads (Tokens.behind (taken ++ [(.closing b, p)]) ⟨more, fault, stop⟩)
            (.error ⟨e, p⟩) ⟨more, fault, stop⟩ := .refused hu hr hm
        rwa [Tokens.behind, List.append_assoc] at h
      | ok x =>
        have hx' := ho.accept hx
        rw [finish_of_accept hx hm]
        have htaken : taken.map Prod.fst ++ [t] = (taken ++ [(t, p)]).map Prod.fst := by simp
        rw [htaken] at hx'
        cases x with
        | inl v =>
          have h : Reads (Tokens.behind (taken ++ [(t, p)]) ⟨more, fault, stop⟩) (.ok v)
              ⟨more, fault, stop⟩ := .form hx' hm
          rwa [Tokens.behind, List.append_assoc] at h
        | inr opened' =>
          have hlast' : ∀ item, (taken ++ [(t, p)]).getLast? = some item → item.2 = p := by simp
          have h := ih hx' hlast' fun hnil => ⟨hm.resolve_right (· hnil), by simp⟩
          rwa [List.append_assoc] at h
    · obtain ⟨e, rfl, rfl⟩ := not_clear_iff.mp hm
      exact .lexical hu

/-- **Every call of the reader follows the grammar**, whether it finds a form or a fault. -/
theorem reads_of_next {ts : Tokens} (h : next ts = some (found, rest)) : Reads ts found rest := by
  have hne : ts.items ≠ [] := by
    intro hnil
    simp [next, hnil] at h
  rw [next_of_ne_nil hne] at h
  have hr : Reads ⟨[] ++ ts.items, ts.fault, ts.finish⟩
      (finish ts.fault ts.finish [] .start ts.items).1
      (finish ts.fault ts.finish [] .start ts.items).2 :=
    reads_of_finish .nil (by simp) (absurd · hne)
  rw [Option.some.inj h] at hr
  exact hr

end Form

end

end Lisplet

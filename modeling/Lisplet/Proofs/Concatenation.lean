import Lisplet.Proofs.Grammar

/-! Texts one behind the other. Reading looks at places for one thing only, to say where it has
met a fault; so the tokens of a text are read in the same way wherever they stand, and a fault
moves with them. Forms that stand in front of them are read first. With a newline between two
texts nothing of the first one reaches into the second: it ends a name, a number and a comment. -/

namespace Lisplet

open Text (Position)

/-! ## Places changed -/

/-- The tokens at other places. -/
def Tokens.placed (f : Position → Position) (ts : Tokens) : Tokens :=
  ⟨ts.items.map fun i => (i.1, f i.2), ts.fault, f ts.finish⟩

/-- The same fault, met at another place. -/
def ReadError.placed (f : Position → Position) (e : ReadError) : ReadError := ⟨e.fault, f e.pos⟩

namespace Form

variable {fault : Option LexFault} {stop last last' : Position} {opened : List Open}
  {items : List (Token × Position)} {f : Position → Position}
  {found : List (Except ReadError Value)} {vs fs : List Value} {s t u : String}

theorem clear_placed_iff :
    Clear fault (items.map fun i => (i.1, f i.2)) ↔ Clear fault items := by
  simp [Clear]

/-- A fault is met at the changed place. The place `last` is of no account while nothing is
open. -/
theorem finish_placed (f : Position → Position) (hl : opened = [] ∨ last' = f last) :
    finish fault (f stop) opened last' (items.map fun i => (i.1, f i.2)) =
      ((finish fault stop opened last items).1.mapError (.placed f),
        (finish fault stop opened last items).2.placed f) := by
  induction items generalizing opened last last' with
  | nil =>
    rcases hl with rfl | rfl
    · rfl
    · cases opened with
      | nil => rfl
      | cons o outer => cases o <;> rfl
  | cons item more ih =>
    obtain ⟨t, p⟩ := item
    rw [List.map_cons]
    by_cases hm : Clear fault more
    · have hm' : Clear fault (more.map fun i => (i.1, f i.2)) := clear_placed_iff.mpr hm
      cases hx : accept opened t with
      | error e =>
        rw [finish_of_accept_error hx hm, finish_of_accept_error hx hm']
        rfl
      | ok x =>
        rw [finish_of_accept hx hm, finish_of_accept hx hm']
        cases x with
        | inl v => rfl
        | inr opened => exact ih (.inr rfl)
    · obtain ⟨e, rfl, rfl⟩ := not_clear_iff.mp hm
      rfl

theorem next_placed (f : Position → Position) (ts : Tokens) :
    next (ts.placed f) =
      (next ts).map fun x => (x.1.mapError (.placed f), x.2.placed f) := by
  obtain ⟨items, fault, stop⟩ := ts
  cases items with
  | nil => rfl
  | cons item more => exact congrArg some (finish_placed f (.inl rfl))

/-- Reading goes on in the same way, fault by fault and form by form. -/
theorem all_placed (f : Position → Position) (ts : Tokens) :
    all (ts.placed f) = (all ts).map (Except.mapError (.placed f)) := by
  induction ts using all.induct with
  | case1 ts h =>
    rw [all_eq, all_eq ts, next_placed, h]
    rfl
  | case2 ts found rest h hl ih =>
    rw [all_eq, all_eq ts, next_placed, h]
    exact congrArg _ ih

theorem collect_mapError (f : ReadError → ReadError) (found : List (Except ReadError Value)) :
    collect (found.map (Except.mapError f)) = (collect found).mapError f := by
  induction found with
  | nil => rfl
  | cons x found ih =>
    cases x with
    | error e => rfl
    | ok v =>
      change (collect (found.map (Except.mapError f))).map (v :: ·) =
        ((collect found).map (v :: ·)).mapError f
      rw [ih]
      cases collect found <;> rfl

theorem sequence_congr_placed {f g : Position → Position}
    (h : (Tokens.ofString s).placed f = (Tokens.ofString t).placed g) :
    (sequence s).map (Except.mapError (ReadError.placed f)) =
      (sequence t).map (Except.mapError (ReadError.placed g)) := by
  have hfault := congrArg Tokens.fault h
  change (Tokens.ofString s).fault = (Tokens.ofString t).fault at hfault
  have hitems := congrArg Tokens.items h
  by_cases hm : Clear (Tokens.ofString s).fault (Tokens.ofString s).items
  · have hm' : Clear (Tokens.ofString t).fault (Tokens.ofString t).items := by
      have hp : Clear ((Tokens.ofString s).placed f).fault ((Tokens.ofString s).placed f).items :=
        clear_placed_iff.mpr hm
      rw [h] at hp
      exact clear_placed_iff.mp hp
    rw [sequence_of_clear hm, sequence_of_clear hm', ← all_placed, ← all_placed, h]
  · obtain ⟨e, stop, hs⟩ := ofString_of_not_clear hm
    rw [hs] at h hfault hitems
    have ht : Tokens.ofString t = ⟨[], some e, (Tokens.ofString t).finish⟩ := by
      have hnil : (Tokens.ofString t).items = [] := List.map_eq_nil_iff.mp hitems.symm
      rw [← hnil, show some e = _ from hfault]
    have hstop : f stop = g (Tokens.ofString t).finish := congrArg Tokens.finish h
    rw [sequence_of_fault hs, sequence_of_fault ht]
    exact congrArg (fun p => [Except.error (ReadError.mk (.lexical e) p)]) hstop

/-- What is read of a text depends on its tokens, and its fault on where these are. -/
theorem readAll_congr_placed {f g : Position → Position}
    (h : (Tokens.ofString s).placed f = (Tokens.ofString t).placed g) :
    (readAll s).mapError (ReadError.placed f) = (readAll t).mapError (ReadError.placed g) := by
  rw [readAll, readAll, ← collect_mapError, ← collect_mapError, sequence_congr_placed h]

/-! ## Forms in front -/

/-- Behind forms a fault of a token takes the place of the last of them. -/
theorem sequence_spoiled {used : List (Token × Position)} {e : LexFault}
    (hu : Tokens.ofString u = ⟨used, some e, stop⟩) (h : ParsesAll (used.map Prod.fst) vs) :
    sequence u = vs.dropLast.map .ok ++ [.error ⟨.lexical e, stop⟩] := by
  rcases List.eq_nil_or_concat vs with rfl | ⟨vs, v, rfl⟩
  · have hused : used = [] := by
      generalize hts : used.map Prod.fst = ts at h
      cases h
      exact List.map_eq_nil_iff.mp hts
    rw [hused] at hu
    exact sequence_of_fault hu
  · rw [List.concat_eq_append] at h ⊢
    have hused : used ≠ [] := by
      rintro rfl
      exact absurd h.eq_nil (by simp)
    have hclear : Clear (Tokens.ofString u).fault (Tokens.ofString u).items := by
      rw [hu]
      exact .inr hused
    rw [sequence_of_clear hclear, hu, all_spoiled h, List.dropLast_concat]

/-- Of a text that goes on behind the tokens of forms with those of another text, the forms are
read and then what the other text gives. But if that begins with a fault of a token, the last
form is not read. -/
theorem sequence_behind (hs : readAll s = .ok fs)
    (hu : Tokens.ofString u =
      ((Tokens.ofString t).placed f).behind (Tokens.ofString s).items) :
    sequence u = (if (start t).isOk then fs else fs.dropLast).map .ok ++
      (sequence t).map (Except.mapError (.placed f)) := by
  obtain ⟨-, hp⟩ := readAll_eq_ok_iff.mp hs
  by_cases hm : Clear (Tokens.ofString t).fault (Tokens.ofString t).items
  · have hm' : Clear ((Tokens.ofString t).placed f).fault ((Tokens.ofString t).placed f).items :=
      clear_placed_iff.mpr hm
    have hall : Clear (Tokens.ofString u).fault (Tokens.ofString u).items := by
      rw [hu]
      exact hm'.imp_right fun hne => by simp [Tokens.behind, hne]
    rw [sequence_of_clear hall, hu, all_behind hp hm', all_placed, sequence_of_clear hm,
      start_of_clear hm]
    rfl
  · obtain ⟨e, stop, ht⟩ := ofString_of_not_clear hm
    have hu' : Tokens.ofString u = ⟨(Tokens.ofString s).items, some e, f stop⟩ := by
      rw [hu, ht]
      simp [Tokens.behind, Tokens.placed]
    rw [sequence_spoiled hu' hp, sequence_of_fault ht, start_of_fault ht]
    rfl

theorem collect_append (vs : List Value) (found : List (Except ReadError Value)) :
    collect (vs.map .ok ++ found) = (collect found).map (vs ++ ·) := by
  induction vs with
  | nil => cases h : collect found <;> simp [h, Except.map]
  | cons v vs ih =>
    rw [List.map_cons, List.cons_append, collect, ih]
    cases collect found <;> rfl

theorem start_isOk_of_readAll (h : readAll t = .ok vs) : (start t).isOk = true := by
  cases hstart : start t with
  | ok ts => rfl
  | error e =>
    rw [readAll, sequence, hstart] at h
    cases h

/-- What is read of a text behind the tokens of forms: the forms and those of the text, or the
fault of the text. -/
theorem readAll_behind (hs : readAll s = .ok fs)
    (hu : Tokens.ofString u =
      ((Tokens.ofString t).placed f).behind (Tokens.ofString s).items) :
    readAll u =
      match readAll t with
      | .ok gs => .ok (fs ++ gs)
      | .error e => .error (e.placed f) := by
  rw [readAll, sequence_behind hs hu, collect_append, collect_mapError]
  change ((readAll t).mapError _).map _ = _
  cases ht : readAll t with
  | error e => rfl
  | ok gs =>
    rw [start_isOk_of_readAll ht]
    rfl

end Form

/-! ## A newline between two texts -/

namespace Text.Position

/-- The place so many lines further down. -/
def down (lines : Nat) (p : Position) : Position := ⟨p.line + lines, p.column⟩

theorem down_advance (lines : Nat) (p : Position) (c : Char) :
    (p.down lines).advance c = (p.advance c).down lines := by
  unfold advance
  split
  · have hline : p.line + lines + 1 = p.line + 1 + lines := Nat.add_right_comm ..
    rw [down, down, hline]
  · rfl

theorem down_after (lines : Nat) (p : Position) (cs : List Char) :
    (p.down lines).after cs = (p.after cs).down lines := by
  induction cs generalizing p with
  | nil => rfl
  | cons c cs ih => exact (congrArg (·.after cs) (down_advance lines p c)).trans (ih _)

theorem line_after (p : Position) (cs : List Char) :
    (p.after cs).line = p.line + cs.count '\n' := by
  induction cs generalizing p with
  | nil => rfl
  | cons c cs ih =>
    change ((p.advance c).after cs).line = _
    rw [ih, List.count_cons, advance]
    split
    · next hc =>
      simp only [hc, beq_self_eq_true, if_true]
      omega
    · next hc =>
      simp [hc]

/-- Behind a newline a text begins at the first column. -/
theorem after_newline (cs : List Char) :
    start.after (cs ++ ['\n']) = start.down (cs.count '\n' + 1) := by
  have hline : (start.after cs).line = 1 + cs.count '\n' := line_after start cs
  rw [after_append]
  change (⟨(start.after cs).line + 1, 1⟩ : Position) = _
  rw [hline, Nat.add_assoc]
  rfl

end Text.Position

namespace Tokens

theorem ofSource_down (lines : Nat) (s : Source) :
    ofSource ⟨s.rest, s.pos.down lines⟩ = (ofSource s).placed (·.down lines) := by
  obtain ⟨items, fault, upTo, h⟩ := exists_marks s.rest
  have hs : ofSource s = _ := h s.pos
  rw [h, hs]
  simp [placed, Position.down_after]

/-- Behind a text without fault and a newline another text has its own tokens, so many lines
further down. -/
theorem ofString_newline {s : String} (h : (ofString s).fault = none) (t : String) :
    ofString (s ++ "\n" ++ t) =
      ((ofString t).placed (·.down (s.toList.count '\n' + 1))).behind (ofString s).items := by
  have hd : IsSeparator '\n' := .inl (by decide)
  have hst : (s ++ "\n" ++ t).toList = s.toList ++ '\n' :: t.toList := by simp
  have hall : ofSource ⟨s.toList ++ '\n' :: t.toList, .start⟩ = _ :=
    ofSource_append hd (Source.not_endsInComment_newline s.toList) h t.toList
  have hdown := ofSource_down (s.toList.count '\n' + 1) (Source.ofString t)
  rw [ofString, Source.ofString, hst, hall]
  change (ofSource ⟨t.toList, Position.start.after (s.toList ++ ['\n'])⟩).behind _ = _
  rw [Position.after_newline]
  exact congrArg (behind (ofString s).items) hdown

end Tokens

/-- **Reading is compositional.** Behind a text that can be read and a newline, the forms of
another text are read as they are read alone. If it cannot be read, the fault is the one that it
has alone, at the same column, and so many lines further down as there are in front of it. -/
theorem Form.readAll_newline {s : String} {fs : List Value} (hs : readAll s = .ok fs)
    (t : String) :
    readAll (s ++ "\n" ++ t) =
      match readAll t with
      | .ok gs => .ok (fs ++ gs)
      | .error e =>
        .error ⟨e.fault, ⟨e.pos.line + s.toList.count '\n' + 1, e.pos.column⟩⟩ :=
  readAll_behind hs (Tokens.ofString_newline (readAll_eq_ok_iff.mp hs).1 t)

/-- The comment at the end of `7 ; x` does not hide the bracket on the next line. -/
theorem Form.readAll_newline_comment :
    readAll "7 ; x" = .ok [.int 7] ∧ readAll ")" = .error ⟨.unexpected .round, ⟨1, 2⟩⟩ ∧
      readAll ("7 ; x" ++ "\n" ++ ")") = .error ⟨.unexpected .round, ⟨2, 2⟩⟩ := by
  have hs : readAll "7 ; x" = .ok [.int 7] := by
    have hseven : (Source.ofString "7 ; x").next =
        (some (.ok (.int 7)), ⟨" ; x".toList, ⟨1, 2⟩⟩) := rfl
    have hend : Source.next ⟨" ; x".toList, ⟨1, 2⟩⟩ = (none, ⟨[], ⟨1, 6⟩⟩) := rfl
    have htokens : Tokens.ofString "7 ; x" = ⟨[(.int 7, ⟨1, 2⟩)], none, ⟨1, 6⟩⟩ := by
      rw [Tokens.ofString, Tokens.ofSource_eq, hseven]
      simp only [Tokens.ofSource_eq ⟨" ; x".toList, _⟩, hend]
    rw [readAll_eq_ok_iff, htokens]
    exact ⟨rfl, (Parses.literal rfl).single⟩
  have ht : readAll ")" = .error ⟨.unexpected .round, ⟨1, 2⟩⟩ := by
    have hn : (Source.ofString ")").next = (some (.ok (.closing .round)), ⟨[], ⟨1, 2⟩⟩) := rfl
    have htokens : Tokens.ofString ")" = ⟨[(.closing .round, ⟨1, 2⟩)], none, ⟨1, 2⟩⟩ := by
      rw [Tokens.ofString, Tokens.ofSource_eq, hn]
      simp only [Tokens.ofSource_nil]
    rw [readAll, sequence_of_clear (by rw [htokens]; exact .inl rfl), htokens, all_eq]
    rfl
  refine ⟨hs, ht, ?_⟩
  rw [readAll_newline hs ")", ht]
  rfl

end Lisplet

import Lisplet.Proofs.RoundTrip.Lexing

/-! What cutting takes from a text. Each step takes some characters off the front, whatever
the place where they stand, so the tokens of a text do not depend on where it begins, and
their places only move with it. A blank ends whatever token stands in front of it: a text
without fault, cut in front of a blank and another text, has the tokens that it has alone. -/

namespace Lisplet

open Text (Position isBlank isNameChar)

/-! ## Places -/

namespace Text.Position

/-- The place `p` of a text that begins at `origin` and not at the first line and column. -/
def beyond (origin p : Position) : Position :=
  ⟨origin.line + (p.line - 1),
    if p.line = 1 then origin.column + (p.column - 1) else p.column⟩

theorem beyond_advance (origin : Position) {p : Position} (hl : 1 ≤ p.line) (hc : 1 ≤ p.column)
    (c : Char) : origin.beyond (p.advance c) = (origin.beyond p).advance c := by
  unfold beyond advance
  split
  · have hline : ¬ p.line + 1 = 1 := by omega
    have hlines : origin.line + (p.line + 1 - 1) = origin.line + (p.line - 1) + 1 := by omega
    rw [if_neg hline, hlines]
  · by_cases h : p.line = 1
    · have hcolumns : origin.column + (p.column + 1 - 1) = origin.column + (p.column - 1) + 1 := by
        omega
      rw [if_pos h, if_pos h, hcolumns]
    · rw [if_neg h, if_neg h]

theorem beyond_after (origin : Position) (cs : List Char) :
    origin.beyond (start.after cs) = origin.after cs := by
  have h (p : Position) (hl : 1 ≤ p.line) (hc : 1 ≤ p.column) :
      origin.beyond (p.after cs) = (origin.beyond p).after cs := by
    induction cs generalizing p with
    | nil => rfl
    | cons c cs ih =>
      have hp : 1 ≤ (p.advance c).line ∧ 1 ≤ (p.advance c).column := by
        unfold advance
        split <;> simp [hl]
      exact (ih (p.advance c) hp.1 hp.2).trans
        (congrArg (·.after cs) (beyond_advance origin hl hc c))
  exact h start (Nat.le_refl _) (Nat.le_refl _)

end Text.Position

/-! ## Strings and comments -/

/-- What a place in a text is inside of: a string, a comment or neither; in a string it may
stand behind a backslash. -/
inductive Region where
  | plain | string | escape | comment
deriving DecidableEq

namespace Region

/-- The region behind a character. -/
def step : Region → Char → Region
  | plain, c => if c = '"' then string else if c = ';' then comment else plain
  | string, c => if c = '"' then plain else if c = '\\' then escape else string
  | escape, _ => string
  | comment, c => if c = '\n' then plain else comment

/-- The region behind all of `cs`. -/
def after (r : Region) (cs : List Char) : Region := cs.foldl step r

/-- The region in which trivia are passed over. -/
def ofTrivia (inComment : Bool) : Region := if inComment then comment else plain

theorem after_name {name : List Char} (h : ∀ c ∈ name, isNameChar c = true) (cs : List Char) :
    plain.after (name ++ cs) = plain.after cs := by
  induction name with
  | nil => rfl
  | cons c name ih =>
    obtain ⟨hc, hname⟩ := List.forall_mem_cons.mp h
    have hs : plain.step c = plain := by
      rw [step, if_neg (ne_of_reserved hc (by decide)), if_neg (ne_of_reserved hc (by decide))]
    exact (congrArg (·.after (name ++ cs)) hs).trans (ih hname)

end Region

/-- A text whose last line ends in a comment. What is put behind it belongs to the comment,
up to the end of the line. -/
def Source.EndsInComment (cs : List Char) : Prop := Region.plain.after cs = .comment

instance (cs : List Char) : Decidable (Source.EndsInComment cs) :=
  inferInstanceAs (Decidable (_ = _))

namespace Source

/-- A newline ends every comment. -/
theorem not_endsInComment_newline (cs : List Char) : ¬ EndsInComment (cs ++ ['\n']) := by
  rw [EndsInComment, Region.after, List.foldl_append]
  change Region.step (Region.after .plain cs) '\n' ≠ .comment
  cases Region.after .plain cs <;> decide

/-- A character of trivia is passed over; any other one stays where it is. -/
theorem skipTrivia_cons (inComment : Bool) (c : Char) :
    (∃ b, (Region.ofTrivia inComment).step c = .ofTrivia b ∧
      ∀ cs p, skipTrivia inComment (c :: cs) p = skipTrivia b cs (p.advance c)) ∨
    inComment = false ∧ ∀ cs p, skipTrivia inComment (c :: cs) p = ⟨c :: cs, p⟩ := by
  by_cases hn : c = '\n'
  · refine .inl ⟨false, ?_, fun cs p => by rw [skipTrivia, if_pos hn]⟩
    subst hn
    cases inComment <;> rfl
  · by_cases hs : c = ';'
    · refine .inl ⟨true, ?_, fun cs p => by rw [skipTrivia, if_neg hn, if_pos hs]⟩
      subst hs
      cases inComment <;> rfl
    · by_cases hb : (inComment || isBlank c || decide (c = ',')) = true
      · refine .inl ⟨inComment, ?_, fun cs p => by
          rw [skipTrivia, if_neg hn, if_neg hs, if_pos hb]⟩
        cases inComment with
        | true => exact if_neg hn
        | false =>
          have hq : c ≠ '"' := by
            rintro rfl
            exact absurd hb (by decide)
          change (if c = '"' then _ else if c = ';' then _ else _) = _
          rw [if_neg hq, if_neg hs]
          rfl
      · refine .inr ⟨?_, fun cs p => by rw [skipTrivia, if_neg hn, if_neg hs, if_neg hb]⟩
        cases inComment with
        | true => exact absurd rfl hb
        | false => rfl

end Source

/-! ## What a step takes -/

/-- A step takes some characters off a text, the same ones wherever the text begins. -/
def Takes (cs : List Char) (step : Position → α × Source) : Prop :=
  ∃ x used rest, cs = used ++ rest ∧ ∀ p, step p = (x, ⟨rest, p.after used⟩)

namespace Takes

variable {c : Char} {cs : List Char} {step step' : Position → α × Source}

theorem nothing {x : α} (h : ∀ p, step p = (x, ⟨cs, p⟩)) : Takes cs step := ⟨x, [], cs, rfl, h⟩

theorem cons (hs : Takes cs step') (h : ∀ p, step p = step' (p.advance c)) :
    Takes (c :: cs) step := by
  obtain ⟨x, used, rest, hcs, hp⟩ := hs
  exact ⟨x, c :: used, rest, congrArg (c :: ·) hcs, fun p => (h p).trans (hp (p.advance c))⟩

theorem one {x : α} (h : ∀ p, step p = (x, ⟨cs, p.advance c⟩)) : Takes (c :: cs) step :=
  cons (nothing fun _ => rfl) h

theorem map (hs : Takes cs step) (f : α → β) :
    Takes cs fun p => (f (step p).1, (step p).2) := by
  obtain ⟨x, used, rest, hcs, hp⟩ := hs
  exact ⟨f x, used, rest, hcs, fun p => by simp only [hp]⟩

end Takes

namespace Source

theorem takes_trivia (inComment : Bool) (cs : List Char) :
    Takes cs fun p => ((), skipTrivia inComment cs p) := by
  induction cs generalizing inComment with
  | nil => exact .nothing fun _ => rfl
  | cons c cs ih =>
    rcases skipTrivia_cons inComment c with ⟨b, -, h⟩ | ⟨-, h⟩
    · exact (ih b).cons fun p => by rw [h]
    · exact .nothing fun p => by rw [h]

theorem takes_name (cs : List Char) : Takes cs fun p => takeName ⟨cs, p⟩ :=
  ⟨cs.takeWhile isNameChar, _, _, List.takeWhile_append_dropWhile.symm, fun _ => rfl⟩

/-- Induction on what stands behind the quote of a string. -/
theorem takeString_induct {P : List Char → List Char → Prop} (stop : ∀ done, P done [])
    (quote : ∀ done cs, P done ('"' :: cs)) (slash : ∀ done, P done ['\\'])
    (escape : ∀ done c cs d, escape? c = some d → P (d :: done) cs → P done ('\\' :: c :: cs))
    (invalid : ∀ done c cs, escape? c = none → P done ('\\' :: c :: cs))
    (plain : ∀ done c cs, c ≠ '"' → c ≠ '\\' → P (c :: done) cs → P done (c :: cs))
    (done cs : List Char) : P done cs := by
  fun_induction takeString done cs .start with
  | case1 done => exact stop done
  | case2 done cs => exact quote done cs
  | case3 done => exact slash done
  | case4 done c cs _ d hd ih => exact escape done c cs d hd ih
  | case5 done c cs _ hd => exact invalid done c cs hd
  | case6 done c cs _ hq hend hmore ih =>
    refine plain done c cs hq (fun hs => ?_) ih
    cases cs with
    | nil => exact hend hs rfl
    | cons d ds => exact hmore d ds hs rfl

theorem takeString_invalid {c : Char} (h : escape? c = none) (done cs : List Char)
    (p : Position) :
    takeString done ('\\' :: c :: cs) p =
      (.error (.invalidEscape c), ⟨cs, (p.advance '\\').advance c⟩) := by
  rw [takeString]
  simp only [h]

theorem takes_string (done cs : List Char) : Takes cs (takeString done cs) := by
  induction done, cs using takeString_induct with
  | stop done => exact .nothing fun _ => rfl
  | quote done cs => exact .one fun _ => rfl
  | slash done => exact .one fun _ => rfl
  | escape done c cs d hd ih =>
    have hc : Takes (c :: cs) fun p => takeString (d :: done) cs (p.advance c) :=
      ih.cons fun _ => rfl
    exact hc.cons fun p => Lexed.takeString_escape hd done cs p
  | invalid done c cs hd =>
    have hc : Takes (c :: cs) fun p =>
        ((.error (.invalidEscape c) : Except LexFault Token), (⟨cs, p.advance c⟩ : Source)) :=
      .one fun _ => rfl
    exact hc.cons fun p => takeString_invalid hd done cs p
  | plain done c cs hq hs ih => exact ih.cons fun p => Lexed.takeString_plain hq hs done cs p

/-- The kinds of lexemes, told apart by the character that they begin with. -/
theorem lexeme_cases (c : Char) :
    (∃ t, Token.ofChar? c = some t ∧ ∀ cs p, lexeme c cs p = (.ok t, ⟨cs, p.advance c⟩)) ∨
    c = '~' ∨ c = '"' ∨ c = ':' ∨
    (isNameChar c = true ∧ c ≠ ':' ∧ ∀ cs p, lexeme c cs p =
      (Token.ofWord (takeName ⟨c :: cs, p⟩).1, (takeName ⟨c :: cs, p⟩).2)) ∨
    ∀ cs p, lexeme c cs p = (.error (.unexpected c), ⟨c :: cs, p⟩) := by
  unfold lexeme
  cases hc : Token.ofChar? c with
  | some t => exact .inl ⟨t, rfl, fun _ _ => rfl⟩
  | none =>
    by_cases ht : c = '~'
    · exact .inr (.inl ht)
    · by_cases hq : c = '"'
      · exact .inr (.inr (.inl hq))
      · by_cases hcolon : c = ':'
        · exact .inr (.inr (.inr (.inl hcolon)))
        · simp only [if_neg ht, if_neg hq, if_neg hcolon]
          by_cases hn : isNameChar c = true
          · simp only [if_pos hn]
            exact .inr (.inr (.inr (.inr (.inl ⟨hn, hcolon, fun _ _ => trivial⟩))))
          · simp only [if_neg hn]
            exact .inr (.inr (.inr (.inr (.inr fun _ _ => trivial))))

theorem lexeme_splice (cs : List Char) (p : Position) :
    lexeme '~' ('@' :: cs) p =
      (.ok (.sigil .spliceUnquote), ⟨cs, (p.advance '~').advance '@'⟩) := rfl

theorem lexeme_unquote {cs : List Char} (h : cs.head? ≠ some '@') (p : Position) :
    lexeme '~' cs p = (.ok (.sigil .unquote), ⟨cs, p.advance '~'⟩) := by
  have hc : Token.ofChar? '~' = none := rfl
  simp only [lexeme, hc, if_pos]
  split
  · contradiction
  · rfl

theorem takes_lexeme (c : Char) (cs : List Char) : Takes (c :: cs) (lexeme c cs) := by
  rcases lexeme_cases c with ⟨t, -, h⟩ | rfl | rfl | rfl | ⟨-, -, h⟩ | h
  · exact .one (h cs)
  · by_cases hat : cs.head? = some '@'
    · obtain ⟨ds, rfl⟩ := List.head?_eq_some_iff.mp hat
      exact .cons (.one fun _ => rfl) (lexeme_splice ds)
    · exact .one (lexeme_unquote hat)
  · exact (takes_string [] cs).cons fun _ => rfl
  · exact ((takes_name cs).map Token.ofKeywordName).cons fun _ => rfl
  · rw [funext (h cs)]
    exact (takes_name (c :: cs)).map Token.ofWord
  · exact .nothing (h cs)

theorem next_of_trivia {cs : List Char} {p q : Position} (h : skipTrivia false cs p = ⟨[], q⟩) :
    next ⟨cs, p⟩ = (none, ⟨[], q⟩) := by
  simp only [next, h]

theorem next_of_lexeme {c : Char} {cs ds : List Char} {p q : Position}
    (h : skipTrivia false cs p = ⟨c :: ds, q⟩) :
    next ⟨cs, p⟩ = (some (lexeme c ds q).1, (lexeme c ds q).2) := by
  simp only [next, h]

/-- Behind trivia there is the end of the text or a lexeme. -/
theorem next_cases (cs : List Char) (p : Position) :
    (∃ q, skipTrivia false cs p = ⟨[], q⟩ ∧ next ⟨cs, p⟩ = (none, ⟨[], q⟩)) ∨
    ∃ c ds q, skipTrivia false cs p = ⟨c :: ds, q⟩ ∧
      next ⟨cs, p⟩ = (some (lexeme c ds q).1, (lexeme c ds q).2) := by
  match h : skipTrivia false cs p with
  | ⟨[], q⟩ => exact .inl ⟨q, rfl, next_of_trivia h⟩
  | ⟨c :: ds, q⟩ => exact .inr ⟨c, ds, q, rfl, next_of_lexeme h⟩

theorem takes_next (cs : List Char) : Takes cs fun p => next ⟨cs, p⟩ := by
  obtain ⟨_, trivia, rest, hcs, ht⟩ := takes_trivia false cs
  have hskip (p : Position) : skipTrivia false cs p = ⟨rest, p.after trivia⟩ :=
    congrArg Prod.snd (ht p)
  cases rest with
  | nil => exact ⟨none, trivia, [], hcs, fun p => next_of_trivia (hskip p)⟩
  | cons c ds =>
    obtain ⟨found, used, behind, hds, hl⟩ := takes_lexeme c ds
    refine ⟨some found, trivia ++ used, behind, by rw [hcs, hds, List.append_assoc], fun p => ?_⟩
    exact (next_of_lexeme (hskip p)).trans (by rw [hl, Position.after_append])

/-- Nothing is left of a text in which no token and no fault is found any more. -/
theorem rest_of_next_none {s behind : Source} (h : s.next = (none, behind)) : behind.rest = [] := by
  rcases next_cases s.rest s.pos with ⟨q, -, hn⟩ | ⟨c, ds, q, -, hn⟩
  · cases hn.symm.trans h
    rfl
  · cases hn.symm.trans h

/-- The place of the end of a text does not change while the text is cut. -/
theorem after_of_next {s behind : Source} {found : Option (Except LexFault Token)}
    (h : s.next = (found, behind)) : behind.pos.after behind.rest = s.pos.after s.rest := by
  obtain ⟨x, used, rest, hcs, hn⟩ := takes_next s.rest
  cases (hn s.pos).symm.trans h
  rw [hcs, Position.after_append]

/-- Induction on the tokens of a text up to the first fault. -/
theorem next_induct {P : Source → Prop}
    (stop : ∀ s behind, s.next = (none, behind) → P s)
    (fault : ∀ s e behind, s.next = (some (.error e), behind) → P s)
    (token : ∀ s t behind, s.next = (some (.ok t), behind) → P behind → P s) (s : Source) :
    P s := by
  induction hn : s.rest.length using Nat.strongRecOn generalizing s with
  | ind n ih =>
    match h : s.next with
    | (none, behind) => exact stop s behind h
    | (some (.error e), behind) => exact fault s e behind h
    | (some (.ok t), behind) =>
      have hl : behind.rest.length < n := hn ▸ length_next_lt h
      exact token s t behind h (ih _ hl behind rfl)

end Source

namespace Tokens

/-- The tokens of a text, each place told by the characters in front of it. -/
theorem exists_marks (cs : List Char) :
    ∃ (items : List (Token × List Char)) (fault : Option LexFault) (upTo : List Char), ∀ p,
      ofSource ⟨cs, p⟩ = ⟨items.map fun i => (i.1, p.after i.2), fault, p.after upTo⟩ := by
  induction hn : cs.length using Nat.strongRecOn generalizing cs with
  | ind n ih =>
    obtain ⟨found, used, rest, -, hnext⟩ := Source.takes_next cs
    simp only at hnext
    match found with
    | none =>
      refine ⟨[], none, used, fun p => ?_⟩
      rw [ofSource_eq, hnext]
      rfl
    | some (.error e) =>
      refine ⟨[], some e, used, fun p => ?_⟩
      rw [ofSource_eq, hnext]
      rfl
    | some (.ok t) =>
      have hl : rest.length < n := hn ▸ Source.length_next_lt (hnext .start)
      obtain ⟨items, fault, upTo, hof⟩ := ih _ hl rest rfl
      refine ⟨(t, used) :: items.map fun i => (i.1, used ++ i.2), fault, used ++ upTo,
        fun p => ?_⟩
      rw [ofSource_eq, hnext]
      simp [hof, Position.after_append]

/-- The tokens of a text that begins at `origin`. -/
def moved (origin : Position) (ts : Tokens) : Tokens :=
  ⟨ts.items.map fun i => (i.1, origin.beyond i.2), ts.fault, origin.beyond ts.finish⟩

theorem ofSource_moved (cs : List Char) (origin : Position) :
    ofSource ⟨cs, origin⟩ = (ofSource ⟨cs, .start⟩).moved origin := by
  obtain ⟨items, fault, upTo, h⟩ := exists_marks cs
  rw [h, h]
  simp [moved, Position.beyond_after]

end Tokens

/-! ## Texts next to each other -/

namespace IsSeparator

variable {c d : Char}

theorem delimited (hd : IsSeparator d) (cs : List Char) : Delimited (d :: cs) := by
  rintro _ ⟨rfl⟩
  exact hd.not_nameChar

theorem ne (hd : IsSeparator d) (hb : isBlank c = false) (hc : c ≠ ',') : d ≠ c := by
  rintro rfl
  rcases hd with hd | hd
  · exact Bool.false_ne_true (hb.symm.trans hd)
  · exact hc hd

end IsSeparator

namespace Source

variable {c d : Char} {cs ds : List Char} {p q : Position} {t : Token} {behind : Source}
  {inComment : Bool}

theorem skipTrivia_append (h : skipTrivia inComment cs p = ⟨[], q⟩) (ds : List Char) :
    ∃ b, (Region.ofTrivia inComment).after cs = .ofTrivia b ∧
      skipTrivia inComment (cs ++ ds) p = skipTrivia b ds q := by
  induction cs generalizing inComment p with
  | nil =>
    cases h
    exact ⟨inComment, rfl, rfl⟩
  | cons c cs ih =>
    rcases skipTrivia_cons inComment c with ⟨b, hr, hs⟩ | ⟨-, hs⟩
    · rw [hs] at h
      obtain ⟨b', hr', hs'⟩ := ih h
      refine ⟨b', ?_, by rw [List.cons_append, hs, hs']⟩
      rw [← hr', ← hr]
      rfl
    · rw [hs] at h
      cases congrArg Source.rest h

theorem skipTrivia_append_of_cons (h : skipTrivia inComment cs p = ⟨c :: ds, q⟩) (es : List Char) :
    (Region.ofTrivia inComment).after cs = Region.plain.after (c :: ds) ∧
      skipTrivia inComment (cs ++ es) p = ⟨c :: (ds ++ es), q⟩ := by
  induction cs generalizing inComment p with
  | nil => cases congrArg Source.rest h
  | cons a cs ih =>
    rcases skipTrivia_cons inComment a with ⟨b, hr, hs⟩ | ⟨rfl, hs⟩
    · rw [hs] at h
      obtain ⟨hr', hs'⟩ := ih h
      refine ⟨?_, by rw [List.cons_append, hs, hs']⟩
      rw [← hr', ← hr]
      rfl
    · rw [hs] at h
      cases h
      exact ⟨rfl, hs _ _⟩

theorem forall_mem_takeName (s : Source) : ∀ c ∈ s.takeName.1, isNameChar c = true :=
  List.all_eq_true.mp (List.all_takeWhile ..)

theorem takeName_append_rest (cs : List Char) (p : Position) :
    (takeName ⟨cs, p⟩).1 ++ cs.dropWhile isNameChar = cs := List.takeWhile_append_dropWhile

/-- A name that a text ends with does not go on in a delimited one. -/
theorem takeName_append_of_delimited (hd : Delimited ds) (cs : List Char) (p : Position) :
    takeName ⟨cs ++ ds, p⟩ =
      ((takeName ⟨cs, p⟩).1, ⟨(takeName ⟨cs, p⟩).2.rest ++ ds, (takeName ⟨cs, p⟩).2.pos⟩) := by
  have hrest : Delimited (cs.dropWhile isNameChar ++ ds) := by
    have hhead := List.head?_dropWhile_not isNameChar cs
    cases h : cs.dropWhile isNameChar with
    | nil => exact hd
    | cons c rest =>
      rw [h] at hhead
      rintro _ ⟨rfl⟩
      simpa using hhead
  have h := Lexed.takeName_append (forall_mem_takeName ⟨cs, p⟩) hrest p
  rwa [← List.append_assoc, takeName_append_rest] at h

theorem after_takeName (cs : List Char) (p : Position) :
    Region.plain.after cs = Region.plain.after (takeName ⟨cs, p⟩).2.rest := by
  have h := Region.after_name (forall_mem_takeName ⟨cs, p⟩) (cs.dropWhile isNameChar)
  rwa [takeName_append_rest] at h

theorem takeString_append {done : List Char} (h : takeString done cs p = (.ok t, behind))
    (ds : List Char) :
    Region.string.after cs = Region.plain.after behind.rest ∧
      takeString done (cs ++ ds) p = (.ok t, ⟨behind.rest ++ ds, behind.pos⟩) := by
  induction done, cs using takeString_induct generalizing p with
  | stop done => cases h
  | quote done cs =>
    cases h
    exact ⟨rfl, rfl⟩
  | slash done => cases h
  | escape done c cs d hd ih =>
    rw [Lexed.takeString_escape hd] at h
    obtain ⟨hr, hs⟩ := ih h
    exact ⟨hr, (Lexed.takeString_escape hd ..).trans hs⟩
  | invalid done c cs hd =>
    rw [takeString_invalid hd] at h
    cases h
  | plain done c cs hq hb ih =>
    rw [Lexed.takeString_plain hq hb] at h
    obtain ⟨hr, hs⟩ := ih h
    refine ⟨?_, (Lexed.takeString_plain hq hb ..).trans hs⟩
    have hstep : Region.string.step c = .string := by rw [Region.step, if_neg hq, if_neg hb]
    exact (congrArg (·.after cs) hstep).trans hr

/-- A string without a quote in it has no end. -/
theorem takeString_of_unquoted (done : List Char) (hq : '"' ∉ cs) (p : Position) :
    ∃ e behind, takeString done cs p = (.error e, behind) := by
  induction done, cs using takeString_induct generalizing p with
  | stop done => exact ⟨_, _, rfl⟩
  | quote done cs => exact absurd (List.mem_cons_self ..) hq
  | slash done => exact ⟨_, _, rfl⟩
  | escape done c cs d hd ih =>
    rw [Lexed.takeString_escape hd]
    exact ih (fun hc => hq (by simp [hc])) _
  | invalid done c cs hd => exact ⟨_, _, takeString_invalid hd ..⟩
  | plain done c cs hne hb ih =>
    rw [Lexed.takeString_plain hne hb]
    exact ih (fun hc => hq (by simp [hc])) _

/-- A faulty string stays faulty in front of a text without quotes. -/
theorem takeString_append_fault {done : List Char} {e : LexFault}
    (h : takeString done cs p = (.error e, behind)) (hq : '"' ∉ ds) :
    ∃ e' behind', takeString done (cs ++ ds) p = (.error e', behind') := by
  induction done, cs using takeString_induct generalizing p with
  | stop done => exact takeString_of_unquoted done hq p
  | quote done cs => cases h
  | slash done =>
    refine takeString_of_unquoted done ?_ p
    simpa using hq
  | escape done c cs d hd ih =>
    rw [Lexed.takeString_escape hd] at h
    obtain ⟨e', behind', hs⟩ := ih h
    exact ⟨e', behind', (Lexed.takeString_escape hd ..).trans hs⟩
  | invalid done c cs hd => exact ⟨_, _, takeString_invalid hd ..⟩
  | plain done c cs hne hb ih =>
    rw [Lexed.takeString_plain hne hb] at h
    obtain ⟨e', behind', hs⟩ := ih h
    exact ⟨e', behind', (Lexed.takeString_plain hne hb ..).trans hs⟩

theorem after_ofChar? (hc : Token.ofChar? c = some t) (cs : List Char) :
    Region.plain.after (c :: cs) = Region.plain.after cs := by
  have hs : Region.plain.step c = .plain := by
    unfold Token.ofChar? at hc
    split at hc
    case h_11 => contradiction
    all_goals rfl
  exact congrArg (·.after cs) hs

/-- A separator ends whatever token begins with `c`. -/
theorem lexeme_append (hd : IsSeparator d) (h : lexeme c cs p = (.ok t, behind))
    (ds : List Char) :
    Region.plain.after (c :: cs) = Region.plain.after behind.rest ∧
      lexeme c (cs ++ d :: ds) p = (.ok t, ⟨behind.rest ++ d :: ds, behind.pos⟩) := by
  rcases lexeme_cases c with ⟨u, hc, hl⟩ | rfl | rfl | rfl | ⟨-, -, hl⟩ | hl
  · rw [hl] at h ⊢
    cases h
    exact ⟨after_ofChar? hc cs, rfl⟩
  · by_cases hat : cs.head? = some '@'
    · obtain ⟨rest, rfl⟩ := List.head?_eq_some_iff.mp hat
      cases h
      exact ⟨rfl, rfl⟩
    · rw [lexeme_unquote hat] at h
      cases h
      refine ⟨rfl, lexeme_unquote ?_ p⟩
      cases cs with
      | nil => exact fun hs => hd.ne (by decide) (by decide) (Option.some.inj hs)
      | cons a cs => exact hat
  · exact takeString_append h (d :: ds)
  · obtain ⟨ht, rfl⟩ := Prod.mk.inj h
    refine ⟨after_takeName cs _, ?_⟩
    change (Token.ofKeywordName (takeName ⟨cs ++ d :: ds, _⟩).1, (takeName _).2) = _
    rw [takeName_append_of_delimited (hd.delimited ds)]
    exact congrArg (·, _) ht
  · rw [hl] at h
    obtain ⟨ht, rfl⟩ := Prod.mk.inj h
    refine ⟨after_takeName (c :: cs) p, ?_⟩
    rw [hl, ← List.cons_append, takeName_append_of_delimited (hd.delimited ds), ht]
  · rw [hl] at h
    cases h

/-- What is no token in front of the end of a text is none in front of a separator. -/
theorem lexeme_append_fault {e : LexFault} (hd : IsSeparator d)
    (h : lexeme c cs p = (.error e, behind)) (hq : '"' ∉ ds) :
    ∃ e' behind', lexeme c (cs ++ d :: ds) p = (.error e', behind') := by
  rcases lexeme_cases c with ⟨u, hc, hl⟩ | rfl | rfl | rfl | ⟨-, -, hl⟩ | hl
  · rw [hl] at h
    cases h
  · by_cases hat : cs.head? = some '@'
    · obtain ⟨rest, rfl⟩ := List.head?_eq_some_iff.mp hat
      cases h
    · rw [lexeme_unquote hat] at h
      cases h
  · have hquote : '"' ∉ d :: ds := by
      intro hm
      rcases List.mem_cons.mp hm with hm | hm
      · exact hd.ne (by decide) (by decide) hm.symm
      · exact hq hm
    exact takeString_append_fault h hquote
  · have hl : lexeme ':' (cs ++ d :: ds) p =
        (Token.ofKeywordName (takeName ⟨cs ++ d :: ds, p.advance ':'⟩).1,
          (takeName ⟨cs ++ d :: ds, p.advance ':'⟩).2) := rfl
    rw [takeName_append_of_delimited (hd.delimited ds), (Prod.mk.inj h).1] at hl
    exact ⟨e, _, hl⟩
  · rw [hl] at h
    have hword := hl (cs ++ d :: ds) p
    rw [← List.cons_append, takeName_append_of_delimited (hd.delimited ds),
      (Prod.mk.inj h).1] at hword
    exact ⟨e, _, hword⟩
  · exact ⟨_, _, hl _ p⟩

theorem next_append (hd : IsSeparator d) (h : next ⟨cs, p⟩ = (some (.ok t), behind))
    (ds : List Char) :
    Region.plain.after cs = Region.plain.after behind.rest ∧
      next ⟨cs ++ d :: ds, p⟩ = (some (.ok t), ⟨behind.rest ++ d :: ds, behind.pos⟩) := by
  rcases next_cases cs p with ⟨q, -, hn⟩ | ⟨c, rest, q, ht, hn⟩
  · cases hn.symm.trans h
  · obtain ⟨hr, hs⟩ := skipTrivia_append_of_cons ht (d :: ds)
    obtain ⟨hfound, rfl⟩ := Prod.mk.inj (hn.symm.trans h)
    obtain ⟨hr', hl⟩ := lexeme_append hd (Prod.ext (Option.some.inj hfound) rfl) ds
    exact ⟨hr.trans hr', (next_of_lexeme hs).trans (by rw [hl])⟩

theorem next_append_fault {e : LexFault} (hd : IsSeparator d)
    (h : next ⟨cs, p⟩ = (some (.error e), behind)) (hq : '"' ∉ ds) :
    ∃ e' behind', next ⟨cs ++ d :: ds, p⟩ = (some (.error e'), behind') := by
  rcases next_cases cs p with ⟨q, -, hn⟩ | ⟨c, rest, q, ht, hn⟩
  · cases hn.symm.trans h
  · obtain ⟨-, hs⟩ := skipTrivia_append_of_cons ht (d :: ds)
    obtain ⟨hfound, rfl⟩ := Prod.mk.inj (hn.symm.trans h)
    obtain ⟨e', behind', hl⟩ :=
      lexeme_append_fault hd (Prod.ext (Option.some.inj hfound) rfl) hq
    exact ⟨e', behind', (next_of_lexeme hs).trans (by rw [hl])⟩

/-- Behind the last token of a text another text goes on as if it stood alone, unless it goes
on with the text's last comment. -/
theorem next_append_none (hd : IsSeparator d) (hc : ¬ EndsInComment (cs ++ [d]))
    (h : next ⟨cs, p⟩ = (none, behind)) (ds : List Char) :
    next ⟨cs ++ d :: ds, p⟩ = next ⟨ds, behind.pos.advance d⟩ := by
  rcases next_cases cs p with ⟨q, ht, hn⟩ | ⟨c, rest, q, -, hn⟩
  · cases hn.symm.trans h
    obtain ⟨b, hr, hs⟩ := skipTrivia_append ht (d :: ds)
    have hstep : (Region.ofTrivia b).step d ≠ .comment := by
      intro hcomment
      refine hc ?_
      rw [EndsInComment, Region.after, List.foldl_append]
      exact (congrArg (·.step d) hr).trans hcomment
    have hon : skipTrivia b (d :: ds) q = skipTrivia false ds (q.advance d) := by
      cases b with
      | false => exact skipTrivia_of_separator hd ds q
      | true =>
        rcases skipTrivia_cons true d with ⟨b', hb', hs'⟩ | ⟨hb, -⟩
        · cases b' with
          | true => exact absurd hb' hstep
          | false => exact hs' ds q
        · contradiction
    rw [hon] at hs
    simp only [next, hs]
  · cases hn.symm.trans h

end Source

/-- A text that ends in white space. -/
def EndsInBlank (s : String) : Prop := ∃ cs d, isBlank d = true ∧ s.toList = cs ++ [d]

namespace Tokens

/-- The tokens `ts`, with `items` in front of them. -/
def behind (items : List (Token × Position)) (ts : Tokens) : Tokens :=
  { ts with items := items ++ ts.items }

theorem ofSource_nil (p : Position) : ofSource ⟨[], p⟩ = ⟨[], none, p⟩ := by
  rw [ofSource_eq]
  rfl

variable {d : Char} {s : Source}

/-- A text without fault has its own tokens in front of another text that a separator keeps
away from it. -/
theorem ofSource_append (hd : IsSeparator d) (hc : ¬ Source.EndsInComment (s.rest ++ [d]))
    (hf : (ofSource s).fault = none) (ds : List Char) :
    ofSource ⟨s.rest ++ d :: ds, s.pos⟩ =
      (ofSource ⟨ds, s.pos.after (s.rest ++ [d])⟩).behind (ofSource s).items := by
  have hafter (s : Source) : s.pos.after (s.rest ++ [d]) = (s.pos.after s.rest).advance d :=
    Position.after_append ..
  induction s using Source.next_induct with
  | stop s behind h =>
    have hpos : behind.pos = s.pos.after s.rest := by
      rw [← Source.after_of_next h, Source.rest_of_next_none h]
      rfl
    have hn := Source.next_append_none hd hc h ds
    rw [ofSource_eq, hn, ← ofSource_eq, hpos, ← hafter, ofSource_eq s, h]
    rfl
  | fault s e behind h =>
    rw [ofSource_eq, h] at hf
    contradiction
  | token s t behind h ih =>
    obtain ⟨hr, hn⟩ := Source.next_append hd h ds
    have hc' : ¬ Source.EndsInComment (behind.rest ++ [d]) := by
      intro hcomment
      refine hc ?_
      rw [Source.EndsInComment, Region.after, List.foldl_append] at hcomment ⊢
      exact (congrArg (·.step d) hr).trans hcomment
    have hf' : (ofSource behind).fault = none := by
      rw [ofSource_eq, h] at hf
      exact hf
    have hrest := ih hc' hf'
    rw [ofSource_eq, hn, ofSource_eq s, h, hafter, ← Source.after_of_next h, ← hafter]
    simp only [hrest]
    rfl

/-- A fault in a text is there as well in front of another text without quotes that a separator
keeps away from it, and the tokens in front of it are the same. -/
theorem ofSource_append_fault (hd : IsSeparator d) {e : LexFault}
    (hf : (ofSource s).fault = some e) {ds : List Char} (hq : '"' ∉ ds) :
    ∃ e' stop, ofSource ⟨s.rest ++ d :: ds, s.pos⟩ = ⟨(ofSource s).items, some e', stop⟩ := by
  induction s using Source.next_induct with
  | stop s behind h =>
    rw [ofSource_eq, h] at hf
    contradiction
  | fault s e' behind h =>
    obtain ⟨e'', behind', hn⟩ := Source.next_append_fault hd h hq
    refine ⟨e'', behind'.pos, ?_⟩
    rw [ofSource_eq, hn, ofSource_eq s, h]
  | token s t behind h ih =>
    obtain ⟨-, hn⟩ := Source.next_append hd h ds
    have hf' : (ofSource behind).fault = some e := by
      rw [ofSource_eq, h] at hf
      exact hf
    obtain ⟨e', stop, hrest⟩ := ih hf'
    refine ⟨e', stop, ?_⟩
    rw [ofSource_eq, hn, ofSource_eq s, h]
    simp only [hrest]

theorem ofString_append {s t : String} (hb : EndsInBlank s)
    (hc : ¬ Source.EndsInComment s.toList) (hf : (ofString s).fault = none) :
    ofString (s ++ t) =
      ((ofString t).moved (Position.start.after s.toList)).behind (ofString s).items := by
  obtain ⟨cs, d, hd, hs⟩ := hb
  have hsep : IsSeparator d := .inl hd
  have hcs : (ofSource ⟨cs, .start⟩).fault = none := by
    cases hcs : (ofSource ⟨cs, .start⟩).fault with
    | none => rfl
    | some e =>
      obtain ⟨e', stop, he⟩ := ofSource_append_fault hsep hcs (List.not_mem_nil (a := '"'))
      rw [ofString, Source.ofString, hs, he] at hf
      contradiction
  rw [hs] at hc
  have happend (ds : List Char) : ofSource ⟨cs ++ d :: ds, .start⟩ =
      (ofSource ⟨ds, Position.start.after (cs ++ [d])⟩).behind (ofSource ⟨cs, .start⟩).items :=
    ofSource_append hsep hc hcs ds
  have hitems : (ofString s).items = (ofSource ⟨cs, .start⟩).items := by
    rw [ofString, Source.ofString, hs, happend]
    simp [behind, ofSource_nil]
  have hst : (s ++ t).toList = cs ++ d :: t.toList := by
    rw [String.toList_append, hs, List.append_assoc, List.singleton_append]
  calc ofString (s ++ t) = ofSource ⟨cs ++ d :: t.toList, .start⟩ := by
        rw [ofString, Source.ofString, hst]
    _ = (ofSource ⟨t.toList, Position.start.after s.toList⟩).behind (ofString s).items := by
        rw [happend, hitems, hs]
    _ = _ := by
        rw [ofSource_moved]
        rfl

end Tokens

end Lisplet

import Lisplet.Proofs.Cutting

/-! The grammar of tokens. A text is an alternation of trivia and lexemes. It says of each kind of
lexeme which characters it is made of, what may stand behind it, and which token it denotes; a
lexeme that goes on as long as it can is one behind which nothing stands that it could go on with.
And it says what is broken where no lexeme begins. Nothing here counts, looks ahead or remembers:
that cutting a text comes to the same is what is proved. -/

namespace Lisplet

open Text (Position isBlank isNameChar)

/-! ## The grammar -/

/-- White space, commas and comments in front of `rest`. A comment ends with its line, or with the
text. -/
inductive Trivia : List Char → List Char → Prop where
  | nil : Trivia [] rest
  | separator (hc : IsSeparator c) (h : Trivia cs rest) : Trivia (c :: cs) rest
  | comment (hb : '\n' ∉ body) (h : Trivia cs rest) : Trivia (';' :: (body ++ '\n' :: cs)) rest
  | last (hb : '\n' ∉ body) : Trivia (';' :: body) []

/-- What a character behind a backslash stands for. -/
inductive Escape : Char → Char → Prop where
  | newline : Escape 'n' '\n'
  | tab : Escape 't' '\t'
  | slash : Escape '\\' '\\'
  | quote : Escape '"' '"'

/-- Characters between quotes, and those that they stand for. -/
inductive Spells : List Char → List Char → Prop where
  | nil : Spells [] []
  | plain (hq : c ≠ '"') (hs : c ≠ '\\') (h : Spells raw s) : Spells (c :: raw) (c :: s)
  | escape (he : Escape c d) (h : Spells raw s) : Spells ('\\' :: c :: raw) (d :: s)

/-- Decimal digits, at least one, and the number that they are. -/
structure Digits (ds : List Char) (n : Nat) : Prop where
  ne_nil : ds ≠ []
  digits : ∀ c ∈ ds, c.isDigit = true
  value : Nat.ofDigitChars 10 ds 0 = n

/-- Digits with at most one sign in front, and the integer that they are. -/
inductive Numeral : List Char → Int → Prop where
  | plain (h : Digits ds n) : Numeral ds n
  | plus (h : Digits ds n) : Numeral ('+' :: ds) n
  | minus (h : Digits ds n) : Numeral ('-' :: ds) (-n)

/-- A lexeme, what stands behind it, and the token that it denotes. -/
inductive Lexeme : List Char → List Char → Token → Prop where
  | opening (b : Bracket) : Lexeme [b.opener] rest (.opening b)
  | closing (b : Bracket) : Lexeme [b.closer] rest (.closing b)
  | sigil (s : Sigil) (h : s = .unquote → rest.head? ≠ some '@') :
    Lexeme s.mark.toList rest (.sigil s)
  | tag : Lexeme ['^'] rest .tag
  | str (h : Spells raw s) : Lexeme ('"' :: (raw ++ ['"'])) rest (.str (String.ofList s))
  | keyword (hne : name ≠ []) (hn : ∀ c ∈ name, isNameChar c = true) (hd : Delimited rest) :
    Lexeme (':' :: name) rest (.keyword (String.ofList name))
  | int (h : Numeral word n.toInt) (hd : Delimited rest) : Lexeme word rest (.int n)
  | nil (hd : Delimited rest) : Lexeme "nil".toList rest .nil
  | true (hd : Delimited rest) : Lexeme "true".toList rest (.bool true)
  | false (hd : Delimited rest) : Lexeme "false".toList rest (.bool false)
  | symbol (hn : IsSymbolName name) (hd : Delimited rest) :
    Lexeme name.toList rest (.symbol name)

/-- What is no lexeme in front of `rest`, as far as that takes to be seen, and what is wrong with
it. -/
inductive Broken : List Char → List Char → LexFault → Prop where
  | unclosed (h : Spells raw s) : Broken ('"' :: raw) [] .unterminatedString
  | cutShort (h : Spells raw s) : Broken ('"' :: (raw ++ ['\\'])) [] .unterminatedString
  | escape (h : Spells raw s) (hc : ∀ d, ¬ Escape c d) :
    Broken ('"' :: (raw ++ ['\\', c])) rest (.invalidEscape c)
  | nameless (hd : Delimited rest) : Broken [':'] rest .namelessKeyword
  | number (hb : BeginsLikeNumber word) (hw : ∀ c ∈ word, isNameChar c = true)
    (hn : ∀ i, ¬ Numeral word i) (hd : Delimited rest) :
    Broken word rest (.invalidNumber (String.ofList word))
  | range (h : Numeral word i) (hi : ∀ n : Int64, n.toInt ≠ i) (hd : Delimited rest) :
    Broken word rest (.outOfRange (String.ofList word))

/-- A text that begins at a place is an alternation of trivia and lexemes: up to its end, or up to
where one is broken. Each token has its place behind the lexeme. -/
inductive Cuts : Position → List Char → Tokens → Prop where
  | done (h : Trivia cs []) : Cuts p cs ⟨[], none, p.after cs⟩
  | fault (ht : Trivia blank (lex ++ rest)) (hb : Broken lex rest e) :
    Cuts p (blank ++ (lex ++ rest)) ⟨[], some e, p.after (blank ++ lex)⟩
  | token (ht : Trivia blank (lex ++ rest)) (hl : Lexeme lex rest t)
    (h : Cuts (p.after (blank ++ lex)) rest ts) :
    Cuts p (blank ++ (lex ++ rest)) (ts.behind [(t, p.after (blank ++ lex))])

/-! ## Trivia -/

section

variable {c : Char} {cs blank rest lex raw s body word : List Char} {p : Position} {t : Token}
  {e : LexFault} {found : Except LexFault Token} {i : Int} {n : Nat}

theorem skipTrivia_comment (hb : '\n' ∉ body) (rest : List Char) (p : Position) :
    Source.skipTrivia true (body ++ rest) p = Source.skipTrivia true rest (p.after body) := by
  induction body generalizing p with
  | nil => rfl
  | cons c body ih =>
    have hn : c ≠ '\n' := fun he => hb (by simp [he])
    have hskip : Source.skipTrivia true (c :: (body ++ rest)) p =
        Source.skipTrivia true (body ++ rest) (p.advance c) := by
      rw [Source.skipTrivia, if_neg hn]
      by_cases hs : c = ';'
      · rw [if_pos hs]
      · simp [hs]
    exact hskip.trans (ih (fun hm => hb (List.mem_cons_of_mem c hm)) (p.advance c))

/-- Trivia are passed over. -/
theorem Trivia.skipTrivia (h : Trivia blank rest) (p : Position) :
    Source.skipTrivia false (blank ++ rest) p = Source.skipTrivia false rest (p.after blank) := by
  induction h generalizing p with
  | nil => rfl
  | separator hc h ih => exact (Source.skipTrivia_of_separator hc _ p).trans (ih _)
  | @comment body cs rest hb h ih =>
    calc Source.skipTrivia false (';' :: (body ++ '\n' :: cs) ++ rest) p
        = Source.skipTrivia true (body ++ '\n' :: (cs ++ rest)) (p.advance ';') := by
          rw [List.cons_append, List.append_assoc]
          rfl
      _ = Source.skipTrivia true ('\n' :: (cs ++ rest)) ((p.advance ';').after body) :=
          skipTrivia_comment hb _ _
      _ = Source.skipTrivia false (cs ++ rest) (((p.advance ';').after body).advance '\n') := rfl
      _ = Source.skipTrivia false rest ((((p.advance ';').after body).advance '\n').after cs) :=
          ih _
      _ = Source.skipTrivia false rest (p.after (';' :: (body ++ '\n' :: cs))) := by
          simp [Position.after]
  | @last body hb =>
    have hskip := skipTrivia_comment hb [] (p.advance ';')
    rw [List.append_nil] at hskip
    rw [List.append_nil]
    exact hskip

/-- A text begins with trivia, and behind them there is its end or the beginning of a lexeme. -/
theorem exists_trivia (cs : List Char) :
    ∃ blank rest, cs = blank ++ rest ∧ Trivia blank rest ∧ ∀ c, rest.head? = some c → Begins c := by
  induction hn : cs.length using Nat.strongRecOn generalizing cs with
  | ind n ih =>
    subst hn
    cases cs with
    | nil => exact ⟨[], [], rfl, .nil, nofun⟩
    | cons c cs =>
      by_cases hc : IsSeparator c
      · obtain ⟨blank, rest, rfl, ht, hr⟩ := ih cs.length (Nat.lt_succ_self _) cs rfl
        exact ⟨c :: blank, rest, rfl, ht.separator hc, hr⟩
      · by_cases hs : c = ';'
        · subst hs
          by_cases hm : '\n' ∈ cs
          · obtain ⟨body, more, rfl, hb⟩ := List.eq_append_cons_of_mem hm
            obtain ⟨blank, rest, rfl, ht, hr⟩ := ih more.length (by simp; omega) more rfl
            exact ⟨';' :: (body ++ '\n' :: blank), rest, by simp, .comment hb ht, hr⟩
          · exact ⟨';' :: cs, [], by simp, .last hm, nofun⟩
        · refine ⟨[], c :: cs, rfl, .nil, fun d hd => ?_⟩
          cases hd
          obtain ⟨hb, hcomma⟩ := not_or.mp hc
          exact ⟨by simpa using hb, hcomma, hs⟩

/-! ## Strings -/

theorem escape?_eq_some_iff {d : Char} : Source.escape? c = some d ↔ Escape c d := by
  constructor
  · intro h
    unfold Source.escape? at h
    split at h
    case h_5 => contradiction
    all_goals
      cases h
      constructor
  · intro h
    cases h <;> rfl

theorem escape?_eq_none_iff : Source.escape? c = none ↔ ∀ d, ¬ Escape c d := by
  rw [Option.eq_none_iff_forall_ne_some]
  exact forall_congr' fun d => not_congr escape?_eq_some_iff

/-- What stands between quotes is taken for what it stands for. -/
theorem Spells.takeString (h : Spells raw s) (done rest : List Char) (p : Position) :
    Source.takeString done (raw ++ rest) p =
      Source.takeString (s.reverse ++ done) rest (p.after raw) := by
  induction h generalizing done p with
  | nil => rfl
  | @plain c raw s hq hs h ih =>
    rw [List.cons_append, Lexed.takeString_plain hq hs, ih]
    simp [Position.after]
  | @escape c d raw s he h ih =>
    rw [List.cons_append, List.cons_append,
      Lexed.takeString_escape (escape?_eq_some_iff.mpr he), ih]
    simp [Position.after]

/-- Behind a quote there is a string up to the next quote, or it is broken. -/
theorem exists_spells (cs : List Char) : ∃ raw s, Spells raw s ∧
    (cs = raw ∨ cs = raw ++ ['\\'] ∨ (∃ ds, cs = raw ++ '"' :: ds) ∨
      ∃ c ds, (∀ d, ¬ Escape c d) ∧ cs = raw ++ '\\' :: c :: ds) := by
  have h (done : List Char) : ∃ raw s, Spells raw s ∧
      (cs = raw ∨ cs = raw ++ ['\\'] ∨ (∃ ds, cs = raw ++ '"' :: ds) ∨
        ∃ c ds, (∀ d, ¬ Escape c d) ∧ cs = raw ++ '\\' :: c :: ds) := by
    induction done, cs using Source.takeString_induct with
    | stop done => exact ⟨[], [], .nil, .inl rfl⟩
    | quote done cs => exact ⟨[], [], .nil, .inr (.inr (.inl ⟨cs, rfl⟩))⟩
    | slash done => exact ⟨[], [], .nil, .inr (.inl rfl)⟩
    | escape done c cs d hd ih =>
      obtain ⟨raw, s, hs, h⟩ := ih
      refine ⟨'\\' :: c :: raw, d :: s, hs.escape (escape?_eq_some_iff.mp hd), ?_⟩
      simpa using h
    | invalid done c cs hd =>
      exact ⟨[], [], .nil, .inr (.inr (.inr ⟨c, cs, escape?_eq_none_iff.mp hd, rfl⟩))⟩
    | plain done c cs hq hb ih =>
      obtain ⟨raw, s, hs, h⟩ := ih
      refine ⟨c :: raw, c :: s, hs.plain hq hb, ?_⟩
      simpa using h
  exact h []

/-! ## Numbers -/

theorem isNumeric_of_begins (h : BeginsLikeNumber word) : Token.isNumeric word = true := by
  obtain ⟨sign, digit, rest, rfl, hsign, hd⟩ := h
  rcases hsign with rfl | rfl | rfl
  · rw [List.nil_append]
    unfold Token.isNumeric
    split <;> simp_all
  · exact hd
  · exact hd

theorem Digits.isNameChar (h : Digits word n) : ∀ c ∈ word, isNameChar c = true :=
  fun c hc => Value.isNameChar_of_isDigit (h.digits c hc)

namespace Numeral

theorem begins (h : Numeral word i) : BeginsLikeNumber word := by
  have hhead {ds : List Char} {n : Nat} (hd : Digits ds n) :
      ∃ d rest, ds = d :: rest ∧ d.isDigit = true := by
    cases ds with
    | nil => exact absurd rfl hd.ne_nil
    | cons d rest => exact ⟨d, rest, rfl, hd.digits d (by simp)⟩
  cases h with
  | plain h =>
    obtain ⟨d, rest, rfl, hd⟩ := hhead h
    exact ⟨[], d, rest, rfl, .inl rfl, hd⟩
  | plus h =>
    obtain ⟨d, rest, rfl, hd⟩ := hhead h
    exact ⟨['+'], d, rest, rfl, .inr (.inr rfl), hd⟩
  | minus h =>
    obtain ⟨d, rest, rfl, hd⟩ := hhead h
    exact ⟨['-'], d, rest, rfl, .inr (.inl rfl), hd⟩

theorem isNameChar (h : Numeral word i) : ∀ c ∈ word, isNameChar c = true := by
  cases h with
  | plain h => exact h.isNameChar
  | plus h => exact List.forall_mem_cons.mpr ⟨by decide, h.isNameChar⟩
  | minus h => exact List.forall_mem_cons.mpr ⟨by decide, h.isNameChar⟩

/-- What is left without the sign are digits, and their value is the word's. -/
theorem word_eq (h : Numeral word i) :
    (Token.unsigned word).all Char.isDigit = true ∧ Word.ofDigits? word = Word.ofInt? i := by
  cases h with
  | plain h =>
    obtain ⟨-, hu, hv⟩ := Value.ofWord_unsigned h.ne_nil h.digits
    rw [hu, hv, h.value]
    exact ⟨List.all_eq_true.mpr h.digits, rfl⟩
  | plus h =>
    rw [Word.ofDigits?, h.value]
    exact ⟨List.all_eq_true.mpr h.digits, rfl⟩
  | minus h =>
    rw [Word.ofDigits?, h.value]
    exact ⟨List.all_eq_true.mpr h.digits, rfl⟩

theorem ofWord {n : Int64} (h : Numeral word n.toInt) : Token.ofWord word = .ok (.int n) := by
  obtain ⟨hall, hv⟩ := h.word_eq
  rw [Token.ofWord, if_pos (isNumeric_of_begins h.begins), if_pos hall, hv,
    Word.ofInt?_toInt]

theorem ofWord_of_range (h : Numeral word i) (hi : ∀ n : Int64, n.toInt ≠ i) :
    Token.ofWord word = .error (.outOfRange (String.ofList word)) := by
  obtain ⟨hall, hv⟩ := h.word_eq
  have hnone : Word.ofInt? i = none := Option.eq_none_iff_forall_ne_some.mpr fun n hn =>
    hi n (Word.ofInt?_eq_some_iff.mp hn)
  rw [Token.ofWord, if_pos (isNumeric_of_begins h.begins), if_pos hall, hv, hnone]

end Numeral

/-- What begins like a number and goes on with digits only is one. -/
theorem BeginsLikeNumber.numeral (h : BeginsLikeNumber word)
    (hall : (Token.unsigned word).all Char.isDigit = true) : ∃ i, Numeral word i := by
  obtain ⟨sign, d, rest, rfl, hsign, hd⟩ := h
  rcases hsign with rfl | rfl | rfl
  · rw [List.nil_append] at hall ⊢
    have hu : Token.unsigned (d :: rest) = d :: rest := by
      unfold Token.unsigned
      split <;> simp_all
    rw [hu] at hall
    exact ⟨_, .plain ⟨List.cons_ne_nil _ _, List.all_eq_true.mp hall, rfl⟩⟩
  · exact ⟨_, .minus ⟨List.cons_ne_nil _ _, List.all_eq_true.mp hall, rfl⟩⟩
  · exact ⟨_, .plus ⟨List.cons_ne_nil _ _, List.all_eq_true.mp hall, rfl⟩⟩

theorem ofWord_of_not_numeral (hb : BeginsLikeNumber word) (hn : ∀ i, ¬ Numeral word i) :
    Token.ofWord word = .error (.invalidNumber (String.ofList word)) := by
  have hall : ¬ (Token.unsigned word).all Char.isDigit = true := by
    intro hall
    obtain ⟨i, hi⟩ := hb.numeral hall
    exact hn i hi
  rw [Token.ofWord, if_pos (isNumeric_of_begins hb), if_neg hall]

/-! ## Lexemes -/

/-- The lexer finds this in front of `rest`, and takes no more than the lexeme. -/
def Starts (lex rest : List Char) (found : Except LexFault Token) : Prop :=
  ∃ c cs, lex ++ rest = c :: cs ∧ Begins c ∧
    ∀ p, Source.lexeme c cs p = (found, ⟨rest, p.after lex⟩)

namespace Starts

theorem char (hc : Token.ofChar? c = some t) (hb : Begins c) : Starts [c] rest (.ok t) := by
  refine ⟨c, rest, rfl, hb, fun p => ?_⟩
  unfold Source.lexeme
  simp only [hc]
  rfl

theorem run (hne : word ≠ []) (hw : ∀ c ∈ word, isNameChar c = true)
    (hcolon : word.head? ≠ some ':') (hd : Delimited rest) (ht : Token.ofWord word = found) :
    Starts word rest found := by
  cases word with
  | nil => contradiction
  | cons c cs =>
    refine ⟨c, cs ++ rest, rfl, begins_of_nameChar (hw c (by simp)), fun p => ?_⟩
    rw [Lexed.lexeme_word hd hw (fun he => hcolon (congrArg some he)) p, ht]

theorem number (hb : BeginsLikeNumber word) (hw : ∀ c ∈ word, isNameChar c = true)
    (hd : Delimited rest) (ht : Token.ofWord word = found) : Starts word rest found := by
  refine .run ?_ hw ?_ hd ht
  · obtain ⟨sign, d, ds, rfl, -, -⟩ := hb
    simp
  · obtain ⟨sign, d, ds, rfl, hsign, hdigit⟩ := hb
    rcases hsign with rfl | rfl | rfl
    · rintro ⟨⟩
      contradiction
    · simp
    · simp

theorem keyword {name : List Char} (hn : ∀ c ∈ name, isNameChar c = true)
    (hd : Delimited rest) : Starts (':' :: name) rest (Token.ofKeywordName name) :=
  ⟨':', name ++ rest, rfl, begins_of_nameChar (by decide), fun p => Lexed.lexeme_keyword hd hn p⟩

/-- A quote and what spells something, with more behind it that belongs to the string. -/
theorem string {more : List Char} (h : Spells raw s)
    (hmore : ∀ p, Source.takeString s.reverse (more ++ rest) p = (found, ⟨rest, p.after more⟩)) :
    Starts ('"' :: (raw ++ more)) rest found := by
  refine ⟨'"', raw ++ more ++ rest, rfl, ⟨by decide, by decide, by decide⟩, fun p => ?_⟩
  have hs := h.takeString [] (more ++ rest) (p.advance '"')
  rw [List.append_nil, hmore] at hs
  rw [List.append_assoc]
  refine Eq.trans hs ?_
  rw [← Position.after_append]
  rfl

end Starts

/-- What is a lexeme by the grammar is found. -/
theorem Lexeme.starts (h : Lexeme lex rest t) : Starts lex rest (.ok t) := by
  cases h with
  | opening b =>
    cases b with
    | round | square | curly => exact .char rfl ⟨by decide, by decide, by decide⟩
  | closing b =>
    cases b with
    | round | square | curly => exact .char rfl ⟨by decide, by decide, by decide⟩
  | tag => exact .char rfl ⟨by decide, by decide, by decide⟩
  | sigil s hs =>
    cases s with
    | quote | quasiquote | deref => exact .char rfl ⟨by decide, by decide, by decide⟩
    | unquote =>
      exact ⟨'~', rest, rfl, ⟨by decide, by decide, by decide⟩, Source.lexeme_unquote (hs rfl)⟩
    | spliceUnquote =>
      exact ⟨'~', '@' :: rest, rfl, ⟨by decide, by decide, by decide⟩, Source.lexeme_splice rest⟩
  | str hs =>
    refine .string hs fun p => ?_
    rw [List.singleton_append, Source.takeString, List.reverse_reverse]
    rfl
  | keyword hne hn hd =>
    obtain ⟨c, cs, hname⟩ := List.exists_cons_of_ne_nil hne
    subst hname
    exact .keyword hn hd
  | int h hd => exact .number h.begins h.isNameChar hd h.ofWord
  | nil hd => exact .run (by decide) (List.all_eq_true.mp rfl) (by decide) hd rfl
  | true hd => exact .run (by decide) (List.all_eq_true.mp rfl) (by decide) hd rfl
  | false hd => exact .run (by decide) (List.all_eq_true.mp rfl) (by decide) hd rfl
  | symbol hn hd => exact .run hn.ne_empty hn.chars hn.no_colon hd (Value.ofWord_symbol hn)

/-- What is broken by the grammar is a fault. -/
theorem Broken.starts (h : Broken lex rest e) : Starts lex rest (.error e) := by
  cases h with
  | @unclosed raw s hs =>
    have h : Starts ('"' :: (raw ++ [])) [] (.error .unterminatedString) :=
      .string hs fun p => by rw [List.append_nil, Source.takeString]; rfl
    rwa [List.append_nil] at h
  | cutShort hs =>
    exact .string hs fun p => by rw [List.append_nil, Source.takeString]; rfl
  | escape hs hc =>
    exact .string hs fun p => Source.takeString_invalid (escape?_eq_none_iff.mpr hc) _ _ p
  | nameless hd => exact .keyword (by simp) hd
  | number hb hw hn hd => exact .number hb hw hd (ofWord_of_not_numeral hb hn)
  | range h hi hd => exact .number h.begins h.isNameChar hd (h.ofWord_of_range hi)

/-! ## All texts -/

/-- A whole run of name characters without a colon in front is a lexeme or broken. -/
theorem lexeme_or_broken_run (hne : word ≠ []) (hw : ∀ c ∈ word, isNameChar c = true)
    (hcolon : word.head? ≠ some ':') (hd : Delimited rest) :
    (∃ t, Lexeme word rest t) ∨ ∃ e, Broken word rest e := by
  by_cases hb : BeginsLikeNumber word
  · by_cases hn : ∃ i, Numeral word i
    · obtain ⟨i, hi⟩ := hn
      by_cases hword : ∃ n : Int64, n.toInt = i
      · obtain ⟨n, rfl⟩ := hword
        exact .inl ⟨_, .int hi hd⟩
      · exact .inr ⟨_, .range hi (not_exists.mp hword) hd⟩
    · exact .inr ⟨_, .number hb hw (not_exists.mp hn) hd⟩
  · obtain ⟨name, rfl⟩ : ∃ name : String, name.toList = word :=
      ⟨String.ofList word, String.toList_ofList⟩
    by_cases hnil : name = "nil"
    · subst hnil
      exact .inl ⟨_, .nil hd⟩
    · by_cases htrue : name = "true"
      · subst htrue
        exact .inl ⟨_, .true hd⟩
      · by_cases hfalse : name = "false"
        · subst hfalse
          exact .inl ⟨_, .false hd⟩
        · exact .inl ⟨_, .symbol ⟨⟨hne, hw, hcolon⟩, hb, hnil, htrue, hfalse⟩ hd⟩

theorem exists_name (cs : List Char) :
    ∃ name rest, cs = name ++ rest ∧ (∀ c ∈ name, isNameChar c = true) ∧ Delimited rest := by
  refine ⟨cs.takeWhile isNameChar, cs.dropWhile isNameChar,
    List.takeWhile_append_dropWhile.symm, List.all_eq_true.mp (List.all_takeWhile ..), ?_⟩
  intro c hc
  have hhead := List.head?_dropWhile_not isNameChar cs
  rw [hc] at hhead
  simpa using hhead

/-- Where trivia end and the text does not, there is a lexeme, or it is broken there. -/
theorem exists_lexeme (hc : Begins c) (cs : List Char) :
    ∃ lex rest, c :: cs = lex ++ rest ∧ ((∃ t, Lexeme lex rest t) ∨ ∃ e, Broken lex rest e) := by
  by_cases hn : isNameChar c = true
  · obtain ⟨name, rest, rfl, hname, hd⟩ := exists_name cs
    by_cases hcolon : c = ':'
    · subst hcolon
      refine ⟨':' :: name, rest, rfl, ?_⟩
      cases name with
      | nil => exact .inr ⟨_, .nameless hd⟩
      | cons d ds => exact .inl ⟨_, .keyword (List.cons_ne_nil _ _) hname hd⟩
    · have hword : ∀ d ∈ c :: name, isNameChar d = true := List.forall_mem_cons.mpr ⟨hn, hname⟩
      have hne : (c :: name).head? ≠ some ':' := fun he => hcolon (Option.some.inj he)
      exact ⟨c :: name, rest, rfl, lexeme_or_broken_run (List.cons_ne_nil _ _) hword hne hd⟩
  · have hr : c ∈ Text.reserved := Classical.byContradiction fun hr =>
      hn (isNameChar_eq_true_iff.mpr ⟨hc.not_blank, hr⟩)
    have hcomma := hc.not_comma
    have hcomment := hc.not_comment
    simp only [Text.reserved, List.mem_cons, List.not_mem_nil, or_false] at hr
    rcases hr with rfl | rfl | rfl | rfl | rfl | rfl | rfl | rfl | rfl | rfl | rfl | rfl | rfl | rfl
    · exact ⟨['('], cs, rfl, .inl ⟨_, .opening .round⟩⟩
    · exact ⟨[')'], cs, rfl, .inl ⟨_, .closing .round⟩⟩
    · exact ⟨['['], cs, rfl, .inl ⟨_, .opening .square⟩⟩
    · exact ⟨[']'], cs, rfl, .inl ⟨_, .closing .square⟩⟩
    · exact ⟨['\x7b'], cs, rfl, .inl ⟨_, .opening .curly⟩⟩
    · exact ⟨['\x7d'], cs, rfl, .inl ⟨_, .closing .curly⟩⟩
    · exact ⟨['\x27'], cs, rfl, .inl ⟨_, .sigil .quote nofun⟩⟩
    · obtain ⟨raw, s, hs, hrest | hrest | ⟨ds, hrest⟩ | ⟨d, ds, hd, hrest⟩⟩ := exists_spells cs
      · exact ⟨'"' :: raw, [], by simp [hrest], .inr ⟨_, .unclosed hs⟩⟩
      · exact ⟨'"' :: (raw ++ ['\\']), [], by simp [hrest], .inr ⟨_, .cutShort hs⟩⟩
      · exact ⟨'"' :: (raw ++ ['"']), ds, by simp [hrest], .inl ⟨_, .str hs⟩⟩
      · exact ⟨'"' :: (raw ++ ['\\', d]), ds, by simp [hrest], .inr ⟨_, .escape hs hd⟩⟩
    · exact ⟨['\x60'], cs, rfl, .inl ⟨_, .sigil .quasiquote nofun⟩⟩
    · contradiction
    · contradiction
    · by_cases hat : cs.head? = some '@'
      · obtain ⟨ds, rfl⟩ := List.head?_eq_some_iff.mp hat
        exact ⟨['~', '@'], ds, rfl, .inl ⟨_, .sigil .spliceUnquote nofun⟩⟩
      · exact ⟨['~'], cs, rfl, .inl ⟨_, .sigil .unquote fun _ => hat⟩⟩
    · exact ⟨['@'], cs, rfl, .inl ⟨_, .sigil .deref nofun⟩⟩
    · exact ⟨['^'], cs, rfl, .inl ⟨_, .tag⟩⟩

theorem Starts.next (h : Starts lex rest found) (ht : Trivia blank (lex ++ rest)) (p : Position) :
    Source.next ⟨blank ++ (lex ++ rest), p⟩ = (some found, ⟨rest, p.after (blank ++ lex)⟩) := by
  obtain ⟨c, cs, hcs, hc, hl⟩ := h
  have hskip := ht.skipTrivia p
  rw [hcs, Source.skipTrivia_of_begins hc] at hskip
  rw [hcs, Source.next_of_lexeme hskip, hl, Position.after_append]

/-- Every text is cut by the grammar. -/
theorem exists_cuts (p : Position) (cs : List Char) : ∃ ts, Cuts p cs ts := by
  induction hn : cs.length using Nat.strongRecOn generalizing p cs with
  | ind n ih =>
    subst hn
    obtain ⟨blank, behind, rfl, ht, hb⟩ := exists_trivia cs
    cases behind with
    | nil =>
      rw [List.append_nil]
      exact ⟨_, .done ht⟩
    | cons c ds =>
      obtain ⟨lex, rest, hlex, hfound⟩ := exists_lexeme (hb c rfl) ds
      rw [hlex] at ht ih ⊢
      rcases hfound with ⟨t, hl⟩ | ⟨e, he⟩
      · have hlen : rest.length < (blank ++ (lex ++ rest)).length := by
          obtain ⟨d, es, hd, hbegin, hs⟩ := hl.starts
          have hle := Source.length_lexeme_le hbegin es p
          rw [hs, ← Nat.lt_succ_iff] at hle
          rw [hd, List.length_append]
          exact Nat.lt_of_lt_of_le hle (Nat.le_add_left ..)
        obtain ⟨ts, hts⟩ := ih _ hlen (p.after (blank ++ lex)) rest rfl
        exact ⟨_, .token ht hl hts⟩
      · exact ⟨_, .fault ht he⟩

/-- Whatever is cut by the grammar is cut so. -/
theorem Cuts.ofSource {ts : Tokens} (h : Cuts p cs ts) : Tokens.ofSource ⟨cs, p⟩ = ts := by
  induction h with
  | @done cs p h =>
    have hskip := h.skipTrivia p
    rw [List.append_nil] at hskip
    rw [Tokens.ofSource_eq, Source.next_of_trivia hskip]
  | fault ht hb => rw [Tokens.ofSource_eq, hb.starts.next ht]
  | token ht hl h ih =>
    rw [Tokens.ofSource_eq, hl.starts.next ht]
    simp only [ih]
    rfl

/-- A token that has been cut from a text: a name in it is one that can be written. A keyword's
name may begin with a colon. -/
def Token.Sound : Token → Prop
  | symbol name => IsSymbolName name
  | keyword name => name.toList ≠ [] ∧ ∀ c ∈ name.toList, isNameChar c = true
  | _ => True

theorem Lexeme.sound (h : Lexeme lex rest t) : t.Sound := by
  cases h with
  | keyword hne hn =>
    rw [Token.Sound, String.toList_ofList]
    exact ⟨hne, hn⟩
  | symbol hn => exact hn
  | opening | closing | sigil | tag | str | int | nil | true | false => trivial

theorem Cuts.sound {ts : Tokens} (h : Cuts p cs ts) : ∀ i ∈ ts.items, i.1.Sound := by
  induction h with
  | done | fault => nofun
  | token ht hl h ih => exact List.forall_mem_cons.mpr ⟨hl.sound, ih⟩

theorem Tokens.sound_ofSource (s : Source) : ∀ i ∈ (ofSource s).items, i.1.Sound := by
  obtain ⟨ts, hts⟩ := exists_cuts s.pos s.rest
  have hsource : ofSource s = ts := hts.ofSource
  rw [hsource]
  exact hts.sound

end

/-- **Cutting a text follows the grammar of tokens.** A text is cut into tokens, each with its
place, up to its end or up to a fault, if and only if by the grammar it is an alternation of
trivia and of lexemes that denote these tokens, up to its end or up to the first that is broken in
the way that the fault tells. -/
theorem Tokens.ofString_eq_iff (text : String) (ts : Tokens) :
    ofString text = ts ↔ Cuts .start text.toList ts := by
  constructor
  · intro h
    obtain ⟨us, hus⟩ := exists_cuts .start text.toList
    have hsame : ofString text = us := hus.ofSource
    rwa [← h, hsame]
  · intro h
    exact h.ofSource

end Lisplet

import Lisplet.Proofs.RoundTrip.Data
import Lisplet.Value.Printer
import Mathlib.Data.List.Forall2

/-! The readable text of forms, cut into tokens. Each value has its tokens, and its text in
front of another text is cut into these and the tokens of the other one, if what follows
does not go on with a name character. So the printer need not know what it prints in front
of. A keyword without a name has a text, but that is no token: cutting ends there. -/

namespace Lisplet

open Text (Position isBlank isNameChar)

/-! ## Texts and their tokens -/

/-- All tokens but a keyword without a name can be written. -/
def Token.isNamed : Token → Bool
  | keyword name => name ≠ ""
  | _ => true

/-- A text is cut into the tokens, wherever it begins, or into those in front of the first
keyword without a name, which is a fault. -/
def Lexed (cs : List Char) (ts : List Token) : Prop :=
  ∀ p, ∃ items stop, items.map Prod.fst = ts.takeWhile Token.isNamed ∧
    Tokens.ofSource ⟨cs, p⟩ =
      ⟨items, if ts.all Token.isNamed then none else some .namelessKeyword, stop⟩

/-- No name goes on with this text. -/
def Delimited (cs : List Char) : Prop := ∀ c, cs.head? = some c → isNameChar c = false

/-- Characters that are passed over. -/
def IsSeparator (c : Char) : Prop := isBlank c = true ∨ c = ','

theorem isNameChar_eq_true_iff {c : Char} :
    isNameChar c = true ↔ isBlank c = false ∧ c ∉ Text.reserved := by
  simp [isNameChar]

theorem ne_of_reserved {c d : Char} (h : isNameChar c = true) (hd : d ∈ Text.reserved) :
    c ≠ d := by
  intro he
  subst he
  exact (isNameChar_eq_true_iff.mp h).2 hd

theorem IsSeparator.not_nameChar {c : Char} (h : IsSeparator c) : isNameChar c = false := by
  rw [← Bool.not_eq_true, isNameChar_eq_true_iff]
  intro hn
  obtain ⟨hb, hr⟩ := hn
  rcases h with h | rfl
  · exact Bool.false_ne_true (hb.symm.trans h)
  · exact hr (by decide)

theorem begins_of_nameChar {c : Char} (h : isNameChar c = true) : Begins c where
  not_blank := (isNameChar_eq_true_iff.mp h).1
  not_comma := ne_of_reserved h (by decide)
  not_comment := ne_of_reserved h (by decide)

namespace Source

theorem skipTrivia_of_begins {c : Char} (hc : Begins c) (cs : List Char) (p : Position) :
    skipTrivia false (c :: cs) p = ⟨c :: cs, p⟩ := by
  have hn : c ≠ '\n' := by
    intro he
    subst he
    exact Bool.false_ne_true (hc.not_blank.symm.trans (by decide))
  rw [skipTrivia, if_neg hn, if_neg hc.not_comment, if_neg]
  simp [hc.not_blank, hc.not_comma]

theorem next_of_begins {c : Char} (hc : Begins c) (cs : List Char) (p : Position) :
    next ⟨c :: cs, p⟩ = (some (lexeme c cs p).1, (lexeme c cs p).2) := by
  rw [next, skipTrivia_of_begins hc]

theorem skipTrivia_of_separator {c : Char} (hc : IsSeparator c) (cs : List Char) (p : Position) :
    skipTrivia false (c :: cs) p = skipTrivia false cs (p.advance c) := by
  have hne : c ≠ ';' := by
    intro he
    subst he
    rcases hc with h | h
    · exact Bool.false_ne_true h
    · contradiction
  by_cases hn : c = '\n'
  · rw [skipTrivia, if_pos hn, hn]
  · rw [skipTrivia, if_neg hn, if_neg hne, if_pos]
    rcases hc with h | h <;> simp [h]

theorem next_of_separator {c : Char} (hc : IsSeparator c) (cs : List Char) (p : Position) :
    next ⟨c :: cs, p⟩ = next ⟨cs, p.advance c⟩ := by
  rw [next, next, skipTrivia_of_separator hc]

end Source

namespace Lexed

variable {c : Char} {cs tail : List Char} {t : Token} {ts : List Token}

theorem nil : Lexed [] [] := fun p => ⟨[], p, rfl, by rw [Tokens.ofSource_eq]; rfl⟩

theorem separator (h : Lexed cs ts) (hc : IsSeparator c) : Lexed (c :: cs) ts := by
  intro p
  obtain ⟨items, stop, hi, hs⟩ := h (p.advance c)
  refine ⟨items, stop, hi, ?_⟩
  rw [Tokens.ofSource_eq, Source.next_of_separator hc, ← Tokens.ofSource_eq, hs]

theorem separators {sep : List Char} (h : Lexed cs ts) (hs : ∀ c ∈ sep, IsSeparator c) :
    Lexed (sep ++ cs) ts := by
  induction sep with
  | nil => exact h
  | cons c sep ih =>
    obtain ⟨hc, hs⟩ := List.forall_mem_cons.mp hs
    exact (ih hs).separator hc

/-- A text that begins with a token. -/
theorem token (h : Lexed tail ts) (hn : t.isNamed = true) (hc : Begins c)
    (ht : ∀ p, ∃ p', Source.lexeme c cs p = (.ok t, ⟨tail, p'⟩)) : Lexed (c :: cs) (t :: ts) := by
  intro p
  obtain ⟨p', hl⟩ := ht p
  obtain ⟨items, stop, hi, hs⟩ := h p'
  refine ⟨(t, p') :: items, stop, by rw [List.map_cons, hi, List.takeWhile_cons, if_pos hn], ?_⟩
  rw [Tokens.ofSource_eq, Source.next_of_begins hc, hl, List.all_cons, hn, Bool.true_and]
  simp only [hs]

theorem mark (h : Lexed tail ts) (hc : Token.ofChar? c = some t) :
    Lexed (c :: tail) (t :: ts) := by
  have ht : t.isNamed = true ∧ Begins c := by
    unfold Token.ofChar? at hc
    split at hc
    case h_11 => contradiction
    all_goals
      cases hc
      exact ⟨rfl, by decide, by decide, by decide⟩
  refine h.token ht.1 ht.2 fun p => ⟨p.advance c, ?_⟩
  unfold Source.lexeme
  simp only [hc]

theorem opening (h : Lexed tail ts) (b : Bracket) :
    Lexed (b.opener :: tail) (.opening b :: ts) := h.mark (by cases b <;> rfl)

theorem closing (h : Lexed tail ts) (b : Bracket) :
    Lexed (b.closer :: tail) (.closing b :: ts) := h.mark (by cases b <;> rfl)

/-! ## Words -/

theorem takeName_append {word : List Char} (hw : ∀ c ∈ word, isNameChar c = true)
    (hd : Delimited tail) (p : Position) :
    Source.takeName ⟨word ++ tail, p⟩ = (word, ⟨tail, p.after word⟩) := by
  have ht : tail.takeWhile isNameChar = [] ∧ tail.dropWhile isNameChar = tail := by
    cases tail with
    | nil => exact ⟨rfl, rfl⟩
    | cons c tail => simp [hd c rfl]
  rw [Source.takeName, List.takeWhile_append_of_pos hw, List.dropWhile_append_of_pos hw, ht.1,
    ht.2, List.append_nil]

theorem ofChar?_of_nameChar (hc : isNameChar c = true) : Token.ofChar? c = none := by
  obtain ⟨-, hr⟩ := isNameChar_eq_true_iff.mp hc
  unfold Token.ofChar?
  split
  case h_11 => rfl
  all_goals exact (hr (by decide)).elim

theorem isNamed_of_ofWord {word : List Char} (h : Token.ofWord word = .ok t) :
    t.isNamed = true := by
  unfold Token.ofWord at h
  repeat' split at h
  all_goals
    cases h
    try rfl

/-- A word is taken up to where no name goes on. -/
theorem lexeme_word (hd : Delimited tail) (hw : ∀ d ∈ c :: cs, isNameChar d = true)
    (hcolon : c ≠ ':') (p : Position) :
    Source.lexeme c (cs ++ tail) p = (Token.ofWord (c :: cs), ⟨tail, p.after (c :: cs)⟩) := by
  have hc : isNameChar c = true := hw c (by simp)
  have hne₁ : c ≠ '~' := ne_of_reserved hc (by decide)
  have hne₂ : c ≠ '\x22' := ne_of_reserved hc (by decide)
  have hrun := takeName_append hw hd p
  rw [List.cons_append] at hrun
  unfold Source.lexeme
  simp only [ofChar?_of_nameChar hc, if_neg hne₁, if_neg hne₂, if_neg hcolon, if_pos hc, hrun]

/-- Behind a colon the name of a keyword is taken up to where no name goes on. -/
theorem lexeme_keyword {name : List Char} (hd : Delimited tail)
    (hn : ∀ c ∈ name, isNameChar c = true) (p : Position) :
    Source.lexeme ':' (name ++ tail) p =
      (Token.ofKeywordName name, ⟨tail, (p.advance ':').after name⟩) := by
  have hrun := takeName_append hn hd (p.advance ':')
  change (Token.ofKeywordName (Source.takeName _).1, (Source.takeName _).2) = _
  rw [hrun]

theorem word {word : List Char} (h : Lexed tail ts) (hd : Delimited tail) (hne : word ≠ [])
    (hw : ∀ c ∈ word, isNameChar c = true) (hcolon : word.head? ≠ some ':')
    (ht : Token.ofWord word = .ok t) : Lexed (word ++ tail) (t :: ts) := by
  cases word with
  | nil => contradiction
  | cons c cs =>
    have hne : c ≠ ':' := fun he => hcolon (congrArg some he)
    refine h.token (isNamed_of_ofWord ht) (begins_of_nameChar (hw c (by simp))) fun p =>
      ⟨p.after (c :: cs), ?_⟩
    exact (lexeme_word hd hw hne p).trans (by rw [ht])

theorem keyword {name : List Char} (h : Lexed tail ts) (hd : Delimited tail)
    (hn : ∀ c ∈ name, isNameChar c = true) :
    Lexed (':' :: (name ++ tail)) (.keyword (String.ofList name) :: ts) := by
  have hc : Begins ':' := begins_of_nameChar (by decide)
  cases name with
  | nil =>
    intro p
    refine ⟨[], p.advance ':', rfl, ?_⟩
    rw [Tokens.ofSource_eq, Source.next_of_begins hc, lexeme_keyword hd hn]
    rfl
  | cons c cs =>
    exact h.token (by simp [Token.isNamed, String.ofList_cons]) hc fun p =>
      ⟨_, lexeme_keyword hd hn p⟩

/-! ## Strings -/

theorem takeString_escape {d : Char} (he : Source.escape? c = some d) (done cs : List Char)
    (p : Position) :
    Source.takeString done ('\\' :: c :: cs) p =
      Source.takeString (d :: done) cs ((p.advance '\\').advance c) := by
  rw [Source.takeString]
  simp only [he]

theorem takeString_plain (hq : c ≠ '"') (hb : c ≠ '\\') (done cs : List Char) (p : Position) :
    Source.takeString done (c :: cs) p = Source.takeString (c :: done) cs (p.advance c) := by
  rw [Source.takeString] <;> simp_all

/-- The escaped characters of a string and the quote behind them give the string back. -/
theorem takeString_escaped (s done tail : List Char) (p : Position) :
    ∃ p', Source.takeString done (s.foldr Value.writeEscaped ('"' :: tail)) p =
      (.ok (.str (String.ofList (done.reverse ++ s))), ⟨tail, p'⟩) := by
  induction s generalizing done p with
  | nil => exact ⟨p.advance '"', by rw [List.foldr_nil, Source.takeString, List.append_nil]⟩
  | cons c s ih =>
    have hr : done.reverse ++ c :: s = (c :: done).reverse ++ s := by simp
    rw [List.foldr_cons, Value.writeEscaped, hr]
    split
    · next hc =>
      rw [hc, takeString_escape rfl]
      exact ih ('"' :: done) _
    · next hq =>
      split
      · next hc =>
        rw [hc, takeString_escape rfl]
        exact ih ('\\' :: done) _
      · next hb =>
        split
        · next hc =>
          rw [hc, takeString_escape rfl]
          exact ih ('\n' :: done) _
        · rw [takeString_plain hq hb]
          exact ih (c :: done) _

theorem str (h : Lexed tail ts) (s : String) :
    Lexed (Value.writeString .readable s tail) (.str s :: ts) := by
  refine h.token rfl ⟨by decide, by decide, by decide⟩ fun p => ?_
  obtain ⟨p', hp⟩ := takeString_escaped s.toList [] tail (p.advance '"')
  refine ⟨p', ?_⟩
  have hl : Source.lexeme '"' (s.toList.foldr Value.writeEscaped ('"' :: tail)) p =
      Source.takeString [] (s.toList.foldr Value.writeEscaped ('"' :: tail)) (p.advance '"') := rfl
  rw [hl, hp, List.reverse_nil, List.nil_append, String.ofList_toList]

end Lexed

/-! ## The tokens of values -/

def Shape.bracket : Shape → Bracket
  | list => .round
  | vector => .square

namespace Value

mutual
/-- The tokens of a value in front of others. -/
def tokensOnto : Value → List Token → List Token
  | nil, ts => .nil :: ts
  | bool b, ts => .bool b :: ts
  | int n, ts => .int n :: ts
  | str s, ts => .str s :: ts
  | symbol name, ts => .symbol name :: ts
  | keyword name, ts => .keyword name :: ts
  | seq shape xs, ts =>
    .opening shape.bracket :: itemTokensOnto xs (.closing shape.bracket :: ts)
  | map es, ts => .opening .curly :: entryTokensOnto es (.closing .curly :: ts)
  | _, ts => ts
termination_by structural v => v

def itemTokensOnto : Rope Value → List Token → List Token
  | .nil, ts => ts
  | .node l x r, ts => itemTokensOnto l (tokensOnto x (itemTokensOnto r ts))
termination_by structural xs => xs

def entryTokensOnto : Rope (Value × Value) → List Token → List Token
  | .nil, ts => ts
  | .node l (k, v) r, ts =>
    entryTokensOnto l (tokensOnto k (tokensOnto v (entryTokensOnto r ts)))
termination_by structural es => es
end

/-- Keys and values as they alternate in a program text. -/
def alternating (es : List (Value × Value)) : List Value := es.flatMap fun e => [e.1, e.2]

theorem forall_alternating {P : Value → Prop} {es : List (Value × Value)}
    (hk : ∀ e ∈ es, P e.1) (hv : ∀ e ∈ es, P e.2) : ∀ x ∈ alternating es, P x := by
  intro x hx
  obtain ⟨e, he, hx⟩ := List.mem_flatMap.mp hx
  rcases List.mem_cons.mp hx with rfl | hx
  · exact hk e he
  · cases List.mem_singleton.mp hx
    exact hv e he

theorem itemTokensOnto_eq (xs : Rope Value) (ts : List Token) :
    itemTokensOnto xs ts = xs.toList.foldr tokensOnto ts := by
  induction xs generalizing ts with
  | nil => rfl
  | node l x r ihl ihr => simp [itemTokensOnto, ihl, ihr]

theorem entryTokensOnto_eq (es : Rope (Value × Value)) (ts : List Token) :
    entryTokensOnto es ts = (alternating es.toList).foldr tokensOnto ts := by
  induction es generalizing ts with
  | nil => rfl
  | node l e r ihl ihr => simp [entryTokensOnto, alternating, ihl, ihr]

theorem tokensOnto_seq (shape : Shape) (xs : Rope Value) (ts : List Token) :
    tokensOnto (seq shape xs) ts =
      .opening shape.bracket :: xs.toList.foldr tokensOnto (.closing shape.bracket :: ts) := by
  rw [tokensOnto, itemTokensOnto_eq]

theorem tokensOnto_map (es : Rope (Value × Value)) (ts : List Token) :
    tokensOnto (map es) ts =
      .opening .curly :: (alternating es.toList).foldr tokensOnto (.closing .curly :: ts) := by
  rw [tokensOnto, entryTokensOnto_eq]

/-- Values written with a space between each two and `lead` in front of the first. -/
def spaced (writeOne : Value → List Char → List Char) (lead : List Char) :
    List Value → List Char → List Char
  | [], tail => tail
  | x :: xs, tail => lead ++ writeOne x (spaced writeOne [' '] xs tail)

theorem spaced_append (writeOne : Value → List Char → List Char) (lead : List Char)
    (xs ys : List Value) (tail : List Char) :
    spaced writeOne lead (xs ++ ys) tail =
      spaced writeOne lead xs (spaced writeOne (if xs.isEmpty then lead else [' ']) ys tail) := by
  induction xs generalizing lead with
  | nil => rfl
  | cons x xs ih =>
    rw [List.cons_append, spaced, spaced, ih]
    cases xs <;> rfl

/-- If each value has a text of its own, the texts stand there with a space between each two. -/
theorem spaced_eq_intercalate {writeOne : Value → List Char → List Char} {xs : List Value}
    {texts : List (List Char)}
    (h : List.Forall₂ (fun x cs => ∀ tail, writeOne x tail = cs ++ tail) xs texts)
    (tail : List Char) : spaced writeOne [] xs tail = [' '].intercalate texts ++ tail := by
  induction h with
  | nil => rfl
  | @cons x cs xs texts hx hxs ih =>
    rw [spaced, List.nil_append, hx]
    cases hxs with
    | nil => rw [spaced, List.intercalate_singleton]
    | cons hy hys =>
      rw [List.intercalate_cons_cons, List.append_assoc, List.append_assoc, ← ih]
      rfl

variable {style : Style} {atomText : AtomId → List Char → List Char}

theorem writeString_append (s : String) (tail more : List Char) :
    writeString style s tail ++ more = writeString style s (tail ++ more) := by
  have he (c : Char) (tail : List Char) :
      writeEscaped c tail ++ more = writeEscaped c (tail ++ more) := by
    unfold writeEscaped
    repeat' split
    all_goals rfl
  have hf (cs tail : List Char) :
      cs.foldr writeEscaped tail ++ more = cs.foldr writeEscaped (tail ++ more) := by
    induction cs with
    | nil => rfl
    | cons c cs ih => rw [List.foldr_cons, List.foldr_cons, he, ih]
  cases style with
  | readable => exact congrArg ('"' :: ·) (hf s.toList ('"' :: tail))
  | raw => exact List.append_assoc ..

theorem write_symbol (name : String) (tail : List Char) :
    write style atomText (symbol name) tail = name.toList ++ tail := rfl

theorem write_keyword (name : String) (tail : List Char) :
    write style atomText (keyword name) tail = (Keyword.text name).toList ++ tail := rfl

theorem writeItems_eq (lead : List Char) (xs : Rope Value) (tail : List Char) :
    writeItems style atomText lead xs tail =
      spaced (write style atomText) lead xs.toList tail := by
  induction xs generalizing lead tail with
  | nil => rfl
  | node l x r ihl ihr =>
    rw [writeItems, ihl, ihr, Rope.toList_node, spaced_append, spaced, Rope.isEmpty_eq]

theorem writeEntries_eq (lead : List Char) (es : Rope (Value × Value)) (tail : List Char) :
    writeEntries style atomText lead es tail =
      spaced (write style atomText) lead (alternating es.toList) tail := by
  induction es generalizing lead tail with
  | nil => rfl
  | node l e r ihl ihr =>
    obtain ⟨k, v⟩ := e
    have hl : l.isEmpty = (alternating l.toList).isEmpty := by
      rw [Rope.isEmpty_eq]
      cases l.toList <;> rfl
    have ha : alternating (l.node (k, v) r).toList =
        alternating l.toList ++ k :: v :: alternating r.toList := by
      simp [alternating]
    rw [writeEntries, ihl, ihr, ha, spaced_append, spaced, spaced, hl]
    rfl

theorem write_seq (shape : Shape) (xs : Rope Value) (tail : List Char) :
    write style atomText (seq shape xs) tail =
      shape.bracket.opener ::
        spaced (write style atomText) [] xs.toList (shape.bracket.closer :: tail) := by
  cases shape <;> exact congrArg (_ :: ·) (writeItems_eq ..)

theorem write_map (es : Rope (Value × Value)) (tail : List Char) :
    write style atomText (map es) tail =
      Bracket.curly.opener ::
        spaced (write style atomText) [] (alternating es.toList)
          (Bracket.curly.closer :: tail) :=
  congrArg (_ :: ·) (writeEntries_eq ..)

/-! ## Words of values -/

theorem isNumeric_eq_false {cs : List Char} (h : ¬ BeginsLikeNumber cs) :
    Token.isNumeric cs = false := by
  unfold Token.isNumeric
  split
  · next d rest =>
    exact Bool.eq_false_iff.mpr fun hd => h ⟨['-'], d, rest, rfl, .inr (.inl rfl), hd⟩
  · next d rest =>
    exact Bool.eq_false_iff.mpr fun hd => h ⟨['+'], d, rest, rfl, .inr (.inr rfl), hd⟩
  · next d rest _ _ =>
    exact Bool.eq_false_iff.mpr fun hd => h ⟨[], d, rest, rfl, .inl rfl, hd⟩
  · rfl

theorem ofWord_symbol {name : String} (h : IsSymbolName name) :
    Token.ofWord name.toList = .ok (.symbol name) := by
  rw [Token.ofWord, isNumeric_eq_false h.not_number, String.ofList_toList]
  split
  · contradiction
  · split
    · exact (h.not_nil rfl).elim
    · exact (h.not_true rfl).elim
    · exact (h.not_false rfl).elim
    · rfl

theorem isNameChar_of_isDigit {c : Char} (h : c.isDigit = true) : isNameChar c = true := by
  refine isNameChar_eq_true_iff.mpr ⟨?_, fun hr => ?_⟩
  · have hb : 48 ≤ c.toNat ∧ c.toNat ≤ 57 := by
      simpa [Char.isDigit, UInt32.le_iff_toNat_le] using h
    simp only [isBlank, Bool.or_eq_false_iff, Bool.and_eq_false_iff, decide_eq_false_iff_not,
      beq_eq_false_iff_ne]
    omega
  · have hn : Text.reserved.all (fun c => !c.isDigit) = true := by decide
    simpa [h] using List.all_eq_true.mp hn c hr

/-- A run of digits is no sign with digits behind it. -/
theorem ofWord_unsigned {ds : List Char} (hne : ds ≠ []) (hd : ∀ c ∈ ds, c.isDigit = true) :
    Token.isNumeric ds = true ∧ Token.unsigned ds = ds ∧
      Word.ofDigits? ds = Word.ofInt? (Nat.ofDigitChars 10 ds 0) := by
  cases ds with
  | nil => contradiction
  | cons d ds =>
    have hdigit : d.isDigit = true := hd d (by simp)
    have hminus : d ≠ '-' := by
      intro he
      subst he
      contradiction
    have hplus : d ≠ '+' := by
      intro he
      subst he
      contradiction
    refine ⟨?_, ?_, ?_⟩
    · unfold Token.isNumeric
      split <;> simp_all
    · unfold Token.unsigned
      split <;> simp_all
    · unfold Word.ofDigits?
      split <;> simp_all

theorem ofWord_digits (n : Int64) : Token.ofWord (Word.digits n) = .ok (.int n) := by
  have hne : Nat.toDigits 10 n.toInt.natAbs ≠ [] := List.length_pos_iff.mp Nat.length_toDigits_pos
  have hd : ∀ c ∈ Nat.toDigits 10 n.toInt.natAbs, c.isDigit = true :=
    fun c hc => Nat.isDigit_of_mem_toDigits (by decide) (by decide) hc
  have hv : Nat.ofDigitChars 10 (Nat.toDigits 10 n.toInt.natAbs) 0 = n.toInt.natAbs :=
    Nat.ofDigitChars_ten_toDigits
  have hall : (Nat.toDigits 10 n.toInt.natAbs).all Char.isDigit = true := List.all_eq_true.mpr hd
  obtain ⟨hnum, huns, hof⟩ := ofWord_unsigned hne hd
  rw [Word.digits]
  split
  · next hneg =>
    have hnum' : Token.isNumeric ('-' :: Nat.toDigits 10 n.toInt.natAbs) = true := by
      cases hds : Nat.toDigits 10 n.toInt.natAbs with
      | nil => exact (hne hds).elim
      | cons d ds => exact hd d (by simp [hds])
    have hi : -(n.toInt.natAbs : Int) = n.toInt := by omega
    have hof' : Word.ofDigits? ('-' :: Nat.toDigits 10 n.toInt.natAbs) = some n := by
      rw [Word.ofDigits?, hv, hi, Word.ofInt?_toInt]
    rw [Token.ofWord, if_pos hnum', Token.unsigned, if_pos hall, hof']
  · next hpos =>
    have hi : (n.toInt.natAbs : Int) = n.toInt := by omega
    rw [Token.ofWord, if_pos hnum, huns, if_pos hall, hof, hv, hi, Word.ofInt?_toInt]

theorem mem_digits {n : Int64} {c : Char} (hc : c ∈ Word.digits n) :
    c = '-' ∨ c.isDigit = true := by
  have hd {c : Char} (hc : c ∈ Nat.toDigits 10 n.toInt.natAbs) : c.isDigit = true :=
    Nat.isDigit_of_mem_toDigits (by decide) (by decide) hc
  unfold Word.digits at hc
  split at hc
  · rcases List.mem_cons.mp hc with hc | hc
    · exact .inl hc
    · exact .inr (hd hc)
  · exact .inr (hd hc)

theorem digits_ne_nil (n : Int64) : Word.digits n ≠ [] := by
  unfold Word.digits
  split
  · simp
  · exact List.length_pos_iff.mp Nat.length_toDigits_pos

end Value

/-! ## Texts of values -/

namespace Lexed

open Value

variable {tail : List Char} {ts : List Token}

theorem digits (h : Lexed tail ts) (hd : Delimited tail) (n : Int64) :
    Lexed (Word.digits n ++ tail) (.int n :: ts) := by
  refine h.word hd (digits_ne_nil n) ?_ ?_ (ofWord_digits n)
  · intro c hc
    rcases mem_digits hc with rfl | hc
    · decide
    · exact isNameChar_of_isDigit hc
  · intro hc
    rcases mem_digits (List.mem_of_mem_head? hc) with hc | hc
    · contradiction
    · contradiction

theorem literal (h : Lexed tail ts) (hd : Delimited tail) {name : String} {t : Token}
    (hn : IsName name) (ht : Token.ofWord name.toList = .ok t) :
    Lexed (name.toList ++ tail) (t :: ts) := h.word hd hn.ne_empty hn.chars hn.no_colon ht

theorem delimited_spaced {writeOne : Value → List Char → List Char} {xs : List Value}
    (hd : Delimited tail) : Delimited (spaced writeOne [' '] xs tail) := by
  cases xs with
  | nil => exact hd
  | cons x xs =>
    intro c hc
    cases hc
    decide

/-- Values between which there are spaces have their tokens one after the other. -/
theorem spaced {writeOne : Value → List Char → List Char} {xs : List Value} {lead : List Char}
    (hx : ∀ x ∈ xs, ∀ {tail ts}, Delimited tail → Lexed tail ts →
      Lexed (writeOne x tail) (x.tokensOnto ts))
    (hl : ∀ c ∈ lead, IsSeparator c) (hd : Delimited tail) (h : Lexed tail ts) :
    Lexed (Value.spaced writeOne lead xs tail) (xs.foldr tokensOnto ts) := by
  induction xs generalizing lead with
  | nil => exact h
  | cons x xs ih =>
    obtain ⟨hx, hxs⟩ := List.forall_mem_cons.mp hx
    have hspace : ∀ c ∈ [' '], IsSeparator c := by
      simp [IsSeparator]
      decide
    exact (hx (delimited_spaced hd) (ih hxs hspace)).separators hl

theorem delimited_closer (b : Bracket) : Delimited (b.closer :: tail) := by
  intro c hc
  cases hc
  cases b <;> decide

/-- The readable text of a form in front of another text has the tokens of the form. -/
theorem write {v : Value} (hv : v.IsForm) {atomText : AtomId → List Char → List Char}
    (hd : Delimited tail) (h : Lexed tail ts) :
    Lexed (v.write .readable atomText tail) (v.tokensOnto ts) := by
  have hlead : ∀ c ∈ ([] : List Char), IsSeparator c := nofun
  induction hv generalizing tail ts with
  | nil =>
    have hn : IsName "nil" := .of_all (by decide) (by decide) (by decide)
    exact h.literal hd hn rfl
  | bool b =>
    cases b with
    | true =>
      have hn : IsName "true" := .of_all (by decide) (by decide) (by decide)
      exact h.literal hd hn rfl
    | false =>
      have hn : IsName "false" := .of_all (by decide) (by decide) (by decide)
      exact h.literal hd hn rfl
  | int n => exact h.digits hd n
  | str s =>
    rw [write_str]
    exact h.str s
  | symbol hn =>
    rw [write_symbol, tokensOnto]
    exact h.literal hd hn.toIsName (ofWord_symbol hn)
  | @keyword name hn =>
    have hk := h.keyword hd hn
    rw [String.ofList_toList] at hk
    rw [write_keyword, Keyword.text, String.toList_append]
    exact hk
  | @seq xs shape hx ih =>
    rw [write_seq, tokensOnto_seq]
    have hi := spaced ih hlead (delimited_closer shape.bracket) (h.closing shape.bracket)
    exact hi.opening shape.bracket
  | @map es hk hv ha ihk ihv =>
    have hx : ∀ x ∈ alternating es.toList, ∀ {tail ts}, Delimited tail → Lexed tail ts →
        Lexed (x.write .readable atomText tail) (x.tokensOnto ts) := forall_alternating ihk ihv
    rw [write_map, tokensOnto_map]
    have hi := spaced hx hlead (delimited_closer .curly) (h.closing .curly)
    exact hi.opening .curly

end Lexed

end Lisplet

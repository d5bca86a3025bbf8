import Lisplet.Proofs.LexicalGrammar
import Lisplet.Proofs.Order
import Lisplet.Proofs.RoundTrip

/-! What is read can be printed and read again, if its keywords have names that can be written.
Reading makes forms of sound names in canonical form and nothing else, but for the names of
keywords: one colon is taken off by the token and another one by the keyword, so a name can
still begin with a colon or be empty. The printer puts one colon back, and reading takes two
again: such a name does not come back as it was. -/

namespace Lisplet

open Text (isNameChar)

theorem Keyword.nameOf_cases (name : String) :
    (name.toList.head? ≠ some ':' ∧ nameOf name = name) ∨
      name.toList = ':' :: (nameOf name).toList := by
  by_cases hc : name.toList.head? = some ':'
  · obtain ⟨cs, hcs⟩ := List.head?_eq_some_iff.mp hc
    exact .inr (by rw [nameOf_of_colon hcs, hcs, String.toList_ofList])
  · exact .inl ⟨hc, nameOf_of_ne_colon hc⟩

/-! ## What is read -/

/-- The symbols that reading puts in by itself. -/
def IsReaderName (name : String) : Prop := name = "with-meta" ∨ ∃ s : Sigil, name = s.name

/-- What holds of all values that can be made of given literals by reading. -/
structure ReadingClosed (P : Value → Prop) : Prop where
  word : ∀ name, IsReaderName name → P (.symbol name)
  seq : ∀ shape vs, (∀ v ∈ vs, P v) → P (.seq shape (.ofList vs))
  map : ∀ ps, (∀ e ∈ ps, P e.1 ∧ P e.2) → P (.mapOf ps)

theorem ReadingClosed.bracketed {P : Value → Prop} (hP : ReadingClosed P) {b : Bracket}
    {vs : List Value} {v : Value} (hb : Form.bracketed b vs = .ok v) (h : ∀ v ∈ vs, P v) :
    P v := by
  cases b with
  | round =>
    cases hb
    exact hP.seq .list vs h
  | square =>
    cases hb
    exact hP.seq .vector vs h
  | curly =>
    rw [Form.bracketed] at hb
    split at hb
    · next ps hps =>
      cases hb
      refine hP.map ps fun e he => ?_
      obtain ⟨hk, hv⟩ := Form.mem_pairs? hps e he
      exact ⟨h _ hk, h _ hv⟩
    · cases hb

mutual

theorem Parses.closed {P : Value → Prop} {ts : List Token} {v : Value} (h : Parses ts v)
    (hP : ReadingClosed P) (literal : ∀ t ∈ ts, ∀ w, t.literal? = some w → P w) : P v := by
  match h with
  | .literal ht => exact literal _ (List.mem_singleton.mpr rfl) _ ht
  | .bracket hs hb =>
    exact hP.bracketed hb (ParsesAll.closed hs hP fun t ht => literal t (by simp [ht]))
  | @Parses.mark _ v s h =>
    have hv : P v := Parses.closed h hP fun t ht => literal t (by simp [ht])
    exact hP.seq .list [.symbol s.name, v] (by simp [hv, hP.word _ (.inr ⟨s, rfl⟩)])
  | @Parses.tag _ data _ v hd h =>
    have hdata : P data := Parses.closed hd hP fun t ht => literal t (by simp [ht])
    have hv : P v := Parses.closed h hP fun t ht => literal t (by simp [ht])
    exact hP.seq .list [.symbol "with-meta", v, data] (by simp [hv, hdata, hP.word _ (.inl rfl)])

theorem ParsesAll.closed {P : Value → Prop} {ts : List Token} {vs : List Value}
    (h : ParsesAll ts vs) (hP : ReadingClosed P)
    (literal : ∀ t ∈ ts, ∀ w, t.literal? = some w → P w) : ∀ v ∈ vs, P v := by
  match h with
  | .nil => nofun
  | .cons h hs =>
    exact List.forall_mem_cons.mpr
      ⟨Parses.closed h hP fun t ht => literal t (by simp [ht]),
        ParsesAll.closed hs hP fun t ht => literal t (by simp [ht])⟩

end

namespace Value

theorem isSymbolName_of_reader {name : String} (h : IsReaderName name) : IsSymbolName name := by
  have hof {name : String} (hn : IsName name) (hd : Token.isNumeric name.toList = false)
      (hw : name ∉ ["nil", "true", "false"]) : IsSymbolName name :=
    { hn with
      not_number := fun hb => by rw [isNumeric_of_begins hb] at hd; contradiction
      not_nil := fun he => hw (by simp [he])
      not_true := fun he => hw (by simp [he])
      not_false := fun he => hw (by simp [he]) }
  rcases h with rfl | ⟨s, rfl⟩
  · exact hof (.of_all (by decide) (by decide) (by decide)) rfl (by decide)
  · cases s <;> exact hof (.of_all (by decide) (by decide) (by decide)) rfl (by decide)

/-- A form that is laid out as forms are when they are read. -/
def IsRead (v : Value) : Prop := v.IsForm ∧ v.canon = v

theorem map_canon {vs : List Value} (h : ∀ v ∈ vs, v.IsRead) : vs.map canon = vs :=
  (List.map_congr_left fun v hv => (h v hv).2).trans (List.map_id vs)

theorem readingClosed_isRead : ReadingClosed IsRead where
  word name h := ⟨.symbol (isSymbolName_of_reader h), rfl⟩
  seq shape vs h := by
    refine ⟨.seq shape fun x hx => ?_, ?_⟩
    · rw [Rope.toList_ofList] at hx
      exact (h x hx).1
    · rw [canon_seq, Rope.toList_ofList, map_canon h]
  map ps h := by
    have hentries : ∀ e ∈ entriesOf ps, e.1.IsRead ∧ e.2.IsRead := fun e he =>
      h e (mem_entriesOf he)
    have hcanon : (entriesOf ps).map canonEntry = entriesOf ps := by
      refine (List.map_congr_left fun e he => ?_).trans (List.map_id (entriesOf ps))
      obtain ⟨hk, hv⟩ := hentries e he
      rw [canonEntry, hk.2, hv.2]
      rfl
    refine ⟨.map ?_ ?_ ?_, ?_⟩
    · intro e he
      rw [Rope.toList_ofList] at he
      exact (hentries e he).1.1
    · intro e he
      rw [Rope.toList_ofList] at he
      exact (hentries e he).2.1
    · rw [Rope.toList_ofList]
      exact ascending_entriesOf ps
    · rw [mapOf, canon_map, Rope.toList_ofList, hcanon]

theorem isRead_of_literal {t : Token} {v : Value} (ht : t.Sound) (h : t.literal? = some v) :
    v.IsRead := by
  cases t with
  | opening | closing | sigil | tag => contradiction
  | nil =>
    cases h
    exact ⟨.nil, rfl⟩
  | bool b =>
    cases h
    exact ⟨.bool b, rfl⟩
  | int n =>
    cases h
    exact ⟨.int n, rfl⟩
  | str s =>
    cases h
    exact ⟨.str s, rfl⟩
  | symbol name =>
    cases h
    exact ⟨.symbol ht, rfl⟩
  | keyword name =>
    cases h
    refine ⟨.keyword fun c hc => ht.2 c ?_, rfl⟩
    rcases Keyword.nameOf_cases name with ⟨-, hn⟩ | hn
    · rwa [hn] at hc
    · rw [hn]
      exact List.mem_cons_of_mem _ hc

/-- Each keyword comes from a token, the name of which stands for the keyword's. -/
theorem readingClosed_keyword (ts : List Token) :
    ReadingClosed fun v => ∀ name, .keyword name ∈ v.tokens →
      ∃ m, .keyword m ∈ ts ∧ name = Keyword.nameOf m where
  word name _ m hm := nomatch List.mem_singleton.mp hm
  seq shape vs h name hn := by
    obtain ⟨x, hx, hn⟩ := keyword_mem_tokens_seq.mp hn
    rw [Rope.toList_ofList] at hx
    exact h x hx name hn
  map ps h name hn := by
    obtain ⟨x, hx, hn⟩ := keyword_mem_tokens_map.mp hn
    rw [Rope.toList_ofList] at hx
    obtain ⟨e, he, hx⟩ := List.mem_flatMap.mp hx
    obtain ⟨hk, hv⟩ := h e (mem_entriesOf he)
    rcases List.mem_cons.mp hx with rfl | hx
    · exact hk name hn
    · cases List.mem_singleton.mp hx
      exact hv name hn

end Value

namespace Form

variable {s : String} {fs : List Value}

/-- Forms that were read are laid out as forms are when they are read. -/
theorem isRead_of_readAll (h : readAll s = .ok fs) : ∀ v ∈ fs, v.IsRead := by
  obtain ⟨-, hp⟩ := readAll_eq_ok_iff.mp h
  refine hp.closed Value.readingClosed_isRead fun t ht v hv => ?_
  obtain ⟨i, hi, rfl⟩ := List.mem_map.mp ht
  exact Value.isRead_of_literal (Tokens.sound_ofSource _ i hi) hv

theorem keyword_of_parsesAll {ts : List Token} (h : ParsesAll ts fs) {v : Value} (hv : v ∈ fs)
    {name : String} (hn : .keyword name ∈ v.tokens) :
    ∃ m, .keyword m ∈ ts ∧ name = Keyword.nameOf m := by
  refine h.closed (Value.readingClosed_keyword ts) (fun t ht w hw name hn => ?_) v hv name hn
  cases t with
  | opening | closing | sigil | tag => contradiction
  | nil | bool | int | str | symbol =>
    cases hw
    cases List.mem_singleton.mp hn
  | keyword m =>
    cases hw
    cases List.mem_singleton.mp hn
    exact ⟨m, ht, rfl⟩

/-- Names that begin with a colon cannot all come from a longer name of the same kind. -/
theorem no_colon_of_descent {T : List Token}
    (h : ∀ name, .keyword name ∈ T → ∃ m, .keyword m ∈ T ∧ name = Keyword.nameOf m)
    {name : String} (hn : .keyword name ∈ T) : name.toList.head? ≠ some ':' := by
  intro hcolon
  have hlong (n : Nat) : ∃ name, .keyword name ∈ T ∧ name.toList.head? = some ':' ∧
      n ≤ name.toList.length := by
    induction n with
    | zero => exact ⟨name, hn, hcolon, Nat.zero_le _⟩
    | succ n ih =>
      obtain ⟨name, hn, hcolon, hlen⟩ := ih
      obtain ⟨m, hm, rfl⟩ := h name hn
      rcases Keyword.nameOf_cases m with ⟨hne, he⟩ | he
      · rw [he] at hcolon
        exact absurd hcolon hne
      · refine ⟨m, hm, by rw [he]; rfl, ?_⟩
        rw [he]
        exact Nat.succ_le_succ hlen
  have hbound (T : List Token) : ∃ B, ∀ name, .keyword name ∈ T → name.toList.length ≤ B := by
    induction T with
    | nil => exact ⟨0, nofun⟩
    | cons t T ih =>
      obtain ⟨B, hB⟩ := ih
      refine ⟨max B t.text.toList.length, fun name hm => ?_⟩
      rcases List.mem_cons.mp hm with rfl | hm
      · have hlen : name.toList.length ≤ (Token.keyword name).text.toList.length := by
          rw [Token.text, String.toList_append, List.length_append]
          exact Nat.le_add_left ..
        exact Nat.le_trans hlen (Nat.le_max_right ..)
      · exact Nat.le_trans (hB name hm) (Nat.le_max_left ..)
  obtain ⟨B, hB⟩ := hbound T
  obtain ⟨name, hn, -, hlen⟩ := hlong (B + 1)
  exact absurd (hB name hn) (by omega)

end Form

/-- **What is read survives printing and reading, if its keywords have names that can be
written**, and not otherwise: a keyword without a name is printed as a text that cannot be read,
and one whose name begins with a colon is read as another one. -/
theorem rereads_iff (cells : Array Value) {s : String} {fs : List Value}
    (h : Form.readAll s = .ok fs) :
    Form.readAll (Value.textAll .readable cells "\n" fs) = .ok fs ↔
      ∀ v ∈ fs, ∀ name, .keyword name ∈ v.tokens → Value.IsPlainName name := by
  have hread := Form.isRead_of_readAll h
  have hlexed : Lexed (Value.textAll .readable cells "\n" fs).toList (fs.flatMap Value.tokens) := by
    have hne : "\n" ≠ "" := by decide
    have hsep : ∀ c ∈ "\n".toList, IsSeparator c := by
      intro c hc
      cases List.mem_singleton.mp hc
      exact .inl (by decide)
    have hl := Value.lexed_textAll cells hne hsep fun v hv => (hread v hv).1
    rwa [Value.foldr_tokensOnto, List.append_nil] at hl
  rw [Form.readAll_eq_ok_iff_of_lexed hlexed]
  constructor
  · rintro ⟨hnamed, hp⟩ v hv name hn
    have hmem : .keyword name ∈ fs.flatMap Value.tokens := List.mem_flatMap.mpr ⟨v, hv, hn⟩
    have hfrom : ∀ name, .keyword name ∈ fs.flatMap Value.tokens →
        ∃ m, .keyword m ∈ fs.flatMap Value.tokens ∧ name = Keyword.nameOf m := by
      intro name hmem
      obtain ⟨v, hv, hn⟩ := List.mem_flatMap.mp hmem
      exact Form.keyword_of_parsesAll hp hv hn
    exact ⟨of_decide_eq_true (List.all_eq_true.mp hnamed _ hmem),
      Form.no_colon_of_descent hfrom hmem⟩
  · intro hnames
    have hdata : ∀ v ∈ fs, v.IsData := fun v hv =>
      Value.isData_iff.mpr ⟨(hread v hv).1, hnames v hv⟩
    have hp := Value.parsesAll_of_forall fun v hv => Value.parses_data (hdata v hv)
    rw [Value.map_canon hread] at hp
    exact ⟨Value.isNamed_of_isData hdata, hp⟩

/-- The text of a quoted keyword with two colons, which is read as one with a single colon. -/
theorem rereads_iff_quoted_keyword :
    let fs : List Value := [Form.marked .quote (.keyword "a")]
    Form.readAll "'::a" = .ok fs ∧
      (∀ v ∈ fs, ∀ name, .keyword name ∈ v.tokens → Value.IsPlainName name) ∧
      Form.readAll (Value.textAll .readable #[] "\n" fs) = .ok fs := by
  intro fs
  have hname : ∀ c ∈ [':', 'a'], isNameChar c = true := List.all_eq_true.mp rfl
  have hkeyword : Lexed "::a".toList [.keyword ":a"] := Lexed.nil.keyword nofun hname
  have hlexed : Lexed "'::a".toList [.sigil .quote, .keyword ":a"] := hkeyword.mark rfl
  have hparses : ParsesAll [.sigil .quote, .keyword ":a"] fs := (Parses.mark (.literal rfl)).single
  have hread : Form.readAll "'::a" = .ok fs :=
    (Form.readAll_eq_ok_iff_of_lexed hlexed).mpr ⟨by decide, hparses⟩
  have hplain : ∀ v ∈ fs, ∀ name, .keyword name ∈ v.tokens → Value.IsPlainName name := by
    intro v hv name hn
    cases List.mem_singleton.mp hv
    obtain ⟨x, hx, hn⟩ := Value.keyword_mem_tokens_seq.mp hn
    rw [Rope.toList_ofList] at hx
    rcases List.mem_cons.mp hx with rfl | hx
    · cases List.mem_singleton.mp hn
    · cases List.mem_singleton.mp hx
      cases List.mem_singleton.mp hn
      exact ⟨by decide, by decide⟩
  exact ⟨hread, hplain, (rereads_iff #[] hread).mpr hplain⟩

/-- A keyword with three colons is printed with two, and read again as one with a single colon. -/
theorem rereads_three_colons :
    Form.readAll ":::a" = .ok [.keyword ":a"] ∧
      Value.textAll .readable #[] "\n" [.keyword ":a"] = "::a" ∧
      Form.readAll "::a" = .ok [.keyword "a"] := by
  have hname : ∀ c ∈ [':', ':', 'a'], isNameChar c = true := List.all_eq_true.mp rfl
  have hthree : Lexed ":::a".toList [.keyword "::a"] := Lexed.nil.keyword nofun hname
  have htwo : Lexed "::a".toList [.keyword ":a"] :=
    Lexed.nil.keyword nofun (List.forall_mem_cons.mp hname).2
  refine ⟨?_, by decide, ?_⟩
  · exact (Form.readAll_eq_ok_iff_of_lexed hthree).mpr ⟨by decide, (Parses.literal rfl).single⟩
  · exact (Form.readAll_eq_ok_iff_of_lexed htwo).mpr ⟨by decide, (Parses.literal rfl).single⟩

end Lisplet

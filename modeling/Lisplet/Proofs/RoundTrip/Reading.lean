import Lisplet.Proofs.Grammar

/-! Reading the tokens of data. By the grammar they are a form, and it has the canonical form
of the data as its value. -/

namespace Lisplet

/-! ## Brackets around data -/

/-- A name that does not begin with a colon is the name of the keyword that it stands for. -/
theorem IsName.nameOf {name : String} (hn : IsName name) : Keyword.nameOf name = name :=
  Keyword.nameOf_of_ne_colon hn.no_colon

namespace Value

theorem map_alternating (es : List (Value × Value)) :
    (alternating es).map canon = alternating (es.map canonEntry) := by
  simp [alternating, canonEntry, List.flatMap_map, List.map_flatMap]

theorem pairs?_alternating (es : List (Value × Value)) :
    Form.pairs? (alternating es) = some es := by
  induction es with
  | nil => rfl
  | cons e es ih =>
    change (Form.pairs? (alternating es)).map ((e.1, e.2) :: ·) = some (e :: es)
    rw [ih]
    rfl

theorem bracketed_seq (shape : Shape) (xs : Rope Value) :
    Form.bracketed shape.bracket (xs.toList.map canon) = .ok (seq shape xs).canon := by
  rw [canon_seq]
  cases shape <;> rfl

theorem bracketed_map {es : Rope (Value × Value)} (hk : ∀ e ∈ es.toList, e.1.IsData)
    (ha : Ascending es.toList) :
    Form.bracketed .curly ((alternating es.toList).map canon) = .ok (map es).canon := by
  rw [canon_map, map_alternating, Form.bracketed, pairs?_alternating]
  exact congrArg Except.ok (mapOf_of_ascending (ha.canon hk))

end Value

namespace Value

/-! ## The tokens of data -/

/-- The tokens of a value. -/
def tokens (v : Value) : List Token := v.tokensOnto []

theorem foldr_tokensOnto_of_forall {vs : List Value}
    (h : ∀ v ∈ vs, ∀ ts, v.tokensOnto ts = v.tokens ++ ts) (ts : List Token) :
    vs.foldr tokensOnto ts = vs.flatMap tokens ++ ts := by
  induction vs with
  | nil => rfl
  | cons v vs ih =>
    obtain ⟨hv, hvs⟩ := List.forall_mem_cons.mp h
    rw [List.foldr_cons, hv, ih hvs, List.flatMap_cons, List.append_assoc]

theorem tokensOnto_eq (v : Value) (ts : List Token) : v.tokensOnto ts = v.tokens ++ ts := by
  induction v using Value.induct generalizing ts with
  | seq shape xs ih =>
    have h := foldr_tokensOnto_of_forall ih
    rw [tokens, tokensOnto_seq, tokensOnto_seq, h, h]
    simp
  | map es ih =>
    have hx : ∀ x ∈ alternating es.toList, ∀ ts, x.tokensOnto ts = x.tokens ++ ts :=
      forall_alternating (fun e he => (ih e he).1) fun e he => (ih e he).2
    have h := foldr_tokensOnto_of_forall hx
    rw [tokens, tokensOnto_map, tokensOnto_map, h, h]
    simp
  | _ => rfl

theorem foldr_tokensOnto (vs : List Value) (ts : List Token) :
    vs.foldr tokensOnto ts = vs.flatMap tokens ++ ts :=
  foldr_tokensOnto_of_forall (fun v _ => tokensOnto_eq v) ts

theorem tokens_seq (shape : Shape) (xs : Rope Value) :
    tokens (seq shape xs) =
      .opening shape.bracket :: (xs.toList.flatMap tokens ++ [.closing shape.bracket]) := by
  rw [tokens, tokensOnto_seq, foldr_tokensOnto]

theorem tokens_map (es : Rope (Value × Value)) :
    tokens (map es) =
      .opening .curly :: ((alternating es.toList).flatMap tokens ++ [.closing .curly]) := by
  rw [tokens, tokensOnto_map, foldr_tokensOnto]

theorem mem_alternating {es : List (Value × Value)} {e : Value × Value} (he : e ∈ es) :
    e.1 ∈ alternating es ∧ e.2 ∈ alternating es := by
  constructor <;> exact List.mem_flatMap.mpr ⟨e, he, by simp⟩

theorem keyword_mem_tokens_seq {shape : Shape} {xs : Rope Value} {name : String} :
    .keyword name ∈ tokens (seq shape xs) ↔ ∃ x ∈ xs.toList, .keyword name ∈ x.tokens := by
  simp [tokens_seq]

theorem keyword_mem_tokens_map {es : Rope (Value × Value)} {name : String} :
    .keyword name ∈ tokens (map es) ↔
      ∃ x ∈ alternating es.toList, .keyword name ∈ x.tokens := by
  simp [tokens_map]

/-- A keyword's name that comes back as it was when the keyword is printed and read: it is not
empty, and reading has no second colon to take off. -/
def IsPlainName (name : String) : Prop := name ≠ "" ∧ name.toList.head? ≠ some ':'

/-- Forms are data if the names of their keywords are plain. -/
theorem isData_iff {v : Value} :
    v.IsData ↔ v.IsForm ∧ ∀ name, .keyword name ∈ v.tokens → IsPlainName name := by
  constructor
  · intro hv
    refine ⟨hv.isForm, fun name hname => ?_⟩
    induction hv with
    | nil | bool | int | str | symbol => cases List.mem_singleton.mp hname
    | keyword hn =>
      cases List.mem_singleton.mp hname
      exact ⟨fun he => hn.ne_empty (String.toList_eq_nil_iff.mpr he), hn.no_colon⟩
    | seq shape hx ih =>
      obtain ⟨x, hx, hname⟩ := keyword_mem_tokens_seq.mp hname
      exact ih x hx hname
    | map hk hv ha ihk ihv =>
      obtain ⟨x, hx, hname⟩ := keyword_mem_tokens_map.mp hname
      exact forall_alternating (P := fun x => .keyword name ∈ x.tokens → IsPlainName name) ihk ihv x
        hx hname
  · rintro ⟨hv, hnames⟩
    induction hv with
    | nil => exact .nil
    | bool b => exact .bool b
    | int n => exact .int n
    | str s => exact .str s
    | symbol h => exact .symbol h
    | keyword h =>
      obtain ⟨hne, hcolon⟩ := hnames _ (List.mem_singleton.mpr rfl)
      exact .keyword ⟨fun he => hne (String.toList_eq_nil_iff.mp he), h, hcolon⟩
    | @seq xs shape hx ih =>
      exact .seq shape fun x hx =>
        ih x hx fun name hn => hnames name (keyword_mem_tokens_seq.mpr ⟨x, hx, hn⟩)
    | @map es hk hv ha ihk ihv =>
      have hx : ∀ x ∈ alternating es.toList, ∀ name, .keyword name ∈ x.tokens → IsPlainName name :=
        fun x hx name hn => hnames name (keyword_mem_tokens_map.mpr ⟨x, hx, hn⟩)
      exact .map (fun e he => ihk e he (hx e.1 (mem_alternating he).1))
        (fun e he => ihv e he (hx e.2 (mem_alternating he).2)) ha

theorem parsesAll_of_forall {vs : List Value} (h : ∀ v ∈ vs, Parses v.tokens v.canon) :
    ParsesAll (vs.flatMap tokens) (vs.map canon) := by
  induction vs with
  | nil => exact .nil
  | cons v vs ih =>
    obtain ⟨hv, hvs⟩ := List.forall_mem_cons.mp h
    exact .cons hv (ih hvs)

/-- The tokens of data are a form, the value of which is the data. -/
theorem parses_data {v : Value} (hv : v.IsData) : Parses v.tokens v.canon := by
  induction hv with
  | nil | bool | int | str | symbol => exact .literal rfl
  | keyword hn => exact .literal (by rw [Token.literal?, hn.nameOf]; rfl)
  | @seq xs shape hx ih =>
    rw [tokens_seq]
    exact .bracket (parsesAll_of_forall ih) (bracketed_seq shape xs)
  | @map es hk hv ha ihk ihv =>
    rw [tokens_map]
    exact .bracket (parsesAll_of_forall (forall_alternating ihk ihv)) (bracketed_map hk ha)

end Value

end Lisplet

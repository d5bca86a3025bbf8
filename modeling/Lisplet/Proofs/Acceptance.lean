import Lisplet.Proofs.Coherence
import Lisplet.Proofs.Concatenation
import Lisplet.Proofs.RoundTrip.Reading
import Mathlib.Data.List.Forall2

/-! The reader accepts exactly what the grammar says, in the only way in which the grammar can say
it. No form is the beginning of a longer one, so tokens fall into forms in one way at most, and a
form has one value. Where a token stood is of no account but for the place that a fault gives. -/

namespace Lisplet

open Text (Position)

/-! ## The productions of the grammar -/

/-- A token that is a form by itself has a value. One colon that a keyword's name begins with is no
part of it. -/
inductive Token.Literal : Token → Value → Prop where
  | nil : Literal .nil .nil
  | bool (b : Bool) : Literal (.bool b) (.bool b)
  | int (n : Int64) : Literal (.int n) (.int n)
  | str (s : String) : Literal (.str s) (.str s)
  | symbol (name : String) : Literal (.symbol name) (.symbol name)
  | keyword (h : name.toList.head? ≠ some ':') : Literal (.keyword name) (.keyword name)
  | colon (h : name.toList = ':' :: cs) : Literal (.keyword name) (.keyword (String.ofList cs))

/-- The ways in which a form is made of forms, with the values of both. A mark in front of a form
stands for a list of two elements, the first of which is the name that goes with the mark. -/
inductive Production (Form : List Token → Value → Prop) : List Token → Value → Prop where
  | literal (h : t.Literal v) : Production Form [t] v
  | list (h : List.Forall₂ Form parts vs) :
    Production Form (.opening .round :: (parts.flatten ++ [.closing .round])) (.list vs)
  | vector (h : List.Forall₂ Form parts vs) :
    Production Form (.opening .square :: (parts.flatten ++ [.closing .square])) (.vector vs)
  /-- The forms in a map are its keys and values by turns. -/
  | map (h : List.Forall₂ Form parts (Value.alternating ps)) :
    Production Form (.opening .curly :: (parts.flatten ++ [.closing .curly])) (.mapOf ps)
  | quote (h : Form ts v) :
    Production Form (.sigil .quote :: ts) (.list [.symbol "quote", v])
  | quasiquote (h : Form ts v) :
    Production Form (.sigil .quasiquote :: ts) (.list [.symbol "quasiquote", v])
  | unquote (h : Form ts v) :
    Production Form (.sigil .unquote :: ts) (.list [.symbol "unquote", v])
  | spliceUnquote (h : Form ts v) :
    Production Form (.sigil .spliceUnquote :: ts) (.list [.symbol "splice-unquote", v])
  | deref (h : Form ts v) :
    Production Form (.sigil .deref :: ts) (.list [.symbol "deref", v])
  /-- The metadata stand in front of the form, and behind it in its value. -/
  | tagged (hd : Form ts data) (h : Form us v) :
    Production Form (.tag :: (ts ++ us)) (.list [.symbol "with-meta", v, data])

section

variable {ts us : List Token} {parts parts' : List (List Token)} {v w : Value} {vs : List Value}

theorem parsesAll_iff :
    ParsesAll ts vs ↔ ∃ parts, ts = parts.flatten ∧ List.Forall₂ Parses parts vs := by
  constructor
  · intro h
    induction vs generalizing ts with
    | nil =>
      cases h
      exact ⟨[], rfl, .nil⟩
    | cons v vs ih =>
      cases h with
      | cons hv hs =>
        obtain ⟨parts, rfl, hparts⟩ := ih hs
        exact ⟨_ :: parts, rfl, .cons hv hparts⟩
  · rintro ⟨parts, rfl, h⟩
    induction h with
    | nil => exact .nil
    | cons hv _ ih => exact .cons hv ih

theorem alternating_of_pairs? {ps : List (Value × Value)} (h : Form.pairs? vs = some ps) :
    vs = Value.alternating ps := by
  fun_induction Form.pairs? vs generalizing ps with
  | case1 => cases h; rfl
  | case2 => cases h
  | case3 k v rest ih =>
    obtain ⟨qs, hqs, rfl⟩ := Option.map_eq_some_iff.mp h
    rw [ih hqs]
    rfl

theorem literal?_eq_some_iff {t : Token} : t.literal? = some v ↔ t.Literal v := by
  constructor
  · intro h
    cases t with
    | nil => cases h; exact .nil
    | bool b => cases h; exact .bool b
    | int n => cases h; exact .int n
    | str s => cases h; exact .str s
    | symbol name => cases h; exact .symbol name
    | keyword name =>
      cases h
      by_cases hc : name.toList.head? = some ':'
      · obtain ⟨cs, hcs⟩ := List.head?_eq_some_iff.mp hc
        rw [Keyword.nameOf_of_colon hcs]
        exact .colon hcs
      · rw [Keyword.nameOf_of_ne_colon hc]
        exact .keyword hc
    | opening | closing | sigil | tag => cases h
  · intro h
    cases h with
    | nil | bool | int | str | symbol => rfl
    | keyword h => rw [Token.literal?, Keyword.nameOf_of_ne_colon h]
    | colon h => rw [Token.literal?, Keyword.nameOf_of_colon h]

/-- A form is made by one of the productions, and whatever one of them makes is a form. -/
theorem parses_iff_production : Parses ts v ↔ Production Parses ts v := by
  constructor
  · intro h
    cases h with
    | literal h => exact .literal (literal?_eq_some_iff.mp h)
    | @bracket ts vs b v hs hb =>
      obtain ⟨parts, rfl, hparts⟩ := parsesAll_iff.mp hs
      cases b with
      | round =>
        cases hb
        exact .list hparts
      | square =>
        cases hb
        exact .vector hparts
      | curly =>
        cases hps : Form.pairs? vs with
        | none => simp [Form.bracketed, hps] at hb
        | some ps =>
          rw [Form.bracketed, hps] at hb
          cases hb
          rw [alternating_of_pairs? hps] at hparts
          exact .map hparts
    | @mark ts v s h =>
      cases s with
      | quote => exact .quote h
      | quasiquote => exact .quasiquote h
      | unquote => exact .unquote h
      | spliceUnquote => exact .spliceUnquote h
      | deref => exact .deref h
    | tag hd h => exact .tagged hd h
  · intro h
    cases h with
    | literal h => exact .literal (literal?_eq_some_iff.mpr h)
    | list h => exact .bracket (parsesAll_iff.mpr ⟨_, rfl, h⟩) rfl
    | vector h => exact .bracket (parsesAll_iff.mpr ⟨_, rfl, h⟩) rfl
    | map h =>
      refine .bracket (parsesAll_iff.mpr ⟨_, rfl, h⟩) ?_
      rw [Form.bracketed, Value.pairs?_alternating]
    | quote h | quasiquote h | unquote h | spliceUnquote h | deref h => exact .mark h
    | tagged hd h => exact .tag hd h

/-! ## Forms are told apart -/

/-- Of two forms that stand at the beginning of the same tokens neither goes on behind the
other, and they have the same value: the reader can find only one of them. -/
theorem Parses.unique {rest rest' : List Token} (h : Parses ts v) (h' : Parses us w)
    (he : ts ++ rest = us ++ rest') : ts = us ∧ v = w := by
  have place (xs : List Token) : (xs.map fun t => (t, Position.start)).map Prod.fst = xs := by
    simp [Function.comp_def]
  have hread {ts : List Token} {v : Value} (h : Parses ts v) (rest : List Token) :
      ∃ last, Form.finish none .start [] .start ((ts ++ rest).map fun t => (t, Position.start)) =
        Form.resume none .start last (rest.map fun t => (t, Position.start))
          (Form.deliver [] v) := by
    rw [List.map_append]
    exact Form.finish_of_parses h [] .start (place ts) (.inl rfl)
  obtain ⟨_, hf⟩ := hread h rest
  obtain ⟨_, hf'⟩ := hread h' rest'
  rw [he, hf'] at hf
  obtain ⟨hv, hts⟩ := Prod.mk.inj hf
  have hrest : rest' = rest := by
    simpa only [place] using congrArg (fun ts : Tokens => ts.items.map Prod.fst) hts
  rw [hrest] at he
  exact ⟨List.append_cancel_right he, (Except.ok.inj hv).symm⟩

/-- Tokens that are a form. -/
def IsPhrase (ts : List Token) : Prop := ∃ v, Parses ts v

/-- Tokens fall into forms in one way. -/
theorem parts_unique (h : ∀ part ∈ parts, IsPhrase part) (h' : ∀ part ∈ parts', IsPhrase part)
    (he : parts.flatten = parts'.flatten) : parts = parts' := by
  induction parts generalizing parts' with
  | nil =>
    cases parts' with
    | nil => rfl
    | cons part parts' =>
      obtain ⟨v, hv⟩ := h' part List.mem_cons_self
      exact absurd (List.append_eq_nil_iff.mp he.symm).1 hv.ne_nil
  | cons part parts ih =>
    obtain ⟨⟨v, hv⟩, h⟩ := List.forall_mem_cons.mp h
    cases parts' with
    | nil => exact absurd (List.append_eq_nil_iff.mp he).1 hv.ne_nil
    | cons part' parts' =>
      obtain ⟨⟨w, hw⟩, hparts⟩ := List.forall_mem_cons.mp h'
      obtain ⟨rfl, -⟩ := hv.unique hw he
      rw [List.flatten_cons, List.flatten_cons] at he
      rw [ih h hparts (List.append_cancel_left he)]

end

/-! ## Later keys win -/

namespace Value

/-- The entry for a key that equals `k`, among entries in any order. -/
def find (k : Value) (es : List (Value × Value)) : Option (Value × Value) :=
  es.find? fun e => order k e.1 == .eq

theorem find_cons (k : Value) (e : Value × Value) (es : List (Value × Value)) :
    find k (e :: es) = if order k e.1 = .eq then some e else find k es := by
  rw [find, List.find?_cons]
  cases order k e.1 <;> rfl

theorem find_eq_none_of_lt {k : Value} {es : List (Value × Value)}
    (h : ∀ e ∈ es, order k e.1 = .lt) : find k es = none := by
  rw [find, List.find?_eq_none]
  intro e he
  simp [h e he]

/-- Looking up a key in the entries of a map finds the entry that has it. -/
theorem lookup_eq_find {es : List (Value × Value)} (ha : Ascending es) (k : Value) :
    entry? k es = find k es := by
  induction es with
  | nil => rfl
  | cons e es ih =>
    obtain ⟨l, w⟩ := e
    obtain ⟨hl, ha⟩ := ascending_cons_iff.mp ha
    rw [find_cons, entry?]
    cases hk : order k l with
    | lt => exact (find_eq_none_of_lt fun e he => Std.TransCmp.lt_trans hk (hl e he)).symm
    | eq => rfl
    | gt => exact ih ha

/-- In the entries of two maps together the second one comes first. -/
theorem find_union {es fs : List (Value × Value)} (he : Ascending es) (hf : Ascending fs)
    (k : Value) : find k (union es fs) = (find k fs).or (find k es) := by
  fun_induction union es fs with
  | case1 fs => simp [find]
  | case2 e es => rfl
  | case3 l v es m w fs h ih =>
    have ih := ih (ascending_cons_iff.mp he).2 hf
    by_cases hk : order k l = .eq
    · have hnone : find k ((m, w) :: fs) = none := by
        refine find_eq_none_of_lt (List.forall_mem_cons.mpr ⟨?_, fun f hfs => ?_⟩)
        · rwa [Std.TransCmp.congr_left hk]
        · rw [Std.TransCmp.congr_left hk]
          exact Std.TransCmp.lt_trans h ((ascending_cons_iff.mp hf).1 f hfs)
      rw [hnone, find_cons, find_cons, if_pos hk, if_pos hk, Option.none_or]
    · rw [find_cons, find_cons k (l, v) es, if_neg hk, if_neg hk, ih]
  | case4 l v es m w fs h ih =>
    have ih := ih (ascending_cons_iff.mp he).2 (ascending_cons_iff.mp hf).2
    by_cases hk : order k m = .eq
    · rw [find_cons, find_cons, if_pos hk, if_pos hk, Option.some_or]
    · have hl : ¬ order k l = .eq := fun hl => hk (Std.TransCmp.eq_trans hl h)
      rw [find_cons, find_cons k (m, w) fs, find_cons k (l, v) es, if_neg hk, if_neg hk, if_neg hl,
        ih]
  | case5 l v es m w fs h ih =>
    have ih := ih he (ascending_cons_iff.mp hf).2
    by_cases hk : order k m = .eq
    · rw [find_cons, find_cons, if_pos hk, if_pos hk, Option.some_or]
    · rw [find_cons, find_cons k (m, w) fs, if_neg hk, if_neg hk, ih]

/-- A map made of pairs has for each key the last pair with that key. -/
theorem lookup_entriesOf (ps : List (Value × Value)) (k : Value) :
    entry? k (entriesOf ps) = find k ps.reverse := by
  rw [lookup_eq_find (ascending_entriesOf ps)]
  fun_induction entriesOf ps with
  | case1 => rfl
  | case2 p => rfl
  | case3 p q ps half ih₁ ih₂ =>
    rw [find_union (ascending_entriesOf _) (ascending_entriesOf _), ih₁, ih₂, find, find, find,
      ← List.find?_append, ← List.reverse_append, List.take_append_drop]

end Value

/-! ## Places make no difference -/

namespace Form

variable {s t : String}

/-- Texts of the same tokens, with the same fault behind them if there is one, are read alike. -/
theorem readAll_outline (h : (Tokens.ofString s).toList = (Tokens.ofString t).toList)
    (hf : (Tokens.ofString s).fault = (Tokens.ofString t).fault) :
    (readAll s).mapError ReadError.fault = (readAll t).mapError ReadError.fault := by
  -- all places made one
  have hone (ts : Tokens) : (ts.placed fun _ => .start) =
      ⟨ts.toList.map fun t => (t, .start), ts.fault, .start⟩ := by
    rw [Tokens.toList, List.map_map]
    rfl
  have hplaced : ((Tokens.ofString s).placed fun _ => .start) =
      (Tokens.ofString t).placed fun _ => .start := by
    rw [hone, hone, h, hf]
  have hread := congrArg (Except.mapError ReadError.fault) (readAll_congr_placed hplaced)
  cases hs : readAll s <;> cases ht : readAll t <;> rw [hs, ht] at hread <;> exact hread

open Value in
/-- **The reader accepts exactly the grammar.** A text is read if and only if it is cut into
tokens without a fault and these are forms one behind the other, the values of which are what is
read. Tokens fall into forms in one way, and a form has one value, by the productions that the
grammar has; a map has the last of the values that stand for a key. Texts of the same tokens are
read alike, and refused alike but for the place of the fault. -/
theorem readAll_accepts_grammar :
    (∀ s vs, readAll s = .ok vs ↔ (Tokens.ofString s).fault = none ∧
      ∃ parts, (Tokens.ofString s).toList = parts.flatten ∧ List.Forall₂ Parses parts vs) ∧
    (∀ s, (∃ vs, readAll s = .ok vs) ↔ (Tokens.ofString s).fault = none ∧
      ∃ parts : List (List Token), (Tokens.ofString s).toList = parts.flatten ∧
        ∀ part ∈ parts, IsPhrase part) ∧
    (∀ parts parts' : List (List Token), (∀ part ∈ parts, IsPhrase part) →
      (∀ part ∈ parts', IsPhrase part) →
      parts.flatten = parts'.flatten → parts = parts') ∧
    (∀ ts v w, Parses ts v → Parses ts w → v = w) ∧
    (∀ ts v, Parses ts v ↔ Production Parses ts v) ∧
    (∀ ps, Value.mapOf ps = .map (.ofList (Value.entriesOf ps)) ∧
      Value.Ascending (Value.entriesOf ps) ∧
        ∀ k, entry? k (Value.entriesOf ps) = ps.reverse.find? fun e => k == e.1) ∧
    (∀ s t, (Tokens.ofString s).toList = (Tokens.ofString t).toList →
      (Tokens.ofString s).fault = (Tokens.ofString t).fault →
        (readAll s).mapError ReadError.fault = (readAll t).mapError ReadError.fault) := by
  have accepts (s : String) (vs : List Value) : readAll s = .ok vs ↔
      (Tokens.ofString s).fault = none ∧
        ∃ parts, (Tokens.ofString s).toList = parts.flatten ∧ List.Forall₂ Parses parts vs := by
    rw [readAll_eq_ok_iff, parsesAll_iff]
  refine ⟨accepts, fun s => ?_, fun parts parts' => parts_unique, fun ts v w h h' => ?_,
    fun ts v => parses_iff_production, fun ps => ⟨rfl, Value.ascending_entriesOf ps, fun k => ?_⟩,
    fun s t h hf => ?_⟩
  · simp only [accepts, IsPhrase, ← exists_forall₂_iff]
    constructor
    · intro ⟨vs, hf, parts, hs, hvs⟩
      exact ⟨hf, parts, hs, vs, hvs⟩
    · intro ⟨hf, parts, hs, vs, hvs⟩
      exact ⟨vs, hf, parts, hs, hvs⟩
  · have hsame : ts ++ [] = ts ++ [] := rfl
    exact (h.unique h' hsame).2
  · rw [Value.lookup_entriesOf, Value.find]
    congr 1
    funext e
    rw [Bool.eq_iff_iff, beq_iff_eq, Value.order_eq_iff, Value.beq_iff]
  · exact readAll_outline h hf

end Form

end Lisplet

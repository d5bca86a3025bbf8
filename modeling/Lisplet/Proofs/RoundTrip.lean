import Lisplet.Proofs.RoundTrip.Reading

/-! Readable printing is undone by reading. The texts of data with blanks and commas between
them are read as these data, with the shape of every sequence and every key of a map as it
was, so texts that are the same come from data that are the same. -/

namespace Lisplet

/-! ## Texts next to each other -/

namespace Value

variable {style : Style} {atomText : AtomId → List Char → List Char} {more : List Char}

theorem spaced_append_tail {writeOne : Value → List Char → List Char} {xs : List Value}
    (hx : ∀ x ∈ xs, ∀ tail, writeOne x tail ++ more = writeOne x (tail ++ more))
    (lead tail : List Char) :
    spaced writeOne lead xs tail ++ more = spaced writeOne lead xs (tail ++ more) := by
  induction xs generalizing lead with
  | nil => rfl
  | cons x xs ih =>
    obtain ⟨hx, hxs⟩ := List.forall_mem_cons.mp hx
    rw [spaced, spaced, List.append_assoc, hx, ih hxs]

/-- The text of a form does not depend on what it stands in front of. -/
theorem IsForm.write_append {v : Value} (hv : v.IsForm) (tail : List Char) :
    v.write style atomText tail ++ more = v.write style atomText (tail ++ more) := by
  induction hv generalizing tail with
  | nil | int | symbol | keyword => exact List.append_assoc ..
  | bool b => cases b <;> exact List.append_assoc ..
  | str s => exact writeString_append s tail more
  | @seq xs shape hx ih =>
    have hs := spaced_append_tail ih [] (shape.bracket.closer :: tail)
    rw [write_seq, write_seq, List.cons_append, hs, List.cons_append]
  | @map es hk hv ha ihk ihv =>
    have hx : ∀ x ∈ alternating es.toList, ∀ tail,
        x.write style atomText tail ++ more = x.write style atomText (tail ++ more) :=
      forall_alternating ihk ihv
    have hs := spaced_append_tail hx [] (Bracket.curly.closer :: tail)
    rw [write_map, write_map, List.cons_append, hs, List.cons_append]

end Value

/-! ## Texts with separators between them -/

theorem Lexed.intercalate {sep : List Char} {atomText : AtomId → List Char → List Char}
    {vs : List Value} (hne : sep ≠ []) (hsep : ∀ c ∈ sep, IsSeparator c)
    (hv : ∀ v ∈ vs, v.IsForm) :
    Lexed (sep.intercalate (vs.map fun v => v.write .readable atomText []))
      (vs.foldr Value.tokensOnto []) := by
  induction vs with
  | nil => exact .nil
  | cons v vs ih =>
    obtain ⟨hform, hvs⟩ := List.forall_mem_cons.mp hv
    cases vs with
    | nil =>
      rw [List.map_cons, List.map_nil, List.intercalate_singleton]
      exact Lexed.nil.write hform nofun
    | cons u us =>
      rw [List.map_cons, List.map_cons, List.intercalate_cons_cons, List.append_assoc,
        hform.write_append, List.nil_append]
      refine ((ih hvs).separators hsep).write hform ?_
      intro c hc
      cases sep with
      | nil => contradiction
      | cons s sep =>
        cases hc
        exact (hsep c (by simp)).not_nameChar

/-- The readable texts of forms with separators between them have the tokens of the forms. -/
theorem Value.lexed_textAll {vs : List Value} (cells : Array Value) {sep : String}
    (hne : sep ≠ "") (hsep : ∀ c ∈ sep.toList, IsSeparator c) (hv : ∀ v ∈ vs, v.IsForm) :
    Lexed (textAll .readable cells sep vs).toList (vs.foldr tokensOnto []) := by
  have hne' : sep.toList ≠ [] := fun h => hne (String.toList_eq_nil_iff.mp h)
  have ht : String.toList ∘ text .readable cells = fun v => writeIn .readable cells v [] := by
    funext v
    rw [Function.comp_apply, text_eq_ofList, String.toList_ofList]
  rw [textAll, String.toList_intercalate, List.map_map, ht]
  exact Lexed.intercalate hne' hsep hv

theorem Value.isNamed_of_isData {vs : List Value} (hv : ∀ v ∈ vs, v.IsData) :
    (vs.flatMap tokens).all Token.isNamed = true := by
  refine List.all_eq_true.mpr fun t ht => ?_
  obtain ⟨v, hmem, ht⟩ := List.mem_flatMap.mp ht
  cases t with
  | keyword name => exact decide_eq_true ((isData_iff.mp (hv v hmem)).2 name ht).1
  | _ => rfl

theorem Form.readAll_of_lexed {text : String} {vs : List Value} (hv : ∀ v ∈ vs, v.IsData)
    (h : Lexed text.toList (vs.foldr Value.tokensOnto [])) :
    readAll text = .ok (vs.map Value.canon) := by
  rw [Value.foldr_tokensOnto, List.append_nil] at h
  exact (readAll_eq_ok_iff_of_lexed h).mpr ⟨Value.isNamed_of_isData hv,
    Value.parsesAll_of_forall fun v hmem => Value.parses_data (hv v hmem)⟩

/-- **Reading undoes readable printing.** Data printed with blanks or commas between them are
read as the same data, in canonical form. So data with the same text are the same. -/
theorem readAll_textAll (cells : Array Value) (sep : String) (vs : List Value) (hne : sep ≠ "")
    (hsep : ∀ c ∈ sep.toList, Text.isBlank c = true ∨ c = ',') (hv : ∀ v ∈ vs, v.IsData) :
    Form.readAll (Value.textAll .readable cells sep vs) = .ok (vs.map Value.canon) ∧
      ∀ ws, (∀ w ∈ ws, Value.IsData w) →
        Value.textAll .readable cells sep ws = Value.textAll .readable cells sep vs →
        ws.map Value.canon = vs.map Value.canon := by
  have hread (vs : List Value) (hv : ∀ v ∈ vs, v.IsData) :
      Form.readAll (Value.textAll .readable cells sep vs) = .ok (vs.map Value.canon) := by
    exact Form.readAll_of_lexed hv (Value.lexed_textAll cells hne hsep fun v hm => (hv v hm).isForm)
  refine ⟨hread vs hv, fun ws hw htext => ?_⟩
  have h := (hread ws hw).symm.trans ((congrArg Form.readAll htext).trans (hread vs hv))
  exact Except.ok.inj h

/-- The text `[:a], -3` holds a vector and a number. -/
theorem readAll_textAll_vector :
    let vs : List Value := [.seq .vector (.node .nil (.keyword "a") .nil), .int (-3)]
    Value.textAll .readable #[] ", " vs = "[:a], -3" ∧
      Form.readAll (Value.textAll .readable #[] ", " vs) = .ok (vs.map Value.canon) := by
  intro vs
  have ha : IsName "a" := .of_all (by decide) (by decide) (by decide)
  have hv : ∀ v ∈ vs, v.IsData := by
    intro v hv
    rcases List.mem_cons.mp hv with rfl | hv
    · refine .seq .vector fun x hx => ?_
      cases List.mem_singleton.mp hx
      exact .keyword ha
    · cases List.mem_singleton.mp hv
      exact .int (-3)
  have hsep : ∀ c ∈ ", ".toList, Text.isBlank c = true ∨ c = ',' := by
    intro c hc
    rcases List.mem_cons.mp hc with rfl | hc
    · exact .inr rfl
    · cases List.mem_singleton.mp hc
      exact .inl rfl
  have hread := readAll_textAll #[] ", " vs (by decide) hsep hv
  exact ⟨by decide, hread.1⟩

end Lisplet

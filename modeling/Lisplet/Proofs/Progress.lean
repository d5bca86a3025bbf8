import Lisplet.Proofs.Calls

/-! Reading makes progress. Calling a lexer or a reader until it finds the end comes to an end, also
if the calls go on behind faults: none leaves everything as it is. A lexer takes at least a
character, since whatever is no trivia begins something; a reader takes at least a token, and no
more than it takes to see that no form begins there. -/

namespace Lisplet

open Text (Position)

/-- The tokens `used` are just enough for what a call of the reader has found, and the next call
begins behind them. They are a form; or they begin a form and are all that there is; or they begin
none, and do so without the last of them. A lexical fault leaves nothing for later calls. -/
def JustEnough (ts rest : Tokens) (used : List (Token × Position)) :
    Except ReadError Value → Prop
  | .ok v => rest.fault = ts.fault ∧ Parses (used.map Prod.fst) v
  | .error ⟨.lexical _, _⟩ => ∀ calls, Form.next (Form.drop rest calls) = none
  | .error _ => rest.fault = ts.fault ∧
    (rest.items = [] ∧ Unfinished (used.map Prod.fst) ∨
      ∃ before last, used = before ++ [last] ∧ Unfinished (before.map Prod.fst) ∧
        ∀ more v, ¬ Parses (used.map Prod.fst ++ more) v)

section

variable {ts us : Tokens} {found : Except ReadError Value}

/-- A call of the reader takes just enough. -/
theorem Reads.justEnough (h : Reads ts found us) :
    ∃ used, used ≠ [] ∧ ts.items = used ++ us.items ∧ JustEnough ts us used found := by
  cases h with
  | @form used rest v h hm =>
    exact ⟨used, fun hnil => h.ne_nil (List.map_eq_nil_iff.mpr hnil), rfl, rfl, h⟩
  | @refused p used rest b e hu h hm =>
    have hno : ∀ more v, ¬ Parses ((used ++ [(Token.closing b, p)]).map Prod.fst ++ more) v := by
      intro more v hv
      exact h.not_parses more v (by simpa using hv)
    refine ⟨_, by simp, rfl, ?_⟩
    cases e with
    | lexical l => exact absurd rfl (h.ne_lexical l)
    | _ => exact ⟨rfl, .inr ⟨used, _, rfl, hu, hno⟩⟩
  | missing h => exact ⟨_, by simp, (List.append_nil _).symm, rfl, .inl ⟨rfl, h.unfinished⟩⟩
  | endOfText h =>
    have hne : _ ≠ [] := fun hnil => h.ne_nil (List.map_eq_nil_iff.mpr hnil)
    exact ⟨_, hne, (List.append_nil _).symm, rfl, .inl ⟨rfl, h.unfinished⟩⟩
  | lexical hu =>
    refine ⟨_, by simp, (List.append_nil _).symm, fun calls => ?_⟩
    rw [Form.drop_of_next_none rfl]
    rfl

end

/-- **Reading makes progress, also behind faults.** A call of the lexer finds the end only where
nothing is left, and takes at least one character otherwise, so that no character is left over with
which nothing can begin; the end is found after no more calls than there are characters. A call of
the reader takes at least one token where there is one. If it finds a lexical fault, all later calls
find the end; otherwise the next call begins behind a form, or behind the first token with which the
tokens in front of it begin no form any more, if it does not begin at the end of the text. The end
is found after no more calls than there are characters. -/
theorem reading_progresses (text : String) :
    (∀ s : Source, s.next.1 = none ∧ s.next.2.rest = [] ∨
      ∃ found used, s.next.1 = some found ∧ used ≠ [] ∧ s.rest = used ++ s.next.2.rest ∧
        ∀ c, found ≠ .error (.unexpected c)) ∧
    (∃ calls ≤ text.toList.length, ∀ k,
      ((Source.ofString text).drop k).next.1 = none ↔ calls ≤ k) ∧
    (∀ ts : Tokens, ts.items ≠ [] → ∃ found rest used, Form.next ts = some (found, rest) ∧
      used ≠ [] ∧ ts.items = used ++ rest.items ∧ JustEnough ts rest used found) ∧
    (∀ ts, Form.start text = .ok ts → ∃ calls ≤ text.toList.length, ∀ k,
      Form.next (Form.drop ts k) = none ↔ calls ≤ k) := by
  refine ⟨fun s => ?_, ⟨_, (Source.ofString text).length_scan_le,
    (Source.ofString text).next_drop_eq_none_iff⟩, fun ts hne => ?_, fun ts h => ?_⟩
  · obtain ⟨used, hrest, -, hcut⟩ := s.cut_next
    cases hfound : s.next.1 with
    | none => exact .inl ⟨rfl, (hfound ▸ hcut).rest_of_none⟩
    | some found =>
      have hnew : ∀ c, found ≠ .error (.unexpected c) := fun c hc =>
        hcut.ne_unexpected c (by rw [hfound, hc])
      exact .inr ⟨found, used, rfl, hcut.ne_nil (by simp [hfound]), hrest, hnew⟩
  · cases hn : Form.next ts with
    | none => exact absurd (Form.next_eq_none hn) hne
    | some x =>
      obtain ⟨found, rest⟩ := x
      obtain ⟨used, hused, hitems, hfound⟩ := (Form.reads_of_next hn).justEnough
      exact ⟨found, rest, used, rfl, hused, hitems, hfound⟩
  · have hlength : (Form.all ts).length ≤ text.toList.length := by
      rw [Form.ofString_of_start h]
      exact Nat.le_trans (Form.length_all_le _) (Tokens.length_items_le (Source.ofString text))
    exact ⟨_, hlength, Form.next_drop_eq_none_iff ts⟩

end Lisplet

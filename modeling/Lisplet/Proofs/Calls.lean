import Lisplet.Proofs.LexicalGrammar
import Lisplet.Proofs.Refusal

/-! One call after another. A lexer is called for one token at a time and a reader for one form at
a time, and both can be called again when they have met a fault. What a single call does is told by
the grammars of tokens and of forms, once for all of its outcomes; what many calls in a row do
follows from that by counting them. -/

namespace Lisplet

open Text (Position)

/-! ## Calls of the lexer -/

/-- What is left of a text when the lexer has been called so many times. -/
def Source.drop (s : Source) : Nat → Source
  | 0 => s
  | calls + 1 => (s.drop calls).next.2

/-- What one call of the lexer takes off a text, with what is left behind that and what is found:
nothing but trivia up to the end, or trivia and a lexeme or something that is broken. -/
inductive Cut : List Char → List Char → Option (Except LexFault Token) → Prop where
  | stop (ht : Trivia blank []) : Cut blank [] none
  | token (ht : Trivia blank (lex ++ rest)) (hl : Lexeme lex rest t) :
    Cut (blank ++ lex) rest (some (.ok t))
  | fault (ht : Trivia blank (lex ++ rest)) (hb : Broken lex rest e) :
    Cut (blank ++ lex) rest (some (.error e))

section

variable {used lex rest : List Char} {p : Position} {t : Token} {e : LexFault} {s : Source}
  {found : Option (Except LexFault Token)}

theorem Lexeme.ne_nil (h : Lexeme lex rest t) : lex ≠ [] := by
  cases h with
  | sigil s => cases s <;> decide
  | int h =>
    obtain ⟨sign, digit, ds, rfl, -, -⟩ := h.begins
    simp
  | symbol hn => exact hn.ne_empty
  | opening | closing | tag | str | keyword => simp
  | nil | true | false => decide

theorem Broken.ne_nil (h : Broken lex rest e) : lex ≠ [] := by
  cases h with
  | number hb =>
    obtain ⟨sign, digit, ds, rfl, -, -⟩ := hb
    simp
  | range h =>
    obtain ⟨sign, digit, ds, rfl, -, -⟩ := h.begins
    simp
  | unclosed | cutShort | escape | nameless => simp

/-- Every call of the lexer follows the grammar of tokens, and comes to the place behind what it
takes. -/
theorem Source.cut_next (s : Source) :
    ∃ taken, s.rest = taken ++ s.next.2.rest ∧ s.next.2.pos = s.pos.after taken ∧
      Cut taken s.next.2.rest s.next.1 := by
  obtain ⟨cs, p⟩ := s
  obtain ⟨blank, more, rfl, ht, hb⟩ := exists_trivia cs
  cases more with
  | nil =>
    have hskip := ht.skipTrivia p
    rw [List.append_nil] at hskip ⊢
    rw [next_of_trivia hskip]
    exact ⟨blank, (List.append_nil _).symm, rfl, .stop ht⟩
  | cons c ds =>
    obtain ⟨lex, rest, hlex, hfound⟩ := exists_lexeme (hb c rfl) ds
    rw [hlex] at ht ⊢
    refine ⟨blank ++ lex, ?_⟩
    rcases hfound with ⟨t, hl⟩ | ⟨e, he⟩
    · rw [hl.starts.next ht]
      exact ⟨(List.append_assoc ..).symm, rfl, .token ht hl⟩
    · rw [he.starts.next ht]
      exact ⟨(List.append_assoc ..).symm, rfl, .fault ht he⟩

/-- A call takes at least one character, unless it finds the end. -/
theorem Cut.ne_nil (h : Cut used rest found) (hf : found ≠ none) : used ≠ [] := by
  cases h with
  | stop ht => contradiction
  | token ht hl => simp [hl.ne_nil]
  | fault ht hb => simp [hb.ne_nil]

theorem Cut.rest_of_none (h : Cut used rest none) : rest = [] := by
  cases h
  rfl

/-- No character is left over with which nothing can begin. -/
theorem Cut.ne_unexpected (h : Cut used rest found) (c : Char) :
    found ≠ some (.error (.unexpected c)) := by
  cases h with
  | stop | token => simp
  | fault ht hb => cases hb <;> simp

namespace Source

/-! ### Calls in a row -/

theorem drop_succ (s : Source) (calls : Nat) : s.drop (calls + 1) = s.next.2.drop calls := by
  induction calls with
  | zero => rfl
  | succ calls ih => exact congrArg (fun s : Source => s.next.2) ih

/-- At its end a text stays as it is. -/
theorem drop_of_end (p : Position) (calls : Nat) : drop ⟨[], p⟩ calls = ⟨[], p⟩ := by
  induction calls with
  | zero => rfl
  | succ calls ih => exact congrArg (fun s : Source => s.next.2) ih

/-- Many calls take a beginning off the text, and come to the place behind that. -/
theorem drop_taken (s : Source) (calls : Nat) :
    ∃ used, s.rest = used ++ (s.drop calls).rest ∧ (s.drop calls).pos = s.pos.after used := by
  induction calls with
  | zero => exact ⟨[], rfl, rfl⟩
  | succ calls ih =>
    obtain ⟨used, hrest, hpos⟩ := ih
    obtain ⟨more, hmore, hplace, -⟩ := (s.drop calls).cut_next
    refine ⟨used ++ more, ?_, ?_⟩
    · rw [hrest, hmore, List.append_assoc]
      rfl
    · rw [Position.after_append, ← hpos]
      exact hplace

theorem scan_eq (s : Source) :
    s.scan =
      match s.next with
      | (none, behind) => ([], behind.pos)
      | (some found, behind) => (⟨found, behind.pos⟩ :: behind.scan.1, behind.scan.2) := by
  rw [scan]
  split
  · next h => simp only [h]
  · next h => simp only [h]

theorem drop_of_next_none {behind : Source} (h : s.next = (none, behind)) (calls : Nat) :
    (s.drop calls).next.1 = none := by
  cases calls with
  | zero => exact congrArg Prod.fst h
  | succ calls =>
    obtain ⟨rest, p⟩ := behind
    have hrest : rest = [] := rest_of_next_none h
    subst hrest
    rw [drop_succ, h, drop_of_end]
    rfl

/-- A scan lists the calls up to the end of the text, each with the place that it came to. -/
theorem getElem?_scan (s : Source) (calls : Nat) :
    s.scan.1[calls]? =
      (s.drop calls).next.1.map fun found => ⟨found, (s.drop calls).next.2.pos⟩ := by
  induction hn : s.rest.length using Nat.strongRecOn generalizing s calls with
  | ind n ih =>
    match h : s.next with
    | (none, behind) => rw [scan_eq, h, drop_of_next_none h]; rfl
    | (some found, behind) =>
      cases calls with
      | zero => rw [scan_eq, h, drop, h]; rfl
      | succ calls =>
        have hl : behind.rest.length < n := hn ▸ length_next_lt h
        rw [scan_eq, drop_succ, h]
        exact ih _ hl behind calls rfl

theorem length_scan_le (s : Source) : s.scan.1.length ≤ s.rest.length := by
  induction hn : s.rest.length using Nat.strongRecOn generalizing s with
  | ind n ih =>
    match h : s.next with
    | (none, behind) => rw [scan_eq, h]; exact Nat.zero_le _
    | (some found, behind) =>
      have hl : behind.rest.length < n := hn ▸ length_next_lt h
      rw [scan_eq, h]
      exact Nat.succ_le_of_lt (Nat.lt_of_le_of_lt (ih _ hl behind rfl) hl)

/-- The end is found when the calls of the scan have been made, and from then on. -/
theorem next_drop_eq_none_iff (s : Source) (calls : Nat) :
    (s.drop calls).next.1 = none ↔ s.scan.1.length ≤ calls := by
  rw [← List.getElem?_eq_none_iff, getElem?_scan, Option.map_eq_none_iff]

end Source

/-! ## Tokens as calls -/

namespace Tokens

/-- The tokens of a text are what the lexer is called for, up to its first fault. -/
theorem next_of_items (s : Source) {calls : Nat}
    (h : (ofSource s).items[calls]? = some (t, p)) :
    (s.drop calls).next.1 = some (.ok t) ∧ (s.drop (calls + 1)).pos = p := by
  induction s using Source.next_induct generalizing calls with
  | stop s behind hn =>
    rw [ofSource_eq, hn] at h
    contradiction
  | fault s e behind hn =>
    rw [ofSource_eq, hn] at h
    contradiction
  | token s u behind hn ih =>
    rw [ofSource_eq, hn] at h
    cases calls with
    | zero =>
      cases h
      exact ⟨congrArg Prod.fst hn, congrArg (fun x => x.2.pos) hn⟩
    | succ calls =>
      rw [Source.drop_succ, Source.drop_succ s (calls + 1), hn]
      exact ih h

/-- The fault of a text is found by the call behind its last token. -/
theorem next_of_fault (s : Source) (h : (ofSource s).fault = some e) :
    (s.drop (ofSource s).items.length).next.1 = some (.error e) ∧
      (s.drop ((ofSource s).items.length + 1)).pos = (ofSource s).finish := by
  induction s using Source.next_induct with
  | stop s behind hn =>
    rw [ofSource_eq, hn] at h
    contradiction
  | fault s e' behind hn =>
    rw [ofSource_eq, hn] at h ⊢
    cases h
    exact ⟨congrArg Prod.fst hn, congrArg (fun x => x.2.pos) hn⟩
  | token s u behind hn ih =>
    rw [ofSource_eq, hn] at h ⊢
    rw [List.length_cons, Source.drop_succ, Source.drop_succ s (_ + 1), hn]
    exact ih h

/-- Without a fault the call behind the last token finds the end. -/
theorem next_of_fault_eq_none (s : Source) (h : (ofSource s).fault = none) :
    (s.drop (ofSource s).items.length).next.1 = none := by
  induction s using Source.next_induct with
  | stop s behind hn =>
    rw [ofSource_eq, hn]
    exact congrArg Prod.fst hn
  | fault s e behind hn =>
    rw [ofSource_eq, hn] at h
    contradiction
  | token s u behind hn ih =>
    rw [ofSource_eq, hn] at h ⊢
    rw [List.length_cons, Source.drop_succ, hn]
    exact ih h

/-- Without a fault the tokens are those of the whole text. -/
theorem finish_of_fault_eq_none (s : Source) (h : (ofSource s).fault = none) :
    (ofSource s).finish = s.pos.after s.rest := by
  induction s using Source.next_induct with
  | stop s behind hn =>
    rw [ofSource_eq, hn, ← Source.after_of_next hn, Source.rest_of_next_none hn]
    rfl
  | fault s e behind hn =>
    rw [ofSource_eq, hn] at h
    contradiction
  | token s u behind hn ih =>
    rw [ofSource_eq, hn] at h ⊢
    rw [← Source.after_of_next hn]
    exact ih h

theorem length_items_le (s : Source) : (ofSource s).items.length ≤ s.rest.length := by
  induction s using Source.next_induct with
  | stop s behind hn => rw [ofSource_eq, hn]; exact Nat.zero_le _
  | fault s e behind hn => rw [ofSource_eq, hn]; exact Nat.zero_le _
  | token s u behind hn ih =>
    rw [ofSource_eq, hn]
    exact Nat.succ_le_of_lt (Nat.lt_of_le_of_lt ih (Source.length_next_lt hn))

end Tokens

/-! ## Calls of the reader -/

variable {ts us : Tokens} {value : Except ReadError Value}

/-- A call takes at least one token and leaves what stands behind it as it is; a fault that was
behind the last token taken is gone. -/
theorem Reads.taken (h : Reads ts value us) :
    ∃ used, used ≠ [] ∧ ts.items = used ++ us.items ∧ us.finish = ts.finish ∧
      (us.items = [] ∨ us.fault = ts.fault) := by
  cases h with
  | form h =>
    have hne : _ ≠ [] := fun hnil => h.ne_nil (List.map_eq_nil_iff.mpr hnil)
    exact ⟨_, hne, rfl, rfl, .inr rfl⟩
  | refused => exact ⟨_, by simp, rfl, rfl, .inr rfl⟩
  | missing | lexical => exact ⟨_, by simp, (List.append_nil _).symm, rfl, .inl rfl⟩
  | endOfText h =>
    have hne : _ ≠ [] := fun hnil => h.ne_nil (List.map_eq_nil_iff.mpr hnil)
    exact ⟨_, hne, (List.append_nil _).symm, rfl, .inl rfl⟩

namespace Form

/-- What is read first are the tokens of the text. -/
theorem ofString_of_start {text : String} (h : start text = .ok ts) :
    ts = Tokens.ofString text := by
  unfold start at h
  split at h
  · contradiction
  · exact (Except.ok.inj h).symm

theorem next_eq_none_iff : next ts = none ↔ ts.items = [] := by
  constructor
  · exact next_eq_none
  · intro h
    rw [next, h]

/-- The tokens that are left when the reader has been called so many times. -/
def drop (ts : Tokens) : Nat → Tokens
  | 0 => ts
  | calls + 1 =>
    match next (drop ts calls) with
    | none => drop ts calls
    | some (_, rest) => rest

theorem drop_of_next_none (h : next ts = none) (calls : Nat) : drop ts calls = ts := by
  induction calls with
  | zero => rfl
  | succ calls ih => rw [drop, ih, h]

theorem drop_of_next_some (h : next ts = some (value, us)) (calls : Nat) :
    drop ts (calls + 1) = drop us calls := by
  induction calls with
  | zero => simp only [drop, h]
  | succ calls ih => rw [drop, ih, drop]

/-- Many calls take tokens from the front, and leave those behind them as they are. -/
theorem drop_taken (ts : Tokens) (calls : Nat) :
    ∃ used, ts.items = used ++ (drop ts calls).items ∧ (drop ts calls).finish = ts.finish ∧
      ((drop ts calls).items = [] ∨ (drop ts calls).fault = ts.fault) := by
  induction calls with
  | zero => exact ⟨[], rfl, rfl, .inr rfl⟩
  | succ calls ih =>
    obtain ⟨used, hitems, hfinish, hfault⟩ := ih
    cases h : next (drop ts calls) with
    | none =>
      rw [drop, h]
      exact ⟨used, hitems, hfinish, hfault⟩
    | some found =>
      obtain ⟨value, us⟩ := found
      obtain ⟨more, hne, hmore, hend, hus⟩ := (reads_of_next h).taken
      rw [drop, h]
      refine ⟨used ++ more, by rw [hitems, hmore, List.append_assoc], hend.trans hfinish, ?_⟩
      have hsome : (drop ts calls).items ≠ [] := by simp [hmore, hne]
      exact hus.imp_right fun hus => hus.trans (hfault.resolve_left hsome)

/-- Reading all of a text lists the calls up to its end. -/
theorem getElem?_all (ts : Tokens) (calls : Nat) :
    (all ts)[calls]? = (next (drop ts calls)).map Prod.fst := by
  induction ts using all.induct generalizing calls with
  | case1 ts h => rw [all_eq, h, drop_of_next_none h, h]; rfl
  | case2 ts found rest h hl ih =>
    rw [all_eq, h]
    cases calls with
    | zero => rw [drop, h]; rfl
    | succ calls =>
      rw [drop_of_next_some h]
      exact ih calls

theorem length_all_le (ts : Tokens) : (all ts).length ≤ ts.items.length := by
  induction ts using all.induct with
  | case1 ts h => rw [all_eq, h]; exact Nat.zero_le _
  | case2 ts found rest h hl ih =>
    rw [all_eq, h]
    exact Nat.succ_le_of_lt (Nat.lt_of_le_of_lt ih hl)

/-- The end is found when the calls that read all have been made, and from then on. -/
theorem next_drop_eq_none_iff (ts : Tokens) (calls : Nat) :
    next (drop ts calls) = none ↔ (all ts).length ≤ calls := by
  rw [← List.getElem?_eq_none_iff, getElem?_all, Option.map_eq_none_iff]

end Form

end

end Lisplet

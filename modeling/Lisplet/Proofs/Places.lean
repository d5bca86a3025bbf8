import Lisplet.Proofs.Calls

/-! Places are exact. A lexer counts lines and columns as it goes and a reader keeps the place
behind its last token, always one token ahead of it. The place of a prefix can be told without
counting along: its line is told by the line feeds in it, and its column by what follows the last
of them. Every place that is reported is that of a prefix, and which prefix it is, is told by the
grammars. -/

namespace Lisplet

open Text (Position)

/-- The place behind a prefix of a text. -/
def Text.Position.behind (cs : List Char) : Position :=
  ⟨1 + cs.count '\n', 1 + (cs.reverse.takeWhile (· ≠ '\n')).length⟩

/-- What the lexer has taken off a text when it has been called so many times. -/
def Source.consumed (text : String) (calls : Nat) : List Char :=
  text.toList.take (text.toList.length - ((ofString text).drop calls).rest.length)

open Source (consumed)

/-- Where a reader that has taken so many tokens of a text meets a fault, by the tokens that it has
taken for the form that begins there. A fault of its own is at the place behind the last token, or
at the end of the text if nothing stands behind a mark; a lexical one is where it is found. -/
inductive Met (text : String) : Nat → List Token → ReadError → Prop where
  /-- With a closing bracket, which is the last token. -/
  | refused (h : Refused us b e)
    (hlast : ((Source.ofString text).drop n).next.1 = some (.ok (.closing b))) :
    Met text (n + 1) (us ++ [.closing b]) ⟨e, .behind (consumed text (n + 1))⟩
  /-- Without a closing bracket, behind the last token `t`. -/
  | missing (h : Expects us b)
    (hlast : ((Source.ofString text).drop n).next.1 = some (.ok t))
    (hend : ((Source.ofString text).drop (n + 1)).next.1 = none) :
    Met text (n + 1) us ⟨.missing b, .behind (consumed text (n + 1))⟩
  | endOfText (h : Dangling us) (hend : ((Source.ofString text).drop n).next.1 = none) :
    Met text n us ⟨.endOfText, .behind text.toList⟩
  | lexical (hu : Unfinished us)
    (hnext : ((Source.ofString text).drop n).next.1 = some (.error e)) :
    Met text n (us ++ [t]) ⟨.lexical e, .behind (consumed text (n + 1))⟩

section

variable {text : String} {ts us rest : Tokens} {err : ReadError} {before : List (Token × Position)}

/-! ## The place of a prefix -/

namespace Text.Position

theorem behind_concat (cs : List Char) (c : Char) : behind (cs ++ [c]) = (behind cs).advance c := by
  by_cases hc : c = '\n'
  · simp [behind, advance, hc, Nat.add_assoc]
  · simp [behind, advance, hc, Nat.add_comm]

/-- Counting along comes to the place of the prefix. -/
theorem after_behind (cs ds : List Char) : (behind cs).after ds = behind (cs ++ ds) := by
  induction ds generalizing cs with
  | nil => rw [List.append_nil]; rfl
  | cons c ds ih =>
    calc (behind cs).after (c :: ds) = (behind (cs ++ [c])).after ds := by
          rw [behind_concat]
          rfl
      _ = behind (cs ++ [c] ++ ds) := ih _
      _ = behind (cs ++ c :: ds) := by rw [List.append_assoc, List.singleton_append]

theorem after_start (cs : List Char) : start.after cs = behind cs := after_behind [] cs

/-- A line feed counts for the line that it ends. -/
example : behind ['a', '\n', 'b', 'c'] = ⟨2, 3⟩ := by decide

end Text.Position

/-! ## Calls of the lexer -/

namespace Source

theorem consumed_of_eq {calls : Nat} {used : List Char}
    (h : text.toList = used ++ ((ofString text).drop calls).rest) : consumed text calls = used := by
  have hlength : text.toList.length - ((ofString text).drop calls).rest.length = used.length := by
    have hl := congrArg List.length h
    rw [List.length_append] at hl
    omega
  rw [consumed, hlength, h, List.take_left]

/-- A lexer stands behind what it has consumed. -/
theorem drop_ofString (text : String) (calls : Nat) :
    text.toList = consumed text calls ++ ((ofString text).drop calls).rest ∧
      ((ofString text).drop calls).pos = .behind (consumed text calls) := by
  obtain ⟨used, hrest, hpos⟩ := (ofString text).drop_taken calls
  rw [consumed_of_eq hrest]
  exact ⟨hrest, hpos.trans (Position.after_start used)⟩

/-- One more call consumes what it takes. -/
theorem consumed_succ (text : String) (calls : Nat) :
    ∃ used, consumed text (calls + 1) = consumed text calls ++ used ∧
      Cut used ((ofString text).drop (calls + 1)).rest ((ofString text).drop calls).next.1 := by
  obtain ⟨used, hrest, -, hcut⟩ := ((ofString text).drop calls).cut_next
  refine ⟨used, consumed_of_eq ?_, hcut⟩
  rw [List.append_assoc, ← show _ = used ++ ((ofString text).drop (calls + 1)).rest from hrest]
  exact (drop_ofString text calls).1

end Source

/-! ## Calls of the reader -/

namespace Tokens

/-- A token has its place behind what the lexer has consumed with it. -/
theorem place_of_items {t : Token} {p : Position} {n : Nat}
    (h : (ofString text).items[n]? = some (t, p)) :
    ((Source.ofString text).drop n).next.1 = some (.ok t) ∧
      p = .behind (consumed text (n + 1)) := by
  obtain ⟨hfound, hp⟩ := next_of_items _ h
  exact ⟨hfound, hp.symm.trans (Source.drop_ofString text (n + 1)).2⟩

/-- Behind the last token of a text without a fault there is its end. -/
theorem place_of_end (h : (ofString text).fault = none) :
    ((Source.ofString text).drop (ofString text).items.length).next.1 = none ∧
      (ofString text).finish = .behind text.toList :=
  ⟨next_of_fault_eq_none _ h, (finish_of_fault_eq_none _ h).trans (Position.after_start _)⟩

/-- Behind the last token of a text with a fault there is the fault. -/
theorem place_of_fault {e : LexFault} (h : (ofString text).fault = some e) :
    ((Source.ofString text).drop (ofString text).items.length).next.1 = some (.error e) ∧
      (ofString text).finish = .behind (consumed text ((ofString text).items.length + 1)) := by
  obtain ⟨hfound, hp⟩ := next_of_fault _ h
  exact ⟨hfound, hp.symm.trans (Source.drop_ofString text _).2⟩

end Tokens

/-- The faults of a call of the reader that begins behind the tokens `before`. -/
theorem Reads.met (h : Reads us (.error err) rest)
    (hitems : (Tokens.ofString text).items = before ++ us.items)
    (hfinish : us.finish = (Tokens.ofString text).finish)
    (hfault : us.fault = (Tokens.ofString text).fault) :
    ∃ used, us.items = used ++ rest.items ∧
      Met text ((Tokens.ofString text).items.length - rest.items.length) (used.map Prod.fst)
        err := by
  cases h with
  | @refused p used rest b e hu h hm =>
    have hlength : (Tokens.ofString text).items.length - rest.items.length =
        before.length + used.length + 1 := by
      simp [hitems, Tokens.behind]
      omega
    have hlast : (Tokens.ofString text).items[before.length + used.length]? =
        some (Token.closing b, p) := by
      simp [hitems, Tokens.behind]
    obtain ⟨hfound, rfl⟩ := Tokens.place_of_items hlast
    refine ⟨_, rfl, ?_⟩
    rw [hlength, List.map_append]
    exact .refused h hfound
  | @missing used t p b stop h =>
    have hlength : (Tokens.ofString text).items.length = before.length + used.length + 1 := by
      simp [hitems]
      omega
    have hlast : (Tokens.ofString text).items[before.length + used.length]? = some (t, p) := by
      simp [hitems]
    obtain ⟨hfound, rfl⟩ := Tokens.place_of_items hlast
    have hend := (Tokens.place_of_end hfault.symm).1
    rw [hlength] at hend
    refine ⟨_, (List.append_nil _).symm, ?_⟩
    rw [hlength]
    exact .missing h hfound hend
  | @endOfText used stop h =>
    obtain ⟨hend, hplace⟩ := Tokens.place_of_end hfault.symm
    obtain rfl : stop = _ := hfinish.trans hplace
    exact ⟨_, (List.append_nil _).symm, .endOfText h hend⟩
  | @lexical used t p e stop hu =>
    obtain ⟨hnext, hplace⟩ := Tokens.place_of_fault hfault.symm
    obtain rfl : stop = _ := hfinish.trans hplace
    refine ⟨_, (List.append_nil _).symm, ?_⟩
    rw [List.map_append]
    exact .lexical hu hnext

/-- **Places are exact.** A lexer that has been called so many times, with or without faults in
between, stands behind a prefix of the text and reports the place of that prefix; one more call
goes on to the end of the trivia and of the lexeme behind it, or of what is broken there. A scan
reports each token and each fault at the place where its call ends. If a text begins with a lexical
fault, that is reported at the place where the first call ends. A reader that has been called so
many times, with or without faults in between, reports its own faults at the place behind the last
token that it has taken, or at the end of the text if nothing stands behind a mark there. -/
theorem places_exact (text : String) :
    (∀ k, text.toList = consumed text k ++ ((Source.ofString text).drop k).rest ∧
      ((Source.ofString text).drop k).pos = .behind (consumed text k) ∧
      ∃ used, consumed text (k + 1) = consumed text k ++ used ∧
        Cut used ((Source.ofString text).drop (k + 1)).rest
          ((Source.ofString text).drop k).next.1) ∧
    (∀ k, (Source.ofString text).scan.1[k]? = ((Source.ofString text).drop k).next.1.map
      fun found => ⟨found, .behind (consumed text (k + 1))⟩) ∧
    (∀ err, Form.start text = .error err → ∃ e, (Source.ofString text).next.1 = some (.error e) ∧
      err = ⟨.lexical e, .behind (consumed text 1)⟩) ∧
    (∀ ts, Form.start text = .ok ts → ∀ k err rest,
      Form.next (Form.drop ts k) = some (.error err, rest) →
      ∃ used, (Form.drop ts k).items = used ++ rest.items ∧
        Met text (ts.items.length - rest.items.length) (used.map Prod.fst) err) := by
  refine ⟨fun k => ?_, fun k => ?_, fun err h => ?_, fun ts h k err rest hn => ?_⟩
  · obtain ⟨hrest, hpos⟩ := Source.drop_ofString text k
    exact ⟨hrest, hpos, Source.consumed_succ text k⟩
  · rw [Source.getElem?_scan]
    exact congrArg (fun p => Option.map (fun found => Scanned.mk found p) _)
      (Source.drop_ofString text (k + 1)).2
  · unfold Form.start at h
    split at h
    · next e stop hts =>
      cases h
      have hfault : (Tokens.ofString text).fault = some e := by rw [hts]
      obtain ⟨hfound, hplace⟩ := Tokens.place_of_fault hfault
      rw [hts] at hfound hplace
      exact ⟨e, hfound, congrArg (ReadError.mk _) hplace⟩
    · contradiction
  · obtain rfl := Form.ofString_of_start h
    obtain ⟨before, hitems, hfinish, hfault⟩ := Form.drop_taken (Tokens.ofString text) k
    have hne : (Form.drop (Tokens.ofString text) k).items ≠ [] := by
      intro hnil
      rw [Form.next_eq_none_iff.mpr hnil] at hn
      contradiction
    exact (Form.reads_of_next hn).met hitems hfinish (hfault.resolve_left hne)

end

end Lisplet

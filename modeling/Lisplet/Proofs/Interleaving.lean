import Lisplet.Engine
import Lisplet.Proofs.Concatenation
import Lisplet.Proofs.RunLaws

/-! Reading and evaluating, interleaved. An engine evaluates the forms of a text one by one as
they are read, up to the first fault, so the forms in front of a fault have taken effect. The
reader looks one token ahead, though: where the text behind a form begins with a lexical fault,
the last form in front of it is not read any more, and so it is not evaluated. -/

namespace Lisplet

open Text (Position)

/-! ## Texts behind a text -/

/-- The error of a text that begins at `origin`. -/
def ReadError.moved (origin : Position) (e : ReadError) : ReadError :=
  ⟨e.fault, origin.beyond e.pos⟩

namespace Form

variable {e : ReadError} {fs : List Value} {s t : String}

theorem sequence_of_readFirst_error (h : readFirst s = .error e) :
    ∃ more, sequence s = .error e :: more := by
  rw [readFirst_eq] at h
  split at h
  · contradiction
  · next more hs =>
    cases h
    exact ⟨more, hs⟩
  · contradiction

/-- **The forms in front of a fault are read**, all of them but the last one if what stands behind
is no token at all. Then comes the fault, at the place where it is in the whole text. -/
theorem sequence_append (hb : EndsInBlank s) (hc : ¬ Source.EndsInComment s.toList)
    (hs : readAll s = .ok fs) (ht : readFirst t = .error e) :
    ∃ more, sequence (s ++ t) = (if (start t).isOk then fs else fs.dropLast).map .ok ++
      .error (e.moved (Position.start.after s.toList)) :: more := by
  obtain ⟨hf, -⟩ := readAll_eq_ok_iff.mp hs
  obtain ⟨more, hmore⟩ := sequence_of_readFirst_error ht
  rw [sequence_behind hs (Tokens.ofString_append hb hc hf), hmore]
  exact ⟨_, rfl⟩

end Form

/-! ## Evaluating up to a fault -/

theorem evalForms_append (fuel : Nat) (frame : FrameId) (last : Value) (fs : List Value)
    (e : ReadError) (more : List (Except ReadError Value)) :
    evalForms fuel frame last (fs.map .ok ++ .error e :: more) = (do
      SpecialForm.evalEach (eval fuel) frame fs
      Run.fail (.read e)) := by
  induction fs generalizing last with
  | nil => rfl
  | cons form fs ih =>
    rw [List.map_cons, List.cons_append, evalForms, SpecialForm.evalEach, bind_assoc]
    congr 1
    funext v
    exact ih v

/-- **Forms in front of a fault have taken effect.** Let a text that can be read stand in front of
one whose first form cannot, white space that belongs to no comment between them. An engine
evaluates the forms of the first text in order, each up to its end or to the first error, and then
fails with the fault of the other one. But if that begins with a fault of a token, the last form
of the first text is not evaluated. -/
theorem Engine.eval_before_fault (fuel : Nat) (engine : Engine) {s t : String} {fs : List Value}
    {e : ReadError} (hb : EndsInBlank s) (hc : ¬ Source.EndsInComment s.toList)
    (hs : Form.readAll s = .ok fs) (ht : Form.readFirst t = .error e) :
    engine.eval fuel (s ++ t) = Run.withLimit engine.maxDepth (do
      SpecialForm.evalEach (Lisplet.eval fuel) engine.root
        (if (Form.start t).isOk then fs else fs.dropLast)
      Run.fail (.read (e.moved (Position.start.after s.toList)))) := by
  obtain ⟨more, hseq⟩ := Form.sequence_append hb hc hs ht
  rw [Engine.eval, hseq, evalForms_append]

/-- A form that fails: a quote of nothing. -/
def Form.bareQuote : Value := .seq .list (.node .nil (.symbol "quote") .nil)

theorem Form.readAll_bareQuote : readAll "(quote) " = .ok [bareQuote] := by
  have hend : Lexed [' '] [] := Lexed.nil.separator (.inl (by decide))
  have hclose : Lexed [')', ' '] [.closing .round] := hend.closing .round
  have hword : Lexed ("quote".toList ++ [')', ' ']) [.symbol "quote", .closing .round] :=
    hclose.word (Lexed.delimited_closer .round) nofun (List.all_eq_true.mp rfl) nofun rfl
  have hlexed : Lexed "(quote) ".toList [.opening .round, .symbol "quote", .closing .round] :=
    hword.opening .round
  have hlayout : Value.list [.symbol "quote"] = bareQuote := by
    rw [Value.list, Rope.ofList_singleton, bareQuote]
  have hparses : Parses [.opening .round, .symbol "quote", .closing .round] bareQuote :=
    .bracket (Parses.literal rfl).single (congrArg Except.ok hlayout)
  exact (readAll_eq_ok_iff_of_lexed hlexed).mpr ⟨by decide, hparses.single⟩

theorem endsInBlank_bareQuote : EndsInBlank "(quote) " :=
  ⟨"(quote)".toList, ' ', by decide, by decide⟩

/-- In `(quote) )` the form that fails stands in front of a bracket that closes nothing. -/
theorem Engine.eval_before_fault_of_bracket :
    let engine : Engine := ⟨0, 5⟩
    let m := Machine.start default
    Form.readFirst ")" = .error ⟨.unexpected .round, ⟨1, 2⟩⟩ ∧
      engine.eval 3 ("(quote) " ++ ")") m = .error (.malformed .quote (.notOneArgument 0)) m := by
  intro engine m
  have hn : (Source.ofString ")").next = (some (.ok (.closing .round)), ⟨[], ⟨1, 2⟩⟩) := rfl
  have htokens : Tokens.ofString ")" = ⟨[(.closing .round, ⟨1, 2⟩)], none, ⟨1, 2⟩⟩ := by
    rw [Tokens.ofString, Tokens.ofSource_eq, hn]
    simp only [Tokens.ofSource_nil]
  have hstart : Form.start ")" = .ok ⟨[(.closing .round, ⟨1, 2⟩)], none, ⟨1, 2⟩⟩ := by
    rw [Form.start, htokens]
  have ht : Form.readFirst ")" = .error ⟨.unexpected .round, ⟨1, 2⟩⟩ := by
    rw [Form.readFirst, hn]
    simp only [Form.readFrom_eq [] _ _ .start, Tokens.ofSource_nil]
    rfl
  refine ⟨ht, ?_⟩
  rw [Engine.eval_before_fault 3 engine endsInBlank_bareQuote (by decide)
    Form.readAll_bareQuote ht, hstart]
  rfl

/-- In front of a string without an end the same form is not evaluated. -/
theorem Engine.eval_skips_before_open_string :
    let engine : Engine := ⟨0, 5⟩
    let m := Machine.start default
    Form.readAll "(quote) " = .ok [Form.bareQuote] ∧
      Form.readFirst "\"" = .error ⟨.lexical .unterminatedString, ⟨1, 2⟩⟩ ∧
      Lisplet.eval 3 Form.bareQuote engine.root m =
        .error (.malformed .quote (.notOneArgument 0)) m ∧
      engine.eval 3 ("(quote) " ++ "\"") m =
        .error (.read ⟨.lexical .unterminatedString, ⟨1, 10⟩⟩) m := by
  intro engine m
  have hn : (Source.ofString "\"").next =
      (some (.error .unterminatedString), ⟨[], ⟨1, 2⟩⟩) := rfl
  have htokens : Tokens.ofString "\"" = ⟨[], some .unterminatedString, ⟨1, 2⟩⟩ := by
    rw [Tokens.ofString, Tokens.ofSource_eq, hn]
  have hstart := Form.start_of_fault htokens
  have ht : Form.readFirst "\"" = .error ⟨.lexical .unterminatedString, ⟨1, 2⟩⟩ := by
    rw [Form.readFirst, hn]
  obtain ⟨more, hseq⟩ := Form.sequence_append endsInBlank_bareQuote (by decide)
    Form.readAll_bareQuote ht
  rw [hstart] at hseq
  refine ⟨Form.readAll_bareQuote, ht, rfl, ?_⟩
  rw [Engine.eval, hseq, evalForms_append]
  rfl

end Lisplet

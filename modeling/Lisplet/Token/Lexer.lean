import Lisplet.Token

/-! Cutting a text into tokens. Blanks, commas and comments stand between tokens;
a name, a number or a keyword goes on as long as name characters follow, so
`12abc` is one faulty number. Each step consumes at least one character, a faulty
one too, and so cutting can go on behind a fault and always ends. -/

namespace Lisplet

open Text (Position isBlank isNameChar)

/-- What may stand at the beginning of a token. -/
structure Begins (c : Char) : Prop where
  not_blank : isBlank c = false
  not_comma : c ≠ ','
  not_comment : c ≠ ';'

/-- What is left of a text, and the place where that begins. -/
structure Source where
  rest : List Char
  pos : Position
deriving DecidableEq, Inhabited

namespace Source

def ofString (s : String) : Source := ⟨s.toList, .start⟩

/-- Passes over blanks, commas and comments. A comment lasts to the end of its line. -/
def skipTrivia (inComment : Bool) : List Char → Position → Source
  | [], p => ⟨[], p⟩
  | c :: cs, p =>
    if c = '\n' then skipTrivia false cs (p.advance c)
    else if c = ';' then skipTrivia true cs (p.advance c)
    else if inComment || isBlank c || c = ',' then skipTrivia inComment cs (p.advance c)
    else ⟨c :: cs, p⟩

/-- The longest run of name characters, and what follows it. -/
def takeName (s : Source) : List Char × Source :=
  let name := s.rest.takeWhile isNameChar
  (name, ⟨s.rest.dropWhile isNameChar, s.pos.after name⟩)

/-- The characters that may follow a backslash in a string, with what they stand for. -/
def escape? : Char → Option Char
  | 'n' => some '\n'
  | 't' => some '\t'
  | '\\' => some '\\'
  | '\x22' => some '\x22'
  | _ => none

/-- The rest of a string literal, its quote and the characters `done` (last first) consumed. -/
def takeString (done : List Char) : List Char → Position → Except LexFault Token × Source
  | [], p => (.error .unterminatedString, ⟨[], p⟩)
  | '\x22' :: cs, p => (.ok (.str (String.ofList done.reverse)), ⟨cs, p.advance '\x22'⟩)
  | '\\' :: [], p => (.error .unterminatedString, ⟨[], p.advance '\\'⟩)
  | '\\' :: c :: cs, p =>
    match escape? c with
    | some d => takeString (d :: done) cs ((p.advance '\\').advance c)
    | none => (.error (.invalidEscape c), ⟨cs, (p.advance '\\').advance c⟩)
  | c :: cs, p => takeString (c :: done) cs (p.advance c)

end Source

namespace Token

/-- A run of name characters that begins like a number, after at most one sign. -/
def isNumeric : List Char → Bool
  | '-' :: c :: _ => c.isDigit
  | '+' :: c :: _ => c.isDigit
  | c :: _ => c.isDigit
  | [] => false

/-- A word without its sign, if it has one. -/
def unsigned : List Char → List Char
  | '-' :: cs => cs
  | '+' :: cs => cs
  | cs => cs

/-- The keyword whose name stands behind a colon. -/
def ofKeywordName : List Char → Except LexFault Token
  | [] => .error .namelessKeyword
  | name => .ok (.keyword (String.ofList name))

/-- The token that a whole run of name characters is. -/
def ofWord (word : List Char) : Except LexFault Token :=
  if isNumeric word then
    if (unsigned word).all Char.isDigit then
      match Word.ofDigits? word with
      | some n => .ok (.int n)
      | none => .error (.outOfRange (String.ofList word))
    else .error (.invalidNumber (String.ofList word))
  else
    match String.ofList word with
    | "nil" => .ok .nil
    | "true" => .ok (.bool true)
    | "false" => .ok (.bool false)
    | name => .ok (.symbol name)

end Token

namespace Source

/-- The token or fault that begins with the character `c`, which stands at `p` before `cs`. A
character with which nothing can begin is left where it is. -/
def lexeme (c : Char) (cs : List Char) (p : Position) : Except LexFault Token × Source :=
  let behind : Source := ⟨cs, p.advance c⟩
  match Token.ofChar? c with
  | some t => (.ok t, behind)
  | none =>
    if c = '~' then
      match cs with
      | '@' :: ds => (.ok (.sigil .spliceUnquote), ⟨ds, behind.pos.advance '@'⟩)
      | _ => (.ok (.sigil .unquote), behind)
    else if c = '\x22' then takeString [] cs behind.pos
    else if c = ':' then
      let run := behind.takeName
      (Token.ofKeywordName run.1, run.2)
    else if isNameChar c then
      let run := takeName ⟨c :: cs, p⟩
      (Token.ofWord run.1, run.2)
    else (.error (.unexpected c), ⟨c :: cs, p⟩)

/-- The next token or fault and what follows it; none at the end of the text. -/
def next (s : Source) : Option (Except LexFault Token) × Source :=
  match skipTrivia false s.rest s.pos with
  | ⟨[], p⟩ => (none, ⟨[], p⟩)
  | ⟨c :: cs, p⟩ =>
    let (found, behind) := lexeme c cs p
    (some found, behind)

theorem length_skipTrivia_le (inComment : Bool) (cs : List Char) (p : Position) :
    (skipTrivia inComment cs p).rest.length ≤ cs.length := by
  induction cs generalizing inComment p with
  | nil => simp [skipTrivia]
  | cons c cs ih =>
    simp only [skipTrivia]
    split
    · exact Nat.le_succ_of_le (ih ..)
    · split
      · exact Nat.le_succ_of_le (ih ..)
      · split
        · exact Nat.le_succ_of_le (ih ..)
        · simp

theorem length_takeName_le (s : Source) : s.takeName.2.rest.length ≤ s.rest.length := by
  have h := congrArg List.length (List.takeWhile_append_dropWhile (p := isNameChar) (l := s.rest))
  simp only [List.length_append] at h
  simp only [takeName]
  omega

theorem length_takeString_le (done cs : List Char) (p : Position) :
    (takeString done cs p).2.rest.length ≤ cs.length := by
  fun_induction takeString done cs p <;> simp_all <;> omega

/-- Trivia end in front of a character that a token or a fault begins with. -/
theorem begins_of_skipTrivia {inComment : Bool} {c : Char} {cs ds : List Char} {p q : Position}
    (h : skipTrivia inComment cs p = ⟨c :: ds, q⟩) : Begins c := by
  induction cs generalizing inComment p with
  | nil => simp [skipTrivia] at h
  | cons d cs ih =>
    simp only [skipTrivia] at h
    split at h
    · exact ih h
    · split at h
      · exact ih h
      · next hs =>
        split at h
        · exact ih h
        · next hb =>
          simp only [Source.mk.injEq, List.cons.injEq] at h
          rw [← h.1.1]
          simp only [Bool.or_eq_true, decide_eq_true_eq, not_or, Bool.not_eq_true] at hb
          exact ⟨hb.1.2, hb.2, hs⟩

/-- Whatever a token or a fault can begin with is a name character or has a meaning of its own. -/
theorem kind_of_begins {c : Char} (h : Begins c) :
    isNameChar c = true ∨ (Token.ofChar? c).isSome = true ∨ c = '~' ∨ c = '\x22' := by
  by_cases hr : c ∈ Text.reserved
  · have hall : (Text.reserved.all fun c => c == ',' || c == ';' ||
        (Token.ofChar? c).isSome || c == '~' || c == '\x22') = true := rfl
    have hc := List.all_eq_true.mp hall c hr
    simp only [Bool.or_eq_true, beq_iff_eq, h.not_comma, h.not_comment, false_or, or_assoc] at hc
    exact .inr hc
  · exact .inl (by simp [isNameChar, h.not_blank, hr])

/-- A lexeme takes at least the character it begins with. -/
theorem length_lexeme_le {c : Char} (hc : Begins c) (cs : List Char) (p : Position) :
    (lexeme c cs p).2.rest.length ≤ cs.length := by
  have hkind := kind_of_begins hc
  unfold lexeme
  split
  · exact Nat.le_refl _
  · next hnone =>
    split
    · split <;> simp
    · next htilde =>
      split
      · exact length_takeString_le ..
      · next hquote =>
        split
        · exact length_takeName_le ⟨cs, p.advance c⟩
        · split
          · next hn =>
            simp only [takeName, List.dropWhile_cons, hn, if_true]
            have h := length_takeName_le ⟨cs, p⟩
            simpa [takeName] using h
          · next hn => simp [hn, hnone, htilde, hquote] at hkind

theorem length_next_lt {s : Source} {found : Except LexFault Token} {behind : Source}
    (h : s.next = (some found, behind)) : behind.rest.length < s.rest.length := by
  have hs := length_skipTrivia_le false s.rest s.pos
  unfold next at h
  split at h
  · simp at h
  · next c cs p hc =>
    rw [hc] at hs
    have hl := length_lexeme_le (begins_of_skipTrivia hc) cs p
    simp only [Prod.mk.injEq] at h
    rw [← h.2]
    simp only [List.length_cons] at hs
    omega

end Source

/-- A token or a fault, with the place behind it. -/
structure Scanned where
  found : Except LexFault Token
  pos : Position
deriving Inhabited

namespace Source

/-- All tokens and faults to the end of the text, and the place of that end. -/
def scan (s : Source) : List Scanned × Position :=
  match h : s.next with
  | (none, behind) => ([], behind.pos)
  | (some found, behind) =>
    have : behind.rest.length < s.rest.length := length_next_lt h
    let (more, finish) := behind.scan
    (⟨found, behind.pos⟩ :: more, finish)
termination_by s.rest.length

end Source

/-- A text as a reader takes it in: its tokens, each with the place behind it, up to
the first fault or to the end, and the place where that is. -/
structure Tokens where
  items : List (Token × Position)
  fault : Option LexFault
  finish : Position
deriving Inhabited

namespace Tokens

/-- Breaks a scan off at its first fault. -/
def ofScan : List Scanned → Position → Tokens
  | [], finish => ⟨[], none, finish⟩
  | ⟨.error e, p⟩ :: _, _ => ⟨[], some e, p⟩
  | ⟨.ok t, p⟩ :: more, finish =>
    let ts := ofScan more finish
    { ts with items := (t, p) :: ts.items }

def ofSource (s : Source) : Tokens :=
  let scanned := s.scan
  ofScan scanned.1 scanned.2

def ofString (s : String) : Tokens := ofSource (Source.ofString s)

theorem ofSource_eq (s : Source) :
    ofSource s =
      match s.next with
      | (none, behind) => ⟨[], none, behind.pos⟩
      | (some (.error e), behind) => ⟨[], some e, behind.pos⟩
      | (some (.ok t), behind) =>
        { ofSource behind with items := (t, behind.pos) :: (ofSource behind).items } := by
  rw [ofSource, Source.scan]
  split
  · next h => rw [h]; rfl
  · next found behind h => cases found <;> simp only [h] <;> rfl

end Tokens

end Lisplet
